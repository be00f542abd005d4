import RubySig.Proofs.Tree.RootPlain
import RubySig.Proofs.Tree.Splice
import RubySig.Proofs.Tree.WellFormed

/-!
Rewritings of trees: one behind another, rewritings that agree on what passes a check, and what
printing and reading leave of a tree.
-/
namespace RubySig

def Rewriting.after (w v : Rewriting) : Rewriting :=
  ⟨w.type ∘ v.type, w.signature ∘ v.signature, w.block ∘ v.block⟩

/-- Two rewritings do the same to everything that passes a check. -/
structure Rewriting.AgreesOn (k : Check) (w v : Rewriting) : Prop where
  type : ∀ t : Ty, t.passes k = true → w.type t = v.type t
  signature : ∀ s : Signature, s.passes k = true → w.signature s = v.signature s
  block : ∀ b : Option Block, Ty.blockPasses k b = true → w.block b = v.block b

section After

variable (w v : Rewriting)

theorem TypeParam.rewrite_after (p : TypeParam) :
    p.rewrite (w.after v) = (p.rewrite v).rewrite w := by
  simp [TypeParam.rewrite, Rewriting.after]

theorem ClassRef.rewrite_after (r : ClassRef) :
    r.rewrite (w.after v) = (r.rewrite v).rewrite w := by
  simp [ClassRef.rewrite, Rewriting.after]

theorem MethodType.rewrite_after (m : MethodType) :
    m.rewrite (w.after v) = (m.rewrite v).rewrite w := by
  simp [MethodType.rewrite, Rewriting.after, TypeParam.rewrite, Function.comp_def]

theorem Overload.rewrite_after (o : Overload) :
    o.rewrite (w.after v) = (o.rewrite v).rewrite w := by
  simp only [Overload.rewrite, MethodType.rewrite_after]

theorem Member.rewrite_after (m : Member) : m.rewrite (w.after v) = (m.rewrite v).rewrite w := by
  cases m with
  | mixin kind name args => simp [Member.rewrite, Rewriting.after]
  | method name os level overloading visibility =>
    simp [Member.rewrite, Overload.rewrite_after]
  | _ => rfl

mutual

theorem Declaration.rewrite_after : (a : Declaration) →
    a.rewrite (w.after v) = (a.rewrite v).rewrite w
  | .class_ _ params superclass members => by
    have hparent : superclass.map (ClassRef.rewrite (w.after v)) =
        (superclass.map (ClassRef.rewrite v)).map (ClassRef.rewrite w) := by
      rw [Option.map_map]
      exact Option.map_congr fun r _ => ClassRef.rewrite_after w v r
    simp [Declaration.rewrite, Item.rewriteAll_after members, TypeParam.rewrite_after, hparent]
  | .module_ _ params selfTypes members => by
    simp [Declaration.rewrite, Item.rewriteAll_after members, TypeParam.rewrite_after,
      ClassRef.rewrite_after]
  | .interface _ params members => by
    simp [Declaration.rewrite, Item.rewriteAll_after members, TypeParam.rewrite_after]
  | .constant _ _ => rfl
  | .global _ _ => rfl
  | .typeAlias _ t params => by
    have htype : (w.after v).type t = w.type (v.type t) := rfl
    simp [Declaration.rewrite, TypeParam.rewrite_after, htype]
termination_by structural a => a

theorem Item.rewrite_after : (item : Item) → item.rewrite (w.after v) = (item.rewrite v).rewrite w
  | .member _ _ m => by simp only [Item.rewrite, Member.rewrite_after]
  | .declaration _ _ a => by simp only [Item.rewrite, Declaration.rewrite_after a]
termination_by structural item => item

theorem Item.rewriteAll_after : (items : List Item) →
    Item.rewriteAll (w.after v) items = Item.rewriteAll w (Item.rewriteAll v items)
  | [] => rfl
  | item :: items => by
      simp only [Item.rewriteAll, Item.rewrite_after item, Item.rewriteAll_after items]
termination_by structural items => items

end

end After

section Bare

variable (w : Rewriting)

theorem TypeParam.rewrite_bare (p : TypeParam) : p.bare.rewrite w = (p.rewrite w).bare := rfl

theorem ClassRef.rewrite_bare (r : ClassRef) : r.bare.rewrite w = (r.rewrite w).bare := rfl

theorem MethodType.rewrite_bare (m : MethodType) : m.bare.rewrite w = (m.rewrite w).bare := by
  simp [MethodType.rewrite, MethodType.bare, TypeParam.rewrite, TypeParam.bare, Function.comp_def]

theorem Overload.rewrite_bare (o : Overload) : o.bare.rewrite w = (o.rewrite w).bare := by
  simp only [Overload.rewrite, Overload.bare, MethodType.rewrite_bare]

theorem Member.rewrite_bare (m : Member) : m.bare.rewrite w = (m.rewrite w).bare := by
  cases m with
  | method name os level overloading visibility =>
    simp [Member.rewrite, Member.bare, Overload.rewrite_bare]
  | _ => rfl

mutual

theorem Declaration.rewrite_bare : (a : Declaration) → a.bare.rewrite w = (a.rewrite w).bare
  | .class_ _ params superclass members => by
    simp [Declaration.rewrite, Declaration.bare, Item.rewriteAll_bare members,
      TypeParam.rewrite_bare,
      ClassRef.rewrite_bare, Function.comp_def]
  | .module_ _ params selfTypes members => by
    simp [Declaration.rewrite, Declaration.bare, Item.rewriteAll_bare members,
      TypeParam.rewrite_bare,
      ClassRef.rewrite_bare]
  | .interface _ params members => by
    simp [Declaration.rewrite, Declaration.bare, Item.rewriteAll_bare members,
      TypeParam.rewrite_bare]
  | .constant _ _ => rfl
  | .global _ _ => rfl
  | .typeAlias _ _ params => by simp [Declaration.rewrite, Declaration.bare, TypeParam.rewrite_bare]
termination_by structural a => a

theorem Item.rewrite_bare : (item : Item) → item.bare.rewrite w = (item.rewrite w).bare
  | .member _ _ m => by simp only [Item.rewrite, Item.bare, Member.rewrite_bare]
  | .declaration _ _ a => by simp only [Item.rewrite, Item.bare, Declaration.rewrite_bare a]
termination_by structural item => item

theorem Item.rewriteAll_bare : (items : List Item) →
    Item.rewriteAll w (Item.bareAll items) = Item.bareAll (Item.rewriteAll w items)
  | [] => rfl
  | item :: items => by
    simp only [Item.rewriteAll, Item.bareAll, Item.rewrite_bare item, Item.rewriteAll_bare items]
termination_by structural items => items

end

end Bare

section Agreement

variable {k : Check} {w v : Rewriting} (h : w.AgreesOn k v)

include h

theorem Rewriting.AgreesOn.types {ts : List Ty} (hts : Ty.allPass k ts = true) :
    ts.map w.type = ts.map v.type :=
  List.map_congr_left fun t ht => h.type t (Ty.allPass_iff.mp hts t ht)

theorem Rewriting.AgreesOn.params {ps : List TypeParam} (hps : ∀ p ∈ ps, p.passes k = true) :
    ps.map (TypeParam.rewrite w) = ps.map (TypeParam.rewrite v) :=
  List.map_congr_left fun p hp => by
    rw [TypeParam.rewrite, TypeParam.rewrite,
      Option.map_congr fun t ht => h.type t ((Option.all_eq_true _ _).mp (hps p hp) t ht)]

theorem Rewriting.AgreesOn.classRef {r : ClassRef} (hr : r.passes k = true) :
    r.rewrite w = r.rewrite v := by
  rw [ClassRef.rewrite, ClassRef.rewrite, h.types hr]

theorem Rewriting.AgreesOn.methodType {m : MethodType} (hm : m.passes k = true) :
    m.rewrite w = m.rewrite v := by
  simp only [MethodType.passes, Bool.and_eq_true, List.all_eq_true] at hm
  rw [MethodType.rewrite, MethodType.rewrite, h.params hm.1.1, h.signature _ hm.1.2, h.block _ hm.2]

theorem Rewriting.AgreesOn.member {m : Member} (hm : m.passes k = true) :
    m.rewrite w = m.rewrite v := by
  cases m with
  | «alias» newName oldName level => rfl
  | «attribute» access name t backing level visibility =>
    rw [Member.rewrite, Member.rewrite, h.type t (Bool.and_eq_true_iff.mp hm).1]
  | «variable» kind name t => rw [Member.rewrite, Member.rewrite, h.type t hm]
  | mixin kind name args => rw [Member.rewrite, Member.rewrite, h.types hm]
  | visibility v => rfl
  | method name os level overloading visibility =>
    have hos := List.all_eq_true.mp (Bool.and_eq_true_iff.mp hm).2
    have hentries : os.map (Overload.rewrite w) = os.map (Overload.rewrite v) :=
      List.map_congr_left fun o ho => by
        rw [Overload.rewrite, Overload.rewrite, h.methodType (hos o ho)]
    rw [Member.rewrite, Member.rewrite, hentries]

end Agreement

mutual

theorem Rewriting.AgreesOn.declaration {k : Check} {w v : Rewriting} (h : w.AgreesOn k v) :
    (a : Declaration) → a.passes k = true → a.rewrite w = a.rewrite v
  | .class_ _ params superclass members, ha => by
    simp only [Declaration.passes, Bool.and_eq_true, List.all_eq_true, Option.all_eq_true] at ha
    rw [Declaration.rewrite, Declaration.rewrite, h.params ha.1.1,
      Option.map_congr fun r hr => h.classRef (ha.1.2 r hr), h.items members ha.2]
  | .module_ _ params selfTypes members, ha => by
    simp only [Declaration.passes, Bool.and_eq_true, List.all_eq_true] at ha
    rw [Declaration.rewrite, Declaration.rewrite, h.params ha.1.1,
      List.map_congr_left fun r hr => h.classRef (ha.1.2 r hr), h.items members ha.2]
  | .interface _ params members, ha => by
    simp only [Declaration.passes, Bool.and_eq_true, List.all_eq_true] at ha
    rw [Declaration.rewrite, Declaration.rewrite, h.params ha.1, h.items members ha.2]
  | .constant _ t, ha => by rw [Declaration.rewrite, Declaration.rewrite, h.type t ha]
  | .global _ t, ha => by rw [Declaration.rewrite, Declaration.rewrite, h.type t ha]
  | .typeAlias _ t params, ha => by
    simp only [Declaration.passes, Bool.and_eq_true, List.all_eq_true] at ha
    rw [Declaration.rewrite, Declaration.rewrite, h.type t ha.1, h.params ha.2]
termination_by structural a => a

theorem Rewriting.AgreesOn.item {k : Check} {w v : Rewriting} (h : w.AgreesOn k v) :
    (item : Item) → item.passes k = true → item.rewrite w = item.rewrite v
  | .member _ _ m, hm => by rw [Item.rewrite, Item.rewrite, h.member hm]
  | .declaration _ _ a, ha => by
    rw [Item.rewrite, Item.rewrite, h.declaration a ha]
termination_by structural item => item

theorem Rewriting.AgreesOn.items {k : Check} {w v : Rewriting} (h : w.AgreesOn k v) :
    (items : List Item) → Item.allPass k items = true →
    Item.rewriteAll w items = Item.rewriteAll v items
  | [], _ => rfl
  | item :: items, hitems => by
    obtain ⟨hitem, hrest⟩ := Bool.and_eq_true_iff.mp hitems
    rw [Item.rewriteAll, Item.rewriteAll, h.item item hitem,
      h.items items hrest]
termination_by structural items => items

end

/-- Where no symbol takes in a mark, printing and reading change no type but by its nested
unions. -/
theorem Rewriting.rereading_agrees (f : Showing) :
    Rewriting.AgreesOn .unmerged (((Rewriting.splicing).after (.erasing f)).after .rereading)
      ((Rewriting.splicing).after (.erasing f)) where
  type t ht := by
    change ((t.reread false).erase f).spliced = (t.erase f).spliced
    rw [Ty.spliced_erase, Ty.spliced_reread false t ht, Ty.spliced_erase]
  signature s hs := by
    change (s.reread.erase f).spliced = (s.erase f).spliced
    rw [Signature.spliced_erase, Signature.spliced_reread s hs, Signature.spliced_erase]
  block b hb := by
    change Ty.splicedBlock (Ty.eraseBlock f (Ty.rereadBlock b)) =
      Ty.splicedBlock (Ty.eraseBlock f b)
    rw [Ty.splicedBlock_erase, Ty.splicedBlock_reread b hb, Ty.splicedBlock_erase]

/-- Items that are read where others were printed are those up to places, comments and nested
unions. -/
theorem Item.plainAll_of_reread {f : Showing} {items as : List Item}
    (h : Item.bareAll (Item.rewriteAll (.erasing f) as) =
      Item.bareAll (Item.rewriteAll (.erasing f) (Item.rewriteAll .rereading items)))
    (hu : Item.allPass .unmerged items = true) :
    Item.rewriteAll .splicing (Item.bareAll (Item.rewriteAll (.erasing f) as)) =
      Item.rewriteAll .splicing (Item.bareAll (Item.rewriteAll (.erasing f) items)) := by
  rw [h, Item.rewriteAll_bare,
    Item.rewriteAll_bare, ← Item.rewriteAll_after, ← Item.rewriteAll_after,
    ← Item.rewriteAll_after, (Rewriting.rereading_agrees f).items items hu]

end RubySig
