import RubySig.Outline.OfTree
import RubySig.Proofs.Tree.WellFormed

/-!
What the fields of a node must hold for the node to be printed, dumped and counted, and that the
outlines of well-formed trees hold it everywhere.
-/
namespace RubySig

namespace Outline

def holds (fields : List (String × Outline)) (name : String) (p : Outline → Bool) : Bool :=
  (field? fields name).any p

def isWord : Outline → Bool
  | .choice _ => true
  | _ => false

def isText : Outline → Bool
  | .scalar (.str _) => true
  | _ => false

def isNotes : Outline → Bool
  | .notes _ => true
  | _ => false

/-- A list of at least so many nodes. -/
def hasItems (n : Nat) : Outline → Bool
  | .list items => n ≤ items.length
  | _ => false

def isTrue : Outline → Bool
  | .scalar (.bool b) => b
  | _ => false

/-- The level of an alias or attribute: there is none for both. -/
def isMemberLevel : Outline → Bool
  | .choice word => ["instance", "singleton"].contains word
  | _ => false

def isVisibility : Outline → Bool
  | .scalar .null => true
  | .choice word => ["public", "private"].contains word
  | _ => false

def keys : Outline → List String
  | .table entries => entries.map (·.1)
  | _ => []

/-- The kind of a literal agrees with its value. -/
def agrees : Outline → Outline → Bool
  | .choice word, .scalar (.int _) => word == "integer"
  | .choice word, .scalar (.str _) => word == "string" || word == "symbol"
  | .choice word, .scalar (.bool b) => word == if b then "true" else "false"
  | _, _ => false

def isLiteral : Outline → Bool
  | .node .literalType _ _ fields =>
    holds fields "kind" fun word => holds fields "value" fun value => agrees word value
  | _ => false

/-- A name, the segments in front of it, and whether it is absolute. -/
def isName : List (String × Outline) → Bool
  | [(_, name), (_, .list path), _] => name.isText && path.all isText
  | _ => false

end Outline

open Outline in
/-- What the fields of a node of a kind must hold. -/
def NodeKind.admits (kind : NodeKind) (fields : List (String × Outline)) : Bool :=
  match kind with
  | .unionType | .intersectionType => holds fields "types" (hasItems 2)
  | .method => (holds fields "overloads" (hasItems 1) || holds fields "overloading" isTrue) &&
      holds fields "kind" isWord && holds fields "visibility" isVisibility
  | .aliasMember => holds fields "kind" isMemberLevel
  | .attrReader | .attrWriter | .attrAccessor =>
    holds fields "kind" isMemberLevel && holds fields "visibility" isVisibility
  | .signature =>
    (!holds fields "trailing_positionals" (hasItems 1) || holds fields "rest_positionals" isNode) &&
      holds fields "required_keywords" fun required =>
        holds fields "optional_keywords" fun optional =>
          required.keys.all (!optional.keys.contains ·)
  | .recordField => holds fields "key" isLiteral
  | .literalType => isLiteral (.node .literalType none .none fields)
  | .typeName => isName fields
  | .baseType => holds fields "kind" isWord
  | .typeParam => holds fields "variance" isWord
  | .overload => holds fields "annotations" isNotes
  | kind => !kind.isAbstract

namespace Outline

mutual

/-- Whether all nodes at and below a value hold what their kinds ask for. -/
def isAdmitted : Outline → Bool
  | .node kind _ _ fields => kind.admits fields && fieldsAdmitted fields
  | .list items => itemsAdmitted items
  | .table entries => fieldsAdmitted entries
  | .scalar _ | .choice _ | .notes _ => true

def itemsAdmitted : List Outline → Bool
  | [] => true
  | o :: os => o.isAdmitted && itemsAdmitted os

def fieldsAdmitted : List (String × Outline) → Bool
  | [] => true
  | (_, o) :: fields => o.isAdmitted && fieldsAdmitted fields

end

theorem itemsAdmitted_iff {os : List Outline} :
    itemsAdmitted os = true ↔ ∀ o ∈ os, o.isAdmitted = true := by
  induction os with
  | nil => simp [itemsAdmitted]
  | cons o os ih => simp [itemsAdmitted, ih]

end Outline

open Outline

theorem TypeName.admitted (n : TypeName) : n.outline.isAdmitted = true := by
  have hpath : itemsAdmitted (n.path.map .str) = true := by
    refine itemsAdmitted_iff.mpr fun o ho => ?_
    obtain ⟨s, -, rfl⟩ := List.mem_map.mp ho
    rfl
  simp [TypeName.outline, isAdmitted, NodeKind.admits, isName, fieldsAdmitted, ofList, hpath,
    isText, Outline.str, Outline.bool]

theorem Literal.admitted (l : Option Span) (value : Literal) :
    (value.outline l).isAdmitted = true := by
  cases value with
  | truth b => cases b <;> rfl
  | _ => rfl

theorem Literal.isLiteral (l : Option Span) (value : Literal) :
    (value.outline l).isLiteral = true := by
  cases value with
  | truth b => cases b <;> rfl
  | _ => rfl

theorem length_tyOutlines (ts : List Ty) : (tyOutlines ts).length = ts.length := by
  induction ts with
  | nil => rfl
  | cons t ts ih => rw [tyOutlines, List.length_cons, ih, List.length_cons]

theorem keys_keywordOutlines (ps : List (String × Param)) :
    (keywordOutlines ps).map (·.1) = ps.map (·.1) := by
  induction ps with
  | nil => rfl
  | cons p ps ih => rw [keywordOutlines, List.map_cons, ih, List.map_cons]

theorem union_admits {kind : NodeKind} (h : kind = .unionType ∨ kind = .intersectionType)
    {ts : List Ty} (hts : 2 ≤ ts.length) :
    kind.admits [("types", .list (tyOutlines ts))] = true := by
  have hlength : hasItems 2 (.list (tyOutlines ts)) = true := by
    simpa [hasItems, length_tyOutlines] using hts
  rcases h with rfl | rfl <;> exact hlength

theorem signature_admits {s : Signature} (h : s.isOrdered = true) {fields : List (String × Outline)}
    (hf : fields = [("return_type", s.result.outline),
      ("required_positionals", .list (paramOutlines s.required)),
      ("optional_positionals", .list (paramOutlines s.optional)),
      ("rest_positionals", paramOutline? s.rest),
      ("trailing_positionals", .list (paramOutlines s.trailing)),
      ("required_keywords", .table (keywordOutlines s.requiredKeywords)),
      ("optional_keywords", .table (keywordOutlines s.optionalKeywords)),
      ("rest_keywords", paramOutline? s.restKeywords)]) :
        NodeKind.signature.admits fields = true := by
  subst hf
  obtain ⟨hrest, hnames⟩ := Bool.and_eq_true_iff.mp h
  have hkeys : (s.requiredKeywords.map (·.1)).all
      (!(s.optionalKeywords.map (·.1)).contains ·) = true := by
    have hnodup := of_decide_eq_true hnames
    rw [List.map_append, List.nodup_append] at hnodup
    simp only [List.all_eq_true, Bool.not_eq_true', List.contains_eq_mem, decide_eq_false_iff_not]
    exact fun name hname hmem => hnodup.2.2 name hname name hmem rfl
  have htrailing : (!hasItems 1 (.list (paramOutlines s.trailing)) ||
      (paramOutline? s.rest).isNode) = true := by
    cases hr : s.rest with
    | none =>
      have : s.trailing = [] := by simpa [hr] using hrest
      simp [this, paramOutlines, hasItems]
    | some p =>
      cases p
      exact Bool.or_true _
  refine Bool.and_eq_true_iff.mpr ⟨htrailing, ?_⟩
  change ((keywordOutlines s.requiredKeywords).map (·.1)).all
    (!((keywordOutlines s.optionalKeywords).map (·.1)).contains ·) = true
  rw [keys_keywordOutlines, keys_keywordOutlines]
  exact hkeys

/-- A node whose fields are admitted, and are what its kind asks for. -/
theorem node_admitted {kind : NodeKind} {l : Option Span} {lead : Lead}
    {fields : List (String × Outline)} (h : kind.admits fields = true)
    (hf : ∀ field ∈ fields, field.2.isAdmitted = true) :
    (Outline.node kind l lead fields).isAdmitted = true := by
  refine Bool.and_eq_true_iff.mpr ⟨h, ?_⟩
  clear h
  induction fields with
  | nil => rfl
  | cons field fields ih =>
    obtain ⟨hfirst, hrest⟩ := List.forall_mem_cons.mp hf
    exact Bool.and_eq_true_iff.mpr ⟨hfirst, ih hrest⟩

theorem forall_mem_two {α : Type} {p : α → Prop} {a b : α} (ha : p a) (hb : p b) :
    ∀ x ∈ [a, b], p x :=
  List.forall_mem_cons.mpr ⟨ha, List.forall_mem_singleton.mpr hb⟩

mutual

/-- The outline of a well-formed type is admitted. -/
theorem Ty.admitted : (t : Ty) → t.passes .wellFormed = true → t.outline.isAdmitted = true
  | .base l kind, _ => rfl
  | .variable l name, _ => rfl
  | .classInstance l name args, h =>
    node_admitted rfl (forall_mem_two name.admitted (Ty.allAdmitted args h))
  | .interface l name args, h =>
    node_admitted rfl (forall_mem_two name.admitted (Ty.allAdmitted args h))
  | .alias l name args, h =>
    node_admitted rfl (forall_mem_two name.admitted (Ty.allAdmitted args h))
  | .classSingleton l name, _ => node_admitted rfl (List.forall_mem_singleton.mpr name.admitted)
  | .optional l type, h => node_admitted rfl (List.forall_mem_singleton.mpr (Ty.admitted type h))
  | .union l types, h => by
    obtain ⟨hlength, htypes⟩ := Bool.and_eq_true_iff.mp h
    exact node_admitted (union_admits (.inl rfl) (of_decide_eq_true hlength))
      (List.forall_mem_singleton.mpr (Ty.allAdmitted types htypes))
  | .intersection l types, h => by
    obtain ⟨hlength, htypes⟩ := Bool.and_eq_true_iff.mp h
    exact node_admitted (union_admits (.inr rfl) (of_decide_eq_true hlength))
      (List.forall_mem_singleton.mpr (Ty.allAdmitted types htypes))
  | .tuple l types, h => node_admitted rfl (List.forall_mem_singleton.mpr (Ty.allAdmitted types h))
  | .record l fields, h =>
    node_admitted rfl (List.forall_mem_singleton.mpr (Field.allAdmitted fields h))
  | .literal l value, _ => value.admitted l
  | .proc l signature block, h => by
    obtain ⟨hsignature, hblock⟩ := Bool.and_eq_true_iff.mp (Bool.and_eq_true_iff.mp h).2
    exact node_admitted rfl
      (forall_mem_two (Signature.admitted signature hsignature) (Block.admitted block hblock))

theorem Ty.allAdmitted : (ts : List Ty) → Ty.allPass .wellFormed ts = true →
    itemsAdmitted (tyOutlines ts) = true
  | [], _ => rfl
  | t :: ts, h => by
    obtain ⟨ht, hts⟩ := Bool.and_eq_true_iff.mp h
    exact Bool.and_eq_true_iff.mpr ⟨Ty.admitted t ht, Ty.allAdmitted ts hts⟩

theorem Field.allAdmitted : (fields : List Field) → Ty.fieldsPass .wellFormed fields = true →
    itemsAdmitted (fieldOutlines fields) = true
  | [], _ => rfl
  | ⟨l, keyLocation, key, type⟩ :: fields, h => by
    obtain ⟨ht, hfields⟩ := Bool.and_eq_true_iff.mp h
    refine Bool.and_eq_true_iff.mpr ⟨node_admitted (key.isLiteral keyLocation) ?_,
      Field.allAdmitted fields hfields⟩
    exact forall_mem_two (key.admitted keyLocation) (Ty.admitted type ht)

theorem Param.admitted : (p : Param) → p.passes .wellFormed = true →
    (paramOutline p).isAdmitted = true
  | ⟨_, type, none⟩, h => node_admitted rfl (forall_mem_two (Ty.admitted type h) rfl)
  | ⟨_, type, some _⟩, h => node_admitted rfl (forall_mem_two (Ty.admitted type h) rfl)

theorem Param.allAdmitted : (ps : List Param) → Param.allPass .wellFormed ps = true →
    itemsAdmitted (paramOutlines ps) = true
  | [], _ => rfl
  | p :: ps, h => by
    obtain ⟨hp, hps⟩ := Bool.and_eq_true_iff.mp h
    exact Bool.and_eq_true_iff.mpr ⟨Param.admitted p hp, Param.allAdmitted ps hps⟩

theorem Param.optionAdmitted : (p : Option Param) → Param.optionPasses .wellFormed p = true →
    (paramOutline? p).isAdmitted = true
  | none, _ => rfl
  | some p, h => Param.admitted p h

theorem Param.keywordsAdmitted : (ps : List (String × Param)) →
    Param.keywordsPass .wellFormed ps = true → fieldsAdmitted (keywordOutlines ps) = true
  | [], _ => rfl
  | (_, p) :: ps, h => by
    obtain ⟨hp, hps⟩ := Bool.and_eq_true_iff.mp h
    exact Bool.and_eq_true_iff.mpr ⟨Param.admitted p hp, Param.keywordsAdmitted ps hps⟩

theorem Signature.admitted : (s : Signature) → s.passes .wellFormed = true →
    (signatureOutline s).isAdmitted = true
  | ⟨l, result, required, optional, rest, trailing, requiredKeywords, optionalKeywords,
      restKeywords⟩, h => by
    simp only [Signature.passes, Bool.and_eq_true] at h
    obtain ⟨hordered, ⟨⟨⟨⟨⟨⟨hr, h₁⟩, h₂⟩, h₃⟩, h₄⟩, h₅⟩, h₆⟩, h₇⟩ := h
    refine node_admitted (signature_admits hordered rfl) ?_
    simp only [List.forall_mem_cons]
    exact ⟨Ty.admitted result hr, Param.allAdmitted required h₁, Param.allAdmitted optional h₂,
      Param.optionAdmitted rest h₃, Param.allAdmitted trailing h₄,
      Param.keywordsAdmitted requiredKeywords h₅, Param.keywordsAdmitted optionalKeywords h₆,
      Param.optionAdmitted restKeywords h₇, by simp⟩

theorem Block.admitted : (block : Option Block) → Ty.blockPasses .wellFormed block = true →
    (blockOutline? block).isAdmitted = true
  | none, _ => rfl
  | some ⟨_, signature, _⟩, h =>
    node_admitted rfl (forall_mem_two (Signature.admitted signature h) rfl)

end

theorem TypeParam.admitted {p : TypeParam} (h : p.passes .wellFormed = true) :
    p.outline.isAdmitted = true := by
  have hbound : ((p.bound.map Ty.outline).getD .null).isAdmitted = true := by
    obtain ⟨l, name, v, unchecked, bound⟩ := p
    cases bound with
    | none => rfl
    | some t => exact Ty.admitted t h
  refine node_admitted rfl ?_
  simp only [List.forall_mem_cons]
  exact ⟨rfl, rfl, rfl, hbound, by simp⟩

theorem ofList_admitted {α : Type} {f : α → Outline} {items : List α}
    (h : ∀ a ∈ items, (f a).isAdmitted = true) : (ofList f items).isAdmitted = true := by
  refine itemsAdmitted_iff.mpr fun o ho => ?_
  obtain ⟨a, ha, rfl⟩ := List.mem_map.mp ho
  exact h a ha

theorem ClassRef.admitted {r : ClassRef} (h : r.passes .wellFormed = true) :
    r.outline.isAdmitted = true :=
  node_admitted rfl (forall_mem_two r.name.admitted (Ty.allAdmitted r.args h))

theorem MethodType.admitted {m : MethodType} (h : m.passes .wellFormed = true) :
    m.outline.isAdmitted = true := by
  simp only [MethodType.passes, Bool.and_eq_true, List.all_eq_true] at h
  obtain ⟨⟨hparams, hsignature⟩, hblock⟩ := h
  refine node_admitted rfl ?_
  simp only [List.forall_mem_cons]
  exact ⟨Signature.admitted _ hsignature, ofList_admitted fun p hp =>
    TypeParam.admitted (hparams p hp),
    Block.admitted _ hblock, by simp⟩

theorem Overload.admitted {o : Overload} (h : o.method.passes .wellFormed = true) :
    o.outline.isAdmitted = true :=
  node_admitted rfl (forall_mem_two (MethodType.admitted h) rfl)

theorem isVisibility_outline (v : Option Visibility) :
    (Visibility.outline? v).isVisibility = true := by
  rcases v with _ | (_ | _) <;> rfl

theorem isMemberLevel_word (level : MemberLevel) : isMemberLevel (.choice level.word) = true := by
  cases level <;> rfl

theorem visibility_admitted (v : Option Visibility) :
    (Visibility.outline? v).isAdmitted = true := by
  cases v <;> rfl

theorem Member.admitted {l : Option Span} {lead : Lead} : (m : Member) →
    m.passes .wellFormed = true → (Outline.node m.kind l lead m.fields).isAdmitted = true
  | .alias newName oldName level, _ => by
    refine node_admitted (isMemberLevel_word level) ?_
    simp only [List.forall_mem_cons, Member.fields]
    exact ⟨rfl, rfl, rfl, by simp⟩
  | .attribute access name type backing level v, h => by
    obtain ⟨htype, -⟩ := Bool.and_eq_true_iff.mp h
    refine node_admitted ?_ ?_
    · have hboth := Bool.and_eq_true_iff.mpr ⟨isMemberLevel_word level, isVisibility_outline v⟩
      cases access <;> exact hboth
    · have hbacking : backing.outline.isAdmitted = true := by cases backing <;> rfl
      simp only [List.forall_mem_cons, Member.fields]
      exact ⟨rfl, Ty.admitted type htype, hbacking, rfl, visibility_admitted v, by simp⟩
  | .variable kind name type, h =>
    node_admitted (by cases kind <;> rfl) (forall_mem_two rfl (Ty.admitted type h))
  | .mixin kind name args, h =>
    node_admitted (by cases kind <;> rfl) (forall_mem_two name.admitted (Ty.allAdmitted args h))
  | .visibility v, _ => node_admitted (by cases v <;> rfl) (by simp [Member.fields])
  | .method name os level overloading v, h => by
    simp only [Member.passes, Bool.and_eq_true, List.all_eq_true] at h
    obtain ⟨hentry, hoverloads⟩ := h
    refine node_admitted ?_ ?_
    · have hentry' :
          (hasItems 1 (ofList Overload.outline os) || isTrue (.bool overloading)) = true := by
        cases os with
        | nil => simpa [ofList, hasItems, Outline.isTrue, Outline.bool] using hentry
        | cons o os => simp [ofList, hasItems]
      exact Bool.and_eq_true_iff.mpr
        ⟨Bool.and_eq_true_iff.mpr ⟨hentry', rfl⟩, isVisibility_outline v⟩
    · simp only [List.forall_mem_cons, Member.fields]
      exact ⟨rfl, ofList_admitted fun o ho => Overload.admitted (hoverloads o ho), rfl, rfl,
        visibility_admitted v, by simp⟩

theorem params_admitted {ps : List TypeParam} (h : ps.all (·.passes .wellFormed) = true) :
    (ofList TypeParam.outline ps).isAdmitted = true :=
  ofList_admitted fun p hp => TypeParam.admitted (List.all_eq_true.mp h p hp)

mutual

theorem Declaration.admitted {l : Option Span} {lead : Lead} : (a : Declaration) →
    a.passes .wellFormed = true → (Outline.node a.kind l lead a.fields).isAdmitted = true
  | .class_ name params superclass members, h => by
    simp only [Declaration.passes, Bool.and_eq_true] at h
    obtain ⟨⟨hparams, hsuper⟩, hmembers⟩ := h
    have hclass : ((superclass.map ClassRef.outline).getD .null).isAdmitted = true := by
      cases superclass with
      | none => rfl
      | some r => exact ClassRef.admitted hsuper
    refine node_admitted rfl ?_
    simp only [List.forall_mem_cons, Declaration.fields]
    exact ⟨name.admitted, params_admitted hparams, hclass,
      Item.allAdmitted members hmembers, by simp⟩
  | .module_ name params selfTypes members, h => by
    simp only [Declaration.passes, Bool.and_eq_true] at h
    obtain ⟨⟨hparams, hselves⟩, hmembers⟩ := h
    refine node_admitted rfl ?_
    simp only [List.forall_mem_cons, Declaration.fields]
    exact ⟨name.admitted, params_admitted hparams,
      ofList_admitted fun r hr => ClassRef.admitted (List.all_eq_true.mp hselves r hr),
      Item.allAdmitted members hmembers, by simp⟩
  | .interface name params members, h => by
    simp only [Declaration.passes, Bool.and_eq_true] at h
    refine node_admitted rfl ?_
    simp only [List.forall_mem_cons, Declaration.fields]
    exact ⟨name.admitted, params_admitted h.1, Item.allAdmitted members h.2, by simp⟩
  | .constant name type, h => node_admitted rfl (forall_mem_two name.admitted (Ty.admitted type h))
  | .global name type, h => node_admitted rfl (forall_mem_two rfl (Ty.admitted type h))
  | .typeAlias name type params, h => by
    obtain ⟨htype, hparams⟩ := Bool.and_eq_true_iff.mp h
    refine node_admitted rfl ?_
    simp only [List.forall_mem_cons, Declaration.fields]
    exact ⟨name.admitted, Ty.admitted type htype, params_admitted hparams, by simp⟩

theorem Item.admitted : (item : Item) → item.passes .wellFormed = true →
    item.outline.isAdmitted = true
  | .member _ _ member, h => Member.admitted member h
  | .declaration _ _ declaration, h => Declaration.admitted declaration h

theorem Item.allAdmitted : (items : List Item) → Item.allPass .wellFormed items = true →
    itemsAdmitted (itemOutlines items) = true
  | [], _ => rfl
  | item :: items, h => by
    obtain ⟨hitem, hitems⟩ := Bool.and_eq_true_iff.mp h
    exact Bool.and_eq_true_iff.mpr ⟨Item.admitted item hitem, Item.allAdmitted items hitems⟩

end

/-- The outline of a well-formed tree is admitted. -/
theorem Root.admitted {root : Root} (h : root.isWellFormed = true) :
    root.outline.isAdmitted = true :=
  node_admitted rfl (List.forall_mem_singleton.mpr (Item.allAdmitted root.declarations h))

end RubySig
