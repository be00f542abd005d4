import RubySig.Proofs.Format.SolidWords
import RubySig.Proofs.Outline.Fits
import RubySig.Proofs.Tree.DeclarationLikeness

/-!
The outlines of trees that are read fit: each node has its fields, each field what it can hold, and
the segments of names are names.
-/
namespace RubySig

open Outline
open Grammar (Likeness)
open Grammar.Likeness
open List (Forall₂)

variable {keys : String → Prop}

/-- A node other than a name fits with its fields. -/
theorem Outline.node_fits {item : Bool} {kind : NodeKind} {l : Option Span} {lead : Lead}
    {fields : List (String × Outline)} (hc : (!kind.isAbstract && kind != .typeName) = true)
    (hplace : kind.isDecorated = item) (hlead : item = true ∨ lead = .none)
    (heach : Forall₂ (fun field slot => field.1 = slot.1 ∧ slot.2.takes field.2 = true)
      fields kind.fields)
    (hfields : FieldsFit keys fields) :
    Fits keys item (Outline.node kind l lead fields) := by
  obtain ⟨hconcrete, hname⟩ := Bool.and_eq_true_iff.mp hc
  constructor
  · exact ⟨by simpa using hconcrete, hplace, hlead, heach, fun h => absurd h (bne_iff_ne.mp hname)⟩
  · exact hfields

theorem Outline.isValue_of_isNode {o : Outline} (h : o.isNode = true) : o.isValue = true := by
  cases o with
  | node kind l lead fields => rfl
  | _ => cases h

theorem Outline.itemsFit_iff {item : Bool} {os : List Outline} :
    ItemsFit keys item os ↔ ∀ o ∈ os, o.isValue = true ∧ Fits keys item o := by
  induction os with
  | nil => simp [ItemsFit]
  | cons o os ih => simp [ItemsFit, ih]

theorem Outline.ofList_fits {α : Type} {f : α → Outline} {item : Bool} {as : List α}
    (h : ∀ a ∈ as, (f a).isValue = true ∧ Fits keys item (f a)) : Fits keys item (ofList f as) := by
  refine itemsFit_iff.mpr fun o ho => ?_
  obtain ⟨a, ha, rfl⟩ := List.mem_map.mp ho
  exact h a ha

theorem Outline.takes_absent {o : Outline} (h : o.isValue = true) : Slot.absent.takes o = true := by
  cases o with
  | scalar x =>
    cases x with
    | null => rfl
    | _ => exact h
  | _ => exact h

theorem TypeName.fits {n : TypeName} (h : n.Segmented) : Fits keys false n.outline := by
  constructor
  · refine ⟨rfl, rfl, .inr rfl, ?_, fun _ => ⟨n, h, rfl⟩⟩
    exact .cons ⟨rfl, rfl⟩ (.cons ⟨rfl, rfl⟩ (.cons ⟨rfl, rfl⟩ .nil))
  · exact ⟨trivial, ofList_fits fun s _ => ⟨rfl, trivial⟩, trivial, trivial⟩

theorem Literal.fits (l : Option Span) (value : Literal) : Fits keys false (value.outline l) := by
  have hnode (word : String) (x : Scalar) (hword : Vocabulary.literal.words.contains word = true)
      (hx : (Outline.scalar x).isValue = true) :
      Fits keys false (.node .literalType l .none [("kind", .choice word), ("value", .scalar x)]) :=
    node_fits rfl rfl (.inr rfl) (.cons ⟨rfl, hword⟩ (.cons ⟨rfl, hx⟩ .nil))
      ⟨trivial, trivial, trivial⟩
  cases value with
  | truth b => cases b <;> exact hnode _ _ (by decide) rfl
  | _ => exact hnode _ _ (by decide) rfl

theorem Ty.isValue_outline (t : Ty) : t.outline.isValue = true := isValue_of_isNode t.isNode_outline

theorem Literal.isValue_outline (l : Option Span) (value : Literal) :
    (value.outline l).isValue = true := by
  cases value with
  | truth b => cases b <;> rfl
  | _ => rfl

theorem signature_value (s : Signature) : (signatureOutline s).isValue = true := by
  cases s
  rfl

theorem param_taken (p : Option Param) : Slot.absent.takes (paramOutline? p) = true := by
  rcases p with _ | ⟨_, _, _⟩ <;> rfl

theorem block_taken (block : Option Block) : Slot.absent.takes (blockOutline? block) = true := by
  rcases block with _ | ⟨_, _, _⟩ <;> rfl

variable {c c' : Grammar.Context} {L : Likeness c c'}

theorem Grammar.Likeness.Stands.segmented (hL : L.Stands) {n n' : TypeName} (h : L.SameName n n') :
    n.Segmented := by
  have hname : ∀ s : String, Format.IsName s.toList → s ≠ "" ∧ ':' ∉ s.toList := by
    intro s hs
    constructor
    · rintro rfl
      obtain ⟨d, cs, hcs, -⟩ := hs
      cases hcs
    · intro hmem
      have hpart := hs.namePart ':' hmem
      exact absurd hpart (by decide)
  intro s hs
  rcases List.mem_append.mp hs with hpath | hlast
  · exact hname s (hL.constant (h.segments s hpath))
  · obtain rfl := List.mem_singleton.mp hlast
    exact hname _ (hL.plain h.last)

theorem Grammar.Likeness.Stands.name_fits (hL : L.Stands) {n n' : TypeName} (h : L.SameName n n') :
    Outline.Fits L.Named false n.outline :=
  TypeName.fits (hL.segmented h)

/-- The outlines of a list fit where all of it is read alike. -/
theorem fits_of_same {α : Type} {R : α → α → Prop} {f : α → Outline} {item : Bool} {as as' : List α}
    (hvalue : ∀ a, (f a).isValue = true) (hfits : ∀ {a a'}, R a a' → Fits L.Named item (f a))
    (h : Forall₂ R as as') : Fits L.Named item (ofList f as) := by
  apply ofList_fits
  intro a ha
  constructor
  · exact hvalue a
  · induction h with
    | nil => cases ha
    | cons hab _ ih =>
      rcases List.mem_cons.mp ha with rfl | ha
      · exact hfits hab
      · exact ih ha

section Types

variable (hL : L.Stands)
include hL

set_option linter.unusedSectionVars false

mutual

/-- The outline of a type that is read fits. -/
theorem Ty.fits : (t : Ty) → {t' : Ty} → L.SameTy t t' → Fits L.Named false t.outline
  | .base l kind, _, _ =>
    node_fits rfl rfl (.inr rfl) (.cons ⟨rfl, by cases kind <;> decide⟩ .nil) ⟨trivial, trivial⟩
  | .variable l name, _, _ =>
    node_fits rfl rfl (.inr rfl) (.cons ⟨rfl, rfl⟩ .nil) ⟨trivial, trivial⟩
  | .classInstance l name args, _, h => by
    cases h with
    | classInstance hname hargs =>
      exact node_fits rfl rfl (.inr rfl) (.cons ⟨rfl, rfl⟩ (.cons ⟨rfl, rfl⟩ .nil))
        ⟨hL.name_fits hname, Ty.allFit args hargs, trivial⟩
  | .interface l name args, _, h => by
    cases h with
    | interface hname hargs =>
      exact node_fits rfl rfl (.inr rfl) (.cons ⟨rfl, rfl⟩ (.cons ⟨rfl, rfl⟩ .nil))
        ⟨hL.name_fits hname, Ty.allFit args hargs, trivial⟩
  | .alias l name args, _, h => by
    cases h with
    | «alias» hname hargs =>
      exact node_fits rfl rfl (.inr rfl) (.cons ⟨rfl, rfl⟩ (.cons ⟨rfl, rfl⟩ .nil))
        ⟨hL.name_fits hname, Ty.allFit args hargs, trivial⟩
  | .classSingleton l name, _, h => by
    cases h with
    | classSingleton hname =>
      exact node_fits rfl rfl (.inr rfl) (.cons ⟨rfl, rfl⟩ .nil) ⟨hL.name_fits hname, trivial⟩
  | .optional l type, _, h => by
    cases h with
    | optional htype =>
      exact node_fits rfl rfl (.inr rfl) (.cons ⟨rfl, type.isValue_outline⟩ .nil)
        ⟨Ty.fits type htype, trivial⟩
  | .union l types, _, h => by
    cases h with
    | union htypes =>
      exact node_fits rfl rfl (.inr rfl) (.cons ⟨rfl, rfl⟩ .nil) ⟨Ty.allFit types htypes, trivial⟩
  | .intersection l types, _, h => by
    cases h with
    | intersection htypes =>
      exact node_fits rfl rfl (.inr rfl) (.cons ⟨rfl, rfl⟩ .nil) ⟨Ty.allFit types htypes, trivial⟩
  | .tuple l types, _, h => by
    cases h with
    | tuple htypes =>
      exact node_fits rfl rfl (.inr rfl) (.cons ⟨rfl, rfl⟩ .nil) ⟨Ty.allFit types htypes, trivial⟩
  | .record l fields, _, h => by
    cases h with
    | record hfields =>
      exact node_fits rfl rfl (.inr rfl) (.cons ⟨rfl, rfl⟩ .nil)
        ⟨Field.allFit fields hfields, trivial⟩
  | .literal l value, _, _ => value.fits l
  | .proc l signature block, _, h => by
    cases h with
    | proc hsignature hblock =>
      exact node_fits rfl rfl (.inr rfl)
        (.cons ⟨rfl, signature_value signature⟩ (.cons ⟨rfl, block_taken block⟩ .nil))
        ⟨Signature.fits signature hsignature, Block.fits block hblock, trivial⟩
termination_by structural t => t

theorem Ty.allFit : (ts : List Ty) → {ts' : List Ty} → Forall₂ L.SameTy ts ts' →
    ItemsFit L.Named false (tyOutlines ts)
  | [], _, _ => trivial
  | t :: ts, _, h => by
    cases h with
    | cons ht hts => exact ⟨⟨t.isValue_outline, Ty.fits t ht⟩, Ty.allFit ts hts⟩
termination_by structural ts => ts

theorem Field.allFit :
    (fields : List Field) → {fields' : List Field} → Forall₂ L.SameField fields fields' →
    ItemsFit L.Named false (fieldOutlines fields)
  | [], _, _ => trivial
  | ⟨l, keyLocation, key, type⟩ :: fields, _, h => by
    cases h with
    | cons hfield hfields =>
      cases hfield with
      | mk _ htype =>
        exact ⟨⟨rfl, node_fits rfl rfl (.inr rfl)
          (.cons ⟨rfl, key.isValue_outline keyLocation⟩ (.cons ⟨rfl, type.isValue_outline⟩ .nil))
          ⟨key.fits keyLocation, Ty.fits type htype, trivial⟩⟩, Field.allFit fields hfields⟩
termination_by structural fields => fields

theorem Param.fits :
    (p : Param) → {p' : Param} → L.SameParam p p' → Fits L.Named false (paramOutline p)
  | ⟨l, type, name⟩, _, h => by
    cases h with
    | mk htype _ =>
      exact node_fits rfl rfl (.inr rfl)
        (.cons ⟨rfl, type.isValue_outline⟩ (.cons ⟨rfl, by cases name <;> rfl⟩ .nil))
        ⟨Ty.fits type htype, by cases name <;> trivial, trivial⟩
termination_by structural p => p

theorem Param.allFit : (ps : List Param) → {ps' : List Param} → Forall₂ L.SameParam ps ps' →
    ItemsFit L.Named false (paramOutlines ps)
  | [], _, _ => trivial
  | p :: ps, _, h => by
    cases h with
    | cons hp hps => exact ⟨⟨by cases p; rfl, Param.fits p hp⟩, Param.allFit ps hps⟩
termination_by structural ps => ps

theorem Param.optionFits : (p : Option Param) → {p' : Option Param} → Option.Rel L.SameParam p p' →
    Fits L.Named false (paramOutline? p)
  | none, _, _ => trivial
  | some p, _, h => by
    cases h with
    | some hp => exact Param.fits p hp
termination_by structural p => p

theorem Param.keywordsFit : (ps : List (String × Param)) → {ps' : List (String × Param)} →
    Forall₂ L.SameKeyword ps ps' → EntriesFit L.Named (keywordOutlines ps)
  | [], _, _ => trivial
  | (name, p) :: ps, _, h => by
    cases h with
    | cons hkeyword hps =>
      cases hkeyword with
      | mk hname hp => exact ⟨⟨hname, by cases p; rfl, Param.fits p hp⟩, Param.keywordsFit ps hps⟩
termination_by structural ps => ps

theorem Signature.fits : (s : Signature) → {s' : Signature} → L.SameSignature s s' →
    Fits L.Named false (signatureOutline s)
  | ⟨l, result, required, optional, rest, trailing, requiredKeywords,
      optionalKeywords, restKeywords⟩,
      _, h => by
    cases h with
    | mk hresult h₁ h₂ h₃ h₄ h₅ h₆ h₇ =>
      exact node_fits rfl rfl (.inr rfl)
        (.cons ⟨rfl, result.isValue_outline⟩ (.cons ⟨rfl, rfl⟩ (.cons ⟨rfl, rfl⟩
          (.cons ⟨rfl, param_taken rest⟩ (.cons ⟨rfl, rfl⟩ (.cons ⟨rfl, rfl⟩ (.cons ⟨rfl, rfl⟩
            (.cons ⟨rfl, param_taken restKeywords⟩ .nil))))))))
        ⟨Ty.fits result hresult, Param.allFit required h₁, Param.allFit optional h₂,
          Param.optionFits rest h₃, Param.allFit trailing h₄, Param.keywordsFit requiredKeywords h₅,
          Param.keywordsFit optionalKeywords h₆, Param.optionFits restKeywords h₇, trivial⟩
termination_by structural s => s

theorem Block.fits :
    (block : Option Block) → {block' : Option Block} → Option.Rel L.SameBlock block block' →
    Fits L.Named false (blockOutline? block)
  | none, _, _ => trivial
  | some ⟨l, signature, required⟩, _, h => by
    cases h with
    | some hblock =>
      cases hblock with
      | mk hsignature =>
        exact node_fits rfl rfl (.inr rfl)
          (.cons ⟨rfl, signature_value signature⟩ (.cons ⟨rfl, rfl⟩ .nil))
          ⟨Signature.fits signature hsignature, trivial, trivial⟩
termination_by structural block => block

end

theorem TypeParam.fits {p p' : TypeParam} (h : L.SameTypeParam p p') :
    Fits L.Named false p.outline := by
  obtain ⟨l, name, variance, unchecked, bound⟩ := p
  have hvariance : (Slot.choice .variance (some "invariant")).takes
      (.choice variance.word) = true := by
    cases variance <;> decide
  have hrel := h.bound
  have hbound : Slot.absent.takes ((bound.map Ty.outline).getD .null) = true ∧
      Fits L.Named false ((bound.map Ty.outline).getD .null) := by
    cases bound with
    | none => exact ⟨rfl, trivial⟩
    | some t =>
      cases hb : p'.bound with
      | none =>
        rw [hb] at hrel
        cases hrel
      | some t' =>
        rw [hb] at hrel
        cases hrel with
        | some ht => exact ⟨takes_absent t.isValue_outline, Ty.fits hL t ht⟩
  exact node_fits rfl rfl (.inr rfl)
    (.cons ⟨rfl, rfl⟩ (.cons ⟨rfl, hvariance⟩ (.cons ⟨rfl, rfl⟩ (.cons ⟨rfl, hbound.1⟩ .nil))))
    ⟨trivial, trivial, trivial, hbound.2, trivial⟩

theorem TypeParam.allFit {ps ps' : List TypeParam} (h : Forall₂ L.SameTypeParam ps ps') :
    Fits L.Named false (ofList TypeParam.outline ps) :=
  fits_of_same (fun _ => rfl) (TypeParam.fits hL) h

theorem ClassRef.fits {r r' : ClassRef} (h : L.SameClassRef r r') : Fits L.Named false r.outline :=
  node_fits rfl rfl (.inr rfl) (.cons ⟨rfl, rfl⟩ (.cons ⟨rfl, rfl⟩ .nil))
    ⟨hL.name_fits h.name, Ty.allFit hL r.args h.args, trivial⟩

theorem MethodType.fits {m m' : MethodType} (h : L.SameMethodType m m') :
    Fits L.Named false m.outline :=
  node_fits rfl rfl (.inr rfl)
    (.cons ⟨rfl, signature_value m.signature⟩
      (.cons ⟨rfl, rfl⟩ (.cons ⟨rfl, block_taken m.block⟩ .nil)))
    ⟨Signature.fits hL m.signature h.signature, TypeParam.allFit hL h.params,
      Block.fits hL m.block h.block,
      trivial⟩

theorem Overload.fits {o o' : Overload} (h : L.SameOverload o o') : Fits L.Named false o.outline :=
  node_fits rfl rfl (.inr rfl) (.cons ⟨rfl, rfl⟩ (.cons ⟨rfl, rfl⟩ .nil))
    ⟨MethodType.fits hL h.method, trivial, trivial⟩

theorem Member.fits {l : Option Span} {lead : Lead} {m m' : Member} (h : L.SameMember m m') :
    Fits L.Named true (Outline.node m.kind l lead m.fields) := by
  have hlevel (level : MemberLevel) :
      (Slot.choice .level (some "instance")).takes (.choice level.word) = true := by
    cases level <;> decide
  have hmethod (level : MethodLevel) :
      (Slot.choice .level (some "instance")).takes (.choice level.word) = true := by
    cases level <;> decide
  have hshown (v : Option Visibility) :
      (Slot.choice .visibility none).takes (Visibility.outline? v) = true ∧
        Fits L.Named false (Visibility.outline? v) := by
    rcases v with _ | (_ | _) <;> exact ⟨by decide, trivial⟩
  cases h with
  | «alias» _ _ =>
    exact node_fits rfl rfl (.inl rfl)
      (.cons ⟨rfl, rfl⟩ (.cons ⟨rfl, rfl⟩ (.cons ⟨rfl, hlevel _⟩ .nil)))
      ⟨trivial, trivial, trivial, trivial⟩
  | @«attribute» access name t t' backing level visibility _ htype _ =>
    have hbacking : Slot.absent.takes backing.outline = true ∧
        Fits L.Named false backing.outline := by
      cases backing <;> exact ⟨rfl, trivial⟩
    have heach : Forall₂ (fun field slot => field.1 = slot.1 ∧ slot.2.takes field.2 = true)
        (Member.attribute access name t backing level visibility).fields
          NodeKind.attrReader.fields :=
      .cons ⟨rfl, rfl⟩ (.cons ⟨rfl, t.isValue_outline⟩ (.cons ⟨rfl, hbacking.1⟩
        (.cons ⟨rfl, hlevel level⟩ (.cons ⟨rfl, (hshown visibility).1⟩ .nil))))
    have hfields : FieldsFit L.Named
        (Member.attribute access name t backing level visibility).fields :=
      ⟨trivial, Ty.fits hL t htype, hbacking.2, trivial, (hshown visibility).2, trivial⟩
    cases access <;> exact node_fits rfl rfl (.inl rfl) heach hfields
  | @«variable» kind name t t' _ htype =>
    have heach : Forall₂ (fun field slot => field.1 = slot.1 ∧ slot.2.takes field.2 = true)
        (Member.variable kind name t).fields NodeKind.instanceVariable.fields :=
      .cons ⟨rfl, rfl⟩ (.cons ⟨rfl, t.isValue_outline⟩ .nil)
    cases kind <;> exact node_fits rfl rfl (.inl rfl) heach ⟨trivial, Ty.fits hL t htype, trivial⟩
  | @mixin kind n n' args args' hname hargs =>
    have heach : Forall₂ (fun field slot => field.1 = slot.1 ∧ slot.2.takes field.2 = true)
        (Member.mixin kind n args).fields NodeKind.includeMember.fields :=
      .cons ⟨rfl, rfl⟩ (.cons ⟨rfl, rfl⟩ .nil)
    cases kind <;> exact node_fits rfl rfl (.inl rfl) heach
      ⟨hL.name_fits hname, Ty.allFit hL args hargs, trivial⟩
  | @visibility v => cases v <;> exact node_fits rfl rfl (.inl rfl) .nil trivial
  | @method name os os' level overloading visibility _ hoverloads =>
    have hos : Fits L.Named false (ofList Overload.outline os) :=
      fits_of_same (fun _ => rfl) (Overload.fits hL) hoverloads
    exact node_fits rfl rfl (.inl rfl)
      (.cons ⟨rfl, rfl⟩ (.cons ⟨rfl, rfl⟩ (.cons ⟨rfl, hmethod level⟩ (.cons ⟨rfl, rfl⟩
        (.cons ⟨rfl, (hshown visibility).1⟩ .nil)))))
      ⟨trivial, hos, trivial, trivial, (hshown visibility).2, trivial⟩

theorem ClassRef.optionFits {r r' : Option ClassRef} (h : Option.Rel L.SameClassRef r r') :
    Slot.absent.takes ((r.map ClassRef.outline).getD .null) = true ∧
      Fits L.Named false ((r.map ClassRef.outline).getD .null) := by
  cases h with
  | none => exact ⟨rfl, trivial⟩
  | some hr => exact ⟨rfl, ClassRef.fits hL hr⟩

mutual

theorem Declaration.fits {l : Option Span} {lead : Lead} : (a : Declaration) → {a' : Declaration} →
    L.SameDeclaration a a' → Fits L.Named true (Outline.node a.kind l lead a.fields)
  | .class_ name params superclass members, _, h => by
    cases h with
    | class_ hname hparams hsuper hmembers =>
      have hclass := ClassRef.optionFits hL hsuper
      exact node_fits rfl rfl (.inl rfl)
        (.cons ⟨rfl, rfl⟩ (.cons ⟨rfl, rfl⟩ (.cons ⟨rfl, hclass.1⟩ (.cons ⟨rfl, rfl⟩ .nil))))
        ⟨hL.name_fits hname, TypeParam.allFit hL hparams, hclass.2,
          Item.allFit members hmembers, trivial⟩
  | .module_ name params selfTypes members, _, h => by
    cases h with
    | module_ hname hparams hself hmembers =>
      exact node_fits rfl rfl (.inl rfl)
        (.cons ⟨rfl, rfl⟩ (.cons ⟨rfl, rfl⟩ (.cons ⟨rfl, rfl⟩ (.cons ⟨rfl, rfl⟩ .nil))))
        ⟨hL.name_fits hname, TypeParam.allFit hL hparams,
          fits_of_same (fun _ => rfl) (ClassRef.fits hL) hself,
          Item.allFit members hmembers, trivial⟩
  | .interface name params members, _, h => by
    cases h with
    | interface hname hparams hmembers =>
      exact node_fits rfl rfl (.inl rfl)
        (.cons ⟨rfl, rfl⟩ (.cons ⟨rfl, rfl⟩ (.cons ⟨rfl, rfl⟩ .nil)))
        ⟨hL.name_fits hname, TypeParam.allFit hL hparams, Item.allFit members hmembers, trivial⟩
  | .constant name type, _, h => by
    cases h with
    | constant hname htype =>
      exact node_fits rfl rfl (.inl rfl) (.cons ⟨rfl, rfl⟩ (.cons ⟨rfl, type.isValue_outline⟩ .nil))
        ⟨hL.name_fits hname, Ty.fits hL type htype, trivial⟩
  | .global name type, _, h => by
    cases h with
    | global _ htype =>
      exact node_fits rfl rfl (.inl rfl) (.cons ⟨rfl, rfl⟩ (.cons ⟨rfl, type.isValue_outline⟩ .nil))
        ⟨trivial, Ty.fits hL type htype, trivial⟩
  | .typeAlias name type params, _, h => by
    cases h with
    | typeAlias hname htype hparams =>
      exact node_fits rfl rfl (.inl rfl)
        (.cons ⟨rfl, rfl⟩ (.cons ⟨rfl, type.isValue_outline⟩ (.cons ⟨rfl, rfl⟩ .nil)))
        ⟨hL.name_fits hname, Ty.fits hL type htype, TypeParam.allFit hL hparams, trivial⟩

theorem Item.fits : (i : Item) → {i' : Item} → L.SameItem i i' → Fits L.Named true i.outline
  | .member l lead m, _, h => by
    cases h with
    | member _ _ hm => exact Member.fits hL hm
  | .declaration l lead a, _, h => by
    cases h with
    | declaration _ _ ha => exact Declaration.fits a ha

theorem Item.allFit : (items : List Item) → {items' : List Item} → Forall₂ L.SameItem items items' →
    ItemsFit L.Named true (itemOutlines items)
  | [], _, _ => trivial
  | i :: items, _, h => by
    cases h with
    | cons hi hitems => exact ⟨⟨by cases i <;> rfl, Item.fits i hi⟩, Item.allFit items hitems⟩

end

end Types

/-- The outline of a tree that is read fits, and its keyword parameters are named by tokens. -/
theorem Root.fits {source : String} {scan : Lexer.Scan} {root : Root}
    (hscan : Lexer.scan source.toList = .ok scan) (h : (Root.read source).result = .ok root) :
    Fits (ofTokens ⟨source.toList, scan.finish⟩ scan.tokens).Named false root.outline := by
  obtain ⟨items, hitems⟩ := Root.read_same hscan h
  exact node_fits rfl rfl (.inr rfl) (.cons ⟨rfl, rfl⟩ .nil)
    ⟨Item.allFit (Lexer.scan_stands hscan) root.declarations hitems, trivial⟩

end RubySig
