import RubySig.Outline.Walk
import RubySig.Proofs.Outline.Placed

/-!
What stands below what. Below a node at which a walk stops there is no node, below one at which a
count stops there is none that is counted, and what a list or a table holds is no list and no table.
-/
namespace RubySig
namespace Outline

/-- Which nodes may stand somewhere. -/
inductive Layer where
  /-- None. -/
  | bare
  /-- Those that are not counted. -/
  | uncounted
  | all

namespace Layer

def Allows : Layer → NodeKind → Prop
  | .bare, _ => False
  | .uncounted, kind => kind.tally? = none
  | .all, _ => True

def below (layer : Layer) (kind : NodeKind) : Layer :=
  if kind.isLeaf then .bare else if kind.endsCount then .uncounted else layer

theorem uncounted_ne_bare : uncounted ≠ .bare := nofun

theorem all_ne_bare : all ≠ .bare := nofun

variable {layer : Layer} {kind other : NodeKind}

theorem Allows.of_uncounted (hlayer : layer ≠ .bare) (h : kind.tally? = none) :
    layer.Allows kind := by
  cases layer with
  | bare => exact absurd rfl hlayer
  | uncounted => exact h
  | all => trivial

/-- Nothing stands below a node that could not stand beside it. -/
theorem Allows.of_below (hkind : layer.Allows kind) (h : (layer.below kind).Allows other) :
    layer.Allows other := by
  have hlayer : layer ≠ .bare := by
    rintro rfl
    exact hkind
  unfold below at h
  split at h
  · exact h.elim
  · split at h
    · exact .of_uncounted hlayer h
    · exact h

end Layer

/-- What a list or a table may hold: anything that is no list and no table itself. -/
def isFlat : Outline → Bool
  | .list _ | .table _ => false
  | _ => true

theorem isFlat_of_isNode {o : Outline} (h : o.isNode = true) : o.isFlat = true := by
  cases o <;> first | rfl | cases h

/-- The nodes of a value are ones that a layer allows, and so are those below them for the layers
below. -/
inductive Layered : Layer → Outline → Prop where
  | scalar {layer s} : Layered layer (.scalar s)
  | choice {layer word} : Layered layer (.choice word)
  | notes {layer ns} : Layered layer (.notes ns)
  | list {layer items} : (∀ o ∈ items, o.isFlat = true) → (∀ o ∈ items, Layered layer o) →
      Layered layer (.list items)
  | table {layer entries} :
      (∀ e ∈ entries, e.2.isFlat = true) → (∀ e ∈ entries, Layered layer e.2) →
      Layered layer (.table entries)
  | node {layer kind location lead fields} : kind.isAbstract = false → layer.Allows kind →
      (∀ f ∈ fields, Layered (layer.below kind) f.2) →
      Layered layer (.node kind location lead fields)

variable {layer : Layer} {kind : NodeKind} {location : Option Span} {lead : Lead}
  {fields : List (String × Outline)} {o : Outline} {os : List Outline}

@[simp] theorem layered_scalar (s : Scalar) : Layered layer (.scalar s) := .scalar

@[simp] theorem layered_choice (word : String) : Layered layer (.choice word) := .choice

@[simp] theorem layered_notes (ns : List Note) : Layered layer (.notes ns) := .notes

@[simp] theorem layered_str (s : String) : Layered layer (str s) := .scalar

@[simp] theorem layered_bool (b : Bool) : Layered layer (bool b) := .scalar

@[simp] theorem layered_null : Layered layer null := .scalar

@[simp] theorem layered_ofText? (s : Option String) : Layered layer (ofText? s) := by
  cases s <;> exact .scalar

@[simp] theorem layered_nil : Layered layer (.list []) := .list (by simp) (by simp)

/-- One more node in front of a list. -/
theorem Layered.cons (hnode : o.isNode = true) (ho : Layered layer o)
    (hos : Layered layer (.list os)) :
    Layered layer (.list (o :: os)) := by
  cases hos with
  | list hflat h =>
    constructor
    · exact List.forall_mem_cons.mpr ⟨isFlat_of_isNode hnode, hflat⟩
    · exact List.forall_mem_cons.mpr ⟨ho, h⟩

/-- One more node in front of a table. -/
theorem Layered.entry {name : String} {entries : List (String × Outline)} (hnode : o.isNode = true)
    (ho : Layered layer o) (h : Layered layer (.table entries)) :
    Layered layer (.table ((name, o) :: entries)) := by
  cases h with
  | table hflat h =>
    constructor
    · exact List.forall_mem_cons.mpr ⟨isFlat_of_isNode hnode, hflat⟩
    · exact List.forall_mem_cons.mpr ⟨ho, h⟩

theorem Layered.ofList {α : Type} {f : α → Outline} {items : List α}
    (hnode : ∀ a ∈ items, (f a).isNode = true) (h : ∀ a ∈ items, Layered layer (f a)) :
    Layered layer (ofList f items) := by
  constructor
  · exact List.forall_mem_map.mpr fun a ha => isFlat_of_isNode (hnode a ha)
  · exact List.forall_mem_map.mpr h

/-- A node at which a walk stops. -/
theorem Layered.leaf (hlayer : layer ≠ .bare) (hleaf : kind.isLeaf = true)
    (h : ∀ f ∈ fields, Layered .bare f.2) : Layered layer (.node kind location lead fields) := by
  constructor
  · cases kind <;> first | rfl | cases hleaf
  · apply Layer.Allows.of_uncounted hlayer
    cases kind <;> first | rfl | cases hleaf
  · rwa [Layer.below, if_pos hleaf]

/-- A node at which a count stops, but not a walk. -/
theorem Layered.ending (hkind : kind.isAbstract = false) (hleaf : kind.isLeaf = false)
    (hends : kind.endsCount = true) (h : ∀ f ∈ fields, Layered .uncounted f.2) :
    Layered .all (.node kind location lead fields) := by
  constructor
  · exact hkind
  · trivial
  · rwa [Layer.below, hleaf, hends]

/-- A node at which neither stops. -/
theorem Layered.inner (hkind : kind.isAbstract = false) (hends : kind.endsCount = false)
    (hallowed : layer.Allows kind) (h : ∀ f ∈ fields, Layered layer f.2) :
    Layered layer (.node kind location lead fields) := by
  have hleaf : kind.isLeaf = false := by
    cases kind <;> first | rfl | cases hends
  constructor
  · exact hkind
  · exact hallowed
  · rwa [Layer.below, hleaf, hends]

end Outline

open Outline
open Layer (uncounted_ne_bare all_ne_bare)

variable {layer : Layer}

theorem TypeName.layered (hlayer : layer ≠ .bare) (n : TypeName) : Layered layer n.outline := by
  have hpath : Layered .bare (ofList Outline.str n.path) := by
    constructor
    · exact List.forall_mem_map.mpr fun _ _ => rfl
    · exact List.forall_mem_map.mpr fun _ _ => .scalar
  exact .leaf hlayer rfl (by simp [hpath])

theorem Literal.layered (hlayer : layer ≠ .bare) (location : Option Span) (value : Literal) :
    Layered layer (value.outline location) := by
  cases value with
  | truth b => cases b <;> exact .leaf hlayer rfl (by simp)
  | _ => exact .leaf hlayer rfl (by simp)

mutual

/-- Types hold nothing that is counted. -/
theorem Ty.layered (hlayer : layer ≠ .bare) : (t : Ty) → Layered layer t.outline
  | .base _ _ | .variable _ _ => .leaf hlayer rfl (by simp)
  | .classInstance _ name args => by
    have hargs := Ty.allLayered hlayer args
    exact .inner rfl rfl (.of_uncounted hlayer rfl) (by simp [name.layered hlayer, hargs])
  | .interface _ name args => by
    have hargs := Ty.allLayered hlayer args
    exact .inner rfl rfl (.of_uncounted hlayer rfl) (by simp [name.layered hlayer, hargs])
  | .alias _ name args => by
    have hargs := Ty.allLayered hlayer args
    exact .inner rfl rfl (.of_uncounted hlayer rfl) (by simp [name.layered hlayer, hargs])
  | .classSingleton _ name =>
    .inner rfl rfl (.of_uncounted hlayer rfl) (by simp [name.layered hlayer])
  | .optional _ type => by
    have htype := Ty.layered hlayer type
    exact .inner rfl rfl (.of_uncounted hlayer rfl) (by simp [htype])
  | .union _ types => by
    have htypes := Ty.allLayered hlayer types
    exact .inner rfl rfl (.of_uncounted hlayer rfl) (by simp [htypes])
  | .intersection _ types => by
    have htypes := Ty.allLayered hlayer types
    exact .inner rfl rfl (.of_uncounted hlayer rfl) (by simp [htypes])
  | .tuple _ types => by
    have htypes := Ty.allLayered hlayer types
    exact .inner rfl rfl (.of_uncounted hlayer rfl) (by simp [htypes])
  | .record _ fields => by
    have hfields := Field.allLayered hlayer fields
    exact .inner rfl rfl (.of_uncounted hlayer rfl) (by simp [hfields])
  | .literal location value => value.layered hlayer location
  | .proc _ signature block => by
    have hsignature := Signature.layered hlayer signature
    have hblock := Block.layered hlayer block
    exact .inner rfl rfl (.of_uncounted hlayer rfl) (by simp [hsignature, hblock])

theorem Ty.allLayered (hlayer : layer ≠ .bare) :
    (ts : List Ty) → Layered layer (.list (tyOutlines ts))
  | [] => layered_nil
  | t :: ts => .cons t.isNode_outline (Ty.layered hlayer t) (Ty.allLayered hlayer ts)

theorem Field.allLayered (hlayer : layer ≠ .bare) : (fields : List Field) →
    Layered layer (.list (fieldOutlines fields))
  | [] => layered_nil
  | ⟨_, keyLocation, key, type⟩ :: fields => by
    have htype := Ty.layered hlayer type
    apply Layered.cons rfl _ (Field.allLayered hlayer fields)
    exact .inner rfl rfl (.of_uncounted hlayer rfl)
      (by simp [key.layered hlayer keyLocation, htype])

theorem Param.layered (hlayer : layer ≠ .bare) : (p : Param) → Layered layer (paramOutline p)
  | ⟨_, type, name⟩ => by
    have htype := Ty.layered hlayer type
    exact .inner rfl rfl (.of_uncounted hlayer rfl) (by simp [htype])

theorem Param.allLayered (hlayer : layer ≠ .bare) : (ps : List Param) →
    Layered layer (.list (paramOutlines ps))
  | [] => layered_nil
  | ⟨location, type, name⟩ :: ps =>
    .cons rfl (Param.layered hlayer ⟨location, type, name⟩) (Param.allLayered hlayer ps)

theorem Param.optionLayered (hlayer : layer ≠ .bare) : (p : Option Param) →
    Layered layer (paramOutline? p)
  | none => layered_null
  | some p => Param.layered hlayer p

theorem Param.keywordsLayered (hlayer : layer ≠ .bare) : (ps : List (String × Param)) →
    Layered layer (.table (keywordOutlines ps))
  | [] => .table (by simp [keywordOutlines]) (by simp [keywordOutlines])
  | (_, ⟨location, type, name⟩) :: ps =>
    .entry rfl (Param.layered hlayer ⟨location, type, name⟩) (Param.keywordsLayered hlayer ps)

theorem Signature.layered (hlayer : layer ≠ .bare) : (s : Signature) →
    Layered layer (signatureOutline s)
  | ⟨_, result, required, optional, rest, trailing, requiredKeywords, optionalKeywords,
      restKeywords⟩ => by
    have hresult := Ty.layered hlayer result
    have hrequired := Param.allLayered hlayer required
    have hoptional := Param.allLayered hlayer optional
    have hrest := Param.optionLayered hlayer rest
    have htrailing := Param.allLayered hlayer trailing
    have hkeywords := Param.keywordsLayered hlayer requiredKeywords
    have hkeywords' := Param.keywordsLayered hlayer optionalKeywords
    have hrestKeywords := Param.optionLayered hlayer restKeywords
    exact .inner rfl rfl (.of_uncounted hlayer rfl) (by simp [*])

theorem Block.layered (hlayer : layer ≠ .bare) : (block : Option Block) →
    Layered layer (blockOutline? block)
  | none => layered_null
  | some ⟨_, signature, _⟩ => by
    have hsignature := Signature.layered hlayer signature
    exact .inner rfl rfl (.of_uncounted hlayer rfl) (by simp [hsignature])

end

theorem TypeParam.layered (hlayer : layer ≠ .bare) (p : TypeParam) : Layered layer p.outline := by
  have hbound : Layered layer ((p.bound.map Ty.outline).getD .null) := by
    cases p.bound with
    | none => exact layered_null
    | some bound => exact bound.layered hlayer
  exact .inner rfl rfl (.of_uncounted hlayer rfl) (by simp [hbound])

theorem TypeParam.allLayered (hlayer : layer ≠ .bare) (ps : List TypeParam) :
    Layered layer (ofList TypeParam.outline ps) :=
  .ofList (fun _ _ => rfl) fun p _ => p.layered hlayer

theorem ClassRef.layered (hlayer : layer ≠ .bare) (r : ClassRef) : Layered layer r.outline :=
  .inner rfl rfl (.of_uncounted hlayer rfl)
    (by simp [r.name.layered hlayer, Ty.allLayered hlayer r.args])

theorem MethodType.layered (hlayer : layer ≠ .bare) (m : MethodType) : Layered layer m.outline :=
  .inner rfl rfl (.of_uncounted hlayer rfl) (by
    simp [Signature.layered hlayer m.signature, TypeParam.allLayered hlayer m.params,
      Block.layered hlayer m.block])

/-- A count stops at a signature of a method. -/
theorem Overload.layered (o : Overload) : Layered .all o.outline :=
  .ending rfl rfl rfl (by simp [o.method.layered uncounted_ne_bare])

@[simp] theorem layered_visibility (v : Option Visibility) :
    Layered layer (Visibility.outline? v) := by
  cases v <;> simp [Visibility.outline?]

@[simp] theorem layered_backing (backing : Backing) : Layered layer backing.outline := by
  cases backing <;> simp [Backing.outline]

theorem Member.layered {location : Option Span} {lead : Lead} : (m : Member) →
    Layered .all (.node m.kind location lead m.fields)
  | .alias _ _ _ => .leaf all_ne_bare rfl (by simp [Member.fields])
  | .attribute access name type backing level shown => by
    have hfields : ∀ f ∈ (Member.attribute access name type backing level shown).fields,
        Layered .all f.2 := by
      simp [Member.fields, type.layered all_ne_bare]
    cases access <;> exact .inner rfl rfl trivial hfields
  | .variable kind name type => by
    have hfields : ∀ f ∈ (Member.variable kind name type).fields, Layered .all f.2 := by
      simp [Member.fields, type.layered all_ne_bare]
    cases kind <;> exact .inner rfl rfl trivial hfields
  | .mixin kind name args => by
    have hfields : ∀ f ∈ (Member.mixin kind name args).fields, Layered .all f.2 := by
      simp [Member.fields, name.layered all_ne_bare, Ty.allLayered all_ne_bare args]
    cases kind <;> exact .inner rfl rfl trivial hfields
  | .visibility v => by
    cases v <;> exact .leaf all_ne_bare rfl (by simp [Member.fields])
  | .method name overloads level overloading shown => by
    have hoverloads : Layered .all (ofList Overload.outline overloads) :=
      .ofList (fun _ _ => rfl) fun o _ => o.layered
    exact .inner rfl rfl trivial (by simp [Member.fields, hoverloads])

mutual

theorem Declaration.layered {location : Option Span} {lead : Lead} : (d : Declaration) →
    Layered .all (.node d.kind location lead d.fields)
  | .class_ name params superclass members => by
    have hsuper : Layered .all ((superclass.map ClassRef.outline).getD .null) := by
      cases superclass with
      | none => exact layered_null
      | some r => exact r.layered all_ne_bare
    have hmembers := Item.allLayered members
    exact .inner rfl rfl trivial (by
      simp [Declaration.fields, name.layered all_ne_bare, TypeParam.allLayered all_ne_bare params,
        hsuper, hmembers])
  | .module_ name params selfTypes members => by
    have hselves : Layered .all (ofList ClassRef.outline selfTypes) :=
      .ofList (fun _ _ => rfl) fun r _ => r.layered all_ne_bare
    have hmembers := Item.allLayered members
    exact .inner rfl rfl trivial (by
      simp [Declaration.fields, name.layered all_ne_bare, TypeParam.allLayered all_ne_bare params,
        hselves, hmembers])
  | .interface name params members => by
    have hmembers := Item.allLayered members
    exact .inner rfl rfl trivial (by
      simp [Declaration.fields, name.layered all_ne_bare,
        TypeParam.allLayered all_ne_bare params, hmembers])
  -- A count stops at the other three, below which there are only types.
  | .constant name type =>
    .ending rfl rfl rfl (by
      simp [Declaration.fields, name.layered uncounted_ne_bare, type.layered uncounted_ne_bare])
  | .global name type =>
    .ending rfl rfl rfl (by simp [Declaration.fields, type.layered uncounted_ne_bare])
  | .typeAlias name type params =>
    .ending rfl rfl rfl (by
      simp [Declaration.fields, name.layered uncounted_ne_bare, type.layered uncounted_ne_bare,
        TypeParam.allLayered uncounted_ne_bare params])

theorem Item.layered : (item : Item) → Layered .all item.outline
  | .member _ _ member => member.layered
  | .declaration _ _ declaration => Declaration.layered declaration

theorem Item.allLayered : (items : List Item) → Layered .all (.list (itemOutlines items))
  | [] => layered_nil
  | item :: items => .cons (by cases item <;> rfl) (Item.layered item) (Item.allLayered items)

end

theorem Root.layered (root : Root) : Layered .all root.outline :=
  .inner rfl rfl trivial (by simp [Item.allLayered root.declarations])

end RubySig
