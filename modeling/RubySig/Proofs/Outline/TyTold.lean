import RubySig.Proofs.Outline.Placed
import RubySig.Proofs.Outline.Shown

/-!
The data of a type tell the type. Data name the kind of each node, so the nodes of two types with
the same data are of the same kinds, and their fields are told one by one.
-/
namespace RubySig

open Outline

section Told

variable {α β : Type} (order : EntryOrder) (view : α → Outline) (settle : α → β)

/-- The data of a value tell all of it that `settle` leaves. -/
def Told (x : α) : Prop := ∀ y, data order (view x) = data order (view y) → settle x = settle y

variable {order view settle}

theorem map_eq_of_told {γ : Type} {f : α → γ} {xs ys : List α}
    (h : ∀ x ∈ xs, ∀ y, f x = f y → settle x = settle y) (he : xs.map f = ys.map f) :
    xs.map settle = ys.map settle := by
  induction xs generalizing ys with
  | nil =>
    rw [List.map_eq_nil_iff.mp he.symm]
  | cons x xs ih =>
    cases ys with
    | nil => cases he
    | cons y ys =>
      obtain ⟨hx, hxs⟩ := List.cons.inj he
      rw [List.map_cons, List.map_cons, h x List.mem_cons_self y hx,
        ih (fun z hz => h z (List.mem_cons_of_mem x hz)) hxs]

theorem told_list {xs ys : List α} (h : ∀ x ∈ xs, Told order view settle x)
    (he : data order (.list (xs.map view)) = data order (.list (ys.map view))) :
    xs.map settle = ys.map settle := by
  have hitems := Datum.list.inj he
  rw [itemsData_eq_map, itemsData_eq_map, List.map_map, List.map_map] at hitems
  exact map_eq_of_told h hitems

theorem told_table {xs ys : List (String × α)} (h : ∀ x ∈ xs, Told order view settle x.2)
    (he : data order (.table (xs.map fun e => (e.1, view e.2))) =
      data order (.table (ys.map fun e => (e.1, view e.2)))) :
    order.arrange id (xs.map fun e => (e.1, settle e.2)) =
      order.arrange id (ys.map fun e => (e.1, settle e.2)) := by
  have hentries (zs : List (String × α)) :
      data order (.table (zs.map fun e => (e.1, view e.2))) =
        .dict ((order.arrange id zs).map fun e => Datum.entry (e.1, data order (view e.2))) := by
    rw [data, entriesData_eq_map, List.map_map, List.map_map]
    exact congrArg Datum.dict (EntryOrder.map_arrange
      (fun e => Datum.entry (e.1, data order (view e.2))) (fun _ => rfl) order zs).symm
  rw [hentries, hentries] at he
  have hsettle (zs : List (String × α)) : order.arrange id (zs.map fun e => (e.1, settle e.2)) =
      (order.arrange id zs).map fun e => (e.1, settle e.2) :=
    (EntryOrder.map_arrange (fun e => (e.1, settle e.2)) (fun _ => rfl) order zs).symm
  rw [hsettle, hsettle]
  apply map_eq_of_told _ (Datum.dict.inj he)
  intro e hmem e' heq
  have hpair := Datum.entry_injective heq
  simp only [Prod.mk.injEq] at hpair
  rw [hpair.1, h e ((order.arrange_perm id xs).subset hmem) e'.2 hpair.2]

end Told

theorem told_option {α β : Type} {order : EntryOrder} {view : α → Outline} {settle : α → β}
    (hnode : ∀ a, (view a).isNode = true) {name : String} {x y : Option α}
    (h : ∀ a ∈ x, Told order view settle a)
    (he : slot order name ((x.map view).getD .null) = slot order name ((y.map view).getD .null)) :
    x.map settle = y.map settle := by
  cases x with
  | none =>
    cases y with
    | none => rfl
    | some b =>
      rw [Option.map_some, Option.getD_some, slot_node order (hnode b)] at he
      cases he
  | some a =>
    rw [Option.map_some, Option.getD_some, slot_node order (hnode a)] at he
    cases y with
    | none => cases he
    | some b =>
      rw [Option.map_some, Option.getD_some, slot_node order (hnode b)] at he
      exact congrArg some (h a rfl b (Option.some.inj he))

theorem told_text {order : EntryOrder} {name : String} {s t : Option String}
    (hname : name ≠ "annotations") (h : slot order name (ofText? s) = slot order name (ofText? t)) :
    s = t := by
  cases s <;> cases t <;> simp_all [ofText?]

def Literal.fields : Literal → List (String × Outline)
  | .integer n => [("kind", .choice "integer"), ("value", .scalar (.int n))]
  | .string s => [("kind", .choice "string"), ("value", .str s)]
  | .symbol s => [("kind", .choice "symbol"), ("value", .str s)]
  | .truth true => [("kind", .choice "true"), ("value", .bool true)]
  | .truth false => [("kind", .choice "false"), ("value", .bool false)]

namespace Ty

def kind : Ty → NodeKind
  | .base _ _ => .baseType
  | .variable _ _ => .variableType
  | .classInstance _ _ _ => .classInstanceType
  | .interface _ _ _ => .interfaceType
  | .alias _ _ _ => .aliasType
  | .classSingleton _ _ => .singletonType
  | .optional _ _ => .optionalType
  | .union _ _ => .unionType
  | .intersection _ _ => .intersectionType
  | .tuple _ _ => .tupleType
  | .record _ _ => .recordType
  | .literal _ _ => .literalType
  | .proc _ _ _ => .procType

def fields : Ty → List (String × Outline)
  | .base _ kind => [("kind", .choice kind.text)]
  | .variable _ name => [("name", .str name)]
  | .classInstance _ name args | .interface _ name args | .alias _ name args =>
    [("name", name.outline), ("args", .list (args.map Ty.outline))]
  | .classSingleton _ name => [("name", name.outline)]
  | .optional _ type => [("type", type.outline)]
  | .union _ types | .intersection _ types | .tuple _ types =>
    [("types", .list (types.map Ty.outline))]
  | .record _ fields => [("fields", .list (fields.map Field.outline))]
  | .literal _ value => value.fields
  | .proc _ signature block =>
    [("type", signatureOutline signature), ("block", (block.map blockOutline).getD .null)]

end Ty

theorem BaseKind.text_injective {k k' : BaseKind} (h : k.text = k'.text) : k = k' := by
  revert h
  cases k <;> cases k' <;> decide

theorem blockOutline_option (b : Option Block) :
    blockOutline? b = (b.map blockOutline).getD .null := by
  cases b <;> rfl

theorem paramOutline_option (p : Option Param) :
    paramOutline? p = (p.map paramOutline).getD .null := by
  cases p <;> rfl

theorem Literal.outline_eq (l : Option Span) (value : Literal) :
    value.outline l = .node .literalType l .none value.fields := by
  cases value with
  | truth b => cases b <;> rfl
  | _ => rfl

theorem Literal.formal (value : Literal) : Formal .literalType .none value.fields where
  names := by
    cases value with
    | truth b => cases b <;> rfl
    | _ => rfl
  lead := .inr rfl

theorem Ty.outline_eq (t : Ty) : ∃ l, t.outline = .node t.kind l .none t.fields := by
  cases t with
  | literal l value => exact ⟨l, value.outline_eq l⟩
  | _ =>
    simp only [Ty.outline, Ty.kind, Ty.fields, tyOutlines_eq_map, fieldOutlines_eq_map,
      blockOutline_option]
    exact ⟨_, rfl⟩

theorem Ty.formal (t : Ty) : Formal t.kind .none t.fields := by
  cases t with
  | literal l value => exact value.formal
  | _ => exact ⟨rfl, .inr rfl⟩

section Lists

variable (order : EntryOrder)

theorem Ty.settledAll_eq_map (ts : List Ty) :
    Ty.settledAll order ts = ts.map (Ty.settled order) := by
  induction ts with
  | nil => rfl
  | cons t ts ih => rw [Ty.settledAll, ih, List.map_cons]

def Field.settled (f : Field) : Field := ⟨none, none, f.key, f.type.settled order⟩

theorem Field.settledAll_eq_map (fields : List Field) :
    Field.settledAll order fields = fields.map (Field.settled order) := by
  induction fields with
  | nil => rfl
  | cons f fields ih =>
    obtain ⟨location, keyLocation, key, type⟩ := f
    rw [Field.settledAll, ih, List.map_cons, Field.settled]

theorem Param.settledAll_eq_map (ps : List Param) :
    Param.settledAll order ps = ps.map (Param.settled order) := by
  induction ps with
  | nil => rfl
  | cons p ps ih => rw [Param.settledAll, ih, List.map_cons]

theorem Param.settledOption_eq_map (p : Option Param) :
    Param.settledOption order p = p.map (Param.settled order) := by
  cases p <;> rfl

theorem Param.settledKeywords_eq_map (ps : List (String × Param)) :
    Param.settledKeywords order ps = ps.map fun p => (p.1, p.2.settled order) := by
  induction ps with
  | nil => rfl
  | cons p ps ih => rw [Param.settledKeywords, ih, List.map_cons]

def Block.settledOne (b : Block) : Block := ⟨none, b.signature.settled order, b.required⟩

theorem Block.settled_eq_map (b : Option Block) :
    Block.settled order b = b.map (Block.settledOne order) := by
  cases b with
  | none => rfl
  | some b =>
    obtain ⟨location, signature, required⟩ := b
    rfl

end Lists

variable {order : EntryOrder}

theorem fields_eq {kind : NodeKind} {l l' : Option Span} {fields fields' : List (String × Outline)}
    (h : data order (.node kind l .none fields) = data order (.node kind l' .none fields'))
    (hf : fields.map (·.1) = kind.fields.map (·.1))
    (hf' : fields'.map (·.1) = kind.fields.map (·.1)) :
    fieldSlots order fields = fieldSlots order fields' :=
  (node_eq h ⟨hf, .inr rfl⟩ ⟨hf', .inr rfl⟩).2.2

theorem Ty.told_fields {t u : Ty} (h : data order t.outline = data order u.outline) :
    t.kind = u.kind ∧ fieldSlots order t.fields = fieldSlots order u.fields := by
  obtain ⟨l, ht⟩ := t.outline_eq
  obtain ⟨l', hu⟩ := u.outline_eq
  rw [ht, hu] at h
  obtain ⟨hkind, -, hslots⟩ := node_eq h t.formal u.formal
  exact ⟨hkind, hslots⟩

theorem data_str_injective : Function.Injective (data order ∘ Outline.str) :=
  fun _ _ h => Scalar.str.inj (Datum.scalar.inj h)

@[simp] theorem slot_name (name : String) (n : TypeName) :
    slot order name n.outline = some (data order n.outline) :=
  slot_node order rfl name

@[simp] theorem slot_type (name : String) (t : Ty) :
    slot order name t.outline = some (data order t.outline) := by
  obtain ⟨l, h⟩ := t.outline_eq
  rw [h]
  exact slot_node order rfl name

theorem isNode_param (p : Param) : (paramOutline p).isNode = true := by
  cases p; rfl

theorem isNode_block (b : Block) : (blockOutline b).isNode = true := by
  cases b; rfl

@[simp] theorem slot_signature (name : String) (s : Signature) :
    slot order name (signatureOutline s) = some (data order (signatureOutline s)) := by
  cases s
  exact slot_node order rfl name

theorem slot_literal {name : String} (l : Option Span) (value : Literal) :
    slot order name (value.outline l) =
      some (data order (.node .literalType l .none value.fields)) := by
  rw [value.outline_eq l]
  exact slot_node order rfl name

theorem TypeName.told (n : TypeName) : Told order TypeName.outline TypeName.erase n := by
  intro m h
  obtain ⟨hname, hpath, habsolute⟩ : n.name = m.name ∧
      n.path.map (data order ∘ Outline.str) = m.path.map (data order ∘ Outline.str) ∧
      n.absolute = m.absolute := by
    simpa [ofList, data, itemsData_eq_map] using fields_eq h rfl rfl
  rw [TypeName.erase, TypeName.erase, hname, habsolute,
    List.map_injective_iff.mpr data_str_injective hpath]

theorem Literal.told {value value' : Literal}
    (h : fieldSlots order value.fields = fieldSlots order value'.fields) : value = value' := by
  cases value with
  | truth b =>
    cases value' with
    | truth b' => cases b <;> cases b' <;> simp [Literal.fields] at h ⊢
    | _ => cases b <;> simp [Literal.fields] at h
  | _ =>
    cases value' with
    | truth b' => cases b' <;> simp [Literal.fields] at h
    | _ => simp [Literal.fields] at h ⊢ <;> exact h

/-- The fields of types with one list of types. -/
theorem Ty.told_types {name : String} {ts us : List Ty} (hname : name ≠ "annotations")
    (h : ∀ t ∈ ts, Told order Ty.outline (Ty.settled order) t)
    (he : fieldSlots order [(name, .list (ts.map Ty.outline))] =
      fieldSlots order [(name, .list (us.map Ty.outline))]) :
    Ty.settledAll order ts = Ty.settledAll order us := by
  have hlist : data order (.list (ts.map Ty.outline)) = data order (.list (us.map Ty.outline)) := by
    simpa [hname] using he
  rw [Ty.settledAll_eq_map, Ty.settledAll_eq_map, told_list h hlist]

/-- The fields of a name with arguments. -/
theorem TypeName.told_applied {name name' : TypeName} {args args' : List Ty}
    (h : ∀ t ∈ args, Told order Ty.outline (Ty.settled order) t)
    (he : fieldSlots order [("name", name.outline), ("args", .list (args.map Ty.outline))] =
      fieldSlots order [("name", name'.outline), ("args", .list (args'.map Ty.outline))]) :
    name.erase = name'.erase ∧ Ty.settledAll order args = Ty.settledAll order args' := by
  rw [fieldSlots_cons, fieldSlots_cons order _ name'.outline] at he
  obtain ⟨hname, hargs⟩ := List.cons.inj he
  have hname : data order name.outline = data order name'.outline := by simpa using hname
  exact ⟨name.told name' hname, Ty.told_types (by decide) h hargs⟩

mutual

theorem Ty.told : (t : Ty) → Told order Ty.outline (Ty.settled order) t
  | .base l k, u, h => by
    obtain ⟨hkind, hslots⟩ := Ty.told_fields h
    cases u with
    | base l' k' =>
      have hword : k.text = k'.text := by simpa [Ty.fields] using hslots
      rw [Ty.settled, Ty.settled, BaseKind.text_injective hword]
    | _ => cases hkind
  | .variable l name, u, h => by
    obtain ⟨hkind, hslots⟩ := Ty.told_fields h
    cases u with
    | «variable» l' name' =>
      have hname : name = name' := by simpa [Ty.fields] using hslots
      rw [Ty.settled, Ty.settled, hname]
    | _ => cases hkind
  | .classInstance l name args, u, h => by
    obtain ⟨hkind, hslots⟩ := Ty.told_fields h
    cases u with
    | classInstance l' name' args' =>
      obtain ⟨hname, hargs⟩ := TypeName.told_applied (Ty.told_all args) hslots
      rw [Ty.settled, Ty.settled, hname, hargs]
    | _ => cases hkind
  | .interface l name args, u, h => by
    obtain ⟨hkind, hslots⟩ := Ty.told_fields h
    cases u with
    | interface l' name' args' =>
      obtain ⟨hname, hargs⟩ := TypeName.told_applied (Ty.told_all args) hslots
      rw [Ty.settled, Ty.settled, hname, hargs]
    | _ => cases hkind
  | .alias l name args, u, h => by
    obtain ⟨hkind, hslots⟩ := Ty.told_fields h
    cases u with
    | «alias» l' name' args' =>
      obtain ⟨hname, hargs⟩ := TypeName.told_applied (Ty.told_all args) hslots
      rw [Ty.settled, Ty.settled, hname, hargs]
    | _ => cases hkind
  | .classSingleton l name, u, h => by
    obtain ⟨hkind, hslots⟩ := Ty.told_fields h
    cases u with
    | classSingleton l' name' =>
      have hname : data order name.outline = data order name'.outline := by
        simpa [Ty.fields] using hslots
      rw [Ty.settled, Ty.settled, name.told name' hname]
    | _ => cases hkind
  | .optional l type, u, h => by
    obtain ⟨hkind, hslots⟩ := Ty.told_fields h
    cases u with
    | optional l' type' =>
      have htype : data order type.outline = data order type'.outline := by
        simpa [Ty.fields] using hslots
      rw [Ty.settled, Ty.settled, Ty.told type type' htype]
    | _ => cases hkind
  | .union l types, u, h => by
    obtain ⟨hkind, hslots⟩ := Ty.told_fields h
    cases u with
    | union l' types' =>
      rw [Ty.settled, Ty.settled, Ty.told_types (by decide) (Ty.told_all types) hslots]
    | _ => cases hkind
  | .intersection l types, u, h => by
    obtain ⟨hkind, hslots⟩ := Ty.told_fields h
    cases u with
    | intersection l' types' =>
      rw [Ty.settled, Ty.settled, Ty.told_types (by decide) (Ty.told_all types) hslots]
    | _ => cases hkind
  | .tuple l types, u, h => by
    obtain ⟨hkind, hslots⟩ := Ty.told_fields h
    cases u with
    | tuple l' types' =>
      rw [Ty.settled, Ty.settled, Ty.told_types (by decide) (Ty.told_all types) hslots]
    | _ => cases hkind
  | .record l fields, u, h => by
    obtain ⟨hkind, hslots⟩ := Ty.told_fields h
    cases u with
    | record l' fields' =>
      have hfields : data order (.list (fields.map Field.outline)) =
          data order (.list (fields'.map Field.outline)) := by simpa [Ty.fields] using hslots
      rw [Ty.settled, Ty.settled, Field.settledAll_eq_map, Field.settledAll_eq_map,
        told_list (Field.told_all fields) hfields]
    | _ => cases hkind
  | .literal l value, u, h => by
    obtain ⟨hkind, hslots⟩ := Ty.told_fields h
    cases u with
    | literal l' value' => rw [Ty.settled, Ty.settled, Literal.told hslots]
    | _ => cases hkind
  | .proc l signature block, u, h => by
    obtain ⟨hkind, hslots⟩ := Ty.told_fields h
    cases u with
    | proc l' signature' block' =>
      obtain ⟨hsignature, hblock⟩ : data order (signatureOutline signature) =
          data order (signatureOutline signature') ∧
          slot order "block" ((block.map blockOutline).getD .null) =
            slot order "block" ((block'.map blockOutline).getD .null) := by
        simpa [Ty.fields] using hslots
      rw [Ty.settled, Ty.settled, Block.settled_eq_map, Block.settled_eq_map,
        Signature.told signature signature' hsignature,
        told_option isNode_block (Block.told_option block) hblock]
    | _ => cases hkind

theorem Ty.told_all : (ts : List Ty) → ∀ t ∈ ts, Told order Ty.outline (Ty.settled order) t
  | [] => by simp
  | t :: ts => List.forall_mem_cons.mpr ⟨Ty.told t, Ty.told_all ts⟩

theorem Field.told_all : (fields : List Field) →
    ∀ f ∈ fields, Told order Field.outline (Field.settled order) f
  | [] => by simp
  | ⟨l, keyLocation, key, type⟩ :: fields => by
    refine List.forall_mem_cons.mpr ⟨?_, Field.told_all fields⟩
    rintro ⟨l', keyLocation', key', type'⟩ h
    obtain ⟨hkey, htype⟩ : data order (.node .literalType keyLocation .none key.fields) =
        data order (.node .literalType keyLocation' .none key'.fields) ∧
        data order type.outline = data order type'.outline := by
      simpa [slot_literal] using fields_eq h rfl rfl
    have hvalue := (node_eq hkey key.formal key'.formal).2.2
    rw [Field.settled, Field.settled, Literal.told hvalue, Ty.told type type' htype]

theorem Param.told : (p : Param) → Told order paramOutline (Param.settled order) p
  | ⟨l, type, name⟩, ⟨l', type', name'⟩, h => by
    obtain ⟨htype, hname⟩ : data order type.outline = data order type'.outline ∧
        slot order "name" (ofText? name) = slot order "name" (ofText? name') := by
      simpa using fields_eq h rfl rfl
    rw [Param.settled, Param.settled, Ty.told type type' htype, told_text (by decide) hname]

theorem Param.told_all : (ps : List Param) →
    ∀ p ∈ ps, Told order paramOutline (Param.settled order) p
  | [] => by simp
  | p :: ps => List.forall_mem_cons.mpr ⟨Param.told p, Param.told_all ps⟩

theorem Param.told_option : (p : Option Param) →
    ∀ q ∈ p, Told order paramOutline (Param.settled order) q
  | none => by simp
  | some p => by simpa using Param.told p

theorem Param.told_keywords : (ps : List (String × Param)) →
    ∀ p ∈ ps, Told order paramOutline (Param.settled order) p.2
  | [] => by simp
  | (name, p) :: ps => List.forall_mem_cons.mpr ⟨Param.told p, Param.told_keywords ps⟩

theorem Signature.told : (s : Signature) → Told order signatureOutline (Signature.settled order) s
  | ⟨l, result, required, optional, rest, trailing, requiredKeywords, optionalKeywords,
      restKeywords⟩, u, h => by
    obtain ⟨l', result', required', optional', rest', trailing', requiredKeywords',
      optionalKeywords', restKeywords'⟩ := u
    have hslots := fields_eq h rfl rfl
    simp only [paramOutlines_eq_map, paramOutline_option, keywordOutlines_eq_map, fieldSlots_cons,
      slot_type, ne_eq, String.reduceEq, not_false_eq_true, slot_list, slot_table, List.cons.injEq,
      Prod.mk.injEq, Option.some.injEq, true_and, and_true] at hslots
    obtain ⟨hresult, hrequired, hoptional, hrest, htrailing, hrequiredKeywords, hoptionalKeywords,
      hrestKeywords⟩ := hslots
    simp only [Signature.settled, Param.settledAll_eq_map, Param.settledOption_eq_map,
      Param.settledKeywords_eq_map]
    rw [Ty.told result result' hresult, told_list (Param.told_all required) hrequired,
      told_list (Param.told_all optional) hoptional,
      told_option isNode_param (Param.told_option rest) hrest,
      told_list (Param.told_all trailing) htrailing,
      told_table (Param.told_keywords requiredKeywords) hrequiredKeywords,
      told_table (Param.told_keywords optionalKeywords) hoptionalKeywords,
      told_option isNode_param (Param.told_option restKeywords) hrestKeywords]

theorem Block.told_option : (b : Option Block) →
    ∀ c ∈ b, Told order blockOutline (Block.settledOne order) c
  | none => by simp
  | some ⟨l, signature, required⟩ => by
    rintro _ ⟨⟩ ⟨l', signature', required'⟩ h
    obtain ⟨hsignature, hrequired⟩ : data order (signatureOutline signature) =
        data order (signatureOutline signature') ∧ required = required' := by
      simpa using fields_eq h rfl rfl
    rw [Block.settledOne, Block.settledOne,
      Signature.told signature signature' hsignature, hrequired]

end

end RubySig
