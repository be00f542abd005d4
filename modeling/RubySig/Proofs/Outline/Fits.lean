import Mathlib.Data.List.Forall2
import RubySig.Outline.OfTree
import RubySig.Proofs.Outline.FormOf

/-!
Outlines as a tree has them: each node has the fields of its kind, each field a value of the kind
that it takes, and declarations and members stand where such are listed. That is what a form does
not say by itself.
-/
namespace RubySig

/-- A name whose segments are told from each other where they are joined. -/
def TypeName.Segmented (n : TypeName) : Prop :=
  ∀ s ∈ n.path ++ [n.name], s ≠ "" ∧ ':' ∉ s.toList

namespace Outline

/-- A node, a text, an integer or a truth value. -/
def isValue : Outline → Bool
  | .node _ _ _ _ | .scalar (.str _) | .scalar (.int _) | .scalar (.bool _) => true
  | _ => false

end Outline

open Outline

/-- Whether a field can hold a value. -/
def Slot.takes : Slot → Outline → Bool
  | .required, o => o.isValue
  | .absent, .scalar .null => true
  | .absent, o => o.isValue
  | .flag _, .scalar (.bool _) => true
  | .choice vocabulary _, .choice word => vocabulary.words.contains word
  | .choice _ none, .scalar .null => true
  | .list, .list _ => true
  | .table, .table _ => true
  | .notes, .notes _ => true
  | _, _ => false

namespace Outline

def nameFields (n : TypeName) : List (String × Outline) :=
  [("name", .str n.name), ("namespace", ofList .str n.path), ("absolute", .bool n.absolute)]

/-- A node as a tree has it, its fields apart; `item` where declarations and members are listed. -/
structure NodeFits (item : Bool) (kind : NodeKind) (lead : Lead)
    (fields : List (String × Outline)) :
    Prop where
  concrete : kind.isAbstract = false
  place : kind.isDecorated = item
  lead : item = true ∨ lead = .none
  each : List.Forall₂ (fun field slot => field.1 = slot.1 ∧ slot.2.takes field.2 = true) fields
    kind.fields
  name : kind = .typeName → ∃ n : TypeName, n.Segmented ∧ fields = nameFields n

def holdsItems (field : String) : Bool := field == "declarations" || field == "members"

section Fits

variable (keys : String → Prop)

mutual

/-- An outline as a tree has it, the keys of its tables of one kind. -/
def Fits (item : Bool) : Outline → Prop
  | .scalar _ | .choice _ | .notes _ => True
  | .list items => ItemsFit item items
  | .table entries => EntriesFit entries
  | .node kind _ lead fields => NodeFits item kind lead fields ∧ FieldsFit fields

def ItemsFit (item : Bool) : List Outline → Prop
  | [] => True
  | o :: os => (o.isValue = true ∧ Fits item o) ∧ ItemsFit item os

def EntriesFit : List (String × Outline) → Prop
  | [] => True
  | (key, o) :: entries => (keys key ∧ o.isValue = true ∧ Fits false o) ∧ EntriesFit entries

def FieldsFit : List (String × Outline) → Prop
  | [] => True
  | (name, o) :: fields => Fits (holdsItems name) o ∧ FieldsFit fields

end

end Fits

theorem fieldsFit_iff {keys : String → Prop} {fields : List (String × Outline)} :
    FieldsFit keys fields ↔ ∀ field ∈ fields, Fits keys (holdsItems field.1) field.2 := by
  induction fields with
  | nil => simp [FieldsFit]
  | cons field fields ih =>
    obtain ⟨name, o⟩ := field
    simp [FieldsFit, ih]

variable {s : Slot}

theorem takes_list {os : List Outline} (h : s.takes (.list os) = true) : s = .list := by
  cases s with
  | list => rfl
  | choice v d => cases d <;> cases h
  | _ => cases h

theorem takes_table {entries : List (String × Outline)} (h : s.takes (.table entries) = true) :
    s = .table := by
  cases s with
  | table => rfl
  | choice v d => cases d <;> cases h
  | _ => cases h

theorem takes_notes {ns : List Note} (h : s.takes (.notes ns) = true) : s = .notes := by
  cases s with
  | notes => rfl
  | choice v d => cases d <;> cases h
  | _ => cases h

theorem null_of_takes {v : Vocabulary} {d : Option String} {x : Scalar}
    (h : (Slot.choice v d).takes (.scalar x) = true) : x = .null := by
  cases x with
  | null => rfl
  | _ => cases d <;> cases h

theorem takes_choice {word : String} (h : s.takes (.choice word) = true) :
    ∃ v d, s = .choice v d := by
  cases s with
  | choice v d => exact ⟨v, d, rfl⟩
  | _ => cases h

theorem not_omitted {o : Outline} (h : o.isValue = true) : o.isOmitted = false := by
  cases o with
  | scalar x =>
    cases x with
    | null => cases h
    | _ => rfl
  | node kind l lead fields => rfl
  | _ => cases h

/-- Scalars in fields that are not left out are values. -/
theorem value_of_takes {x : Scalar} (h : s.takes (.scalar x) = true)
    (hx : (Outline.scalar x).isOmitted = false) : (Outline.scalar x).isValue = true := by
  cases s with
  | required => exact h
  | absent =>
    cases x with
    | null => cases hx
    | _ => exact h
  | flag d =>
    cases x with
    | bool b => rfl
    | _ => cases h
  | choice v d =>
    cases x with
    | null => cases hx
    | _ => cases d <;> cases h
  | _ => cases h

/-- A field that is left out in both of two outlines holds the same in both. -/
theorem omitted_eq {o o' : Outline} (h : s.takes o = true) (h' : s.takes o' = true)
    (ho : o.isOmitted = true) (ho' : o'.isOmitted = true) : o = o' := by
  have hcases : ∀ p : Outline, p.isOmitted = true →
      p = .null ∨ p = .list [] ∨ p = .table [] ∨ p = .notes [] := by
    intro p hp
    unfold isOmitted at hp
    split at hp <;> simp_all [Outline.null]
  have hnull : s.takes .null = true → s = .absent ∨ ∃ v, s = .choice v none := by
    intro hs
    cases s with
    | absent => exact .inl rfl
    | choice v d =>
      cases d with
      | none => exact .inr ⟨v, rfl⟩
      | some d => cases hs
    | _ => cases hs
  rcases hcases o ho with rfl | rfl | rfl | rfl <;>
    rcases hcases o' ho' with rfl | rfl | rfl | rfl <;>
    first
      | rfl
      | (obtain rfl := takes_list h; cases h')
      | (obtain rfl := takes_table h; cases h')
      | (obtain rfl := takes_notes h; cases h')
      | (rcases hnull h with rfl | ⟨v, rfl⟩ <;> cases h')

theorem nameText_fields (n : TypeName) : nameText (nameFields n) = .ok n.text := by
  have hpath : itemTexts (n.path.map .str) = .ok n.path := by
    induction n.path with
    | nil => rfl
    | cons s path ih =>
      rw [List.map_cons, itemTexts, ih]
      rfl
  rw [nameFields, nameText, ofList, segmentTexts, hpath]
  obtain ⟨l, name, path, absolute⟩ := n
  cases absolute <;> rfl

end Outline

namespace TypeName

/-- The segments of a name, each but the last with a double colon behind it. -/
def segments (path : List String) (name : String) : List Char :=
  path.flatMap (fun s => s.toList ++ [':', ':']) ++ name.toList

theorem toList_text (n : TypeName) :
    n.text.toList = (if n.absolute then [':', ':'] else []) ++ segments n.path n.name := by
  have hpath : (String.join (n.path.map (· ++ "::"))).toList =
      n.path.flatMap fun s => s.toList ++ [':', ':'] := by
    induction n.path with
    | nil => rfl
    | cons s path ih => simp [ih]
  rw [text, String.toList_append, String.toList_append, hpath, segments, List.append_assoc]
  cases n.absolute <;> rfl

/-- The first colon of a text is where it is. -/
theorem first_colon {s t r r' : List Char} (hs : ':' ∉ s) (ht : ':' ∉ t)
    (h : s ++ ':' :: r = t ++ ':' :: r') :
    s = t ∧ r = r' := by
  rcases List.append_eq_append_iff.mp h with ⟨u, rfl, hu⟩ | ⟨u, rfl, hu⟩
  · cases u with
    | nil => exact ⟨(List.append_nil s).symm, (List.cons.inj hu).2⟩
    | cons c u =>
      rw [(List.cons.inj hu).1] at ht
      exact absurd (List.mem_append_right s List.mem_cons_self) ht
  · cases u with
    | nil => exact ⟨List.append_nil t, (List.cons.inj hu).2.symm⟩
    | cons c u =>
      rw [(List.cons.inj hu).1] at hs
      exact absurd (List.mem_append_right t List.mem_cons_self) hs

theorem segments_injective {path path' : List String} {name name' : String}
    (h : segments path name = segments path' name') (hs : ∀ s ∈ path ++ [name], ':' ∉ s.toList)
    (hs' : ∀ s ∈ path' ++ [name'], ':' ∉ s.toList) : path = path' ∧ name = name' := by
  induction path generalizing path' with
  | nil =>
    cases path' with
    | nil => exact ⟨rfl, String.toList_inj.mp h⟩
    | cons s' path' =>
      have hmem : ':' ∈ segments [] name := by
        rw [h]
        simp [segments]
      exact absurd hmem (hs name (by simp))
  | cons s path ih =>
    cases path' with
    | nil =>
      have hmem : ':' ∈ segments [] name' := by
        rw [← h]
        simp [segments]
      exact absurd hmem (hs' name' (by simp))
    | cons s' path' =>
      have hstep (s : String) (path : List String) (name : String) :
          segments (s :: path) name = s.toList ++ ':' :: (':' :: segments path name) := by
        simp [segments]
      rw [hstep, hstep] at h
      obtain ⟨hhead, htail⟩ := first_colon (hs s (by simp)) (hs' s' (by simp)) h
      obtain ⟨rfl, rfl⟩ := ih (List.cons.inj htail).2 (fun t ht => hs t (List.mem_cons_of_mem s ht))
        fun t ht => hs' t (List.mem_cons_of_mem s' ht)
      exact ⟨congrArg (· :: path) (String.toList_inj.mp hhead), rfl⟩

/-- A name does not begin with a colon behind its absolute mark. -/
theorem Segmented.head {n : TypeName} (h : n.Segmented) :
    (segments n.path n.name).head? ≠ some ':' := by
  have hfirst : ∀ s ∈ n.path ++ [n.name], ∀ cs, (s.toList ++ cs).head? ≠ some ':' := by
    intro s hs cs hc
    obtain ⟨hne, hcolon⟩ := h s hs
    cases hlist : s.toList with
    | nil => exact hne (String.toList_inj.mp hlist)
    | cons c cs' =>
      rw [hlist] at hc hcolon
      obtain rfl : c = ':' := Option.some.inj hc
      exact hcolon List.mem_cons_self
  obtain ⟨l, name, path, absolute⟩ := n
  cases path with
  | nil => simpa [segments] using hfirst name (by simp) []
  | cons s path => simpa [segments] using hfirst s (by simp) (':' :: ':' :: segments path name)

/-- Names are told by their texts. -/
theorem text_injective {n n' : TypeName} (hn : n.Segmented) (hn' : n'.Segmented)
    (h : n.text = n'.text) : nameFields n = nameFields n' := by
  have hlist := congrArg String.toList h
  rw [toList_text, toList_text] at hlist
  have habsolute : n.absolute = n'.absolute ∧ segments n.path n.name =
      segments n'.path n'.name := by
    cases ha : n.absolute with
    | true =>
      cases ha' : n'.absolute with
      | true =>
        rw [ha, ha'] at hlist
        exact ⟨rfl, List.append_cancel_left hlist⟩
      | false =>
        rw [ha, ha'] at hlist
        exact absurd (congrArg List.head? hlist).symm hn'.head
    | false =>
      cases ha' : n'.absolute with
      | true =>
        rw [ha, ha'] at hlist
        exact absurd (congrArg List.head? hlist) hn.head
      | false =>
        rw [ha, ha'] at hlist
        exact ⟨rfl, hlist⟩
  obtain ⟨hpath, hname⟩ := segments_injective habsolute.2
    (fun s hs => (hn s hs).2) fun s hs => (hn' s hs).2
  rw [nameFields, nameFields, habsolute.1, hpath, hname]

end TypeName
end RubySig
