import Mathlib.Data.List.Infix
import RubySig.Outline.OfTree
import RubySig.Token.Lexeme

/-!
Outlines on tokens. A node has its place from a stretch of tokens, and what it holds takes stretches
inside that one; what a list or a table holds takes one stretch behind the other.
-/
namespace RubySig

/-- The range of tokens that stand one behind the other. -/
def Token.cover : List Token → Option Span
  | [] => none
  | t :: ts => some (.between t.start (ts.getLastD t).stop)

namespace Outline

/-- Where the fields are those of a string literal, the tokens are the one token of that string. -/
def TrueToken (m : List Token) (fields : List (String × Outline)) : Prop :=
  ∀ v, fields = [("kind", .choice "string"), ("value", .str v)] →
    ∃ t, m = [t] ∧ t.lexeme = .string v

mutual

/-- The nodes of a value have their places from tokens of a list. -/
inductive Placed : List Token → Outline → Prop where
  | scalar {w s} : Placed w (.scalar s)
  | choice {w word} : Placed w (.choice word)
  | notes {w ns} : Placed w (.notes ns)
  | list {w items} : Lined w items → Placed w (.list items)
  | table {w entries} : Lined w (entries.map (·.2)) → Placed w (.table entries)
  | node {w m kind lead fields} : m ≠ [] → m <:+: w → (∀ f ∈ fields, Placed m f.2) →
      (kind = .literalType → TrueToken m fields) → Placed w (.node kind (Token.cover m) lead fields)

/-- Values have their places from tokens of a list, each behind those of the value before. -/
inductive Lined : List Token → List Outline → Prop where
  | nil {w} : Lined w []
  | cons {w a b o os} : a ++ b <:+: w → Placed a o → Lined b os → Lined w (o :: os)

end

attribute [simp] Placed.scalar Placed.choice Placed.notes Lined.nil

variable {w v : List Token} {o : Outline} {os : List Outline}

@[simp] theorem placed_str (s : String) : Placed w (str s) := .scalar

@[simp] theorem placed_bool (b : Bool) : Placed w (bool b) := .scalar

@[simp] theorem placed_null : Placed w null := .scalar

@[simp] theorem placed_ofText? (s : Option String) : Placed w (ofText? s) := by
  cases s <;> exact .scalar

@[simp] theorem placed_list_iff : Placed w (.list os) ↔ Lined w os := by
  constructor
  · rintro ⟨⟩
    assumption
  · exact .list

@[simp] theorem placed_table_iff {entries : List (String × Outline)} :
    Placed w (.table entries) ↔ Lined w (entries.map (·.2)) := by
  constructor
  · rintro ⟨⟩
    assumption
  · exact .table

/-- A node that is no literal, on all of some tokens. -/
theorem Placed.whole {kind : NodeKind} {lead : Lead} {fields : List (String × Outline)}
    (hw : w ≠ []) (hk : kind ≠ .literalType) (h : ∀ f ∈ fields, Placed w f.2) :
    Placed w (.node kind (Token.cover w) lead fields) :=
  .node hw List.infix_rfl h fun he => absurd he hk

theorem Lined.mono (h : Lined w os) (hw : w <:+: v) : Lined v os := by
  cases h with
  | nil => exact .nil
  | cons hab ho hos => exact .cons (hab.trans hw) ho hos

theorem Placed.mono (h : Placed w o) (hw : w <:+: v) : Placed v o := by
  cases h with
  | scalar => exact .scalar
  | choice => exact .choice
  | notes => exact .notes
  | list h => exact .list (h.mono hw)
  | table h => exact .table (h.mono hw)
  | node hne hm hf ht => exact .node hne (hm.trans hw) hf ht

theorem Placed.left (h : Placed w o) (v : List Token) : Placed (w ++ v) o :=
  h.mono (List.prefix_append w v).isInfix

theorem Placed.right (h : Placed v o) (w : List Token) : Placed (w ++ v) o :=
  h.mono (List.suffix_append w v).isInfix

theorem Lined.left (h : Lined w os) (v : List Token) : Lined (w ++ v) os :=
  h.mono (List.prefix_append w v).isInfix

theorem Lined.right (h : Lined v os) (w : List Token) : Lined (w ++ v) os :=
  h.mono (List.suffix_append w v).isInfix

/-- A node takes at least one token. -/
theorem Placed.ne_nil {kind : NodeKind} {location : Option Span} {lead : Lead}
    {fields : List (String × Outline)} (h : Placed w (.node kind location lead fields)) :
    w ≠ [] := by
  cases h with
  | node hne hm =>
    rintro rfl
    exact hne (List.infix_nil.mp hm)

theorem Placed.field {kind : NodeKind} {location : Option Span} {lead : Lead}
    {fields : List (String × Outline)} (h : Placed w (.node kind location lead fields)) :
    ∀ f ∈ fields, Placed w f.2 := by
  cases h with
  | node hne hm hf => exact fun f hmem => (hf f hmem).mono hm

/-- Values without nodes take nothing. -/
theorem Lined.of_forall (h : ∀ o ∈ os, ∀ v, Placed v o) : Lined w os := by
  induction os with
  | nil => exact .nil
  | cons o os ih =>
    have hrest : Lined w os := ih fun p hp => h p (List.mem_cons_of_mem o hp)
    exact .cons (a := []) List.infix_rfl (h o List.mem_cons_self []) hrest

/-- One more value behind the others. -/
theorem Lined.snoc (h : Lined w os) (ho : Placed v o) : Lined (w ++ v) (os ++ [o]) := by
  induction os generalizing w with
  | nil =>
    apply Lined.cons (b := []) _ ho .nil
    rw [List.append_nil]
    exact (List.suffix_append w v).isInfix
  | cons p os ih =>
    cases h with
    | @cons _ a b _ _ hab hp hos =>
      obtain ⟨front, back, rfl⟩ := hab
      apply Lined.cons _ hp (ih (hos.left back))
      exact ⟨front, [], by simp⟩

/-- A first value in front of the others. -/
theorem Lined.front (ho : Placed w o) (h : Lined v os) : Lined (w ++ v) (o :: os) :=
  .cons List.infix_rfl ho h

theorem Lined.single (ho : Placed w o) : Lined w [o] :=
  .cons (b := []) (by simp) ho .nil

/-- A literal is on one token, which for a string is its token. -/
theorem placed_literal {t : Token} {value : Literal}
    (h : ∀ v, value = .string v → t.lexeme = .string v) :
    Placed [t] (value.outline (Token.cover [t])) := by
  -- The word before the value tells strings from other literals.
  have node {word : String} {s : Scalar} (ht : word = "string" → TrueToken [t]
      [("kind", .choice word), ("value", .scalar s)]) :
        Placed [t] (.node .literalType (Token.cover [t]) .none
        [("kind", .choice word), ("value", .scalar s)]) := by
    apply Placed.node (List.cons_ne_nil t []) List.infix_rfl (by simp)
    intro _ v hv
    have hword : word = "string" := by simpa using congrArg List.head? hv
    exact ht hword v hv
  cases value with
  | string v =>
    apply node
    intro _ u hu
    obtain rfl : v = u := by simpa [str] using hu
    exact ⟨t, rfl, h v rfl⟩
  | truth b => cases b <;> exact node (by simp)
  | integer n => exact node (by simp)
  | symbol s => exact node (by simp)

end Outline

theorem tyOutlines_eq_map (ts : List Ty) : tyOutlines ts = ts.map Ty.outline := by
  induction ts with
  | nil => rfl
  | cons t ts ih => rw [tyOutlines, ih, List.map_cons]

def Field.outline (f : Field) : Outline :=
  .node .recordField f.location .none
    [("key", f.key.outline f.keyLocation), ("type", f.type.outline)]

theorem fieldOutlines_eq_map (fields : List Field) :
    fieldOutlines fields = fields.map Field.outline := by
  induction fields with
  | nil => rfl
  | cons f fields ih =>
    obtain ⟨location, keyLocation, key, type⟩ := f
    rw [fieldOutlines, ih, List.map_cons, Field.outline]

theorem paramOutlines_eq_map (ps : List Param) : paramOutlines ps = ps.map paramOutline := by
  induction ps with
  | nil => rfl
  | cons p ps ih => rw [paramOutlines, ih, List.map_cons]

theorem keywordOutlines_eq_map (ps : List (String × Param)) :
    keywordOutlines ps = ps.map fun p => (p.1, paramOutline p.2) := by
  induction ps with
  | nil => rfl
  | cons p ps ih => rw [keywordOutlines, ih, List.map_cons]

end RubySig
