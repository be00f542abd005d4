import RubySig.Proofs.Tree.TyReads

/-!
The levels of precedence on which types are read, and the theorem that printed types are read back
on them.
-/
namespace RubySig

/-- The level of precedence that a type is printed on. -/
def Ty.level (wrap : Bool) : Ty → Nat
  | .union _ _ => if wrap then 0 else 3
  | .intersection _ _ => if wrap then 0 else 2
  | .optional _ type => if type.openSymbol?.isSome then 0 else 1
  | _ => 0

/-- The level of what a type ends with. -/
def Ty.openLevel (wrap : Bool) : Ty → Nat
  | .proc _ _ _ => if wrap then 0 else 1
  | _ => 0

namespace Grammar

open Format (wordsOf tyPieces tysPieces alternativesPieces parenthesizedPieces)
open Format.Piece (mark)

variable {c : Context} {d : Format.Context} {f g : Showing} {scope : List String}
  {R : Ty → Prop} {fuel : Nat}

theorem intercalate_append {α : Type} (sep : List α) {xs ys : List (List α)} (hx : xs ≠ [])
    (hy : ys ≠ []) :
    sep.intercalate (xs ++ ys) = sep.intercalate xs ++ (sep ++ sep.intercalate ys) := by
  induction xs with
  | nil => exact absurd rfl hx
  | cons x xs ih =>
    cases xs with
    | nil =>
      cases ys with
      | nil => exact absurd rfl hy
      | cons y ys => simp [List.intercalate_cons_cons]
    | cons x' xs =>
      rw [List.cons_append, List.cons_append, List.intercalate_cons_cons, ← List.cons_append,
        ih (by simp), List.intercalate_cons_cons, List.append_assoc, List.append_assoc,
        List.append_assoc]

theorem length_le_intercalate {α : Type} (sep : List α) {xs : List α} {xss : List (List α)}
    (h : xs ∈ xss) : xs.length ≤ (sep.intercalate xss).length := by
  induction xss with
  | nil => cases h
  | cons ys yss ih =>
    cases yss with
    | nil =>
      obtain rfl := List.mem_singleton.mp h
      simp
    | cons zs yss =>
      rw [List.intercalate_cons_cons, List.length_append, List.length_append]
      rcases List.mem_cons.mp h with rfl | h
      · omega
      · have := ih h
        omega

theorem count_le_intercalate {α : Type} (x : α) (xss : List (List α)) :
    xss.length ≤ ([x].intercalate xss).length + 1 := by
  induction xss with
  | nil => simp
  | cons xs xss ih =>
    cases xss with
    | nil => simp
    | cons ys xss =>
      rw [List.intercalate_cons_cons, List.length_append, List.length_append, List.length_cons]
      simp only [List.length_singleton]
      omega

theorem intercalate_last {α : Type} (sep : List α) {xss : List (List α)} {xs : List α}
    (h : xs ∈ xss.getLast?) : ∃ front, sep.intercalate xss = front ++ xs := by
  induction xss with
  | nil => cases h
  | cons ys yss ih =>
    cases yss with
    | nil =>
      cases h
      exact ⟨[], by simp⟩
    | cons zs yss =>
      rw [List.getLast?_cons_cons] at h
      obtain ⟨front, hf⟩ := ih h
      exact ⟨ys ++ sep ++ front, by rw [List.intercalate_cons_cons, hf]; simp⟩

theorem Bound.last {level : Nat} {sep : List Word} {wss : List (List Word)} {x : List Lexeme}
    (h : Bound level (sep.intercalate wss) x) (hne : ∀ ws ∈ wss, ws ≠ []) :
    ∀ ws ∈ wss.getLast?, Bound level ws x := by
  intro ws hws
  obtain ⟨front, hf⟩ := intercalate_last sep hws
  rw [hf] at h
  exact h.of_last (hne ws (List.mem_of_mem_getLast? hws))

/-- One level of types with a mark between them. -/
def layer (m : Mark) (build : Option Span → List Ty → Ty) (item : Parser Ty) (fuel : Nat) :
    Parser Ty := do
  let start ← here
  match ← separated (.mark m) item fuel with
  | [t] => return t
  | types => return build (← spanFrom start) types

theorem type_succ (fuel : Nat) (scope : List String) :
    Grammar.type (fuel + 1) scope = layer .pipe .union (intersection fuel scope) fuel := rfl

theorem intersection_succ (fuel : Nat) (scope : List String) :
    intersection (fuel + 1) scope = layer .ampersand .intersection (optionalType fuel scope) fuel :=
  rfl

section Layer

variable {m : Mark} {build : Option Span → List Ty → Ty} {item : Parser Ty} {low level : Nat}

theorem reads_layer_one {ws : List Word} (hm : ∀ x, Bound level ws x → x.head? ≠ some (.mark m))
    (hlow : low ≤ level) (h : Reads c item ws (Bound low ws) R) (hf : 1 ≤ fuel) :
    Reads c (layer m build item fuel) ws (Bound level ws) R := by
  unfold layer
  refine .here_bind fun start => ?_
  obtain ⟨k, rfl⟩ : ∃ k, fuel = k + 1 := ⟨fuel - 1, by omega⟩
  rw [separated, ← List.append_nil ws, bind_assoc]
  refine h.bind (fun a ha => ?_) fun x hx => ?_
  · rw [bind_assoc]
    exact .eat_miss (fun x hx => hm x (by simpa using hx)) (.pure ha)
  · simpa using hx.mono hlow

theorem reads_layer {S : Ty → Ty → Prop} (hlow : low ≤ level)
    (hm : ∀ ws x, Bound level ws x → x.head? ≠ some (.mark m))
    (hsep : ∀ ws x, Bound low ws (.mark m :: x)) {wss : List (List Word)} {ts : List Ty}
    (h : List.Forall₂ (fun ws t => Reads c item ws (Bound low ws) (S t)) wss ts)
    (hne : ∀ ws ∈ wss, ws ≠ []) (hlen : 2 ≤ ts.length) (hf : wss.length ≤ fuel)
    (hR : ∀ l as, List.Forall₂ S ts as → R (build l as)) :
    Reads c (layer m build item fuel) ([(.mark m, m.text.toList)].intercalate wss)
      (Bound level ([(.mark m, m.text.toList)].intercalate wss)) R := by
  unfold layer
  refine .here_bind fun start => ?_
  have hwss : wss ≠ [] := by
    rintro rfl
    cases h
    cases hlen
  rw [← List.append_nil (List.intercalate _ _)]
  refine (reads_separated (w := m.text.toList) (N := fun ws => Bound low ws) hsep h hwss
    (m := Bound level ([(.mark m, m.text.toList)].intercalate wss)) (fun ws hws x hx =>
      (hx.last hne ws hws).mono hlow) (fun x hx => hm _ x hx) fuel hf).bind (fun as has => ?_)
      fun x hx => by simpa using hx
  have hlas : 2 ≤ as.length := has.length_eq ▸ hlen
  match as, hlas, has with
  | a :: b :: as, _, has => exact .span_bind fun l => .pure (hR l _ has)

end Layer

theorem wordsOf_alternatives (m : Mark) (pss : List (List Format.Piece)) :
    wordsOf (alternativesPieces m pss) =
      [(.mark m, m.text.toList)].intercalate (pss.map wordsOf) := by
  rw [alternativesPieces, wordsOf_intercalate]
  rfl

/-- The words of a type that is printed without parentheses. -/
def bareWords (d : Format.Context) (t : Ty) : List Word := wordsOf (tyPieces d false t)

theorem words_union (l : Option Span) (wrap : Bool) (ts : List Ty) :
    wordsOf (tyPieces d wrap (.union l ts)) = wordsOf (parenthesizedPieces wrap
      (alternativesPieces .pipe (tysPieces d wrap ts))) := by
  rw [tyPieces]

theorem branches_ne_nil {source : List Char} : (t : Ty) → t.Formed scope source → t.branches ≠ []
  | .union _ [], h => absurd h.1 (by decide)
  | .union _ (t :: ts), h => by
    rw [Ty.branches, Ty.branchesAll]
    exact fun he => branches_ne_nil t h.2.1 (List.append_eq_nil_iff.mp he).1
  | .base _ _, _ => by simp [Ty.branches]
  | .variable _ _, _ => by simp [Ty.branches]
  | .classInstance _ _ _, _ => by simp [Ty.branches]
  | .interface _ _ _, _ => by simp [Ty.branches]
  | .alias _ _ _, _ => by simp [Ty.branches]
  | .classSingleton _ _, _ => by simp [Ty.branches]
  | .optional _ _, _ => by simp [Ty.branches]
  | .intersection _ _, _ => by simp [Ty.branches]
  | .tuple _ _, _ => by simp [Ty.branches]
  | .record _ _, _ => by simp [Ty.branches]
  | .literal _ _, _ => by simp [Ty.branches]
  | .proc _ _ _, _ => by simp [Ty.branches]

mutual

/-- A type without parentheses reads as its branches with bars between them. -/
theorem words_branches {source : List Char} : (t : Ty) → t.Formed scope source →
    bareWords d t = [(.mark .pipe, Mark.pipe.text.toList)].intercalate
      (t.branches.map (bareWords d))
  | .union l ts, h => by
    rw [bareWords, words_union, parenthesizedPieces, if_neg Bool.false_ne_true,
      wordsOf_alternatives, tysPieces_eq_map, List.map_map]
    exact words_branchesAll ts h.2
  | .base _ _, _ => by simp [Ty.branches]
  | .variable _ _, _ => by simp [Ty.branches]
  | .classInstance _ _ _, _ => by simp [Ty.branches]
  | .interface _ _ _, _ => by simp [Ty.branches]
  | .alias _ _ _, _ => by simp [Ty.branches]
  | .classSingleton _ _, _ => by simp [Ty.branches]
  | .optional _ _, _ => by simp [Ty.branches]
  | .intersection _ _, _ => by simp [Ty.branches]
  | .tuple _ _, _ => by simp [Ty.branches]
  | .record _ _, _ => by simp [Ty.branches]
  | .literal _ _, _ => by simp [Ty.branches]
  | .proc _ _ _, _ => by simp [Ty.branches]

theorem words_branchesAll {source : List Char} : (ts : List Ty) → Ty.FormedAll scope source ts →
    [(.mark .pipe, Mark.pipe.text.toList)].intercalate (ts.map (bareWords d)) =
      [(.mark .pipe, Mark.pipe.text.toList)].intercalate ((Ty.branchesAll ts).map (bareWords d))
  | [], _ => rfl
  | [t], h => by
    rw [List.map_singleton, List.intercalate_singleton, words_branches t h.1, Ty.branchesAll,
      Ty.branchesAll, List.append_nil]
  | t :: u :: ts, h => by
    have hrest := words_branchesAll (u :: ts) h.2
    have ht : t.branches.map (bareWords d) ≠ [] := by simpa using branches_ne_nil t h.1
    have hu : (Ty.branchesAll (u :: ts)).map (bareWords d) ≠ [] := by
      rw [Ty.branchesAll, List.map_append]
      exact fun he => branches_ne_nil u h.2.1 (by simpa using (List.append_eq_nil_iff.mp he).1)
    rw [Ty.branchesAll, List.map_append,
      intercalate_append _ ht hu, ← hrest, ← words_branches t h.1,
      List.map_cons, List.map_cons, List.intercalate_cons_cons, List.append_assoc]

end

mutual

theorem formed_branches {source : List Char} : (t : Ty) → t.Formed scope source →
    ∀ b ∈ t.branches, b.Formed scope source ∧ b.isUnion = false
  | .union _ ts, h => formed_branchesAll ts h.2
  | .base _ _, h => by simpa [Ty.branches, Ty.isUnion] using h
  | .variable _ _, h => by simpa [Ty.branches, Ty.isUnion] using h
  | .classInstance _ _ _, h => by simpa [Ty.branches, Ty.isUnion] using h
  | .interface _ _ _, h => by simpa [Ty.branches, Ty.isUnion] using h
  | .alias _ _ _, h => by simpa [Ty.branches, Ty.isUnion] using h
  | .classSingleton _ _, h => by simpa [Ty.branches, Ty.isUnion] using h
  | .optional _ _, h => by simpa [Ty.branches, Ty.isUnion] using h
  | .intersection _ _, h => by simpa [Ty.branches, Ty.isUnion] using h
  | .tuple _ _, h => by simpa [Ty.branches, Ty.isUnion] using h
  | .record _ _, h => by simpa [Ty.branches, Ty.isUnion] using h
  | .literal _ _, h => by simpa [Ty.branches, Ty.isUnion] using h
  | .proc _ _ _, h => by simpa [Ty.branches, Ty.isUnion] using h

theorem formed_branchesAll {source : List Char} : (ts : List Ty) → Ty.FormedAll scope source ts →
    ∀ b ∈ Ty.branchesAll ts, b.Formed scope source ∧ b.isUnion = false
  | [], _ => by simp [Ty.branchesAll]
  | t :: ts, h => by
    intro b hb
    rcases List.mem_append.mp hb with hb | hb
    · exact formed_branches t h.1 b hb
    · exact formed_branchesAll ts h.2 b hb

end

theorem length_branchesAll {source : List Char} (ts : List Ty) (h : Ty.FormedAll scope source ts) :
    ts.length ≤ (Ty.branchesAll ts).length := by
  induction ts with
  | nil => exact Nat.le_refl 0
  | cons t ts ih =>
    have hlen := ih h.2
    have ht := List.length_pos_of_ne_nil (branches_ne_nil t h.1)
    rw [Ty.branchesAll, List.length_append, List.length_cons]
    omega

end Grammar
end RubySig
