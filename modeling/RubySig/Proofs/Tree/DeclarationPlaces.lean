import RubySig.Proofs.Outline.Printing
import RubySig.Proofs.Tree.DeclarationReads
import RubySig.Proofs.Tree.MemberPlaces

/-! Declarations and whole files have their places from the tokens that they are read from. -/
namespace RubySig

theorem Member.kind_ne_literal : (m : Member) → m.kind ≠ .literalType
  | .alias .. => by simp [kind]
  | .attribute access .. => by cases access <;> simp [kind, Access.kind]
  | .variable kind .. => by cases kind <;> simp [Member.kind, VariableKind.kind]
  | .mixin kind .. => by cases kind <;> simp [Member.kind, MixinKind.kind]
  | .visibility v => by cases v <;> simp [kind, Visibility.kind]
  | .method .. => by simp [kind]

theorem Declaration.kind_ne_literal (d : Declaration) : d.kind ≠ .literalType := by
  cases d <;> simp [kind]

namespace Grammar

open Outline (Placed Lined)

variable {c : Context} {s : State} {n fuel : Nat} {w : List Token} {scope : List String}

theorem leadOf_passes {ns : List Note} {start : Position} :
    Passes c s (leadOf ns start) fun w _ => w = [] := by
  intro lead s' h
  cases h
  exact ⟨[], ⟨rfl, rfl⟩, rfl⟩

theorem selfTypes_covers (hn : 4 * n + 4 ≤ fuel) (hs : s.tokens.length ≤ n) :
    Passes c s (selfTypes fuel scope) fun w rs => Lined w (rs.map ClassRef.outline) := by
  unfold selfTypes
  refine .eat_next (fun t s₁ _ h₁ => ?_) (.pure ⟨[], .refl s, .nil⟩)
  have := h₁.length
  have hne (w : List Token) (r : ClassRef) (h : Placed w r.outline) : w ≠ [] := h.ne_nil
  refine (separated_covers (classRef_covers hn) hne fuel (by omega)).imp ?_
  rintro rs s₂ ⟨w₂, h₂, hrs, -⟩
  exact ⟨_, h₁.trans h₂, hrs.right [t]⟩

theorem superclass_covers (hn : 4 * n + 4 ≤ fuel) (hs : s.tokens.length ≤ n) :
    Passes c s (show Parser (Option ClassRef) from do
      if ← eat (.mark .lt) then return some (← classRef .constant .superclassName fuel scope)
      else return none) fun w r => Placed w ((r.map ClassRef.outline).getD .null) := by
  refine .eat_next (fun t s₁ _ h₁ => ?_) (.pure ⟨[], .refl s, .scalar⟩)
  have := h₁.length
  refine (classRef_covers hn s₁ (by omega)).bind ?_
  rintro r s₂ ⟨w₂, h₂, hr⟩
  exact .pure ⟨_, h₁.trans h₂, hr.right [t]⟩

/-- What a declaration holds has its places from these tokens, at least one. -/
structure DeclarationPlaced (w : List Token) (d : Declaration) : Prop where
  nonempty : w ≠ []
  fields : ∀ f ∈ d.fields, Placed w f.2

theorem typeAlias_covers (hn : 4 * n + 4 ≤ fuel) (hs : s.tokens.length ≤ n) :
    Passes c s (typeAlias fuel scope) DeclarationPlaced := by
  unfold typeAlias
  refine typeName_covers.bind ?_
  rintro name s₁ ⟨w₁, h₁, hname⟩
  have := h₁.length
  refine (typeParams_covers hn (by omega)).bind ?_
  rintro ps s₂ ⟨w₂, h₂, hps⟩
  refine .expect_next fun t s₃ _ h₃ => ?_
  have := h₂.length
  have := h₃.length
  refine (type_covers hn s₃ (by omega)).bind ?_
  rintro u s₄ ⟨w₄, h₄, hu⟩
  refine .pure ⟨_, ((h₁.trans h₂).trans h₃).trans h₄, by simp, ?_⟩
  have hfields {w : List Token} (hname : Placed w name.outline) (hu : TyPlaced w u)
      (hps : Lined w (ps.map TypeParam.outline)) :
      ∀ f ∈ (Declaration.typeAlias name u ps).fields, Placed w f.2 := by
    simpa [Declaration.fields, Outline.ofList] using ⟨hname, hu, hps⟩
  apply hfields
  · exact ((hname.left w₂).left [t]).left w₄
  · exact Placed.right hu (w₁ ++ w₂ ++ [t])
  · exact ((hps.right w₁).left [t]).left w₄

theorem constant_covers (hn : 4 * n + 4 ≤ fuel) (hs : s.tokens.length ≤ n) :
    Passes c s (constant fuel scope) DeclarationPlaced := by
  unfold constant
  refine typeName_covers.bind ?_
  rintro name s₁ ⟨w₁, h₁, hname⟩
  refine .expect_next fun t s₂ _ h₂ => ?_
  have := h₁.length
  have := h₂.length
  refine (type_covers hn s₂ (by omega)).bind ?_
  rintro u s₃ ⟨w₃, h₃, hu⟩
  refine .pure ⟨_, (h₁.trans h₂).trans h₃, by simp, ?_⟩
  have hfields {w : List Token} (hname : Placed w name.outline) (hu : TyPlaced w u) :
      ∀ f ∈ (Declaration.constant name u).fields, Placed w f.2 := by
    simpa [Declaration.fields] using And.intro hname hu
  apply hfields
  · exact (hname.left [t]).left w₃
  · exact Placed.right hu (w₁ ++ [t])

/-- What reads declarations and bodies on at most `n` tokens. -/
structure ItemsPlaced (c : Context) (fuel : Nat) : Prop where
  declaration : ∀ n scope, 4 * n + 5 ≤ fuel →
    Covers c n (Grammar.declaration fuel scope) fun w item => Placed w item.outline
  body : ∀ n nested scope, 4 * n + 6 ≤ fuel →
    Covers c n (Grammar.body fuel nested scope) fun w items => Lined w (items.map Item.outline)

variable {nested : Bool}

/-- A body behind the heading of a declaration, up to and with its `end`. -/
theorem bodied_covers (h : ItemsPlaced c fuel) (hn : 4 * n + 4 ≤ fuel) (hs : s.tokens.length ≤ n)
    {w₁ : List Token} {s₁ : State} (h₁ : Passed w₁ s s₁) (hw₁ : 2 ≤ w₁.length)
    {build : List Item → Declaration} {what : Missing} (hbuild : ∀ items v,
      Lined v (items.map Item.outline) → ∀ f ∈ (build items).fields, Placed (w₁ ++ v) f.2) :
    Yields c s₁ (do
      let members ← body fuel nested scope
      expect (.keyword .end_) what
      return build members) fun d s' => ∃ w, Passed w s s' ∧ DeclarationPlaced w d := by
  have := h₁.length
  refine (h.body (n - 2) nested scope (by omega) s₁ (by omega)).bind ?_
  rintro items s₂ ⟨w₂, h₂, hitems⟩
  refine .expect_next fun t s₃ _ h₃ => .pure ⟨_, h₁.trans (h₂.trans h₃), by simp, ?_⟩
  exact hbuild items _ (hitems.left [t])

/-- The name and the type parameters of a declaration with a body, behind its keyword. -/
theorem heading_covers {segment : Segment} {role : Role} {t : Token} {s₁ : State}
    (hn : 4 * n + 4 ≤ fuel) (hs : s.tokens.length ≤ n) (h₁ : Passed [t] s s₁)
    {f : TypeName → List TypeParam → Parser Declaration}
    (k : ∀ name ps w s₂, Passed w s s₂ → 2 ≤ w.length → Placed w name.outline →
      Lined w (ps.map TypeParam.outline) →
      Yields c s₂ (f name ps) fun d s' => ∃ w, Passed w s s' ∧ DeclarationPlaced w d) :
    Yields c s₁ (do
      let name ← typeName segment role
      let ps ← typeParams fuel scope
      f name ps) fun d s' => ∃ w, Passed w s s' ∧ DeclarationPlaced w d := by
  refine typeName_covers.bind ?_
  rintro name s₂ ⟨w₂, h₂, hname⟩
  have := h₁.length_one
  have := h₂.length
  have := List.length_pos_iff.mpr hname.ne_nil
  refine (typeParams_covers hn (by omega)).bind ?_
  rintro ps s₃ ⟨w₃, h₃, hps⟩
  apply k name ps _ s₃ ((h₁.trans h₂).trans h₃)
  · simp
    omega
  · exact (hname.right [t]).left w₃
  · exact hps.right ([t] ++ w₂)

theorem declarationBody_covers (h : ItemsPlaced c fuel) (hn : 4 * n + 4 ≤ fuel)
    (hs : s.tokens.length ≤ n) :
    Passes c s (declarationBody fuel scope) DeclarationPlaced := by
  unfold declarationBody
  refine .peek_bind fun l hl => ?_
  split
  · refine .advance_next hl fun t s₁ _ h₁ => heading_covers hn hs h₁ ?_
    intro name ps w s₂ h₂ hw hname hps
    have := h₂.length
    refine (superclass_covers hn (by omega)).bind ?_
    rintro r s₃ ⟨w₃, h₃, hr⟩
    refine bodied_covers h hn hs (h₂.trans h₃) (by simp; omega) fun items v hitems => ?_
    have hfields {w : List Token} (hname : Placed w name.outline)
        (hps : Lined w (ps.map TypeParam.outline))
        (hr : Placed w ((r.map ClassRef.outline).getD .null))
        (hitems : Lined w (items.map Item.outline)) :
        ∀ f ∈ (Declaration.class_ name ps r items).fields, Placed w f.2 := by
      simpa [Declaration.fields, Outline.ofList, itemOutlines_eq_map] using ⟨hname, hps, hr, hitems⟩
    apply hfields
    · exact (hname.left w₃).left v
    · exact (hps.left w₃).left v
    · exact (hr.right w).left v
    · exact hitems.right (w ++ w₃)
  · refine .advance_next hl fun t s₁ _ h₁ => heading_covers hn hs h₁ ?_
    intro name ps w s₂ h₂ hw hname hps
    have := h₂.length
    refine (selfTypes_covers hn (by omega)).bind ?_
    rintro rs s₃ ⟨w₃, h₃, hrs⟩
    refine bodied_covers h hn hs (h₂.trans h₃) (by simp; omega) fun items v hitems => ?_
    have hfields {w : List Token} (hname : Placed w name.outline)
        (hps : Lined w (ps.map TypeParam.outline)) (hrs : Lined w (rs.map ClassRef.outline))
        (hitems : Lined w (items.map Item.outline)) :
        ∀ f ∈ (Declaration.module_ name ps rs items).fields, Placed w f.2 := by
      simpa [Declaration.fields, Outline.ofList, itemOutlines_eq_map] using ⟨hname,
        hps, hrs, hitems⟩
    apply hfields
    · exact (hname.left w₃).left v
    · exact (hps.left w₃).left v
    · exact (hrs.right w).left v
    · exact hitems.right (w ++ w₃)
  · refine .advance_next hl fun t s₁ _ h₁ => heading_covers hn hs h₁ ?_
    intro name ps w s₂ h₂ hw hname hps
    refine bodied_covers h hn hs h₂ hw fun items v hitems => ?_
    have hfields {w : List Token} (hname : Placed w name.outline)
        (hps : Lined w (ps.map TypeParam.outline)) (hitems : Lined w (items.map Item.outline)) :
        ∀ f ∈ (Declaration.interface name ps items).fields, Placed w f.2 := by
      simpa [Declaration.fields, Outline.ofList, itemOutlines_eq_map] using ⟨hname, hps, hitems⟩
    apply hfields
    · exact hname.left v
    · exact hps.left v
    · exact hitems.right w
  · refine .advance_next hl fun t s₁ _ h₁ => ?_
    have := h₁.length
    refine (typeAlias_covers hn (by omega)).imp ?_
    rintro a s₂ ⟨w₂, h₂, ha⟩
    exact ⟨_, h₁.trans h₂, by simp, fun f hf => (ha.fields f hf).right [t]⟩
  · exact constant_covers hn hs
  · exact constant_covers hn hs
  · refine .advance_next hl fun t s₁ _ h₁ => .expect_next fun u s₂ _ h₂ => ?_
    have := h₁.length
    have := h₂.length
    refine (type_covers hn s₂ (by omega)).bind ?_
    rintro a s₃ ⟨w₃, h₃, ha⟩
    refine .pure ⟨_, (h₁.trans h₂).trans h₃, by simp, ?_⟩
    have htype := Placed.right ha ([t] ++ [u])
    simpa [Declaration.fields] using htype
  · exact .failHere

theorem item_ne_nil {item : Item} (h : Placed w item.outline) : w ≠ [] := by
  cases item <;> exact h.ne_nil

theorem declaration_covers (h : ItemsPlaced c fuel) (hn : 4 * n + 4 ≤ fuel) :
    Covers c n (declaration (fuel + 1) scope) fun w item => Placed w item.outline := by
  intro s hs
  rw [declaration_succ]
  refine notes_passes.bind ?_
  rintro ns s₁ ⟨w₁, h₁, -⟩
  have := h₁.length
  refine .here_place ((declarationBody_covers h hn (by omega)).bind ?_)
  rintro a s₂ ⟨w₂, h₂, ha⟩
  refine .span_cover h₂ ha.nonempty (leadOf_passes.bind ?_)
  rintro lead s₃ ⟨_, h₃, rfl⟩
  refine .pure ⟨_, (h₁.trans h₂).trans h₃, ?_⟩
  have hplaced : Placed w₂ (Item.outline (.declaration (Token.cover w₂) lead a)) :=
    Placed.whole ha.nonempty a.kind_ne_literal ha.fields
  exact (hplaced.right w₁).left []

theorem bodyItem_covers (h : ItemsPlaced c fuel) (hn : 4 * n + 5 ≤ fuel)
    (hs : s.tokens.length ≤ n) :
    Passes c s (bodyItem fuel nested scope s) fun w item => Placed w item.outline := by
  unfold bodyItem
  refine notes_passes.bind ?_
  rintro ns s₁ ⟨w₁, h₁, -⟩
  refine .here_place (.peek_bind fun l hl => .ite (fun _ => ?_) fun _ => ?_)
  · -- A declaration is read from where its annotations start.
    exact h.declaration n scope hn s hs
  · have := h₁.length
    have hmember : 4 * n + 4 ≤ fuel := by omega
    refine (member_covers hmember (by omega)).bind ?_
    rintro m s₂ ⟨w₂, h₂, hw₂, hm⟩
    refine .span_cover h₂ hw₂ (leadOf_passes.bind ?_)
    rintro lead s₃ ⟨_, h₃, rfl⟩
    refine .pure ⟨_, (h₁.trans h₂).trans h₃, ?_⟩
    have hplaced : Placed w₂ (Item.outline (.member (Token.cover w₂) lead m)) :=
      Placed.whole hw₂ m.kind_ne_literal hm
    exact (hplaced.right w₁).left []

theorem body_covers (h : ItemsPlaced c fuel) (hn : 4 * n + 5 ≤ fuel) :
    Covers c n (body (fuel + 1) nested scope) fun w items => Lined w (items.map Item.outline) := by
  intro s hs
  rw [body_succ]
  refine .isNext_if (fun _ => .pure ⟨[], .refl s, .nil⟩) ?_
  refine .peek_bind fun l hl => .ite (fun _ => ?_) fun _ => ?_
  · exact .bind (P := fun _ _ => False) .failHere fun _ _ h => h.elim
  · refine .get_bind ((bodyItem_covers h hn hs).bind ?_)
    rintro item s₁ ⟨w₁, h₁, hitem⟩
    have := h₁.length
    have hw₁ : 0 < w₁.length := List.length_pos_iff.mpr (item_ne_nil hitem)
    refine (h.body (n - 1) nested scope (by omega) s₁ (by omega)).bind ?_
    rintro items s₂ ⟨w₂, h₂, hitems⟩
    exact .pure ⟨_, h₁.trans h₂, .front hitem hitems⟩

theorem items_placed (c : Context) (fuel : Nat) : ItemsPlaced c fuel := by
  induction fuel with
  | zero =>
    constructor <;> (intros; omega)
  | succ fuel ih =>
    constructor
    · exact fun n scope hn => declaration_covers ih (by omega)
    · exact fun n nested scope hn => body_covers ih (by omega)

theorem declarations_covers (hn : 4 * n + 5 ≤ fuel) (k : Nat) (hs : s.tokens.length ≤ n) :
    Passes c s (declarations fuel k) fun w items => Lined w (items.map Item.outline) := by
  induction k generalizing s with
  | zero =>
    unfold declarations
    exact .pure ⟨[], .refl s, .nil⟩
  | succ k ih =>
    unfold declarations
    refine .peek_bind fun l hl => .ite (fun _ => .pure ⟨[], .refl s, .nil⟩) fun _ => ?_
    refine ((items_placed c fuel).declaration n [] hn s hs).bind ?_
    rintro item s₁ ⟨w₁, h₁, hitem⟩
    have := h₁.length
    refine (ih (s := s₁) (by omega)).bind ?_
    rintro items s₂ ⟨w₂, h₂, hitems⟩
    exact .pure ⟨_, h₁.trans h₂, .front hitem hitems⟩

/-- The items of a file have their places from its tokens, one behind the other. -/
theorem file_lined {text : List Char} {scan : Lexer.Scan} {blocks left : List CommentBlock}
    {items : List Item} (h : file text scan blocks = .ok (items, left)) :
    Lined scan.tokens (items.map Item.outline) := by
  obtain ⟨rest, -, w, hpassed, hitems⟩ :=
    file_gives h (declarations_covers (fuel_suffices _) _ (Nat.le_refl _))
  have htokens : scan.tokens = w ++ rest.tokens := hpassed.tokens
  rw [htokens]
  exact hitems.left rest.tokens

end Grammar
end RubySig
