import RubySig.Proofs.SourceTiled
import RubySig.Proofs.Tree.DeclarationPlaces
import RubySig.Proofs.Tree.MemberSites

/-! The tokens of a file account for its sites. -/
namespace RubySig.Grammar

variable {c : Context} {s : State} {n fuel : Nat} {w : List Token} {scopes : List (List String)}

theorem selfTypes_sites (scopes : List (List String)) (hn : 4 * n + 4 ≤ fuel)
    (hs : s.tokens.length ≤ n) :
    Passes c s (selfTypes fuel scopes.flatten) fun w rs =>
      Accounts c.text w (rs.flatMap (ClassRef.sites scopes)) := by
  unfold selfTypes
  refine .eat_next (fun t s₁ ht h₁ => ?_) (.pure ⟨[], .refl s, .nil⟩)
  have := h₁.length
  refine (separated_sites rfl (classRef_sites hn) fuel (by omega)).imp ?_
  rintro rs s₂ ⟨w₂, h₂, -, hrs, -⟩
  exact ⟨_, h₁.trans h₂, hrs.right (.token ht rfl)⟩

theorem superclass_sites (scopes : List (List String)) (hn : 4 * n + 4 ≤ fuel)
    (hs : s.tokens.length ≤ n) :
    Passes c s (show Parser (Option ClassRef) from do
      if ← eat (.mark .lt) then
        return some (← classRef .constant .superclassName fuel scopes.flatten)
      else return none) fun w r =>
        Accounts c.text w (r.toList.flatMap (ClassRef.sites scopes)) := by
  refine .eat_next (fun t s₁ ht h₁ => ?_) (.pure ⟨[], .refl s, .nil⟩)
  have := h₁.length
  refine (classRef_sites hn s₁ (by omega)).bind ?_
  rintro r s₂ ⟨w₂, h₂, -, hr⟩
  have hsuper := (hr.append .nil).right (.token ht rfl)
  exact .pure ⟨_, h₁.trans h₂, by simpa using hsuper⟩

def DeclarationSited (text : List Char) (scopes : List (List String)) (w : List Token)
    (d : Declaration) : Prop := w ≠ [] ∧ Accounts text w (d.sites scopes)

theorem typeAlias_sites (hn : 4 * n + 4 ≤ fuel) (hs : s.tokens.length ≤ n) :
    Passes c s (typeAlias fuel scopes.flatten) (DeclarationSited c.text scopes) := by
  unfold typeAlias
  refine typeName_read.bind ?_
  rintro name s₁ ⟨w₁, h₁, hname⟩
  have := h₁.length
  refine (typeParams_sites hn (by omega)).bind ?_
  rintro ps s₂ ⟨w₂, h₂, hps⟩
  refine .expect_next fun t s₃ ht h₃ => ?_
  have := h₂.length
  have := h₃.length
  refine (type_sites (TypeParam.names ps :: scopes) hn s₃ (by omega)).bind ?_
  rintro u s₄ ⟨w₄, h₄, -, hu⟩
  refine .pure ⟨_, ((h₁.trans h₂).trans h₃).trans h₄, by simp, ?_⟩
  exact ((hps.right (.quiet fun _ => hname.plain)).left (.token ht rfl)).append hu

theorem constant_sites (hn : 4 * n + 4 ≤ fuel) (hs : s.tokens.length ≤ n) :
    Passes c s (constant fuel scopes.flatten) (DeclarationSited c.text scopes) := by
  unfold constant
  refine typeName_read.bind ?_
  rintro name s₁ ⟨w₁, h₁, hname⟩
  refine .expect_next fun t s₂ ht h₂ => ?_
  have := h₁.length
  have := h₂.length
  refine (type_sites scopes hn s₂ (by omega)).bind ?_
  rintro u s₃ ⟨w₃, h₃, -, hu⟩
  refine .pure ⟨_, (h₁.trans h₂).trans h₃, by simp, ?_⟩
  have hplain : Accounts c.text w₁ [] := .quiet fun _ => hname.plain
  exact hu.right (hplain.left (.token ht rfl))

/-- What reads declarations and bodies on at most `n` tokens. -/
structure ItemsSited (c : Context) (fuel : Nat) : Prop where
  declaration : ∀ n scopes, 4 * n + 5 ≤ fuel → Covers c n (Grammar.declaration fuel scopes.flatten)
    fun w item => w ≠ [] ∧ Accounts c.text w (item.sites scopes)
  body : ∀ n nested scopes, 4 * n + 6 ≤ fuel → Covers c n (Grammar.body fuel nested scopes.flatten)
    fun w items => Accounts c.text w (Item.sitesAll scopes items)

variable {nested : Bool}

/-- The name and the type parameters of a declaration with a body, behind its keyword. -/
theorem heading_sites (hn : 4 * n + 4 ≤ fuel) (hs : s.tokens.length ≤ n)
    {segment : Segment} {role : Role}
    {t : Token} {k : Keyword} {s₁ : State} (ht : t.lexeme = .keyword k) (h₁ : Passed [t] s s₁)
    {f : TypeName → List TypeParam → Parser Declaration}
    (h : ∀ name ps w s₂, Passed w s s₂ → 2 ≤ w.length →
      Accounts c.text w (TypeParam.sites scopes [] ps) →
      Yields c s₂ (f name ps) fun d s' => ∃ w, Passed w s s' ∧ DeclarationSited c.text scopes w d) :
    Yields c s₁ (do
      let name ← typeName segment role
      let ps ← typeParams fuel scopes.flatten
      f name ps) fun d s' => ∃ w, Passed w s s' ∧ DeclarationSited c.text scopes w d := by
  refine typeName_read.bind ?_
  rintro name s₂ ⟨w₂, h₂, hname⟩
  have := h₁.length_one
  have := h₂.length
  have := List.length_pos_iff.mpr hname.nonempty
  refine (typeParams_sites hn (by omega)).bind ?_
  rintro ps s₃ ⟨w₃, h₃, hps⟩
  have hplain : Accounts c.text w₂ [] := .quiet fun _ => hname.plain
  apply h name ps _ s₃ ((h₁.trans h₂).trans h₃)
  · simp
    omega
  · exact hps.right (hplain.right (.token ht rfl))

/-- A body behind the heading of a declaration, up to and with its `end`. -/
theorem bodied_sites (h : ItemsSited c fuel) (hn : 4 * n + 4 ≤ fuel) (hs : s.tokens.length ≤ n)
    {w₁ : List Token} {s₁ : State} (h₁ : Passed w₁ s s₁) (hw₁ : 2 ≤ w₁.length)
    (inside : List (List String)) {build : List Item → Declaration} {what : Missing}
    (hbuild : ∀ items v, Accounts c.text v (Item.sitesAll inside items) →
      Accounts c.text (w₁ ++ v) ((build items).sites scopes)) :
    Yields c s₁ (do
      let members ← body fuel nested inside.flatten
      expect (.keyword .end_) what
      return build members) fun d s' =>
        ∃ w, Passed w s s' ∧ DeclarationSited c.text scopes w d := by
  have := h₁.length
  refine (h.body (n - 2) nested inside (by omega) s₁ (by omega)).bind ?_
  rintro items s₂ ⟨w₂, h₂, hitems⟩
  refine .expect_next fun t s₃ ht h₃ => .pure ⟨_, h₁.trans (h₂.trans h₃), by simp, ?_⟩
  exact hbuild items _ (hitems.left (.token ht rfl))

theorem declarationBody_sites (h : ItemsSited c fuel) (hn : 4 * n + 4 ≤ fuel)
    (hs : s.tokens.length ≤ n) :
    Passes c s (declarationBody fuel scopes.flatten) (DeclarationSited c.text scopes) := by
  unfold declarationBody
  refine .peek_bind fun l hl => ?_
  split
  · refine .advance_next hl fun t s₁ ht h₁ =>
      heading_sites hn hs ht h₁ fun name ps w s₂ h₂ hw hps => ?_
    have := h₂.length
    refine (superclass_sites (TypeParam.names ps :: scopes) hn (by omega)).bind ?_
    rintro r s₃ ⟨w₃, h₃, hr⟩
    refine bodied_sites h hn hs (h₂.trans h₃) (by simp; omega) (TypeParam.names ps :: scopes)
      fun items v hitems => ?_
    exact (hps.append hr).append hitems
  · refine .advance_next hl fun t s₁ ht h₁ =>
      heading_sites hn hs ht h₁ fun name ps w s₂ h₂ hw hps => ?_
    have := h₂.length
    refine (selfTypes_sites (TypeParam.names ps :: scopes) hn (by omega)).bind ?_
    rintro rs s₃ ⟨w₃, h₃, hrs⟩
    refine bodied_sites h hn hs (h₂.trans h₃) (by simp; omega) (TypeParam.names ps :: scopes)
      fun items v hitems => ?_
    exact (hps.append hrs).append hitems
  · refine .advance_next hl fun t s₁ ht h₁ =>
      heading_sites hn hs ht h₁ fun name ps w s₂ h₂ hw hps => ?_
    refine bodied_sites h hn hs h₂ hw (TypeParam.names ps :: scopes) fun items v hitems => ?_
    exact hps.append hitems
  · refine .advance_next hl fun t s₁ ht h₁ => ?_
    have := h₁.length
    refine (typeAlias_sites hn (by omega)).imp ?_
    rintro a s₂ ⟨w₂, h₂, -, ha⟩
    exact ⟨_, h₁.trans h₂, by simp, ha.right (.token ht rfl)⟩
  · exact constant_sites hn hs
  · exact constant_sites hn hs
  · refine .advance_next hl fun t s₁ ht h₁ => .expect_next fun u s₂ hu h₂ => ?_
    have := h₁.length
    have := h₂.length
    refine (type_sites scopes hn s₂ (by omega)).bind ?_
    rintro a s₃ ⟨w₃, h₃, -, ha⟩
    refine .pure ⟨_, (h₁.trans h₂).trans h₃, by simp, ?_⟩
    exact ha.right (Accounts.left (.token ht rfl) (.token hu rfl))
  · exact .failHere

theorem declaration_sites (h : ItemsSited c fuel) (hn : 4 * n + 4 ≤ fuel) :
    Covers c n (declaration (fuel + 1) scopes.flatten) fun w item =>
      w ≠ [] ∧ Accounts c.text w (item.sites scopes) := by
  intro s hs
  rw [declaration_succ]
  refine notes_sites.bind ?_
  rintro ns s₁ ⟨w₁, h₁, hw₁⟩
  have := h₁.length
  refine .here_place ((declarationBody_sites h hn (by omega)).bind ?_)
  rintro a s₂ ⟨w₂, h₂, hw₂, ha⟩
  refine .span_cover h₂ hw₂ (leadOf_passes.bind ?_)
  rintro lead s₃ ⟨_, h₃, rfl⟩
  exact .pure ⟨_, (h₁.trans h₂).trans h₃, by simp [hw₂], (ha.right hw₁).left .nil⟩

theorem bodyItem_sites (h : ItemsSited c fuel) (hn : 4 * n + 5 ≤ fuel) (hs : s.tokens.length ≤ n) :
    Passes c s (bodyItem fuel nested scopes.flatten s) fun w item =>
      w ≠ [] ∧ Accounts c.text w (item.sites scopes) := by
  unfold bodyItem
  refine notes_sites.bind ?_
  rintro ns s₁ ⟨w₁, h₁, hw₁⟩
  refine .here_place (.peek_bind fun l hl => .ite (fun _ => ?_) fun _ => ?_)
  · -- A declaration is read from where its annotations start.
    exact h.declaration n scopes hn s hs
  · have := h₁.length
    have hmember : 4 * n + 4 ≤ fuel := by omega
    refine (member_sites hmember (by omega)).bind ?_
    rintro m s₂ ⟨w₂, h₂, hw₂, hm⟩
    refine .span_cover h₂ hw₂ (leadOf_passes.bind ?_)
    rintro lead s₃ ⟨_, h₃, rfl⟩
    exact .pure ⟨_, (h₁.trans h₂).trans h₃, by simp [hw₂], (hm.right hw₁).left .nil⟩

theorem body_sites (h : ItemsSited c fuel) (hn : 4 * n + 5 ≤ fuel) :
    Covers c n (body (fuel + 1) nested scopes.flatten) fun w items =>
      Accounts c.text w (Item.sitesAll scopes items) := by
  intro s hs
  rw [body_succ]
  have hnil : Accounts c.text [] (Item.sitesAll scopes []) := by
    rw [Item.sitesAll]
    exact .nil
  refine .isNext_if (fun _ => .pure ⟨[], .refl s, hnil⟩) ?_
  refine .peek_bind fun l hl => .ite (fun _ => ?_) fun _ => ?_
  · exact .bind (P := fun _ _ => False) .failHere fun _ _ h => h.elim
  · refine .get_bind ((bodyItem_sites h hn hs).bind ?_)
    rintro item s₁ ⟨w₁, h₁, hw₁, hitem⟩
    have := h₁.length
    have := List.length_pos_iff.mpr hw₁
    refine (h.body (n - 1) nested scopes (by omega) s₁ (by omega)).bind ?_
    rintro items s₂ ⟨w₂, h₂, hitems⟩
    have hboth : Accounts c.text (w₁ ++ w₂) (Item.sitesAll scopes (item :: items)) := by
      rw [Item.sitesAll]
      exact hitem.append hitems
    exact .pure ⟨_, h₁.trans h₂, hboth⟩

theorem items_sited (c : Context) (fuel : Nat) : ItemsSited c fuel := by
  induction fuel with
  | zero =>
    constructor <;> (intros; omega)
  | succ fuel ih =>
    constructor
    · exact fun n scopes hn => declaration_sites ih (by omega)
    · exact fun n nested scopes hn => body_sites ih (by omega)

/-- Declarations take all tokens, if there is one for each token at most. -/
theorem declarations_sites (hn : 4 * n + 5 ≤ fuel) (k : Nat) (hs : s.tokens.length ≤ n)
    (hk : s.tokens.length < k) : Yields c s (declarations fuel k) fun items _ =>
      Accounts c.text s.tokens (Item.sitesAll [] items) := by
  induction k generalizing s with
  | zero => omega
  | succ k ih =>
    unfold declarations
    refine .peek_bind fun l hl => .ite (fun hnone => .pure ?_) fun _ => ?_
    · have hempty : s.tokens = [] := by
        rw [← hl] at hnone
        simpa using hnone
      rw [hempty, Item.sitesAll]
      exact .nil
    refine ((items_sited c fuel).declaration n [] hn s hs).bind ?_
    rintro item s₁ ⟨w₁, h₁, hw₁, hitem⟩
    have := h₁.length
    have := List.length_pos_iff.mpr hw₁
    refine (ih (s := s₁) (by omega) (by omega)).bind ?_
    intro items s₂ hitems
    refine .pure ?_
    rw [h₁.tokens, Item.sitesAll]
    exact hitem.append hitems

theorem file_sites {text : List Char} {scan : Lexer.Scan} {blocks left : List CommentBlock}
    {items : List Item} (h : file text scan blocks = .ok (items, left)) :
    Accounts text scan.tokens (Item.sitesAll [] items) := by
  have hmore : scan.tokens.length < fuelFor scan.tokens.length := by
    have := fuel_suffices scan.tokens.length
    omega
  obtain ⟨rest, -, hitems⟩ :=
    file_gives h (declarations_sites (fuel_suffices _) _ (Nat.le_refl _) hmore)
  exact hitems

end RubySig.Grammar

namespace RubySig

theorem Lexer.scan_genuine {text : List Char} {scan : Scan} (h : Lexer.scan text = .ok scan) :
    Grammar.Genuine text scan.tokens where
  stands := scan_sound h
  order := by
    have htiles : scan.Tiles text 0 := scanFrom_tiles _ (.start text) [] (Nat.le_refl _) rfl h
    refine (List.pairwise_map.mp htiles.tokens).imp_of_mem fun {t u} ht _ hbefore => ?_
    have hmem : t.range ∈ scan.ranges := List.mem_append_left _ (List.mem_map_of_mem ht)
    exact Nat.le_trans (Nat.le_of_lt (htiles.spread.stands _ hmem).nonempty) hbefore

/-- The tokens of a file that can be read account for the sites of its tree. -/
theorem Root.read_sites {source : String} {root : Root} (h : (Root.read source).result = .ok root) :
    ∃ scan, Lexer.scan source.toList = .ok scan ∧ Grammar.Accounted scan.tokens root.sites := by
  obtain ⟨scan, left, hscan, hfile, -, -⟩ := Root.read_ok h
  exact ⟨scan, hscan, Grammar.file_sites hfile (Lexer.scan_genuine hscan)⟩

end RubySig
