import RubySig.Proofs.Tree.CommentPlaces
import RubySig.Proofs.Tree.MemberYields

/-!
Declarations that are read are of the shapes that the grammar builds, and each comment block is
attached once or left.
-/
namespace RubySig

namespace Grammar

variable {c : Context} {s : State} {n fuel : Nat} {scope : List String}

/-- At least `k` tokens are gone, and the blocks that items have taken. -/
structure Attaches (k : Nat) (s s' : State) (items : List Item) : Prop where
  tokens : s'.tokens.length + k ≤ s.tokens.length
  suffix : s'.tokens <:+ s.tokens
  taken : CommentBlock.Attached s.blocks items s'.blocks

theorem Within.attaches {k : Nat} {s' : State} (h : Within k s s') : Attaches k s s' [] :=
  ⟨h.tokens, h.suffix, by rw [h.blocks]; exact .nil⟩

theorem Attaches.trans {k m : Nat} {s₁ s₂ : State} {front back : List Item}
    (h : Attaches k s s₁ front) (h' : Attaches m s₁ s₂ back) :
    Attaches (k + m) s s₂ (front ++ back) := by
  have := h.tokens
  have := h'.tokens
  exact ⟨by omega, h'.suffix.trans h.suffix, h.taken.append h'.taken⟩

theorem Attaches.le {k m : Nat} {s' : State} {items : List Item} (h : Attaches k s s' items)
    (hm : m ≤ k) : Attaches m s s' items := by
  have := h.tokens
  exact ⟨by omega, h.suffix, h.taken⟩

theorem Standing.attached {k : Nat} {s' : State} {items : List Item} (hg : Standing c s)
    (h : Attaches k s s' items) : Standing c s' :=
  fun t ht => hg t (h.suffix.subset ht)

/-- The place of an item starts where it does. -/
theorem span_start {start : Position} : Yields c s (spanFrom start) fun location s' =>
    s' = s ∧ ∃ stop, location = some (.between start stop) := by
  intro location s' h
  obtain ⟨tokens, last, blocks⟩ := s
  cases last with
  | none =>
    cases h
    exact ⟨rfl, start, rfl⟩
  | some t =>
    cases h
    exact ⟨rfl, t.stop, rfl⟩

/-- An item takes the block right above it. -/
theorem leadOf_yields {ns : List Note} {start : Position} :
    Yields c s (leadOf ns start) fun lead s' => lead.notes = ns ∧ ∀ (item : Item) (stop : Position),
      item.lead = lead → item.location = some (.between start stop) → Attaches 0 s s' [item] := by
  intro lead s' h
  refine ⟨by cases h; rfl, fun item stop hlead hlocation => ?_⟩
  have hattached {line : Nat} (htop : item.topLine = line)
      (hcomment : item.lead.comment = (CommentBlock.takeAbove line s.blocks).1.map (·.comment)) :
      CommentBlock.Attached s.blocks [item] (CommentBlock.takeAbove line s.blocks).2 := by
    subst htop
    exact .single hcomment
  have htop : item.topLine =
      (Lead.firstLine ⟨none, lead.notes⟩ (some (.between start stop))).toNat := by
    rw [Item.topLine, hlead, hlocation]
  obtain _ | ⟨⟨text, location⟩, ns⟩ := ns
  · cases h
    exact ⟨Nat.le_refl _, List.suffix_rfl, hattached htop (congrArg Lead.comment hlead)⟩
  · cases location <;> cases h <;>
      exact ⟨Nat.le_refl _, List.suffix_rfl, hattached htop (congrArg Lead.comment hlead)⟩

/-- A declaration, read with the comments inside it; the token of a global variable starts no
declaration of a body. -/
def FineDeclaration (c : Context) (scope : List String) (s : State) (a : Declaration) (s' : State) :
    Prop :=
  a.Formed scope c.text ∧ (a.isGlobal = true → ∀ l ∈ s.tokens.head?.map (·.lexeme),
    startsDeclaration l = false) ∧ Attaches 1 s s' a.finished

/-- A declaration with what is written above it. -/
def FineTop (c : Context) (scope : List String) (s : State) (item : Item) (s' : State) : Prop :=
  (∃ location lead a, item = .declaration location lead a ∧ lead.Formed c.text ∧
    a.Formed scope c.text ∧
    ∀ ns s₁, notes c s = .ok (ns, s₁) → a.isGlobal = true → ∀ l ∈ s₁.tokens.head?.map (·.lexeme),
      startsDeclaration l = false) ∧ Attaches 1 s s' item.finished

/-- An item of a body, read with the comments above and inside it. -/
def FineItem (c : Context) (nested : Bool) (scope : List String) (s : State) (item : Item)
    (s' : State) : Prop :=
  item.Formed nested scope c.text ∧ Attaches 1 s s' item.finished

def FineItems (c : Context) (nested : Bool) (scope : List String) (s : State) (items : List Item)
    (s' : State) : Prop :=
  Item.FormedAll nested scope c.text items ∧ Attaches 0 s s' (Item.allFinished items)

variable {nested : Bool}

/-- What reads declarations and bodies on at most `n` tokens. -/
structure ItemsGiven (c : Context) (fuel : Nat) : Prop where
  declaration : ∀ n scope s, 4 * n + 5 ≤ fuel → s.tokens.length ≤ n → Standing c s →
    Yields c s (Grammar.declaration fuel scope) (FineTop c scope s)
  body : ∀ n nested scope s, 4 * n + 6 ≤ fuel → s.tokens.length ≤ n → Standing c s →
    Yields c s (Grammar.body fuel nested scope) (FineItems c nested scope s)

theorem selfTypes_yields (hn : 4 * n + 4 ≤ fuel) (hs : s.tokens.length ≤ n) (hg : Standing c s) :
    Yields c s (selfTypes fuel scope) fun rs s' =>
      (∀ r ∈ rs, r.Formed scope c.text) ∧ Within 0 s s' := by
  unfold selfTypes
  refine .eat_if (fun s₁ h₁ => ?_) fun s₁ h₁ => .pure ⟨by simp, h₁⟩
  have := h₁.tokens
  refine (separated_yields (classRef_gives (.inr rfl) hn) fuel (by omega) (hg.behind h₁)).imp ?_
  rintro rs s₂ ⟨hrs, _, h₂⟩
  exact ⟨fun r hr => (hrs r hr).2, (h₁.trans h₂).le (by omega)⟩

theorem superclass_yields (hn : 4 * n + 4 ≤ fuel) (hs : s.tokens.length ≤ n) (hg : Standing c s) :
    Yields c s (show Parser (Option ClassRef) from do
      if ← eat (.mark .lt) then return some (← classRef .constant .superclassName fuel scope)
      else return none) fun r s' =>
        (∀ p ∈ r, p.name.Formed .constant ∧ Ty.FormedAll scope c.text p.args) ∧ Within 0 s s' := by
  refine .eat_if (fun s₁ h₁ => ?_) fun s₁ h₁ => .pure ⟨by simp, h₁⟩
  have := h₁.tokens
  refine (classRef_gives (.inl rfl) hn s₁ (by omega) (hg.behind h₁)).bind ?_
  rintro r s₂ ⟨⟨hname, hr⟩, h₂⟩
  refine .pure ⟨?_, (h₁.trans h₂).le (by omega)⟩
  rintro _ ⟨⟩
  exact ⟨hname.constant, hr.args⟩

/-- The name and the type parameters of a declaration, in front of more. -/
theorem heading_yields {segment : Segment} {role : Role} (hn : 4 * n + 4 ≤ fuel)
    (hs : s.tokens.length ≤ n) (hg : Standing c s) {s₁ : State} (h₁ : Within 1 s s₁)
    {f : TypeName → List TypeParam → Parser Declaration} {Q : Declaration → State → Prop}
    (k : ∀ name ps s₂, segment.Ends name → TypeParam.FormedAll scope c.text ps → Within 2 s s₂ →
      Yields c s₂ (f name ps) Q) : Yields c s₁ (do
        let name ← typeName segment role
        let ps ← typeParams fuel scope
        f name ps) Q := by
  refine (typeName_yields (hg.behind h₁)).bind ?_
  rintro name s₂ ⟨hname, h₂⟩
  have := h₁.tokens
  have := h₂.tokens
  refine (typeParams_yields hn (by omega) (hg.behind (h₁.trans h₂))).bind ?_
  rintro ps s₃ ⟨hps, h₃⟩
  exact k name ps s₃ hname hps ((h₁.trans h₂).trans h₃)

/-- A body behind the heading of a declaration, up to and with its `end`. -/
theorem bodied_yields (h : ItemsGiven c fuel) (hn : 4 * n + 4 ≤ fuel) (hs : s.tokens.length ≤ n)
    (hg : Standing c s) {s₁ : State} (h₁ : Within 2 s s₁) {inner : List String}
    {build : List Item → Declaration} {what : Missing}
    (hformed : ∀ items, Item.FormedAll nested inner c.text items →
      (build items).Formed scope c.text)
    (hglobal : ∀ items, (build items).isGlobal = false)
    (hfinished : ∀ items, (build items).finished = Item.allFinished items) :
    Yields c s₁ (do
      let members ← body fuel nested inner
      expect (.keyword .end_) what
      return build members) (FineDeclaration c scope s) := by
  have := h₁.tokens
  refine (h.body (n - 2) nested inner s₁ (by omega) (by omega) (hg.behind h₁)).bind ?_
  rintro items s₂ ⟨hitems, h₂⟩
  refine .expect_bind fun s₃ h₃ => .pure ⟨hformed items hitems, fun hg => ?_, ?_⟩
  · rw [hglobal] at hg
    cases hg
  · rw [hfinished, ← List.append_nil (Item.allFinished items)]
    exact ((h₁.attaches.trans h₂).trans h₃.attaches).le (by omega)

theorem declarationBody_yields (h : ItemsGiven c fuel) (hn : 4 * n + 4 ≤ fuel)
    (hs : s.tokens.length ≤ n) (hg : Standing c s) :
    Yields c s (declarationBody fuel scope) (FineDeclaration c scope s) := by
  have hconstant : Yields c s (constant fuel scope) (FineDeclaration c scope s) := by
    unfold constant
    refine (typeName_yields hg).bind ?_
    rintro name s₁ ⟨hname, h₁⟩
    refine .expect_bind fun s₂ h₂ => ?_
    have := h₁.tokens
    have := h₂.tokens
    refine (type_formed hn s₂ (by omega) (hg.behind (h₁.trans h₂))).bind ?_
    rintro t s₃ ⟨ht, h₃⟩
    refine .pure ⟨⟨hname.constant, ht⟩, (fun hglobal => by cases hglobal), ?_⟩
    exact (((h₁.trans h₂).trans h₃).le (by omega)).attaches
  unfold declarationBody
  refine .peek_bind fun l hl => ?_
  split
  · refine .advance_bind (by omega) (tokens_of_peek hl) fun s₁ h₁ => ?_
    refine heading_yields hn hs hg h₁ fun name ps s₂ hname hps h₂ => ?_
    have := h₂.tokens
    refine (superclass_yields hn (by omega) (hg.behind h₂)).bind ?_
    rintro r s₃ ⟨hr, h₃⟩
    exact bodied_yields h hn hs hg (h₂.trans h₃)
      (fun items hitems => ⟨hname.constant, hps, hr, hitems⟩)
      (fun _ => rfl) fun _ => rfl
  · refine .advance_bind (by omega) (tokens_of_peek hl) fun s₁ h₁ => ?_
    refine heading_yields hn hs hg h₁ fun name ps s₂ hname hps h₂ => ?_
    have := h₂.tokens
    refine (selfTypes_yields hn (by omega) (hg.behind h₂)).bind ?_
    rintro rs s₃ ⟨hrs, h₃⟩
    exact bodied_yields h hn hs hg (h₂.trans h₃)
      (fun items hitems => ⟨hname.constant, hps, hrs, hitems⟩)
      (fun _ => rfl) fun _ => rfl
  · refine .advance_bind (by omega) (tokens_of_peek hl) fun s₁ h₁ => ?_
    refine heading_yields hn hs hg h₁ fun name ps s₂ hname hps h₂ => ?_
    exact bodied_yields h hn hs hg h₂ (fun items hitems => ⟨hname.interface, hps, hitems⟩)
      (fun _ => rfl) fun _ => rfl
  · refine .advance_bind (by omega) (tokens_of_peek hl) fun s₁ h₁ => ?_
    unfold typeAlias
    refine heading_yields hn hs hg h₁ fun name ps s₂ hname hps h₂ => .expect_bind fun s₃ h₃ => ?_
    have := h₂.tokens
    have := h₃.tokens
    refine (type_formed hn s₃ (by omega) (hg.behind (h₂.trans h₃))).bind ?_
    rintro t s₄ ⟨ht, h₄⟩
    refine .pure ⟨⟨hname.identifier, hps, ht⟩, (fun hglobal => by cases hglobal), ?_⟩
    exact (((h₂.trans h₃).trans h₄).le (by omega)).attaches
  · exact hconstant
  · exact hconstant
  case _ name =>
    obtain ⟨w, hw⟩ := hg.next hl
    refine .advance_any fun s₁ h₁ => .expect_bind fun s₂ h₂ => ?_
    have := h₁.tokens
    have := h₂.tokens
    refine (type_formed hn s₂ (by omega) (hg.behind (h₁.trans h₂))).bind ?_
    rintro t s₃ ⟨ht, h₃⟩
    refine .pure ⟨⟨hw.2, ht⟩, fun _ l hfirst =>
      ?_, (((h₁.trans h₂).trans h₃).le (by omega)).attaches⟩
    rw [hl] at hfirst
    cases hfirst
    rfl
  · exact .failHere

theorem declaration_yields (h : ItemsGiven c fuel) (hn : 4 * n + 4 ≤ fuel)
    (hs : s.tokens.length ≤ n) (hg : Standing c s) :
    Yields c s (declaration (fuel + 1) scope) (FineTop c scope s) := by
  rw [declaration_succ]
  refine .bind_run fun ns s₁ hnotes => ?_
  obtain ⟨hns, h₁⟩ := notes_yields hg ns s₁ hnotes
  refine .here_bind fun start => ?_
  have := h₁.tokens
  refine (declarationBody_yields h hn (by omega) (hg.behind h₁)).bind ?_
  rintro a s₂ ⟨ha, hglobal, h₂⟩
  refine span_start.bind ?_
  rintro location _ ⟨rfl, stop, rfl⟩
  refine leadOf_yields.bind ?_
  rintro lead s₃ ⟨hlead, h₃⟩
  refine .pure ⟨⟨_, lead, a, rfl, fun n hm => hns n (hlead ▸ hm), ha, fun ns' s' hnotes' => ?_⟩, ?_⟩
  · rw [hnotes] at hnotes'
    cases hnotes'
    exact hglobal
  · exact ((h₁.attaches.trans h₂).trans (h₃ (.declaration _ lead a) stop rfl rfl)).le (by omega)

theorem bodyItem_yields (h : ItemsGiven c fuel) (hn : 4 * n + 5 ≤ fuel) (hs : s.tokens.length ≤ n)
    (hg : Standing c s) :
    Yields c s (bodyItem fuel nested scope s) (FineItem c nested scope s) := by
  unfold bodyItem
  refine .bind_run fun ns s₁ hnotes => ?_
  obtain ⟨hns, h₁⟩ := notes_yields hg ns s₁ hnotes
  refine .here_bind fun start => .peek_bind fun l hl => ?_
  refine .ite (fun hstart => ?_) fun _ => ?_
  · -- A declaration is read from where its annotations start.
    refine Yields.imp (h.declaration n scope s hn hs hg) ?_
    rintro item s' ⟨⟨location, lead, a, rfl, hlead, ha, hglobal⟩, h'⟩
    rw [Bool.and_eq_true] at hstart
    refine ⟨⟨hstart.1, ?_, hlead, ha⟩, h'⟩
    have hstarts := hstart.2
    cases l with
    | none => cases hstarts
    | some l =>
      rw [Bool.eq_false_iff]
      intro hg
      have hnone := hglobal ns s₁ hnotes hg l hl
      rw [Option.map_some, Option.getD_some, hnone] at hstarts
      cases hstarts
  · have := h₁.tokens
    have hmember : 4 * n + 4 ≤ fuel := by omega
    refine (member_yields hmember (by omega) (hg.behind h₁)).bind ?_
    rintro m s₂ ⟨hm, h₂⟩
    refine span_start.bind ?_
    rintro location _ ⟨rfl, stop, rfl⟩
    refine leadOf_yields.bind ?_
    rintro lead s₃ ⟨hlead, h₃⟩
    refine .pure ⟨⟨fun n hmem => hns n (hlead ▸ hmem), hm⟩, ?_⟩
    exact ((h₁.trans h₂).attaches.trans (h₃ (.member _ lead m) stop rfl rfl)).le (by omega)

theorem body_yields (h : ItemsGiven c fuel) (hn : 4 * n + 5 ≤ fuel) (hs : s.tokens.length ≤ n)
    (hg : Standing c s) :
    Yields c s (body (fuel + 1) nested scope) (FineItems c nested scope s) := by
  rw [body_succ]
  refine .isNext_if (fun _ => .pure ⟨trivial, (Within.refl s).attaches⟩) (.peek_bind fun l hl => ?_)
  refine .ite (fun _ => ?_) fun _ => ?_
  · exact .bind (P := fun _ _ => False) .failHere fun _ _ h => h.elim
  · refine .get_bind ((bodyItem_yields h hn hs hg).bind ?_)
    rintro item s₁ ⟨hitem, h₁⟩
    have := h₁.tokens
    refine (h.body (n - 1) nested scope s₁ (by omega) (by omega) (hg.attached h₁)).bind ?_
    rintro items s₂ ⟨hitems, h₂⟩
    exact .pure ⟨⟨hitem, hitems⟩, (h₁.trans h₂).le (by omega)⟩

theorem items_given (c : Context) (fuel : Nat) : ItemsGiven c fuel := by
  induction fuel with
  | zero =>
    constructor <;> (intros; omega)
  | succ fuel ih =>
    constructor
    · exact fun n scope s hn hs hg => declaration_yields ih (by omega) hs hg
    · exact fun n nested scope s hn hs hg => body_yields ih (by omega) hs hg

theorem declarations_yields (hn : 4 * n + 5 ≤ fuel) (k : Nat) (hs : s.tokens.length ≤ n)
    (hg : Standing c s) : Yields c s (declarations fuel k) fun items s' =>
      (∀ item ∈ items, item.FormedTop c.text) ∧ Attaches 0 s s' (Item.allFinished items) := by
  induction k generalizing s with
  | zero => exact .pure ⟨by simp, (Within.refl s).attaches⟩
  | succ k ih =>
    unfold declarations
    refine .peek_bind fun l hl =>
      .ite (fun _ => .pure ⟨by simp, (Within.refl s).attaches⟩) fun _ => ?_
    refine ((items_given c fuel).declaration n [] s hn hs hg).bind ?_
    rintro item s₁ ⟨⟨location, lead, a, rfl, hlead, ha, -⟩, h₁⟩
    have := h₁.tokens
    refine (ih (s := s₁) (by omega) (hg.attached h₁)).bind ?_
    rintro items s₂ ⟨hitems, h₂⟩
    exact .pure ⟨List.forall_mem_cons.mpr ⟨⟨hlead, ha⟩, hitems⟩, (h₁.trans h₂).le (by omega)⟩

/-- A file that is read is of the shape of the grammar, and its items take the blocks above them as
they end. -/
theorem file_yields {text : List Char} {scan : Lexer.Scan} {blocks left : List CommentBlock}
    {items : List Item} (hg : ∀ t ∈ scan.tokens, t.In text)
    (h : file text scan blocks = .ok (items, left)) :
    (∀ item ∈ items, item.FormedTop text) ∧
      CommentBlock.Attached blocks (Item.allFinished items) left := by
  obtain ⟨rest, rfl, hitems, -, -, htaken⟩ :=
    file_gives h (declarations_yields (fuel_suffices _) _ (Nat.le_refl _) hg)
  exact ⟨hitems, htaken⟩

end Grammar

/-- A text that is read is a tree of the shape of the grammar, whose items take the comment blocks
above them. -/
theorem Root.read_attached {source : String} {root : Root}
    (h : (Root.read source).result = .ok root) :
    ∃ scan left, Lexer.scan source.toList = .ok scan ∧ root.Formed source.toList ∧
      CommentBlock.Attached (CommentBlock.ofLines (scan.comments.filter (·.alone)))
        root.finished left ∧
      (Root.read source).warnings =
        CommentBlock.trailing scan.comments ++ CommentBlock.detached left := by
  obtain ⟨scan, left, hscan, hfile, -, hwarnings⟩ := Root.read_ok h
  obtain ⟨hitems, hattached⟩ := Grammar.file_yields (Lexer.scan_sound hscan) hfile
  exact ⟨scan, left, hscan, hitems, hattached, hwarnings⟩

theorem Root.read_formed {source : String} {root : Root}
    (h : (Root.read source).result = .ok root) :
    root.Formed source.toList := by
  obtain ⟨-, -, -, hformed, -⟩ := Root.read_attached h
  exact hformed

/-- A text that is read is a well-formed tree with the comment blocks that are not warned of. -/
theorem Root.read_yields {source : String} {root : Root}
    (h : (Root.read source).result = .ok root) :
    ∃ scan left taken, Lexer.scan source.toList = .ok scan ∧ root.isWellFormed = true ∧
      (taken.map CommentBlock.comment).Perm root.comments ∧
      (taken ++ left).Perm (CommentBlock.ofLines (scan.comments.filter (·.alone))) ∧
      (Root.read source).warnings =
        CommentBlock.trailing scan.comments ++ CommentBlock.detached left := by
  obtain ⟨scan, left, hscan, hformed, hattached, hwarnings⟩ := Root.read_attached h
  obtain ⟨taken, htaken, hblocks⟩ := hattached.perm
  refine ⟨scan, left, taken, hscan, Root.Formed.isWellFormed hformed, ?_, hblocks, hwarnings⟩
  rw [htaken]
  exact (Item.allFinished_perm root.declarations).filterMap _

end RubySig
