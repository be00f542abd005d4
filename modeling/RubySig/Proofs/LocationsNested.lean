import RubySig.Proofs.SourceTiled
import RubySig.Proofs.Tree.DeclarationPlaces

/-!
The places of nodes. In a tree that was read, each node stands where tokens start and end, inside
the node above it and behind the nodes before it in its list, and a string stands where its token
does.
-/
namespace RubySig

namespace Span

/-- A range from the start of one token to the end of another, with the lines and columns of its
offsets. -/
structure Exact (text : List Char) (tokens : List Token) (s : Span) : Prop where
  nonempty : s.startOffset < s.endOffset
  inside : 0 ≤ s.startOffset ∧ s.endOffset ≤ text.length
  start : ∃ t ∈ tokens, s.startOffset = t.start.offset
  stop : ∃ t ∈ tokens, s.endOffset = t.stop.offset
  lines : s = .between (.at text s.startOffset.toNat) (.at text s.endOffset.toNat)

def Inside (s t : Span) : Prop := t.startOffset ≤ s.startOffset ∧ s.endOffset ≤ t.endOffset

def Before (s t : Span) : Prop := s.endOffset ≤ t.startOffset

end Span

namespace Outline

def location? : Outline → Option Span
  | .node _ location _ _ => location
  | _ => none

def fields : Outline → List (String × Outline)
  | .node _ _ _ fields => fields
  | _ => []

mutual

/-- The nodes at and below a value. -/
def nodes : Outline → List Outline
  | .node kind location lead fields => .node kind location lead fields :: fieldNodes fields
  | .list items => itemNodes items
  | .table entries => fieldNodes entries
  | _ => []

def itemNodes : List Outline → List Outline
  | [] => []
  | o :: os => o.nodes ++ itemNodes os

def fieldNodes : List (String × Outline) → List Outline
  | [] => []
  | (_, o) :: os => o.nodes ++ fieldNodes os

end

def descendants (o : Outline) : List Outline := fieldNodes o.fields

/-- The nodes right below a node stand inside it, those of one field one behind the other. -/
structure Nested (o : Outline) : Prop where
  inside : ∀ f ∈ o.fields, ∀ child ∈ held f.2,
    ∃ s t, child.location? = some s ∧ o.location? = some t ∧ s.Inside t
  ordered : ∀ f ∈ o.fields, (held f.2).Pairwise fun a b =>
    ∃ s t, a.location? = some s ∧ b.location? = some t ∧ s.Before t

end Outline

/-- Tokens that are not empty, each behind the one before it. -/
structure Token.InOrder (tokens : List Token) : Prop where
  nonempty : ∀ t ∈ tokens, t.start.offset < t.stop.offset
  before : tokens.Pairwise fun a b => a.stop.offset ≤ b.start.offset

namespace Token.InOrder

variable {w m : List Token}

theorem of_infix (h : InOrder w) (hm : m <:+: w) : InOrder m where
  nonempty := fun t ht => h.nonempty t (hm.subset ht)
  before := h.before.sublist hm.sublist

theorem bounds {t : Token} {ts : List Token} (h : InOrder (t :: ts)) :
    ts.getLastD t ∈ t :: ts ∧ ∀ u ∈ t :: ts,
      t.start.offset ≤ u.start.offset ∧ u.stop.offset ≤ (ts.getLastD t).stop.offset := by
  induction ts generalizing t with
  | nil => simp
  | cons v ts ih =>
    obtain ⟨hlast, hbounds⟩ := ih (h.of_infix (List.suffix_cons t (v :: ts)).isInfix)
    have ht := h.nonempty t List.mem_cons_self
    have hv := h.nonempty v (List.mem_cons_of_mem t List.mem_cons_self)
    have htv := List.rel_of_pairwise_cons h.before List.mem_cons_self
    have hstop := (hbounds v List.mem_cons_self).2
    rw [List.getLastD_cons]
    constructor
    · exact List.mem_cons_of_mem t hlast
    · rw [List.forall_mem_cons]
      constructor
      · omega
      · intro u hu
        have := hbounds u hu
        omega

/-- The range that tokens cover goes from one of them to one of them, and none is outside. -/
theorem cover (h : InOrder w) (hw : w ≠ []) : ∃ t ∈ w, ∃ u ∈ w,
    Token.cover w = some (.between t.start u.stop) ∧
      ∀ x ∈ w, t.start.offset ≤ x.start.offset ∧ x.stop.offset ≤ u.stop.offset := by
  cases w with
  | nil => exact absurd rfl hw
  | cons t ts =>
    obtain ⟨hlast, hbounds⟩ := h.bounds
    exact ⟨t, List.mem_cons_self, ts.getLastD t, hlast, rfl, hbounds⟩

/-- Of two stretches one inside the other, the inner one covers a range inside that of the outer
one. -/
theorem cover_inside (h : InOrder w) (hm : m <:+: w) (hne : m ≠ []) : ∃ s t : Span,
    Token.cover m = some s ∧ Token.cover w = some t ∧ s.Inside t := by
  have hw : w ≠ [] := by
    rintro rfl
    exact hne (List.infix_nil.mp hm)
  obtain ⟨t, ht, u, hu, hcover, -⟩ := (h.of_infix hm).cover hne
  obtain ⟨t', -, u', -, hcover', hbounds⟩ := h.cover hw
  refine ⟨_, _, hcover, hcover', ?_, ?_⟩
  · exact Int.ofNat_le.mpr (hbounds t (hm.subset ht)).1
  · exact Int.ofNat_le.mpr (hbounds u (hm.subset hu)).2

/-- Of two stretches one behind the other, the second one covers a range behind that of the
first. -/
theorem cover_before {a b v : List Token} (h : InOrder (a ++ b)) (hm : m <:+: a) (hne : m ≠ [])
    (hv : v <:+: b) (hne' : v ≠ []) : ∃ s t : Span,
    Token.cover m = some s ∧ Token.cover v = some t ∧ s.Before t := by
  have ha : a <:+: a ++ b := (List.prefix_append a b).isInfix
  have hb : b <:+: a ++ b := (List.suffix_append a b).isInfix
  obtain ⟨t, -, u, hu, hcover, -⟩ := (h.of_infix (hm.trans ha)).cover hne
  obtain ⟨t', ht', u', -, hcover', -⟩ := (h.of_infix (hv.trans hb)).cover hne'
  have hbefore := (List.pairwise_append.mp h.before).2.2 u (hm.subset hu) t' (hv.subset ht')
  exact ⟨_, _, hcover, hcover', Int.ofNat_le.mpr hbefore⟩

end Token.InOrder

namespace Outline

variable {w v : List Token} {o : Outline} {os : List Outline}

theorem Lined.forall (h : Lined w os) : ∀ o ∈ os, Placed w o := by
  induction os generalizing w with
  | nil => simp
  | cons o os ih =>
    cases h with
    | cons hab ho hos =>
      rw [List.forall_mem_cons]
      constructor
      · exact (ho.left _).mono hab
      · intro p hp
        exact ((ih hos p hp).right _).mono hab

theorem Lined.pairwise (h : Lined w os) :
    os.Pairwise fun o p => ∃ a b, a ++ b <:+: w ∧ Placed a o ∧ Placed b p := by
  induction os generalizing w with
  | nil => exact .nil
  | cons o os ih =>
    cases h with
    | @cons _ a b _ _ hab ho hos =>
      rw [List.pairwise_cons]
      constructor
      · intro p hp
        exact ⟨a, b, hab, ho, hos.forall p hp⟩
      · apply (ih hos).imp
        rintro p q ⟨x, y, hxy, hp, hq⟩
        exact ⟨x, y, (hxy.trans (List.suffix_append a b).isInfix).trans hab, hp, hq⟩

mutual

theorem nodes_placed : (o : Outline) → Placed w o → ∀ n ∈ o.nodes, n.isNode = true ∧ Placed w n
  | .node kind location lead fields, h => by
    rw [nodes, List.forall_mem_cons]
    constructor
    · exact ⟨rfl, h⟩
    · exact fieldNodes_placed fields h.field
  | .list items, h => itemNodes_placed items (placed_list_iff.mp h).forall
  | .table entries, h => by
    apply fieldNodes_placed entries
    intro f hf
    exact (placed_table_iff.mp h).forall f.2 (List.mem_map_of_mem hf)
  | .scalar _, _ | .choice _, _ | .notes _, _ => by simp [nodes]

theorem itemNodes_placed : (os : List Outline) → (∀ o ∈ os, Placed w o) →
    ∀ n ∈ itemNodes os, n.isNode = true ∧ Placed w n
  | [], _ => by simp [itemNodes]
  | o :: os, h => by
    rw [itemNodes, List.forall_mem_append]
    constructor
    · exact nodes_placed o (h o List.mem_cons_self)
    · exact itemNodes_placed os fun p hp => h p (List.mem_cons_of_mem o hp)

theorem fieldNodes_placed : (os : List (String × Outline)) → (∀ f ∈ os, Placed w f.2) →
    ∀ n ∈ fieldNodes os, n.isNode = true ∧ Placed w n
  | [], _ => by simp [fieldNodes]
  | (name, o) :: os, h => by
    rw [fieldNodes, List.forall_mem_append]
    constructor
    · exact nodes_placed o (h (name, o) List.mem_cons_self)
    · exact fieldNodes_placed os fun f hf => h f (List.mem_cons_of_mem _ hf)

end

theorem held_placed (h : Placed w o) : ∀ child ∈ held o, child.isNode = true ∧ Placed w child := by
  intro child hchild
  cases h with
  | scalar | choice | notes => cases hchild
  | list h =>
    obtain ⟨hmem, hnode⟩ := List.mem_filter.mp hchild
    exact ⟨hnode, h.forall child hmem⟩
  | table h =>
    obtain ⟨hmem, hnode⟩ := List.mem_filter.mp hchild
    exact ⟨hnode, h.forall child hmem⟩
  | node hne hm hf ht =>
    obtain rfl := List.mem_singleton.mp hchild
    exact ⟨rfl, .node hne hm hf ht⟩

/-- A node that has its place from some tokens covers a stretch of them. -/
theorem Placed.covers (h : Placed w o) (hnode : o.isNode = true) :
    ∃ m, m ≠ [] ∧ m <:+: w ∧ o.location? = Token.cover m := by
  cases h with
  | node hne hm => exact ⟨_, hne, hm, rfl⟩
  | _ => cases hnode

theorem Lined.ordered (hw : Token.InOrder w) (h : Lined w os) :
    (os.filter isNode).Pairwise fun a b =>
      ∃ s t, a.location? = some s ∧ b.location? = some t ∧ s.Before t := by
  rw [List.pairwise_filter]
  apply h.pairwise.imp
  rintro o p ⟨a, b, hab, ho, hp⟩ hnode hnode'
  obtain ⟨m, hne, hm, hlocation⟩ := ho.covers hnode
  obtain ⟨m', hne', hm', hlocation'⟩ := hp.covers hnode'
  rw [hlocation, hlocation']
  exact (hw.of_infix hab).cover_before hm hne hm' hne'

theorem held_ordered (hw : Token.InOrder w) (h : Placed w o) : (held o).Pairwise fun a b =>
    ∃ s t, a.location? = some s ∧ b.location? = some t ∧ s.Before t := by
  cases h with
  | scalar | choice | notes => exact .nil
  | list h => exact h.ordered hw
  | table h => exact h.ordered hw
  | node hne hm hf ht => exact List.pairwise_singleton _ _

/-- In a node that has its place from tokens in order, places are nested. -/
theorem Placed.nested (hw : Token.InOrder w) (h : Placed w o) : o.Nested := by
  cases h with
  | @node _ m kind lead fields hne hm hf ht =>
    have hm : Token.InOrder m := hw.of_infix hm
    constructor
    · intro f hmem child hchild
      obtain ⟨hnode, hplaced⟩ := held_placed (hf f hmem) child hchild
      obtain ⟨m', hne', hm', hlocation⟩ := hplaced.covers hnode
      rw [hlocation]
      exact hm.cover_inside hm' hne'
    · intro f hmem
      exact held_ordered hm (hf f hmem)
  | _ => constructor <;> simp [Outline.fields]

end Outline

open Outline (Placed)

theorem Lexer.Scan.Tiles.inOrder {text : List Char} {scan : Lexer.Scan} (h : scan.Tiles text 0) :
    Token.InOrder scan.tokens where
  nonempty := by
    intro t ht
    exact (h.spread.stands t.range (List.mem_append_left _ (List.mem_map_of_mem ht))).nonempty
  before := List.pairwise_map.mp h.tokens

/-- What tokens cover is an exact range. -/
theorem Lexer.Scan.Tiles.exact {text : List Char} {scan : Lexer.Scan} (h : scan.Tiles text 0)
    {m : List Token} (hm : m <:+: scan.tokens) (hne : m ≠ []) :
    ∃ s, Token.cover m = some s ∧ s.Exact text scan.tokens := by
  have stands (t : Token) (ht : t ∈ m) : t.range.Stands text :=
    h.spread.stands t.range (List.mem_append_left _ (List.mem_map_of_mem (hm.subset ht)))
  obtain ⟨t, ht, u, hu, hcover, hbounds⟩ := (h.inOrder.of_infix hm).cover hne
  have hstart := stands t ht
  have hstop := stands u hu
  have hlt : t.start.offset < u.stop.offset :=
    Nat.lt_of_lt_of_le hstart.nonempty (hbounds t ht).2
  refine ⟨_, hcover, ?_⟩
  constructor
  · exact Int.ofNat_lt.mpr hlt
  · exact ⟨Int.natCast_nonneg _, Int.ofNat_le.mpr hstop.inside⟩
  · exact ⟨t, hm.subset ht, rfl⟩
  · exact ⟨u, hm.subset hu, rfl⟩
  · exact congrArg₂ Span.between hstart.start hstop.stop

theorem Root.read_lined {source : String} {root : Root} (h : (Root.read source).result = .ok root) :
    ∃ scan, Lexer.scan source.toList = .ok scan ∧
      root.location = some (Root.wholeSpan source.toList scan) ∧
      Outline.Lined scan.tokens (root.declarations.map Item.outline) := by
  obtain ⟨scan, left, hscan, hfile, hlocation, -⟩ := Root.read_ok h
  exact ⟨scan, hscan, hlocation, Grammar.file_lined hfile⟩

/-- The place of a string literal is that of its token, which is a quoted text. -/
theorem string_placed {text : List Char} {scan : Lexer.Scan} (h : Lexer.scan text = .ok scan)
    {v : String} {location : Option Span}
    (hplaced : Placed scan.tokens ((Literal.string v).outline location)) :
    ∃ t ∈ scan.tokens, t.lexeme = .string v ∧ location = some (.between t.start t.stop) ∧
      ∃ q body, (q = '"' ∨ q = '\'') ∧
        (Span.between t.start t.stop).slice text = q :: body ++ [q] := by
  obtain ⟨t, ht, hlexeme, hlocation⟩ : ∃ t ∈ scan.tokens, t.lexeme = .string v ∧
      location = some (.between t.start t.stop) := by
    cases hplaced with
    | node hne hm hf ht =>
      obtain ⟨t, rfl, hlexeme⟩ := ht rfl v rfl
      exact ⟨t, hm.subset List.mem_cons_self, hlexeme, rfl⟩
  have htaken := (Lexer.scan_sound h t ht).taken
  rw [hlexeme] at htaken
  obtain ⟨q, body, hslice, hquotes⟩ := htaken
  exact ⟨t, ht, hlexeme, hlocation, q, body, hquotes.quote, hslice⟩

/-- What is read has its declarations placed on its tokens, and the place of all the text. -/
theorem Root.read_placed {source : String} {root : Root}
    (h : (Root.read source).result = .ok root) :
    ∃ scan, Lexer.scan source.toList = .ok scan ∧ scan.Tiles source.toList 0 ∧
      root.location = some (Root.wholeSpan source.toList scan) ∧
      ∀ f ∈ root.outline.fields, Placed scan.tokens f.2 := by
  obtain ⟨scan, hscan, hlocation, hlined⟩ := Root.read_lined h
  have htiles : scan.Tiles source.toList 0 :=
    Lexer.scanFrom_tiles _ (.start source.toList) [] (Nat.le_refl _) rfl hscan
  refine ⟨scan, hscan, htiles, hlocation, ?_⟩
  simpa [Root.outline, Outline.fields, itemOutlines_eq_map] using hlined

/-- In every tree that is read, each node below the root stands exactly where some tokens do, nodes
are nested, and a string literal has the place of its token. -/
theorem locations_nested (source : String) (root : Root)
    (h : (Root.read source).result = .ok root) :
    ∃ scan, Lexer.scan source.toList = .ok scan ∧
      (∀ n ∈ root.outline.descendants,
        ∃ s, n.location? = some s ∧ s.Exact source.toList scan.tokens) ∧
      (∀ n ∈ root.outline.nodes, n.Nested) ∧
      ∀ v location, (Literal.string v).outline location ∈ root.outline.nodes →
        ∃ t ∈ scan.tokens, t.lexeme = .string v ∧ location = some (.between t.start t.stop) ∧
          ∃ q body, (q = '"' ∨ q = '\'') ∧
            (Span.between t.start t.stop).slice source.toList = q :: body ++ [q] := by
  obtain ⟨scan, hscan, htiles, hlocation, hplaced⟩ := Root.read_placed h
  have hbelow : ∀ n ∈ root.outline.descendants, n.isNode = true ∧ Placed scan.tokens n :=
    Outline.fieldNodes_placed root.outline.fields hplaced
  have hexact : ∀ n, n.isNode = true → Placed scan.tokens n →
      ∃ s, n.location? = some s ∧ s.Exact source.toList scan.tokens := by
    intro n hnode hn
    obtain ⟨m, hne, hm, hm'⟩ := hn.covers hnode
    rw [hm']
    exact htiles.exact hm hne
  -- The root itself has the place of the whole text, not that of its tokens.
  have hroot : root.outline.Nested := by
    constructor
    · intro f hf child hchild
      obtain ⟨hnode, hn⟩ := Outline.held_placed (hplaced f hf) child hchild
      obtain ⟨s, hs, he⟩ := hexact child hnode hn
      exact ⟨s, _, hs, hlocation, he.inside⟩
    · intro f hf
      exact Outline.held_ordered htiles.inOrder (hplaced f hf)
  have hnodes : root.outline.nodes = root.outline :: root.outline.descendants := rfl
  refine ⟨scan, hscan, ?_, ?_, ?_⟩
  · intro n hn
    obtain ⟨hnode, hn⟩ := hbelow n hn
    exact hexact n hnode hn
  · rw [hnodes, List.forall_mem_cons]
    constructor
    · exact hroot
    · intro n hn
      exact (hbelow n hn).2.nested htiles.inOrder
  · intro v location hmem
    rw [hnodes] at hmem
    obtain heq | hmem := List.mem_cons.mp hmem
    · cases heq
    · exact string_placed hscan (hbelow _ hmem).2

/-- A method with a keyword, a block, parentheses, a record and a string over two lines. -/
def placedSource : String :=
  "class A\n  def f: (?k: \"x\ny\") ?\x7b (A | (B)) -> \x7b a: [C?] \x7d \x7d -> ^() -> D\nend\n"

theorem locations_nested_sample : ∃ root, (Root.read placedSource).result = .ok root ∧
    root.outline.nodes.length = 28 ∧ (∀ n ∈ root.outline.nodes, n.Nested) ∧
    ∃ scan, Lexer.scan placedSource.toList = .ok scan ∧ ∀ n ∈ root.outline.descendants,
      ∃ s, n.location? = some s ∧ s.Exact placedSource.toList scan.tokens := by
  have hread : ((Root.read placedSource).result.toOption.map fun root =>
      root.outline.nodes.length) = some 28 := by
    decide +kernel
  cases h : (Root.read placedSource).result with
  | error e =>
    rw [h] at hread
    cases hread
  | ok root =>
    rw [h] at hread
    obtain ⟨scan, hscan, hexact, hnested, -⟩ := locations_nested placedSource root h
    exact ⟨root, rfl, Option.some.inj hread, hnested, scan, hscan, hexact⟩

end RubySig
