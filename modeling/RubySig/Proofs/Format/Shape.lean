import RubySig.Proofs.Format.ItemFull
import RubySig.Proofs.Format.Written

/-!
The lines that items are printed on. None is empty but those that are kept in front of an item of a
body: a block of full lines above, the items of the body, and a block that closes it.
-/
namespace RubySig.Format

open List (Forall₂ IsChain)
open Grammar (Likeness)
open Doc (Stroke)
open Piece (mark keyword)

/-- One or more lines, none of them empty, that pieces are written as. -/
structure Block (ps : List Piece) (lines : List (List Char)) : Prop where
  ne_nil : lines ≠ []
  full : ∀ l ∈ lines, l ≠ []
  written : Written (.gap .line :: (ps ++ [.gap .line])) (lines.flatMap ('\n' :: ·) ++ ['\n'])

variable {ps : List Piece} {ss : List Stroke}

theorem Draft.block (h : Draft (.gap .line :: ps) ss) (hps : Full ps) :
    ∃ lines, Ruled ss lines ∧ Block ps lines := by
  obtain ⟨lines, hruled, hfull⟩ := h.ruled hps
  have hline : Draft [.gap .line] [Stroke.newline 0] := .gap (g := .line) ⟨0, rfl⟩ .nil
  have hwritten := (h.append hline).written
  rw [hruled.settle_append rfl] at hwritten
  refine ⟨lines, hruled, ?_, hfull, hwritten⟩
  rintro rfl
  cases h with
  | gap hg _ =>
    obtain ⟨n, rfl⟩ := hg
    cases hruled

/-- What stands in front of the body of an item, and the items in it. -/
def opening? (c : Context) : Item → Option (List Piece × List Item)
  | .declaration _ _ (.class_ name params superclass members) =>
    some (keyword .class_ :: .gap .blank :: namePieces name ++ typeParamsPieces c params ++
      superclassPieces c superclass, members)
  | .declaration _ _ (.module_ name params selfTypes members) =>
    some (keyword .module_ :: .gap .blank :: namePieces name ++ typeParamsPieces c params ++
      selfTypesPieces c selfTypes, members)
  | .declaration _ _ (.interface name params members) =>
    some
      (keyword .interface :: .gap .blank :: namePieces name ++ typeParamsPieces c params, members)
  | _ => none

mutual

/-- The lines of an item. Above its body stand its comment, its annotations and its heading, and
below it stands `end`. -/
inductive ItemLines (c : Context) : Item → List (List Char) → Prop where
  | plain {item lines} : opening? c item = none → Block (itemPieces c item) lines →
      ItemLines c item lines
  | bodied {item heading items above body closing} : opening? c item = some (heading, items) →
      Block (leadPieces c item.lead ++ heading) above → BodyLines c none items body →
      Block [keyword .end_] closing → ItemLines c item (above ++ body ++ closing)

/-- The lines of a body behind an item that ended on line `last` of the source: an empty line in
front of an item where one stood in the source below the item before it. -/
inductive BodyLines (c : Context) : Option Int → List Item → List (List Char) → Prop where
  | nil {last} : BodyLines c last [] []
  | near {last item items lines rest} :
      (∀ line, last = some line → item.lead.firstLine item.location - line < 2) →
      ItemLines c item lines → BodyLines c (item.location.map (·.endLine)) items rest →
      BodyLines c last (item :: items) (lines ++ rest)
  | apart {line item items lines rest} : 2 ≤ item.lead.firstLine item.location - line →
      ItemLines c item lines → BodyLines c (item.location.map (·.endLine)) items rest →
      BodyLines c (some line) (item :: items) ([] :: (lines ++ rest))

end

/-- Lines that keep two empty ones from standing together, also when one is put in front and one
behind. -/
def Tidy (lines : List (List Char)) : Prop :=
  IsChain (fun a b => a ≠ [] ∨ b ≠ []) ([] :: (lines ++ [[]]))

namespace Tidy

variable {lines more : List (List Char)}

theorem append (h : Tidy lines) (k : Tidy more) : Tidy (lines ++ more) := by
  obtain ⟨hlines, -, hlast⟩ :=
    List.isChain_append.mp (show IsChain _ (([] :: lines) ++ [[]]) from h)
  unfold Tidy
  rw [List.append_assoc, ← List.cons_append]
  refine hlines.append k.tail fun l hl l' _ => .inl ?_
  exact (hlast l hl [] rfl).resolve_right (fun hne => hne rfl)

/-- An empty line may stand in between. -/
theorem join (h : Tidy lines) (k : Tidy more) : Tidy (lines ++ [] :: more) := by
  unfold Tidy
  rw [List.append_assoc, List.cons_append, ← List.cons_append, List.isChain_split]
  exact ⟨h, k⟩

theorem of_full (hne : lines ≠ []) (h : ∀ l ∈ lines, l ≠ []) : Tidy lines := by
  induction lines with
  | nil => exact absurd rfl hne
  | cons l lines ih =>
    obtain ⟨hl, hlines⟩ := List.forall_mem_cons.mp h
    have hone : Tidy [l] := by simp [Tidy, hl]
    cases lines with
    | nil => exact hone
    | cons l' lines => exact hone.append (ih (by simp) hlines)

end Tidy

mutual

theorem ItemLines.tidy {c : Context} {item : Item} {lines : List (List Char)} :
    ItemLines c item lines → Tidy lines
  | .plain _ hblock => .of_full hblock.ne_nil hblock.full
  | .bodied _ habove hbody hclosing =>
    ((hbody.tidy (.of_full habove.ne_nil habove.full)).append
      (.of_full hclosing.ne_nil hclosing.full))

/-- Below lines that are tidy, the items of a body leave them so. -/
theorem BodyLines.tidy {c : Context} {last : Option Int} {items : List Item}
    {lines above : List (List Char)} :
    BodyLines c last items lines → Tidy above → Tidy (above ++ lines)
  | .nil, habove => by rwa [List.append_nil]
  | .near _ hitem hrest, habove => by
    rw [← List.append_assoc]
    exact hrest.tidy (habove.append hitem.tidy)
  | .apart _ hitem hrest, habove => by
    rw [← List.cons_append, ← List.append_assoc]
    exact hrest.tidy (habove.join hitem.tidy)

end

theorem BodyLines.cons {c : Context} {last : Option Int} {item : Item} {items : List Item}
    {lines rest : List (List Char)} (hitem : ItemLines c item lines)
    (hrest : BodyLines c (item.location.map (·.endLine)) items rest) :
    BodyLines c last (item :: items)
      ((if blankLine last (item.lead.firstLine item.location) then [[]] else []) ++
        lines ++ rest) := by
  cases last with
  | none => exact .near (fun line h => by cases h) hitem hrest
  | some line =>
    by_cases hline : 2 ≤ item.lead.firstLine item.location - line
    · have hblank : blankLine (some line) (item.lead.firstLine item.location) = true :=
        decide_eq_true hline
      rw [hblank]
      exact .apart hline hitem hrest
    · have hblank : blankLine (some line) (item.lead.firstLine item.location) = false :=
        decide_eq_false hline
      rw [hblank]
      refine .near (fun other h => ?_) hitem hrest
      cases h
      omega

section Printed

variable {c c' : Grammar.Context} {L : Likeness c c'} {d : Context}

/-- A block above a body, the body, and the block that closes it. -/
theorem bodied_lines {item : Item} {heading : List Piece} {items : List Item}
    (hopening : opening? d item = some (heading, items))
    (hlead : Full (leadPieces d item.lead ++ heading))
    (hbody : ∀ ss, Draft (bodyPieces d none items) ss →
      ∃ lines, Ruled ss lines ∧ BodyLines d none items lines)
    (h :
      Draft
        (.gap .line :: (leadPieces d item.lead ++ bodiedPieces heading (bodyPieces d none items)))
          ss) :
    ∃ lines, Ruled ss lines ∧ ItemLines d item lines := by
  have hsplit : .gap .line ::
      (leadPieces d item.lead ++ bodiedPieces heading (bodyPieces d none items)) =
      (.gap .line :: (leadPieces d item.lead ++ heading)) ++
        (bodyPieces d none items ++ [.gap .line, keyword .end_]) := by
    simp [bodiedPieces]
  rw [hsplit] at h
  obtain ⟨ss, ts, rfl, habove, h⟩ := h.split
  obtain ⟨ts, us, rfl, hitems, hclosing⟩ := h.split
  obtain ⟨above, hruled, habove⟩ := habove.block hlead
  obtain ⟨body, hruledBody, hbody⟩ := hbody ts hitems
  obtain ⟨closing, hruledClosing, hclosing⟩ := hclosing.block (.keyword .end_)
  refine ⟨above ++ body ++ closing, ?_, .bodied hopening habove hbody hclosing⟩
  rw [List.append_assoc]
  exact hruled.append (hruledBody.append hruledClosing)

/-- An item without a body of its own. -/
theorem plain_lines {item : Item} {own : List Piece} (hopening : opening? d item = none)
    (hitem : itemPieces d item = leadPieces d item.lead ++ own)
    (hfull : Full (leadPieces d item.lead ++ own))
    (h : Draft (.gap .line :: itemPieces d item) ss) :
    ∃ lines, Ruled ss lines ∧ ItemLines d item lines := by
  rw [← hitem] at hfull
  obtain ⟨lines, hruled, hblock⟩ := h.block hfull
  exact ⟨lines, hruled, .plain hopening hblock⟩

/-- The line ends in front of an item: the last of them begins its first line. -/
theorem Draft.itemBreak {blank : Bool} (h : Draft (itemBreak blank ++ ps) ss) :
    ∃ ts us, ss = ts ++ us ∧ Ruled ts (if blank then [[]] else []) ∧
    Draft (.gap .line :: ps) us := by
  cases blank with
  | false => exact ⟨[], ss, rfl, .nil, h⟩
  | true =>
    cases h with
    | @gap _ _ _ us hg h =>
      obtain ⟨n, rfl⟩ := hg
      exact ⟨[.newline n], us, rfl, .blank n, h⟩

mutual

theorem item_lines (hL : L.Flat) (hd : d.source = c.text) : (item : Item) →
    ∀ item' : Item, L.SameItem item item' → item.passes .wellFormed = true →
      ∀ ss, Draft (.gap .line :: itemPieces d item) ss →
        ∃ lines, Ruled ss lines ∧ ItemLines d item lines
  | .member _ _ _, _, h, hpass, ss, hdraft => by
    cases h with
    | member _ hlead hm =>
      exact plain_lines rfl rfl
        (leadPieces_full hL hd hlead (memberPieces_full hL hd hm hpass)) hdraft
  | .declaration _ _ (.class_ _ _ _ items), _, h, hpass, ss, hdraft => by
    have hbody := body_lines hL hd none items
    cases h with
    | declaration _ hlead ha =>
      cases ha with
      | class_ hn hps hparent hitems =>
        simp only [Item.passes, Declaration.passes, Bool.and_eq_true] at hpass
        obtain ⟨⟨hparams, hsuperclass⟩, hpass⟩ := hpass
        have hheading := (superclassPieces_loose hL hd hparent hsuperclass).behind
          (openingPieces_full hL hd .class_ hn hps hparams)
        exact bodied_lines rfl (leadPieces_full hL hd hlead hheading) (hbody _ hitems hpass) hdraft
  | .declaration _ _ (.module_ _ _ _ items), _, h, hpass, ss, hdraft => by
    have hbody := body_lines hL hd none items
    cases h with
    | declaration _ hlead ha =>
      cases ha with
      | module_ hn hps hselves hitems =>
        simp only [Item.passes, Declaration.passes, Bool.and_eq_true] at hpass
        obtain ⟨⟨hparams, hselfTypes⟩, hpass⟩ := hpass
        have hheading := (selfTypesPieces_loose hL hd hselves hselfTypes).behind
          (openingPieces_full hL hd .module_ hn hps hparams)
        exact bodied_lines rfl (leadPieces_full hL hd hlead hheading) (hbody _ hitems hpass) hdraft
  | .declaration _ _ (.interface _ _ items), _, h, hpass, ss, hdraft => by
    have hbody := body_lines hL hd none items
    cases h with
    | declaration _ hlead ha =>
      cases ha with
      | interface hn hps hitems =>
        simp only [Item.passes, Declaration.passes, Bool.and_eq_true] at hpass
        have hheading := openingPieces_full hL hd .interface hn hps hpass.1
        exact bodied_lines rfl (leadPieces_full hL hd hlead hheading)
          (hbody _ hitems hpass.2) hdraft
  | .declaration _ _ (.constant _ _), _, h, hpass, ss, hdraft => by
    cases h with
    | declaration _ hlead ha =>
      cases ha with
      | constant hn ht =>
        exact plain_lines rfl rfl
          (leadPieces_full hL hd hlead (constantPieces_full hL hd hn ht hpass)) hdraft
  | .declaration _ _ (.global _ _), _, h, hpass, ss, hdraft => by
    cases h with
    | declaration _ hlead ha =>
      cases ha with
      | global hname ht =>
        exact plain_lines rfl rfl
          (leadPieces_full hL hd hlead (globalPieces_full hL hd hname ht hpass)) hdraft
  | .declaration _ _ (.typeAlias _ _ _), _, h, hpass, ss, hdraft => by
    cases h with
    | declaration _ hlead ha =>
      cases ha with
      | typeAlias hn ht hps =>
        obtain ⟨hpass, hparams⟩ := Bool.and_eq_true_iff.mp hpass
        have halias := typeAliasPieces_full hL hd hn ht hps hpass hparams
        exact plain_lines rfl rfl (leadPieces_full hL hd hlead halias) hdraft

theorem body_lines (hL : L.Flat) (hd : d.source = c.text) (last : Option Int) :
    (items : List Item) →
    ∀ items' : List Item, Forall₂ L.SameItem items items' → Item.allPass .wellFormed items = true →
      ∀ ss, Draft (bodyPieces d last items) ss → ∃ lines, Ruled ss lines ∧
      BodyLines d last items lines
  | [], _, _, _, _, h => by
    cases h
    exact ⟨[], .nil, .nil⟩
  | item :: items, _, h, hpass, ss, hdraft => by
    have hitem := item_lines hL hd item
    have hrest := body_lines hL hd (item.location.map (·.endLine)) items
    cases h with
    | cons hsame hsames =>
      obtain ⟨hpass, hpassAll⟩ := Bool.and_eq_true_iff.mp hpass
      obtain ⟨ss, ts, rfl, hdraft, hdraftRest⟩ := Draft.split hdraft
      obtain ⟨ss, us, rfl, hblank, hdraft⟩ := hdraft.itemBreak
      obtain ⟨lines, hruled, hlines⟩ := hitem _ hsame hpass us hdraft
      obtain ⟨rest, hruledRest, hrest⟩ := hrest _ hsames hpassAll ts hdraftRest
      exact ⟨_, (hblank.append hruled).append hruledRest, .cons hlines hrest⟩

end

/-- The declarations of a file, with an empty line between them. -/
theorem joined_lines (hL : L.Flat) (hd : d.source = c.text) {items items' : List Item}
    (h : Forall₂ L.SameItem items items') (hpass : Item.allPass .wellFormed items = true)
    (hne : items ≠ [])
    (hdraft :
      Draft (.gap .line :: [.gap .line, .gap .line].intercalate (items.map (itemPieces d))) ss) :
    ∃ blocks, Forall₂ (ItemLines d) items blocks ∧ Ruled ss ([[]].intercalate blocks) := by
  induction h generalizing ss with
  | nil => exact absurd rfl hne
  | @cons item item' items items' hsame hsames ih =>
    obtain ⟨hpass, hpassAll⟩ := Bool.and_eq_true_iff.mp hpass
    have hitem (ss : List Stroke) := item_lines hL hd item item' hsame hpass ss
    cases items with
    | nil =>
      rw [List.map_singleton, List.intercalate_singleton] at hdraft
      obtain ⟨lines, hruled, hlines⟩ := hitem ss hdraft
      exact ⟨[lines], .cons hlines .nil, by simpa using hruled⟩
    | cons next items =>
      rw [List.map_cons, List.map_cons, List.intercalate_cons_cons, ← List.map_cons,
        List.append_assoc,
        ← List.cons_append] at hdraft
      obtain ⟨ss, ts, rfl, hfirst, hrest⟩ := hdraft.split
      have hrest : Draft (itemBreak true ++ _) ts := hrest
      obtain ⟨ts, us, rfl, hblank, hrest⟩ := hrest.itemBreak
      obtain ⟨lines, hruled, hlines⟩ := hitem ss hfirst
      obtain ⟨blocks, hblocks, hruledRest⟩ := ih hpassAll (by simp) hrest
      refine ⟨lines :: blocks, .cons hlines hblocks, ?_⟩
      cases hblocks with
      | cons hnext hblocks =>
        rw [List.intercalate_cons_cons, List.append_assoc]
        exact hruled.append (hblank.append hruledRest)

end Printed

theorem joined_tidy {c : Context} {items : List Item} {blocks : List (List (List Char))}
    (h : Forall₂ (ItemLines c) items blocks) (hne : items ≠ []) :
    Tidy ([[]].intercalate blocks) := by
  induction h with
  | nil => exact absurd rfl hne
  | @cons item lines items blocks hitem hitems ih =>
    cases hitems with
    | nil => simpa using hitem.tidy
    | cons hnext hitems =>
      rw [List.intercalate_cons_cons, List.append_assoc]
      exact hitem.tidy.join (ih (by simp))

end RubySig.Format
