import RubySig.Format.Text
import RubySig.Proofs.Format.Remarks

/-! The text that pieces are printed as, and where in it the items of a file stand. -/
namespace RubySig.Format

open Doc (Stroke plain endsLine settle)

/-- A text that pieces come out as. Blanks at the end of a line are left out, in a comment line as
elsewhere; a comment line takes the line end and the indentation behind it. -/
inductive Written : List Piece → List Char → Prop where
  | nil : Written [] []
  | word {l w v ps cs} : v = w ∨ v = trimEnd w → Written ps cs → Written (.word l w :: ps) (v ++ cs)
  | gap {g s ps cs} : g.Admits s cs → Written ps cs → Written (.gap g :: ps) (s ++ cs)
  | remark {line n ps cs} : Written ps cs → Written (.remark line :: ps)
      (trimEnd ('#' :: ' ' :: line) ++ '\n' :: List.replicate n ' ' ++ cs)

theorem endsLine_append {ss : List Stroke} (hs : endsLine ss = false) (w : List Char) :
    endsLine (plain w ++ ss) = false := by
  induction w with
  | nil => exact hs
  | cons c w ih =>
    change (Doc.isTrailing c && endsLine (plain w ++ ss)) = false
    rw [ih, Bool.and_false]

/-- Text stays as it is where no line ends behind it. -/
theorem settle_standing (w : List Char) {ss : List Stroke} (hs : endsLine ss = false) :
    settle (plain w ++ ss) = w ++ settle ss := by
  induction w with
  | nil => rfl
  | cons c w ih =>
    have hc : endsLine (.char c :: (plain w ++ ss)) = false := endsLine_append hs (c :: w)
    change settle (.char c :: (plain w ++ ss)) = _
    rw [settle, ih, hc]
    rfl

theorem settle_word (w : List Char) (ss : List Stroke) :
    ∃ v, (v = w ∨ v = trimEnd w) ∧ settle (plain w ++ ss) = v ++ settle ss := by
  by_cases hs : endsLine ss = true
  · exact ⟨trimEnd w, .inr rfl, settle_trimEnd w hs⟩
  · exact ⟨w, .inl rfl, settle_standing w (Bool.eq_false_iff.mpr hs)⟩

theorem Draft.written {ps : List Piece} {ss : List Stroke} (h : Draft ps ss) :
    Written ps (settle ss) := by
  induction h with
  | nil => exact .nil
  | @word l w ps ss _ ih =>
    obtain ⟨v, hv, h⟩ := settle_word w ss
    rw [h]
    exact .word hv ih
  | @gap g ts ps ss hg _ ih =>
    obtain ⟨s, hs, h⟩ := hg.settles ss
    rw [h]
    exact .gap hs ih
  | @remark line n ps ss _ ih =>
    obtain ⟨m, hm⟩ := settle_newline n ss
    rw [settle_trimEnd _ rfl, hm, ← List.append_assoc]
    exact .remark ih

/-- Whatever the settings, a document is printed as a text that its pieces come out as. -/
theorem Shows.written {docs : List Doc} {ps : List Piece} (h : Shows docs ps)
    (settings : Settings) :
    Written ps (settings.render docs).toList := by
  obtain ⟨ss, hl, ht⟩ := Doc.render_lays settings.maxWidth (Doc.grouped docs)
  rw [Settings.render, ht]
  exact (h.grouped 0 ss hl).written

theorem Written.behind {ps qs : List Piece} {cs : List Char} (h : Written (ps ++ qs) cs) :
    ∃ front back, cs = front ++ back ∧ Written qs back := by
  induction ps generalizing cs with
  | nil => exact ⟨[], cs, rfl, h⟩
  | cons p ps ih =>
    cases h with
    | word hv h | gap hg h | remark h =>
      obtain ⟨front, back, rfl, hback⟩ := ih h
      exact ⟨_, back, (List.append_assoc ..).symm, hback⟩

/-- Comment lines are written in front of what follows them. -/
theorem Written.split_remarks {lines : List (List Char)} {qs : List Piece} {cs : List Char}
    (h : Written (lines.map .remark ++ qs) cs) :
    ∃ above back, cs = above ++ back ∧ Written (lines.map .remark) above ∧ Written qs back := by
  induction lines generalizing cs with
  | nil => exact ⟨[], cs, rfl, .nil, h⟩
  | cons line lines ih =>
    cases h with
    | remark h =>
      obtain ⟨above, back, rfl, habove, hback⟩ := ih h
      exact ⟨_, back, (List.append_assoc ..).symm, .remark habove, hback⟩

/-- Pieces stand at the start of others or behind a line end. -/
def OnOwnLine (ps qs : List Piece) : Prop := ps <+: qs ∨ .gap .line :: ps <:+: qs

/-- The pieces of an item without what is written above it. -/
def ownPieces (c : Context) : Item → List Piece
  | .member _ _ member => memberPieces c member
  | .declaration _ _ declaration => declarationPieces c declaration

theorem itemPieces_eq (c : Context) (item : Item) : itemPieces c item =
    remarkPieces item.lead.comment ++ notesPieces c item.lead.notes ++ ownPieces c item := by
  cases item <;> rfl

/-- Behind a line end, pieces on a line of their own stay so. -/
theorem OnOwnLine.behind {ps qs : List Piece} (h : OnOwnLine ps qs) :
    .gap .line :: ps <:+: .gap .line :: qs := by
  rcases h with h | h
  · exact (List.cons_prefix_cons.mpr ⟨rfl, h⟩).isInfix
  · exact h.trans (List.suffix_cons ..).isInfix

theorem OnOwnLine.append {ps qs : List Piece} (h : OnOwnLine ps qs) (rs : List Piece) :
    OnOwnLine ps (qs ++ rs) :=
  h.imp (·.trans (List.prefix_append ..)) (·.trans (List.prefix_append ..).isInfix)

/-- Nothing, or a text up to and with a line end and blanks. -/
def EndsLine (front : List Char) : Prop :=
  front = [] ∨ ∃ text n, front = text ++ '\n' :: List.replicate n ' '

/-- Pieces on a line of their own are written so. -/
theorem OnOwnLine.written {ps qs : List Piece} {cs : List Char} (h : OnOwnLine ps qs)
    (hw : Written qs cs) :
    ∃ front back behind, cs = front ++ back ∧ EndsLine front ∧ Written (ps ++ behind) back := by
  rcases h with ⟨behind, rfl⟩ | ⟨before, behind, rfl⟩
  · exact ⟨[], cs, behind, rfl, .inl rfl, hw⟩
  · rw [List.append_assoc] at hw
    obtain ⟨front, back, rfl, hback⟩ := hw.behind
    cases hback with
    | gap hg hback =>
      obtain ⟨n, rfl⟩ := hg
      exact ⟨_, _, behind, (List.append_assoc ..).symm, .inr ⟨front, n, rfl⟩, hback⟩

section Items

variable (c : Context)

theorem bodied_infix {ps heading body : List Piece} (h : ps <:+: body) :
    ps <:+: bodiedPieces heading body :=
  h.trans (List.infix_append ..)

mutual

theorem declaration_items : (d : Declaration) → ∀ item ∈ d.items,
    .gap .line :: itemPieces c item <:+: declarationPieces c d
  | .class_ name params superclass members, item, h => bodied_infix (body_items none members item h)
  | .module_ name params selfTypes members, item, h => bodied_infix (body_items none members item h)
  | .interface name params members, item, h => bodied_infix (body_items none members item h)
  | .constant _ _, _, h | .global _ _, _, h | .typeAlias _ _ _, _, h => by cases h

theorem item_items : (item : Item) → ∀ inner ∈ item.items,
    OnOwnLine (itemPieces c inner) (itemPieces c item)
  | .member l lead m, inner, h => by
    rw [Item.items, List.mem_singleton] at h
    rw [h]
    exact .inl List.prefix_rfl
  | .declaration l lead d, inner, h => by
    rcases List.mem_cons.mp h with rfl | h
    · exact .inl List.prefix_rfl
    · exact .inr ((declaration_items d inner h).trans (List.suffix_append ..).isInfix)

theorem body_items (last : Option Int) : (items : List Item) → ∀ inner ∈ Item.allItems items,
    .gap .line :: itemPieces c inner <:+: bodyPieces c last items
  | [], _, h => by cases h
  | item :: items, inner, h => by
    rw [bodyPieces]
    rcases List.mem_append.mp h with h | h
    · have hinner := (item_items item inner h).behind
      refine List.IsInfix.trans ?_ (List.prefix_append ..).isInfix
      cases blankLine last (item.lead.firstLine item.location) with
      | false => exact hinner
      | true => exact hinner.trans (List.suffix_cons ..).isInfix
    · exact (body_items _ items inner h).trans (List.suffix_append ..).isInfix

end

theorem joined_items : (items : List Item) → ∀ inner ∈ Item.allItems items,
    OnOwnLine (itemPieces c inner) ([.gap .line, .gap .line].intercalate (items.map (itemPieces c)))
  | [], _, h => by cases h
  | [item], inner, h => by
    rw [Item.allItems, Item.allItems, List.append_nil] at h
    simpa using item_items c item inner h
  | item :: next :: items, inner, h => by
    rw [List.map_cons, List.map_cons, List.intercalate_cons_cons, ← List.map_cons]
    rcases List.mem_append.mp h with h | h
    · exact ((item_items c item inner h).append _).append _
    · have hrest := (joined_items (next :: items) inner h).behind
      refine .inr (hrest.trans ?_)
      exact ⟨itemPieces c item ++ [.gap .line], [], by simp⟩

/-- Every item is printed on lines of its own, with its comment and its annotations above it. -/
theorem root_items (root : Root) : ∀ item ∈ root.items,
    OnOwnLine (itemPieces c item) (rootPieces c root) :=
  fun item h => (joined_items c root.declarations item h).append _

end Items

end RubySig.Format
