import RubySig.Format.Text
import RubySig.Proofs.Tree.DeclarationYields

/-!
Where comments go. A block of comment lines belongs to the item that ends first of those that start
on the line below the block. That is the first of them in the source, unless it has others inside it
on the same line: then the comment of a declaration goes to one of its members.
-/
namespace RubySig

namespace Lexer

/-- The line that is left where only the end of a line, or nothing, comes next. -/
def lineLeft (cs : List Char) : Nat := if cs.head?.all (· == '\n') then 1 else 0

theorem lineLeft_le {w : List Char} (hw : w ≠ []) (rest : List Char) :
    lineLeft (w ++ rest) ≤ w.count '\n' := by
  cases w with
  | nil => exact absurd rfl hw
  | cons c w =>
    unfold lineLeft
    split
    next h =>
      obtain rfl : c = '\n' := by simpa using h
      rw [List.count_cons_self]
      exact Nat.succ_pos _
    next => exact Nat.zero_le _

theorem lineLeft_dropWhile (cs : List Char) : lineLeft (cs.dropWhile (· != '\n')) = 1 := by
  have hfirst := List.head?_dropWhile_not (· != '\n') cs
  unfold lineLeft
  cases hhead : (cs.dropWhile (· != '\n')).head? with
  | none => rfl
  | some c =>
    rw [hhead] at hfirst
    rw [if_pos]
    simpa using hfirst

/-- Comments end on different lines, each below those before it and the first not above a line. -/
structure Scan.Descends (scan : Scan) (line : Nat) : Prop where
  below : ∀ c ∈ scan.comments, line ≤ c.stop.line
  ordered : scan.comments.Pairwise fun a b => a.stop.line < b.stop.line

theorem descends_nil {position : Position} {line : Nat} : Scan.Descends ⟨[], [], position⟩ line :=
  ⟨by simp, .nil⟩

/-- Each comment is followed by the end of its line. By induction on the steps that are left. -/
theorem scanFrom_descends (fuel : Nat) (r : Reader) {scan : Scan} (h : scanFrom fuel r = .ok scan) :
    scan.Descends (r.position.line + lineLeft r.rest) := by
  induction fuel generalizing r scan with
  | zero =>
    cases h
    exact descends_nil
  | succ fuel ih =>
    have hbehind {w rest : List Char} {more : Scan}
        (hm : scanFrom fuel (r.pass w rest) = .ok more) :
        more.Descends (r.position.line + w.count '\n' + lineLeft rest) := by
      have hline : (r.pass w rest).position.line = r.position.line + w.count '\n' :=
        r.position.line_after w
      rw [← hline]
      exact ih (r.pass w rest) hm
    have hpassed {w rest : List Char} {more : Scan} (hr : r.rest = w ++ rest) (hw : w ≠ [])
        (hm : scanFrom fuel (r.pass w rest) = .ok more) :
        more.Descends (r.position.line + lineLeft r.rest) := by
      refine ⟨fun c hc => ?_, (hbehind hm).ordered⟩
      have hbelow := (hbehind hm).below c hc
      have hleft := lineLeft_le hw rest
      rw [hr]
      omega
    obtain ⟨-, rfl⟩ | ⟨c, cs, hr, -, hm⟩ | ⟨cs, more, hr, hm, rfl⟩ |
      ⟨c, cs, piece, more, hr, -, -, hn, hm, rfl⟩ := scanFrom_cases h
    · exact descends_nil
    · exact hpassed (w := [c]) hr (List.cons_ne_nil c []) hm
    · have hcount : ('#' :: cs.takeWhile (· != '\n')).count '\n' = 0 := by
        rw [List.count_eq_zero, List.mem_cons, not_or]
        refine ⟨by decide, fun hmem => ?_⟩
        simpa using List.mem_takeWhile_imp hmem
      have hmore := hbehind hm
      rw [hcount, lineLeft_dropWhile] at hmore
      have hline : (r.position.after ('#' :: cs.takeWhile (· != '\n'))).line = r.position.line := by
        rw [Position.line_after, hcount, Nat.add_zero]
      constructor
      · rw [hr, List.forall_mem_cons]
        exact ⟨Nat.le_of_eq hline.symm, fun k hk => Nat.le_of_succ_le (hmore.below k hk)⟩
      · refine List.pairwise_cons.mpr ⟨fun k hk => ?_, hmore.ordered⟩
        rw [hline]
        exact hmore.below k hk
    · obtain ⟨hsplit, hne, -⟩ := next_genuine hn
      have hmore := hpassed (hr.trans hsplit) hne hm
      exact ⟨hmore.below, hmore.ordered⟩

end Lexer

namespace CommentBlock

theorem stop_lines_cons (c : CommentLine) (bs : List CommentBlock) :
    (cons c bs).map (·.stop.line) = bs.map (·.stop.line) ∨
      (cons c bs).map (·.stop.line) = c.stop.line :: bs.map (·.stop.line) := by
  cases bs with
  | nil => exact .inr rfl
  | cons b bs =>
    rw [cons]
    split
    · exact .inl rfl
    · exact .inr rfl

/-- A block ends where the last of its lines does. -/
theorem stop_lines_sublist (cs : List CommentLine) :
    List.Sublist ((ofLines cs).map (·.stop.line)) (cs.map (·.stop.line)) := by
  induction cs with
  | nil => exact .slnil
  | cons c cs ih =>
    rw [ofLines, List.map_cons]
    obtain h | h := stop_lines_cons c (ofLines cs)
    · exact h ▸ ih.cons _
    · exact h ▸ ih.cons_cons _

theorem apart_ofLines {scan : Lexer.Scan} {line : Nat} (h : scan.Descends line)
    (p : CommentLine → Bool) : Apart (ofLines (scan.comments.filter p)) := by
  have hlines : (scan.comments.map (·.stop.line)).Nodup :=
    List.pairwise_map.mpr (h.ordered.imp Nat.ne_of_lt)
  exact hlines.sublist ((stop_lines_sublist _).trans (List.filter_sublist.map _))

end CommentBlock

mutual

theorem Declaration.find_finished (p : Item → Bool) {found : Item}
    (hinner : ∀ inner ∈ found.items.tail, p inner = false) : (declaration : Declaration) →
    declaration.items.find? p = some found → declaration.finished.find? p = some found
  | .class_ _ _ _ members, h | .module_ _ _ _ members, h | .interface _ _ members, h =>
    Item.allFind_finished p hinner members h
  | .constant _ _, h | .global _ _, h | .typeAlias _ _ _, h => h

/-- The first item with a property is also the first to end, if no other is inside it. -/
theorem Item.find_finished (p : Item → Bool) {found : Item}
    (hinner : ∀ inner ∈ found.items.tail, p inner = false) : (item : Item) →
    item.items.find? p = some found → item.finished.find? p = some found
  | .member _ _ _, h => h
  | .declaration location lead declaration, h => by
    rw [Item.finished, List.find?_append]
    rw [Item.items, List.find?_cons] at h
    split at h
    next hself =>
      obtain rfl := Option.some.inj h
      have hnone : declaration.finished.find? p = none := by
        rw [List.find?_eq_none]
        intro inner hmem
        rw [hinner inner ((Declaration.finished_perm declaration).subset hmem)]
        exact Bool.false_ne_true
      rw [hnone, List.find?_cons_of_pos hself]
      rfl
    next =>
      rw [Declaration.find_finished p hinner declaration h]
      rfl

theorem Item.allFind_finished (p : Item → Bool) {found : Item}
    (hinner : ∀ inner ∈ found.items.tail, p inner = false) : (items : List Item) →
    (Item.allItems items).find? p = some found → (Item.allFinished items).find? p = some found
  | [], h => h
  | item :: items, h => by
    rw [Item.allFinished, List.find?_append]
    rw [Item.allItems, List.find?_append] at h
    cases hitem : item.items.find? p with
    | some first =>
      rw [hitem] at h
      obtain rfl := Option.some.inj h
      rw [Item.find_finished p hinner item hitem]
      rfl
    | none =>
      rw [hitem] at h
      have hnone : item.finished.find? p = none := by
        rw [List.find?_eq_none] at hitem ⊢
        exact fun i hi => hitem i ((Item.finished_perm item).subset hi)
      rw [hnone]
      exact Item.allFind_finished p hinner items h

end

/-- In a text that is read, a block of comment lines belongs to an item where the item starts right
below it and none of those that end before the item starts on the same line. -/
theorem comments_placed {source : String} {root : Root} (h : (Root.read source).result = .ok root) :
    ∃ scan, Lexer.scan source.toList = .ok scan ∧
      ∀ b ∈ CommentBlock.ofLines (scan.comments.filter (·.alone)), ∀ front item back,
        root.finished = front ++ item :: back → (item.lead.comment = some b.comment ↔
          item.topLine = b.stop.line + 1 ∧ ∀ i ∈ front, i.topLine ≠ item.topLine) := by
  obtain ⟨scan, left, hscan, -, hattached, -⟩ := Root.read_attached h
  have hapart := CommentBlock.apart_ofLines (Lexer.scanFrom_descends _ _ hscan) (·.alone)
  refine ⟨scan, hscan, ?_⟩
  intro b hb front item back hfinished
  exact (hfinished ▸ hattached).comment_iff hapart hb

/-- A block of comment lines belongs to the first item in the source that starts right below it, and
to no other, unless that item has another one inside it on the same line. -/
theorem comments_above_first {source : String} {root : Root}
    (h : (Root.read source).result = .ok root) : ∃ scan, Lexer.scan source.toList = .ok scan ∧
      ∀ b ∈ CommentBlock.ofLines (scan.comments.filter (·.alone)), ∀ item,
        root.items.find? (·.topLine == b.stop.line + 1) = some item →
        (∀ inner ∈ item.items.tail, inner.topLine ≠ b.stop.line + 1) →
          ∃ front back, root.finished = front ++ item :: back ∧ item.lead.comment = some b.comment ∧
            ∀ other ∈ front ++ back, other.lead.comment ≠ some b.comment := by
  obtain ⟨scan, hscan, hplaced⟩ := comments_placed h
  refine ⟨scan, hscan, ?_⟩
  intro b hb item hfirst hinner
  have hfound : root.finished.find? (·.topLine == b.stop.line + 1) = some item :=
    Item.allFind_finished _ (by simpa using hinner) root.declarations hfirst
  obtain ⟨hline, front, back, hfinished, hfront⟩ := List.find?_eq_some_iff_append.mp hfound
  have hline : item.topLine = b.stop.line + 1 := eq_of_beq hline
  have hfront : ∀ i ∈ front, i.topLine ≠ b.stop.line + 1 := by simpa using hfront
  refine ⟨front, back, hfinished, ?_, ?_⟩
  · exact (hplaced b hb front item back hfinished).mpr ⟨hline, hline ▸ hfront⟩
  · intro other hother hcomment
    obtain hother | hother := List.mem_append.mp hother
    · obtain ⟨before, after, rfl⟩ := List.append_of_mem hother
      have hsplit : root.finished = before ++ other :: (after ++ item :: back) := by
        rw [hfinished, List.append_assoc, List.cons_append]
      exact hfront other (by simp) ((hplaced b hb _ other _ hsplit).mp hcomment).1
    · obtain ⟨before, after, rfl⟩ := List.append_of_mem hother
      have hsplit : root.finished = (front ++ item :: before) ++ other :: after := by
        rw [hfinished, List.append_assoc, List.cons_append]
      obtain ⟨hbelow, hbefore⟩ := (hplaced b hb _ other _ hsplit).mp hcomment
      exact hbefore item (by simp) (hline.trans hbelow.symm)

/-- A comment above a class with a member on its line goes to the member. -/
example : (reformat .standard "# c\nclass A def m: () -> void\nend\n").toOption =
    some "class A\n  # c\n  def m: -> void\nend\n" := by
  decide +kernel

end RubySig
