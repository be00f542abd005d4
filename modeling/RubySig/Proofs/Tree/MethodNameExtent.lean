import RubySig.Format.Text
import RubySig.Proofs.Format.SolidWords
import RubySig.Proofs.SourceTiled
import RubySig.Proofs.Tree.LikeScans

/-!
How far a method name reaches. A bare name is read from the text and not from tokens, so the last
token that it passes over may be longer than the name: what stands behind the name in that token is
in no tree.
-/
namespace RubySig

theorem MethodName.at_ne_nil {cs name : List Char} (h : at? cs = some name) : name ≠ [] := by
  have hoperators : ∀ o ∈ operators, o ≠ [] := by decide
  cases cs with
  | nil => cases h
  | cons c cs =>
    rw [at?] at h
    split at h
    · cases h
      simp
    · exact hoperators name (List.mem_of_find?_eq_some h)

/-- A name that is read from the text has no white space in it, and no comment begins in it. -/
theorem MethodName.at_visible {cs name : List Char} (h : at? cs = some name) :
    ∀ c ∈ name, Lexer.isSpace c = false ∧ c ≠ '#' := by
  refine Format.forall_mem_at (fun c hc => ⟨?_, ?_⟩) (by decide) (by decide) h
  · exact Format.not_isSpace_of_namePart (Format.namePart_of_isPart hc)
  · rintro rfl
    cases hc

/-- What a range from one place of a text to a later one covers. -/
theorem Span.slice_places {text : List Char} {p q : Position} (hp : p.offset ≤ q.offset)
    (hq : q.offset ≤ text.length) :
    (Span.between p q).slice text = (text.drop p.offset).take (q.offset - p.offset) := by
  have hclamp {n : Nat} (hn : n ≤ text.length) : Span.clamp text.length (n : Int) = n := by
    rw [Span.clamp, if_neg (by omega), Int.toNat_natCast, Nat.min_eq_left hn]
  simp only [Span.slice, Span.between]
  rw [hclamp hq, hclamp (hp.trans hq), List.drop_take]

namespace Lexer

variable {text : List Char} {scan : Scan}

/-- Each comment begins with its marker. -/
theorem scanFrom_markers (fuel : Nat) (r : Reader) (front : List Char)
    (hp : r.position = Position.first.after front) (h : scanFrom fuel r = .ok scan) :
    ∀ c ∈ scan.comments, (front ++ r.rest)[c.start.offset]? = some '#' := by
  induction fuel generalizing r front scan with
  | zero =>
    cases h
    simp
  | succ fuel ih =>
    have hbehind {w rest : List Char} {more : Scan} (hr : r.rest = w ++ rest)
        (hm : scanFrom fuel (r.pass w rest) = .ok more) :
        ∀ c ∈ more.comments, (front ++ r.rest)[c.start.offset]? = some '#' := by
      have hplace : (r.pass w rest).position = Position.first.after (front ++ w) := by
        rw [Position.after_append, ← hp]
        rfl
      rw [hr, ← List.append_assoc]
      exact ih (r.pass w rest) (front ++ w) hplace hm
    obtain ⟨-, rfl⟩ | ⟨c, cs, hr, -, hm⟩ | ⟨cs, more, hr, hm, rfl⟩ |
      ⟨c, cs, piece, more, hr, -, -, hn, hm, rfl⟩ := scanFrom_cases h
    · simp
    · exact hbehind (w := [c]) hr hm
    · have hline : r.rest = '#' :: cs.takeWhile (· != '\n') ++ cs.dropWhile (· != '\n') := by
        rw [hr, List.cons_append, List.takeWhile_append_dropWhile]
      refine List.forall_mem_cons.mpr ⟨?_, hbehind hline hm⟩
      rw [hp, Position.offset_after, hr]
      simp [Position.first]
    · obtain ⟨hsplit, -, -⟩ := next_genuine hn
      intro c hc
      exact hbehind (hr.trans hsplit) hm c hc

/-- In scanned text a character of a stretch behind the start of a token, in which there is neither
white space nor the marker of a comment, stands in a token. -/
theorem Scan.Tiles.token_at (htiles : scan.Tiles text 0)
    (hmarkers : ∀ c ∈ scan.comments, text[c.start.offset]? = some '#') {t : Token}
    (ht : t ∈ scan.tokens) {name : List Char} (hname : name <+: text.drop t.start.offset)
    (hvisible : ∀ c ∈ name, isSpace c = false ∧ c ≠ '#') {i : Nat} (hi : i < name.length) :
    ∃ u ∈ scan.tokens, u.range.Has (t.start.offset + i) := by
  have hchar {j : Nat} (hj : j < name.length) : text[t.start.offset + j]? = some name[j] := by
    obtain ⟨rest, hrest⟩ := hname
    rw [← List.getElem?_drop, ← hrest, List.getElem?_append_left hj, List.getElem?_eq_getElem hj]
  obtain hspace | ⟨r, hr, hhas⟩ := htiles.spread.covered _ _ (Nat.zero_le _) (hchar hi)
  · rw [(hvisible _ (List.getElem_mem hi)).1] at hspace
    cases hspace
  rcases List.mem_append.mp hr with hr | hr
  · obtain ⟨u, hu, rfl⟩ := List.mem_map.mp hr
    exact ⟨u, hu, hhas⟩
  · -- A comment that reaches into the stretch begins in it, behind the token.
    obtain ⟨c, hc, rfl⟩ := List.mem_map.mp hr
    obtain ⟨hstart, hstop⟩ := hhas
    have hpos :=
      (htiles.spread.stands t.range (by simp [Scan.ranges]; exact .inl ⟨t, ht, rfl⟩)).nonempty
    rcases htiles.apart t ht c hc with hbefore | hbefore
    · simp only [Range.Before, Token.range, CommentLine.range] at hbefore hstart hstop hpos
      obtain ⟨j, hj⟩ : ∃ j, c.start.offset = t.start.offset + j :=
        ⟨_, (Nat.add_sub_cancel' (by omega)).symm⟩
      have hmark := hmarkers c hc
      rw [hj, hchar (by omega)] at hmark
      exact absurd (Option.some.inj hmark) (hvisible _ (List.getElem_mem _)).2
    · simp only [Range.Before, Token.range, CommentLine.range] at hbefore hstart hstop
      omega

/-- A stretch of visible text reaches no further than the last of the tokens that stand in it. -/
theorem Scan.Tiles.last_reaches (htiles : scan.Tiles text 0)
    (hmarkers : ∀ c ∈ scan.comments, text[c.start.offset]? = some '#')
    {front before behind : List Token} {t last : Token}
    (htokens : scan.tokens = front ++ (before ++ [last] ++ behind))
    (ht : (before ++ [last]).head? = some t) {name : List Char} (hne : name ≠ [])
    (hname : name <+: text.drop t.start.offset) (hvisible : ∀ c ∈ name, isSpace c = false ∧ c ≠ '#')
    (hbehind : ∀ u ∈ behind, t.start.offset + name.length ≤ u.start.offset) :
    t.start.offset + name.length ≤ last.stop.offset := by
  have horder : scan.tokens.Pairwise fun a b => a.stop.offset ≤ b.start.offset :=
    List.pairwise_map.mp htiles.tokens
  rw [htokens, List.pairwise_append, List.pairwise_append, List.pairwise_append] at horder
  obtain ⟨-, ⟨⟨-, -, hlast⟩, -, -⟩, hfront⟩ := horder
  have htmem : t ∈ before ++ [last] := List.mem_of_head? ht
  have hstands {u : Token} (hu : u ∈ before ++ [last]) : u.start.offset < u.stop.offset := by
    refine (htiles.spread.stands u.range (List.mem_append_left _ (List.mem_map_of_mem ?_))).nonempty
    rw [htokens]
    exact List.mem_append_right _ (List.mem_append_left _ hu)
  obtain ⟨u, hu, hstart, hstop⟩ := htiles.token_at hmarkers
    (by rw [htokens]; exact List.mem_append_right _ (List.mem_append_left _ htmem)) hname hvisible
    (Nat.sub_lt (List.length_pos_iff.mpr hne) Nat.one_pos)
  have hpos := List.length_pos_iff.mpr hne
  simp only [Token.range] at hstart hstop
  rw [htokens, List.mem_append, List.mem_append, List.mem_append, List.mem_singleton] at hu
  rcases hu with hu | (hu | rfl) | hu
  · have := hfront u hu t (List.mem_append_left _ htmem)
    omega
  · have := hlast u hu last List.mem_cons_self
    have := hstands (List.mem_append_right before (List.mem_singleton_self last))
    omega
  · omega
  · have := hbehind u hu
    omega

end Lexer

namespace Grammar

/-- Behind the tokens that start before a place, all tokens start at it or later. -/
theorem starts_dropWhile {ts : List Token} (h : (ts.map Token.range).Pairwise Range.Before)
    (hne : ∀ t ∈ ts, t.start.offset < t.stop.offset) (stop : Nat) :
    ∀ u ∈ ts.dropWhile (·.start.offset < stop), stop ≤ u.start.offset := by
  induction ts with
  | nil => simp
  | cons t ts ih =>
    rw [List.map_cons, List.pairwise_cons] at h
    obtain ⟨ht, hts⟩ := List.forall_mem_cons.mp hne
    by_cases hstart : t.start.offset < stop
    · rw [List.dropWhile_cons_of_pos (by simpa using hstart)]
      exact ih h.2 hts
    · rw [List.dropWhile_cons_of_neg (by simpa using hstart)]
      refine List.forall_mem_cons.mpr ⟨Nat.le_of_not_lt hstart, fun u hu => ?_⟩
      have hbefore := h.1 u.range (List.mem_map_of_mem hu)
      simp only [Range.Before, Token.range] at hbefore
      omega

theorem drop_takeWhile (p : Token → Bool) (ts : List Token) :
    ts.drop (ts.takeWhile p).length = ts.dropWhile p :=
  calc ts.drop (ts.takeWhile p).length
      = (ts.takeWhile p ++ ts.dropWhile p).drop (ts.takeWhile p).length := by
        rw [List.takeWhile_append_dropWhile]
    _ = ts.dropWhile p := List.drop_left

/-- A bare name is found in the text at the first token, and the tokens that start inside it are
passed over. -/
theorem methodName_inv {c : Context} {s s' : State} {name : String}
    (hbare : ∀ t ∈ s.tokens.head?, ∀ quoted, t.lexeme ≠ .quotedIdentifier quoted)
    (h : methodName c s = .ok (name, s')) :
    ∃ t ts, s.tokens = t :: ts ∧ MethodName.at? (c.text.drop t.start.offset) = some name.toList ∧
      s'.tokens = s.tokens.dropWhile (·.start.offset < t.start.offset + name.toList.length) := by
  obtain ⟨tokens, last, blocks⟩ := s
  cases tokens with
  | nil => cases h
  | cons t ts =>
    refine ⟨t, ts, rfl, ?_⟩
    cases hfound : MethodName.at? (c.text.drop t.start.offset) with
    | none =>
      obtain ⟨l, start, stop⟩ := t
      have hfail : methodName c ⟨⟨l, start, stop⟩ :: ts, last, blocks⟩ =
          methodNameFrom start.offset (MethodName.at? (c.text.drop start.offset)) c
            ⟨⟨l, start, stop⟩ :: ts, last, blocks⟩ := by
        cases l with
        | quotedIdentifier quoted => exact absurd rfl (hbare _ rfl quoted)
        | _ => rfl
      rw [hfail, hfound] at h
      cases h
    | some found =>
      obtain ⟨last', hrun⟩ := methodName_run last blocks (hbare t rfl) hfound rfl
      rw [hrun] at h
      cases h
      rw [String.toList_ofList]
      exact ⟨rfl, drop_takeWhile _ (t :: ts)⟩

/-- The tokens that start before an offset, where the first one does: the last of them does as
well. -/
theorem split_starts {t : Token} {ts : List Token} {stop : Nat} (ht : t.start.offset < stop) :
    ∃ passed before last, t :: ts = t :: passed ++ (t :: ts).dropWhile (·.start.offset < stop) ∧
      t :: passed = before ++ [last] ∧ last.start.offset < stop := by
  obtain ⟨passed, hpassed⟩ :
      ∃ passed, (t :: ts).takeWhile (·.start.offset < stop) = t :: passed := by
    rw [List.takeWhile_cons_of_pos (by simpa using ht)]
    exact ⟨_, rfl⟩
  obtain ⟨before, last, hlast⟩ : ∃ before last, t :: passed = before ++ [last] :=
    ⟨_, _, (List.dropLast_append_getLast (List.cons_ne_nil t passed)).symm⟩
  refine ⟨passed, before, last, ?_, hlast, ?_⟩
  · rw [← hpassed, List.takeWhile_append_dropWhile]
  · have hmem : last ∈ (t :: ts).takeWhile (·.start.offset < stop) := by
      rw [hpassed, hlast]
      exact List.mem_append_right _ List.mem_cons_self
    simpa using List.mem_takeWhile_imp hmem

/-- A bare method name is the text from where its first token starts, and ends in the last of the
tokens that it passes over. It is all of their text where it ends with that token. -/
theorem methodName_extent {text : List Char} {scan : Lexer.Scan}
    (hscan : Lexer.scan text = .ok scan) {finish : Position} {s s' : State}
    (hs : s.tokens <:+ scan.tokens) {name : String}
    (hbare : ∀ t ∈ s.tokens.head?, ∀ quoted, t.lexeme ≠ .quotedIdentifier quoted)
    (hread : methodName ⟨text, finish⟩ s = .ok (name, s')) :
    ∃ first passed last lost, s.tokens = first :: passed ++ s'.tokens ∧
      (first :: passed).getLast? = some last ∧
      (Span.between first.start last.stop).slice text = name.toList ++ lost ∧
      last.start.offset < first.start.offset + name.toList.length ∧
      (∀ u ∈ s'.tokens, first.start.offset + name.toList.length ≤ u.start.offset) ∧
      (lost = [] ↔ last.stop.offset = first.start.offset + name.toList.length) := by
  have htiles := Lexer.scanFrom_tiles _ (.start text) [] (Nat.le_refl _) rfl hscan
  have hmarkers := Lexer.scanFrom_markers _ (.start text) [] rfl hscan
  obtain ⟨t, ts, htokens, hfound, hleft⟩ := methodName_inv hbare hread
  have hne := MethodName.at_ne_nil hfound
  have hvisible := MethodName.at_visible hfound
  have hstarts : name.toList <+: text.drop t.start.offset := MethodName.at_prefix hfound
  have hpos := List.length_pos_iff.mpr hne
  obtain ⟨front, hfront⟩ := hs
  have hstands {u : Token} (hu : u ∈ s.tokens) : u.range.Stands text := by
    refine htiles.spread.stands _ (List.mem_append_left _ (List.mem_map_of_mem ?_))
    rw [← hfront]
    exact List.mem_append_right _ hu
  have horder : (s.tokens.map Token.range).Pairwise Range.Before := by
    have := htiles.tokens
    rw [← hfront, List.map_append, List.pairwise_append] at this
    exact this.2.1
  have hbehind : ∀ u ∈ s'.tokens, t.start.offset + name.toList.length ≤ u.start.offset := by
    rw [hleft]
    exact starts_dropWhile horder (fun u hu => (hstands hu).nonempty) _
  -- The first token starts inside the name, so it is passed over.
  obtain ⟨passed, before, last, hsplit, hlast, hlaststart⟩ :=
    @split_starts t ts (t.start.offset + name.toList.length) (by omega)
  rw [← htokens, ← hleft] at hsplit
  have hlasttokens : last ∈ s.tokens := by
    rw [hsplit, hlast]
    exact List.mem_append_left _ List.mem_concat_self
  have hreach : t.start.offset + name.toList.length ≤ last.stop.offset := by
    have hall : scan.tokens = front ++ (before ++ [last] ++ s'.tokens) := by
      rw [← hlast, ← hsplit, hfront]
    exact htiles.last_reaches hmarkers hall (by rw [← hlast]; rfl) hne hstarts hvisible hbehind
  have hinside : last.stop.offset ≤ text.length := (hstands hlasttokens).inside
  have hslice := Span.slice_places (p := t.start) (q := last.stop) (by omega) hinside
  have htake : name.toList <+: (text.drop t.start.offset).take
      (last.stop.offset - t.start.offset) :=
    List.prefix_take_iff.mpr ⟨hstarts, by omega⟩
  obtain ⟨lost, hlost⟩ := htake
  refine ⟨t, passed, last, lost, hsplit, ?_, hslice.trans hlost.symm, hlaststart, hbehind, ?_⟩
  · rw [hlast, List.getLast?_concat]
  · have hlength := congrArg List.length hlost
    rw [List.length_append, List.length_take, List.length_drop] at hlength
    rw [← List.length_eq_zero_iff]
    omega

-- A letter that is not ASCII ends the name and not the token.
example : (reformat .standard "class A\n  def fooé: -> A\nend\n").toOption =
    some "class A\n  def foo: -> A\nend\n" := by
  decide +kernel

end Grammar
end RubySig
