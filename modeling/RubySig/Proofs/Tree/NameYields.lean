import RubySig.Proofs.SourceTiled
import RubySig.Proofs.Tree.ItemFormed
import RubySig.Proofs.Tree.MethodReads
import RubySig.Proofs.Tree.Yields

/-! Names, annotations and lists that are read from the tokens of a text. -/
namespace RubySig

open Format (IsName)

namespace Lexer

/-- A name alone is read as one token. -/
theorem readsAs_name {s : String} (h : IsName s.toList) : ReadsAs s (nameLexeme s.toList) := by
  have hlegible : Legible none [.token (nameLexeme s.toList) s.toList] :=
    ⟨(Format.spelled_name h).splits none [] (by simp) (by simp), trivial⟩
  have hscan := scan_textOf hlegible
  rw [Chunk.textOf_cons, Chunk.textOf_nil, List.append_nil] at hscan
  exact ⟨_, hscan, rfl⟩

theorem readsAs_of_taken {s : String} {l : Lexeme} {w : List Char} (h : l.Taken w)
    (hl : l = .constant s ∨ l = .interfaceName s ∨ l = .identifier s) : ReadsAs s l := by
  obtain ⟨hname, hlexeme⟩ := taken_name h hl
  have hread := readsAs_name hname
  rwa [hlexeme] at hread

end Lexer

theorem nameable_of_isName {s : String} (h : IsName s.toList) : Nameable s where
  nonempty := by
    obtain ⟨c, cs, hs, -⟩ := h
    simp [hs]
  unquoted hm := absurd (h.namePart _ hm) (by decide)
  oneLine hm := absurd (h.namePart _ hm) (by decide)

/-- A token that may name something has a name that can stand between backquotes. -/
theorem nameable_of_taken {l : Lexeme} {w : List Char} {s : String} (h : l.Taken w)
    (hs : l.name? = some s) : Nameable s := by
  cases l with
  | quotedIdentifier name =>
    cases hs
    exact h.2
  | keyword k =>
    cases hs
    have hw : w = k.text.toList := by
      have htext := Lexer.nameLexeme_text w
      rw [h.2] at htext
      rw [← String.toList_ofList (l := w), ← htext]
      rfl
    exact nameable_of_isName (hw ▸ h.1)
  | identifier name =>
    cases hs
    exact nameable_of_isName (Lexer.taken_name h (.inr (.inr rfl))).1
  | constant name =>
    cases hs
    exact nameable_of_isName (Lexer.taken_name h (.inl rfl)).1
  | interfaceName name =>
    cases hs
    exact nameable_of_isName (Lexer.taken_name h (.inr (.inl rfl))).1
  | _ => cases hs

theorem MethodName.isWhole_of_at? {cs name : List Char} (h : MethodName.at? cs = some name) :
    MethodName.isWhole name = true := by
  cases cs with
  | nil => cases h
  | cons c cs =>
    rw [MethodName.at?] at h
    by_cases hc : MethodName.isStart c = true
    case pos =>
      rw [if_pos hc] at h
      cases h
      have hid : MethodName.isIdentifier (c :: cs.takeWhile MethodName.isPart) = true := by
        rw [MethodName.isIdentifier, hc, Bool.true_and, List.all_eq_true]
        exact fun d hd => List.mem_takeWhile_imp hd
      obtain hnone | ⟨e, he, hmark⟩ : MethodName.ending (cs.dropWhile MethodName.isPart) = [] ∨
          ∃ e, MethodName.ending (cs.dropWhile MethodName.isPart) = [e] ∧
            (e == '?' || e == '!' || e == '=') = true := by
        unfold MethodName.ending
        split <;> simp
      · rw [hnone, List.append_nil, MethodName.isWhole, hid, Bool.or_true, Bool.true_or]
      · rw [he, MethodName.isWhole, List.reverse_append, List.reverse_singleton]
        simp only [List.singleton_append, hmark, List.reverse_reverse, hid,
          Bool.and_self, Bool.or_true]
    case neg =>
      rw [if_neg hc] at h
      have hmem := List.mem_of_find?_eq_some h
      rw [MethodName.isWhole, List.contains_iff_mem.mpr hmem, Bool.true_or, Bool.true_or]

namespace Grammar

variable {c : Context} {s : State} {α β : Type} {p : Parser α} {n : Nat} {R : α → Prop}

/-- The tokens that are left stand in the text as they say. -/
def Standing (c : Context) (s : State) : Prop := ∀ t ∈ s.tokens, t.In c.text

theorem Standing.behind {k : Nat} {s' : State} (hg : Standing c s) (h : Within k s s') :
    Standing c s' :=
  fun t ht => hg t (h.suffix.subset ht)

theorem Standing.at {i : Nat} {l : Lexeme} (hg : Standing c s)
    (h : (s.tokens.map (·.lexeme))[i]? = some l) :
    ∃ w, l.Taken w := by
  rw [List.getElem?_map] at h
  obtain ⟨t, ht, rfl⟩ := Option.map_eq_some_iff.mp h
  obtain ⟨-, w, -, -, -, -, -, hw⟩ := hg t (List.mem_of_getElem? ht)
  exact ⟨w, hw⟩

theorem Standing.next {l : Lexeme} (hg : Standing c s)
    (h : s.tokens.head?.map (·.lexeme) = some l) :
    ∃ w, l.Taken w :=
  hg.at (i := 0) (by rw [← List.head?_eq_getElem?, List.head?_map, h])

theorem Standing.named {l : Lexeme} {name : String} (hg : Standing c s)
    (h : (s.tokens.head?.map (·.lexeme)) = some l) (hl : l.name? = some name) : Nameable name := by
  obtain ⟨w, hw⟩ := hg.next h
  exact nameable_of_taken hw hl

/-- On at most `n` tokens of the text a parser takes one or more of them and gives a result with
`R`. -/
def Gives (c : Context) (n : Nat) (p : Parser α) (R : α → Prop) : Prop :=
  ∀ s, s.tokens.length ≤ n → Standing c s → Yields c s p fun a s' => R a ∧ Within 1 s s'

theorem separated_yields {separator : Lexeme} (h : Gives c n p R) (fuel : Nat)
    (hs : s.tokens.length ≤ n) (hg : Standing c s) :
    Yields c s (separated separator p fuel) fun as s' =>
      (∀ a ∈ as, R a) ∧ (0 < fuel → as ≠ [] ∧ Within 1 s s') ∧ Within 0 s s' := by
  induction fuel generalizing s with
  | zero =>
    unfold separated
    exact .pure ⟨by simp, by simp, .refl s⟩
  | succ fuel ih =>
    unfold separated
    refine (h s hs hg).bind ?_
    rintro a s₁ ⟨ha, h₁⟩
    refine .eat_if (fun s₂ h₂ => ?_) fun s₂ h₂ => ?_
    · have := h₁.tokens
      have := h₂.tokens
      refine (ih (s := s₂) (by omega) (hg.behind (h₁.trans h₂))).bind ?_
      rintro as s₃ ⟨has, _, h₃⟩
      have hall := (h₁.trans h₂).trans h₃
      exact .pure ⟨List.forall_mem_cons.mpr ⟨ha, has⟩, fun _ => ⟨by simp, hall.le (by omega)⟩,
        hall.le (by omega)⟩
    · have hall := h₁.trans h₂
      exact .pure ⟨by simpa using ha, fun _ => ⟨by simp, hall⟩, hall.le (by omega)⟩

theorem listed_yields {close : Lexeme} (h : Gives c n p R) (fuel : Nat)
    (hs : s.tokens.length ≤ n) (hg : Standing c s) :
    Yields c s (listed close p fuel) fun as s' => (∀ a ∈ as, R a) ∧ Within 0 s s' := by
  induction fuel generalizing s with
  | zero =>
    unfold listed
    exact .pure ⟨by simp, .refl s⟩
  | succ fuel ih =>
    unfold listed
    refine .isNext_if (fun _ => .pure ⟨by simp, .refl s⟩) ?_
    refine (h s hs hg).bind ?_
    rintro a s₁ ⟨ha, h₁⟩
    refine .eat_if (fun s₂ h₂ => ?_) fun s₂ h₂ => ?_
    · have := h₁.tokens
      have := h₂.tokens
      refine (ih (s := s₂) (by omega) (hg.behind (h₁.trans h₂))).bind ?_
      rintro as s₃ ⟨has, h₃⟩
      exact .pure ⟨List.forall_mem_cons.mpr ⟨ha, has⟩, ((h₁.trans h₂).trans h₃).le (by omega)⟩
    · exact .pure ⟨by simpa using ha, (h₁.trans h₂).le (by omega)⟩

/-- A name that ends in a segment of a kind that is asked for. -/
def Segment.Ends (segment : Segment) (name : TypeName) : Prop :=
  ∃ last : String → Lexeme, (last = .constant ∨ last = .interfaceName ∨ last = .identifier) ∧
    (∀ s, segment.name? (last s) = some s) ∧ name.Formed last

theorem Segment.Ends.constant {name : TypeName} (h : Segment.constant.Ends name) :
    name.Formed .constant := by
  obtain ⟨last, rfl | rfl | rfl, hlast, hname⟩ := h
  · exact hname
  · cases hlast ""
  · cases hlast ""

theorem Segment.Ends.interface {name : TypeName} (h : Segment.interface.Ends name) :
    name.Formed .interfaceName := by
  obtain ⟨last, rfl | rfl | rfl, hlast, hname⟩ := h
  · cases hlast ""
  · exact hname
  · cases hlast ""

theorem Segment.Ends.identifier {name : TypeName} (h : Segment.identifier.Ends name) :
    name.Formed .identifier := by
  obtain ⟨last, rfl | rfl | rfl, hlast, hname⟩ := h
  · cases hlast ""
  · cases hlast ""
  · exact hname

theorem segment_cases {segment : Segment} {l : Lexeme} {name : String}
    (h : segment.name? l = some name) :
    ∃ last : String → Lexeme, (last = .constant ∨ last = .interfaceName ∨ last = .identifier) ∧
      (∀ s, segment.name? (last s) = some s) ∧ l = last name := by
  unfold Segment.name? at h
  split at h <;> cases h
  · exact ⟨_, .inl rfl, fun _ => rfl, rfl⟩
  · exact ⟨_, .inl rfl, fun _ => rfl, rfl⟩
  · exact ⟨_, .inr (.inl rfl), fun _ => rfl, rfl⟩
  · exact ⟨_, .inr (.inl rfl), fun _ => rfl, rfl⟩
  · exact ⟨_, .inr (.inr rfl), fun _ => rfl, rfl⟩
  · exact ⟨_, .inr (.inr rfl), fun _ => rfl, rfl⟩

theorem pathOf_taken {ts : List Token} (h : ∀ t ∈ ts, t.In c.text) :
    ∀ name ∈ pathOf ts, Lexer.ReadsAs name (.constant name) := by
  induction ts using pathOf.induct with
  | case1 name start stop start' stop' rest ih =>
    rw [pathOf]
    refine List.forall_mem_cons.mpr ⟨?_, ih fun t ht => h t (by simp [ht])⟩
    obtain ⟨-, w, -, -, -, -, -, hw⟩ := h _ (List.mem_cons_self ..)
    exact Lexer.readsAs_of_taken hw (.inl rfl)
  | case2 ts hts =>
    rw [pathOf]
    · simp
    · exact hts

theorem typeName_yields {segment : Segment} {role : Role} (hg : Standing c s) :
    Yields c s (typeName segment role) fun name s' => segment.Ends name ∧ Within 1 s s' := by
  unfold typeName
  refine .here_bind fun start => ?_
  refine .bind .eat fun absolute s₁ h₁ => ?_
  refine .get_bind (.advance_any fun s₂ h₂ => ?_)
  refine .peek_bind fun l hl => ?_
  split
  case _ => exact .failMissing
  case _ name hname =>
    obtain ⟨k, rfl, hk⟩ := Option.bind_eq_some_iff.mp hname
    obtain ⟨last, hlast, hseg, rfl⟩ := segment_cases hk
    obtain ⟨w, hw⟩ := (hg.behind (h₁.trans h₂)).next hl
    refine .advance_bind (by omega) (tokens_of_peek hl) fun s₃ h₃ => ?_
    refine .span_bind fun location =>
      .pure ⟨⟨last, hlast, hseg, pathOf_taken (hg.behind h₁), ?_⟩, ?_⟩
    · refine Lexer.readsAs_of_taken hw ?_
      rcases hlast with rfl | rfl | rfl
      · exact .inl rfl
      · exact .inr (.inl rfl)
      · exact .inr (.inr rfl)
    · exact ((h₁.trans h₂).trans h₃).le (by omega)

theorem keywordParam_stays : Yields c s keywordParam? fun _ s' => s' = s := by
  intro a s' h
  obtain ⟨tokens, last, blocks⟩ := s
  rw [keywordParam_eq] at h
  cases h
  rfl

theorem keywordParam_yields (hg : Standing c s) :
    Yields c s keywordParam? fun keyword s' => s' = s ∧ ∀ k ∈ keyword, Nameable k.1 := by
  intro a s' h
  obtain ⟨tokens, last, blocks⟩ := s
  rw [keywordParam_eq] at h
  cases h
  refine ⟨rfl, fun k hk => ?_⟩
  unfold keywordOf keywordAt at hk
  dsimp only at hk
  split at hk
  case _ name _ hname _ =>
    cases hk
    obtain ⟨l, hl, hlname⟩ := Option.bind_eq_some_iff.mp hname
    obtain ⟨w, hw⟩ := hg.at hl
    exact nameable_of_taken hw hlname
  case _ => cases hk

theorem note_written {t : Token} {note : Note} (ht : t.In c.text) (h : noteOf? t = some note) :
    note.Written c.text := by
  obtain ⟨l, start, stop⟩ := t
  cases l with
  | note text =>
    cases h
    exact .inr ⟨_, rfl, ht.taken⟩
  | _ => cases h

theorem notes_yields (hg : Standing c s) :
    Yields c s notes fun ns s' => (∀ note ∈ ns, note.Written c.text) ∧ Within 0 s s' := by
  unfold notes
  refine .get_bind (.advance_any fun s₁ h₁ => .pure ⟨fun note hnote => ?_, h₁⟩)
  obtain ⟨found, hfound, rfl⟩ := List.mem_filterMap.mp hnote
  obtain ⟨t, ht, htnote⟩ := List.mem_map.mp ((List.takeWhile_sublist _).subset hfound)
  exact note_written (hg t ht) htnote

theorem methodName_yields (hg : Standing c s) :
    Yields c s methodName fun name s' => IsMethodName name ∧ Within 0 s s' := by
  unfold methodName
  refine .get_bind ?_
  split
  case _ name start stop rest htokens =>
    obtain ⟨-, w, -, -, -, -, -, hw⟩ := hg _ (htokens ▸ List.mem_cons_self ..)
    exact .advance_any fun s₁ h₁ => .pure ⟨.inr hw.2, h₁⟩
  · exact .failMissing
  · refine .read_bind ?_
    split
    case _ => exact .failMissing
    case _ name hname =>
      refine .get_bind (.advance_any fun s₁ h₁ => .pure ⟨.inl ?_, h₁⟩)
      rw [String.toList_ofList]
      exact MethodName.isWhole_of_at? hname

theorem selfDot_yields : Yields c s selfDot fun _ s' => Within 0 s s' := by
  unfold selfDot
  refine .isNext_bind fun b => .peekAt_bind fun l => ?_
  exact .ite (fun _ => .advance_any fun s₁ h₁ => .pure h₁) fun _ => .pure (.refl s)

theorem methodLevel_yields : Yields c s methodLevel fun _ s' => Within 0 s s' := by
  unfold methodLevel
  refine selfDot_yields.bind fun b s₁ h₁ => .ite (fun _ => .pure h₁) fun _ => ?_
  refine .isNext_bind fun b => .peekAt_bind fun l => .peekAt_bind fun m => ?_
  exact .ite (fun _ => .advance_any fun s₂ h₂ => .pure (h₁.trans h₂)) fun _ => .pure h₁

end Grammar
end RubySig
