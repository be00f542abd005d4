import RubySig.Proofs.Token.Sound
import RubySig.Proofs.Tree.Passed
import RubySig.Proofs.Tree.Sites
import RubySig.Proofs.Tree.TyReads

/-!
What tokens tell of the sites that are read from them: which names are names of type parameters, and
which tokens are the strings of a tree.
-/
namespace RubySig

/-- Whether a token is no string. -/
def Lexeme.isPlain : Lexeme → Bool
  | .string _ => false
  | _ => true

@[simp] theorem Lexeme.isPlain_mark (m : Mark) : (mark m).isPlain = true := rfl

@[simp] theorem Lexeme.isPlain_keyword (k : Keyword) : (keyword k).isPlain = true := rfl

theorem Token.string?_eq_none {t : Token} (h : t.lexeme.isPlain = true) : t.string? = none := by
  obtain ⟨lexeme, start, stop⟩ := t
  cases lexeme <;> first | rfl | cases h

/-- A type is read from tokens: a single constant is the name of a type parameter where one of that
name is declared around it, and of a class elsewhere. -/
structure Ty.Resolved (v : List Token) (scopes : List (List String)) (t : Ty) : Prop where
  place : t.namePlace = Token.cover v
  variable_iff : ∀ n, t.variableName? = some n ↔ v.map (·.lexeme) = [.constant n] ∧
    n ∈ scopes.flatten
  class_iff : ∀ n, t.bareName? = some n ↔ v.map (·.lexeme) = [.constant n] ∧ n ∉ scopes.flatten

namespace Grammar

/-- Tokens of a text, in their order. -/
structure Genuine (text : List Char) (w : List Token) : Prop where
  stands : ∀ t ∈ w, t.In text
  order : w.Pairwise fun t u => t.start.offset ≤ u.start.offset

section Genuine

variable {text : List Char} {w v : List Token}

theorem Genuine.left (h : Genuine text (w ++ v)) : Genuine text w where
  stands t ht := h.stands t (List.mem_append_left v ht)
  order := (List.pairwise_append.mp h.order).1

theorem Genuine.right (h : Genuine text (w ++ v)) : Genuine text v where
  stands t ht := h.stands t (List.mem_append_right w ht)
  order := (List.pairwise_append.mp h.order).2.1

end Genuine

/-- The types are resolved by some of the tokens, and the strings are those of the tokens. -/
structure Accounted (w : List Token) (sites : List Site) : Prop where
  resolved : ∀ scopes t, Site.type scopes t ∈ sites → ∃ v, v ≠ [] ∧ v <:+: w ∧ t.Resolved v scopes
  strings : (w.filterMap Token.string?).Perm (sites.filterMap Site.string?)

/-- Tokens account for sites, if they are tokens of the text. -/
def Accounts (text : List Char) (w : List Token) (sites : List Site) : Prop :=
  Genuine text w → Accounted w sites

namespace Accounts

variable {text : List Char} {w v : List Token} {a b : List Site} {t : Token}
  {scopes : List (List String)} {type : Ty}

theorem append (h : Accounts text w a) (k : Accounts text v b) :
    Accounts text (w ++ v) (a ++ b) := by
  intro hw
  have ha := h hw.left
  have hb := k hw.right
  constructor
  · intro scopes t hsite
    rcases List.mem_append.mp hsite with hsite | hsite
    · obtain ⟨m, hne, hm, hresolved⟩ := ha.resolved scopes t hsite
      exact ⟨m, hne, hm.trans (List.prefix_append w v).isInfix, hresolved⟩
    · obtain ⟨m, hne, hm, hresolved⟩ := hb.resolved scopes t hsite
      exact ⟨m, hne, hm.trans (List.suffix_append w v).isInfix, hresolved⟩
  · rw [List.filterMap_append, List.filterMap_append]
    exact ha.strings.append hb.strings

theorem perm (h : Accounts text w a) (hp : a.Perm b) : Accounts text w b := by
  intro hw
  have ha := h hw
  constructor
  · intro scopes t hsite
    exact ha.resolved scopes t (hp.mem_iff.mpr hsite)
  · exact ha.strings.trans (hp.filterMap Site.string?)

/-- Tokens without strings account for nothing. -/
theorem quiet (h : Genuine text w → ∀ t ∈ w, t.lexeme.isPlain = true) : Accounts text w [] := by
  intro hw
  constructor
  · simp
  · rw [List.filterMap_eq_nil_iff.mpr fun t ht => Token.string?_eq_none (h hw t ht)]
    exact .nil

theorem nil : Accounts text [] [] := quiet fun _ => by simp

theorem token {l : Lexeme} (ht : t.lexeme = l) (hl : l.isPlain = true) : Accounts text [t] [] :=
  quiet fun _ => by simpa [ht] using hl

/-- Tokens without strings may stand behind others. -/
theorem left (h : Accounts text w a) (hv : Accounts text v []) : Accounts text (w ++ v) a := by
  have := h.append hv
  rwa [List.append_nil] at this

theorem right (h : Accounts text v a) (hw : Accounts text w []) : Accounts text (w ++ v) a :=
  hw.append h

/-- One more type, which is no string. -/
theorem cons (h : Accounts text w a) (hv : v ≠ []) (hvw : v <:+: w)
    (htype : Genuine text w → type.Resolved v scopes) (hplain : type.string? = none) :
    Accounts text w (.type scopes type :: a) := by
  intro hw
  have ha := h hw
  have hplain : (Site.type scopes type).string? = none := hplain
  constructor
  · intro scopes' t hsite
    rcases List.mem_cons.mp hsite with heq | hsite
    · cases heq
      exact ⟨v, hv, hvw, htype hw⟩
    · exact ha.resolved scopes' t hsite
  · rw [List.filterMap_cons_none hplain]
    exact ha.strings

/-- One more key, which is no string. -/
theorem key {location : Option Span} {key : Literal} (h : Accounts text w a)
    (hplain : (Site.key location key).string? = none) :
    Accounts text w (.key location key :: a) := by
  intro hw
  have ha := h hw
  constructor
  · intro scopes t hsite
    rcases List.mem_cons.mp hsite with heq | hsite
    · cases heq
    · exact ha.resolved scopes t hsite
  · rw [List.filterMap_cons_none hplain]
    exact ha.strings

/-- A literal that is read as a type is a key just as well. -/
theorem asKey {location : Option Span} {key : Literal}
    (h : Accounts text w (.type scopes (.literal location key) :: a)) :
    Accounts text w (.key location key :: a) := by
  intro hw
  have ha := h hw
  constructor
  · intro scopes' t hsite
    rcases List.mem_cons.mp hsite with heq | hsite
    · cases heq
    · exact ha.resolved scopes' t (List.mem_cons_of_mem _ hsite)
  · have hstring : (Site.key location key).string? =
        (Site.type scopes (.literal location key)).string? := by
      cases key <;> rfl
    have hstrings := ha.strings
    rwa [List.filterMap_cons, ← hstring, ← List.filterMap_cons] at hstrings

end Accounts

section Sites

variable {text : List Char} {scopes : List (List String)} {w : List Token} {a : List Site} {t : Ty}

/-- A type is neither a type variable nor a class without a namespace. -/
def NoBareName (t : Ty) : Prop := t.variableName? = none ∧ t.bareName? = none

/-- What is read from other tokens than a single constant is no bare name. -/
theorem resolved_other (hplace : t.namePlace = Token.cover w) (hbare : NoBareName t)
    (hw : ∀ n, w.map (·.lexeme) ≠ [.constant n]) : t.Resolved w scopes where
  place := hplace
  variable_iff n := by simp [hbare.1, hw n]
  class_iff n := by simp [hbare.2, hw n]

/-- A type that is read from two or more tokens and is not a name. -/
theorem Accounts.compound (h : Accounts text w a) (hw : 2 ≤ w.length)
    (hplace : t.namePlace = Token.cover w) (hbare : NoBareName t) (hstring : t.string? = none) :
    Accounts text w (.type scopes t :: a) := by
  refine h.cons (List.ne_nil_of_length_pos (by omega)) List.infix_rfl (fun _ => ?_) hstring
  refine resolved_other hplace hbare fun n hn => ?_
  have hlength := congrArg List.length hn
  rw [List.length_map, List.length_singleton] at hlength
  omega

/-- A type that is a single token and not a name. -/
theorem Accounts.single {u : Token} (hu : ∀ n, u.lexeme ≠ .constant n)
    (hplace : t.namePlace = Token.cover [u]) (hbare : NoBareName t)
    (hstring : u.string? = t.string?) :
    Accounts text [u] [.type scopes t] := by
  intro _
  constructor
  · intro scopes' t' hsite
    cases List.mem_singleton.mp hsite
    refine ⟨[u], by simp, List.infix_rfl, resolved_other hplace hbare fun n hn => ?_⟩
    exact hu n (List.cons.inj hn).1
  · have hstring : u.string? = (Site.type scopes t).string? := hstring
    rw [List.filterMap_cons, List.filterMap_cons, hstring]
    rfl

end Sites

/-- A name is read from tokens, none of which is a string. A single constant is a name of a class
without a namespace, and only such a name is a single constant. -/
structure NameRead (text : List Char) (w : List Token) (name : TypeName) : Prop where
  nonempty : w ≠ []
  place : name.location = Token.cover w
  plain : ∀ t ∈ w, t.lexeme.isPlain = true
  bare : Genuine text w → ∀ n, w.map (·.lexeme) = [.constant n] ↔
    name.isClass = true ∧ name.isBare = true ∧ name.name = n

variable {c : Context} {s : State} {β : Type} {Q : β → State → Prop}

theorem Yields.advance_take {k : Nat} {f : Unit → Parser β}
    (h : ∀ s', Passed (s.tokens.take k) s s' → Yields c s' (f ()) Q) :
    Yields c s (advance k >>= f) Q :=
  h _ (Passed.advance k s)

theorem Yields.isNext_known {l : Lexeme} {f : Bool → Parser β}
    (h : ∀ b, (b = true → (s.tokens[0]?).map (·.lexeme) = some l) → Yields c s (f b) Q) :
    Yields c s (isNext l >>= f) Q := by
  refine h _ fun hb => ?_
  rw [← List.head?_eq_getElem?]
  exact eq_of_beq hb

theorem Yields.peekAt_known {k : Nat} {f : Option Lexeme → Parser β}
    (h : ∀ l, (s.tokens[k]?).map (·.lexeme) = l → Yields c s (f l) Q) :
    Yields c s (peekAt k >>= f) Q :=
  h _ rfl

/-- The first tokens of a list are no strings if each of them is known to be none. -/
theorem plain_take {ts : List Token} {k : Nat}
    (h : ∀ i < k, ∃ l, (ts[i]?).map (·.lexeme) = some l ∧ l.isPlain = true) :
    ∀ t ∈ ts.take k, t.lexeme.isPlain = true := by
  intro t ht
  obtain ⟨i, hi, rfl⟩ := List.mem_take_iff_getElem.mp ht
  obtain ⟨l, hl, hplain⟩ := h i (by omega)
  rw [List.getElem?_eq_getElem (by omega), Option.map_some, Option.some.injEq] at hl
  rwa [hl]

/-- The segments in front of the last one of a name take two tokens each, none of them a string. -/
theorem pathOf_take (ts : List Token) : 2 * (pathOf ts).length ≤ ts.length ∧
    ∀ t ∈ ts.take (2 * (pathOf ts).length), t.lexeme.isPlain = true := by
  induction ts using pathOf.induct with
  | case1 name start stop start' stop' rest ih =>
    obtain ⟨hlength, hplain⟩ := ih
    have htwice : 2 * (pathOf rest).length + 2 = 2 * ((pathOf rest).length + 1) := by omega
    rw [pathOf, List.length_cons, ← htwice]
    constructor
    · simpa using hlength
    · simpa [Lexeme.isPlain] using hplain
  | case2 ts h =>
    rw [pathOf]
    · simp
    · exact h

theorem segment_name {segment : Segment} {l : Lexeme} {name : String}
    (h : segment.name? l = some name) :
    l = .constant name ∨ l = .interfaceName name ∨ l = .identifier name := by
  cases segment <;> cases l <;> simp_all [Segment.name?]

theorem isPlain_name {l : Lexeme} {name : String} (h : l.name? = some name) : l.isPlain = true := by
  cases l <;> first | rfl | cases h

/-- The last token of a name tells whether the name is one of a class. -/
theorem isClass_iff {text : List Char} {t : Token} {name : TypeName} (ht : t.In text)
    (hl : t.lexeme = .constant name.name ∨ t.lexeme = .interfaceName name.name ∨
      t.lexeme = .identifier name.name) : name.isClass = true ↔ t.lexeme = .constant name.name := by
  obtain ⟨-, w, -, -, -, -, -, htaken⟩ := ht
  obtain ⟨-, hlex⟩ := Lexer.taken_name htaken hl
  rcases hl with hl | hl | hl
  · exact iff_of_true (class_of_constant (hlex.trans hl)).1 hl
  · simp [(interface_of_interfaceName (hlex.trans hl)).1, hl]
  · simp [(neither_of_identifier (hlex.trans hl)).1, hl]

/-- A name without tokens in front of the last one is a single constant, if it is one of a class. -/
theorem bareName_iff {text : List Char} {front : List Token} {t : Token} {name : TypeName}
    (ht : t.In text) (hl : t.lexeme = .constant name.name ∨ t.lexeme = .interfaceName name.name ∨
      t.lexeme = .identifier name.name) (hfront : name.isBare = true ↔ front = []) (n : String) :
    (front ++ [t]).map (·.lexeme) = [.constant n] ↔
      name.isClass = true ∧ name.isBare = true ∧ name.name = n := by
  rw [isClass_iff ht hl, hfront]
  cases front with
  | cons u us => simp
  | nil =>
    simp only [List.nil_append, List.map_cons, List.map_nil, List.cons.injEq, and_true, true_and]
    constructor
    · intro htn
      rcases hl with h | h | h <;> rw [htn] at h <;> cases h
      exact ⟨htn, rfl⟩
    · rintro ⟨htn, rfl⟩
      exact htn

theorem typeName_read {segment : Segment} {role : Role} :
    Passes c s (typeName segment role) (NameRead c.text) := by
  unfold typeName
  refine .here_place ?_
  have habsolute : Yields c s (eat (.mark .doubleColon)) fun absolute s' =>
      ∃ w, Passed w s s' ∧ (absolute = false ↔ w = []) ∧ ∀ t ∈ w, t.lexeme.isPlain = true := by
    refine Yields.eat_passed.imp ?_
    rintro absolute s' (⟨rfl, t, ht, h⟩ | ⟨rfl, rfl⟩)
    · exact ⟨[t], h, by simp, by simp [ht, Lexeme.isPlain]⟩
    · exact ⟨[], .refl s', by simp, by simp⟩
  refine habsolute.bind ?_
  rintro absolute s₁ ⟨w₁, h₁, habs, hplain₁⟩
  refine .get_bind (.advance_take fun s₂ h₂ => .peek_bind fun l hl => ?_)
  obtain ⟨hlength, hplain₂⟩ := pathOf_take s₁.tokens
  have hpath : (pathOf s₁.tokens).isEmpty = true ↔
      s₁.tokens.take (2 * (pathOf s₁.tokens).length) = [] := by
    rw [List.isEmpty_iff, List.take_eq_nil_iff]
    constructor
    · intro hnil
      exact .inl (by rw [hnil]; rfl)
    · rintro (hzero | hnil)
      · exact List.eq_nil_of_length_eq_zero (by omega)
      · rw [hnil]
        rfl
  split
  case _ => exact .failMissing
  case _ name hname =>
    obtain ⟨l, rfl, hsegment⟩ := Option.bind_eq_some_iff.mp hname
    have hlast := segment_name hsegment
    refine .advance_next hl fun t s₃ ht h₃ => ?_
    subst ht
    have h := (h₁.trans h₂).trans h₃
    refine .span_cover h (by simp) (.pure ⟨_, h, by simp, rfl, ?_, fun hgenuine => ?_⟩)
    · simp only [List.forall_mem_append, List.forall_mem_singleton]
      refine ⟨⟨hplain₁, hplain₂⟩, ?_⟩
      rcases hlast with hlast | hlast | hlast <;> rw [hlast] <;> rfl
    · refine bareName_iff (hgenuine.stands t (by simp)) hlast ?_
      rw [TypeName.isBare, Bool.and_eq_true, List.append_eq_nil_iff, Bool.not_eq_true', habs, hpath]

end Grammar
end RubySig
