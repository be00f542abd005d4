import Mathlib.Algebra.Group.Nat.Defs
import RubySig.Proofs.Tree.Formed

/-! What the tokens of a text are: each is a stretch of the text that spells what the token says. -/
namespace RubySig

open Format (IsName Quotes Readable)

/-- A variable behind its sigils. -/
def IsVariable (sigils : List Char) (s : String) : Prop :=
  ∃ c cs, s.toList = sigils ++ c :: cs ∧ Lexer.isNameStart c = true ∧
    ∀ d ∈ cs, Lexer.isNamePart d = true

/-- What is known of the characters that a token was read from. -/
def Lexeme.Taken (w : List Char) : Lexeme → Prop
  | .integer n => Readable n
  | .string v => IsQuoted w v
  | .symbol _ => True
  | .identifier s => IsName w ∧ Lexer.nameLexeme w = .identifier s
  | .constant s => IsName w ∧ Lexer.nameLexeme w = .constant s
  | .interfaceName s => IsName w ∧ Lexer.nameLexeme w = .interfaceName s
  | .keyword k => IsName w ∧ Lexer.nameLexeme w = .keyword k
  | .quotedIdentifier s => w = '`' :: s.toList ++ ['`'] ∧ Nameable s
  | .instanceVariable s => w = s.toList ∧ IsVariable ['@'] s
  | .classVariable s => w = s.toList ∧ IsVariable ['@', '@'] s
  | .globalVariable s => w = s.toList ∧ IsVariable ['$'] s
  | .mark m => w = m.text.toList
  | .operator c => w = [c]
  | .note s => ∃ opening closing body, Lexer.closing? opening = some closing ∧ closing ∉ body ∧
      w = '%' :: 'a' :: opening :: body ++ [closing] ∧ s = String.ofList (Text.strip body)

namespace Lexer

/-- A piece is cut off the front of a text and spells what it says. -/
structure Piece.Genuine (text : List Char) (p : Piece) : Prop where
  split : text = p.taken ++ p.rest
  nonempty : p.taken ≠ []
  taken : p.lexeme.Taken p.taken

theorem literalBody_cons_iff {q c : Char} {cs body rest : List Char} (hc : c ≠ '\\') (hq : c ≠ q) :
    literalBody? q (c :: cs) = some (body, rest) ↔
      ∃ b, body = c :: b ∧ literalBody? q cs = some (b, rest) := by
  rw [Format.literalBody_plain cs hc hq, Option.map_eq_some_iff]
  constructor
  · rintro ⟨⟨b, r⟩, hb, he⟩
    cases he
    exact ⟨b, rfl, hb⟩
  · rintro ⟨b, rfl, hb⟩
    exact ⟨(b, rest), hb, rfl⟩

theorem literalBody_guarded_iff {q c : Char} {cs body rest : List Char} :
    literalBody? q ('\\' :: c :: cs) = some (body, rest) ↔
      ∃ b, body = '\\' :: c :: b ∧ literalBody? q cs = some (b, rest) := by
  rw [literalBody?, Option.map_eq_some_iff]
  constructor
  · rintro ⟨⟨b, r⟩, hb, he⟩
    cases he
    exact ⟨b, rfl, hb⟩
  · rintro ⟨b, rfl, hb⟩
    exact ⟨(b, rest), hb, rfl⟩

theorem literalBody_quote {q : Char} (hq : q ≠ '\\') (cs : List Char) :
    literalBody? q (q :: cs) = some ([], cs) := by
  rw [literalBody?]
  · rw [if_pos (by simp)]
  · intro d ds h
    exact absurd h hq

/-- A literal body ends at its quote, whatever stands behind. -/
theorem literalBody_closed {q : Char} (hq : q ≠ '\\') {cs body rest : List Char}
    (h : literalBody? q cs = some (body, rest)) :
    cs = body ++ q :: rest ∧ ∀ more, literalBody? q (body ++ q :: more) = some (body, more) := by
  induction cs using literalBody?.induct q generalizing body rest with
  | case1 => cases h
  | case2 c cs ih =>
    obtain ⟨b, rfl, hb⟩ := literalBody_guarded_iff.mp h
    obtain ⟨rfl, hm⟩ := ih hb
    exact ⟨rfl, fun more => literalBody_guarded_iff.mpr ⟨b, rfl, hm more⟩⟩
  | case3 c cs hne hc =>
    obtain rfl := beq_iff_eq.mp hc
    rw [literalBody_quote hq] at h
    cases h
    exact ⟨rfl, fun more => literalBody_quote hq more⟩
  | case4 c cs hne hc ih =>
    have hcq : c ≠ q := by simpa using hc
    have hb : c ≠ '\\' := by
      rintro rfl
      cases cs with
      | nil => simp [literalBody?, hcq] at h
      | cons d ds => exact hne d ds rfl rfl
    obtain ⟨b, rfl, hrest⟩ := (literalBody_cons_iff hb hcq).mp h
    obtain ⟨rfl, hm⟩ := ih hrest
    exact ⟨rfl, fun more => (literalBody_cons_iff hb hcq).mpr ⟨b, rfl, hm more⟩⟩

theorem quotedLiteral_genuine {q : Char} (hq : q = '"' ∨ q = '\'') {lead cs : List Char}
    {make : String → Lexeme} {p : Piece} (h : quotedLiteral q lead make cs = .ok p)
    (hm : ∀ v body, Quotes q body v → (make v).Taken (lead ++ q :: body ++ [q])) :
    Piece.Genuine (lead ++ q :: cs) p := by
  unfold quotedLiteral at h
  split at h
  case _ => cases h
  case _ body rest hb =>
    split at h
    case _ => cases h
    case _ value hv =>
      cases h
      have hne : q ≠ '\\' := by rcases hq with rfl | rfl <;> decide
      obtain ⟨rfl, hclosed⟩ := literalBody_closed hne hb
      exact ⟨by simp, by simp, hm _ _ ⟨hq, hclosed, hv⟩⟩

theorem decimalValue_lt {c : Char} {d : Nat} (h : Text.decimalValue? c = some d) : d < 10 := by
  unfold Text.decimalValue? at h
  split at h
  case isTrue hc =>
    cases h
    simp only [Char.isDigit, Bool.and_eq_true, decide_eq_true_eq, UInt32.le_iff_toNat_le] at hc
    have h₁ : ('9'.val).toNat = 57 := rfl
    simp only [Char.toNat]
    omega
  case isFalse =>
    split at h
    case isTrue => cases h
    case isFalse =>
      obtain ⟨z, hz, rfl⟩ := Option.map_eq_some_iff.mp h
      have := List.find?_some hz
      simp only [Bool.and_eq_true, decide_eq_true_eq] at this
      omega

theorem ofDigits_lt {base : Nat} {ds : List Nat} (h : ∀ d ∈ ds, d < base) :
    Text.ofDigits base ds < base ^ ds.length := by
  induction ds using List.reverseRecOn with
  | nil => simp [Text.ofDigits]
  | append_singleton ds d ih =>
    have hd : d < base := h d (by simp)
    have hrest := ih fun e he => h e (List.mem_append_left _ he)
    rw [Text.ofDigits] at hrest ⊢
    rw [List.foldl_append, List.foldl_cons, List.foldl_nil, List.length_append,
      List.length_singleton,
      Nat.pow_succ]
    have hscaled := Nat.mul_le_mul_right base (Nat.succ_le_of_lt hrest)
    rw [Nat.succ_mul] at hscaled
    omega

theorem mapM_decimalValue {cs : List Char} {ds : List Nat}
    (h : cs.mapM Text.decimalValue? = some ds) :
    ds.length = cs.length ∧ ∀ d ∈ ds, d < 10 := by
  induction cs generalizing ds with
  | nil =>
    cases h
    simp
  | cons c cs ih =>
    rw [List.mapM_cons] at h
    cases hc : Text.decimalValue? c with
    | none => rw [hc] at h; cases h
    | some d =>
      cases hcs : cs.mapM Text.decimalValue? with
      | none => rw [hc, hcs] at h; cases h
      | some es =>
        rw [hc, hcs] at h
        cases h
        obtain ⟨hl, he⟩ := ih hcs
        refine ⟨by simp [hl], ?_⟩
        intro x hx
        rcases List.mem_cons.mp hx with rfl | hx
        · exact decimalValue_lt hc
        · exact he x hx

theorem integerValue_readable {text : List Char} {n : Int} (h : integerValue text = .ok n) :
    Readable n := by
  unfold integerValue at h
  simp only at h
  split at h
  case isTrue => cases h
  case isFalse hl =>
    split at h
    case _ => cases h
    case _ ds hds =>
      obtain ⟨hlen, hlt⟩ := mapM_decimalValue hds
      have hn : n.natAbs = Text.ofDigits 10 ds := by
        cases h
        rw [Text.signedLike]
        split <;> simp
      have hpow : n.natAbs < 10 ^ Text.maxIntegerDigits := by
        rw [hn]
        exact Nat.lt_of_lt_of_le (ofDigits_lt hlt) (Nat.pow_le_pow_right (by decide) (by omega))
      rw [Readable, ← String.length_toList]
      have hrepr : (toString n.natAbs).toList = Nat.toDigits 10 n.natAbs := Nat.toList_repr
      rw [hrepr]
      exact (Nat.length_toDigits_le_iff (by decide) (by decide)).mpr hpow

theorem integer_genuine {c : Char} {cs : List Char} {p : Piece} (h : integer c cs = .ok p) :
    Piece.Genuine (c :: cs) p := by
  unfold integer at h
  simp only at h
  split at h
  case _ => cases h
  case _ n hn =>
    cases h
    exact ⟨by simp [List.takeWhile_append_dropWhile], by simp, integerValue_readable hn⟩

theorem nameLexeme_taken {w : List Char} (h : IsName w) : (nameLexeme w).Taken w := by
  generalize hl : nameLexeme w = l
  have key : l = nameLexeme w := hl.symm
  unfold nameLexeme at hl
  simp only at hl
  split at hl
  · subst hl
    exact ⟨h, key.symm⟩
  · split at hl
    · split at hl <;> subst hl <;> exact ⟨h, key.symm⟩
    · split at hl <;> subst hl <;> exact ⟨h, key.symm⟩
    · subst hl
      exact ⟨h, key.symm⟩

theorem name_genuine {c : Char} {cs : List Char} (hd : Text.isDigit c = false)
    (hc : isNameStart c = true) :
    Piece.Genuine (c :: cs) ⟨nameLexeme (c :: cs.takeWhile isNamePart),
      c :: cs.takeWhile isNamePart,
      cs.dropWhile isNamePart⟩ where
  split := by simp [List.takeWhile_append_dropWhile]
  nonempty := by simp
  taken := nameLexeme_taken ⟨c, _, rfl, hc, hd, fun _ hm => List.mem_takeWhile_imp hm⟩

theorem variablePiece_genuine {sigils cs : List Char} {make : String → Lexeme}
    (hs : starts isNameStart cs = true) (hne : sigils ≠ [])
    (hm : ∀ s, IsVariable sigils s → (make s).Taken s.toList) :
    Piece.Genuine (sigils ++ cs) (variablePiece sigils make cs) where
  split := by simp [variablePiece, List.takeWhile_append_dropWhile]
  nonempty := by simp [variablePiece, hne]
  taken := by
    cases cs with
    | nil => cases hs
    | cons c cs =>
      have hc : isNameStart c = true := hs
      have hw : (c :: cs).takeWhile isNamePart = c :: cs.takeWhile isNamePart :=
        List.takeWhile_cons_of_pos (Format.namePart_of_nameStart hc)
      have := hm (String.ofList (sigils ++ c :: cs.takeWhile isNamePart))
        ⟨c, _, String.toList_ofList, hc, fun _ hm => List.mem_takeWhile_imp hm⟩
      simpa [variablePiece, hw] using this

theorem sigilPiece_genuine {c : Char} {cs : List Char} {p : Piece} (h : sigilPiece? c cs = some p) :
    Piece.Genuine (c :: cs) p := by
  have two {rest : List Char} (hs : starts isNameStart rest = true) :
      Piece.Genuine (['@', '@'] ++ rest) (variablePiece ['@', '@'] .classVariable rest) :=
    variablePiece_genuine hs (by simp) fun _ hv => ⟨rfl, hv⟩
  have one {rest : List Char} (hs : starts isNameStart rest = true) :
      Piece.Genuine (['@'] ++ rest) (variablePiece ['@'] .instanceVariable rest) :=
    variablePiece_genuine hs (by simp) fun _ hv => ⟨rfl, hv⟩
  have global {rest : List Char} (hs : starts isNameStart rest = true) :
      Piece.Genuine (['$'] ++ rest) (variablePiece ['$'] .globalVariable rest) :=
    variablePiece_genuine hs (by simp) fun _ hv => ⟨rfl, hv⟩
  unfold sigilPiece? at h
  split at h
  all_goals try (split at h)
  case _ hs => cases h; exact two hs
  case _ => cases h
  case _ hs => cases h; exact one hs
  case _ => cases h
  case _ hs => cases h; exact global hs
  case _ => cases h
  case _ => cases h

theorem prefix_of_drop {w v cs : List Char} (hw : w <+: cs) (hv : v <+: cs.drop w.length) :
    w ++ v <+: cs := by
  obtain ⟨more, rfl⟩ := hw
  rw [List.drop_left] at hv
  exact (List.prefix_append_right_inj w).mpr hv

theorem symbolSuffix_starts (cs : List Char) : symbolSuffix cs <+: cs := by
  unfold symbolSuffix
  split
  case _ rest => exact ⟨rest, rfl⟩
  case _ rest => exact ⟨rest, rfl⟩
  case _ rest =>
    split
    · exact List.nil_prefix
    · exact ⟨rest, rfl⟩
  case _ => exact List.nil_prefix

theorem symbol_genuine {cs : List Char} {p : Piece} (h : symbol cs = .ok p) :
    Piece.Genuine (':' :: cs) p := by
  have named {name : List Char} (hp : name <+: cs) :
      Piece.Genuine (':' :: cs)
        ⟨.symbol (String.ofList name), ':' :: name, cs.drop name.length⟩ := by
    obtain ⟨more, rfl⟩ := hp
    exact ⟨by simp, by simp, trivial⟩
  unfold symbol at h
  simp only at h
  split at h
  case _ => cases h
  case _ c rest =>
    split at h
    case isTrue hq =>
      rw [Bool.or_eq_true, beq_iff_eq, beq_iff_eq] at hq
      exact quotedLiteral_genuine hq h fun _ _ _ => trivial
    case isFalse =>
      split at h
      case isTrue =>
        cases h
        exact named (prefix_of_drop (List.takeWhile_prefix _) (List.takeWhile_prefix _))
      case isFalse =>
        split at h
        case isTrue =>
          cases h
          exact named (prefix_of_drop (List.takeWhile_prefix _) (symbolSuffix_starts _))
        case isFalse =>
          split at h
          case _ op ho =>
            cases h
            rw [symbolOperator?] at ho
            have hp := List.find?_some ho
            exact named (List.isPrefixOf_iff_prefix.mp hp)
          case _ => cases h

theorem noteAt_genuine {opening closing : Char} (hc : closing? opening = some closing)
    {cs : List Char} {p : Piece} (h : noteAt opening closing cs = .ok p) :
    Piece.Genuine ('%' :: 'a' :: opening :: cs) p := by
  unfold noteAt at h
  split at h
  case _ => cases h
  case _ d rest hd =>
    cases h
    have hclose : d = closing := by
      have := List.head?_dropWhile_not (· != closing) cs
      rw [hd] at this
      simpa using this
    have hcs : cs = cs.takeWhile (· != closing) ++ closing :: rest := by
      rw [← hclose, ← hd, hclose, List.takeWhile_append_dropWhile]
    refine ⟨?_, by simp, opening, closing, _, hc, ?_, rfl, rfl⟩
    · conv => lhs; rw [hcs]
      simp
    · intro hm
      have := List.mem_takeWhile_imp hm
      simp at this

theorem mark_at_starts {cs : List Char} {m : Mark} (h : Mark.at? cs = some m) :
    m.text.toList <+: cs := by
  unfold Mark.at? at h
  split at h <;> cases h <;> simp [Mark.text]

theorem operatorPiece_genuine {c : Char} {cs : List Char} {p : Piece}
    (h : operatorPiece c cs = .ok p) : Piece.Genuine (c :: cs) p := by
  unfold operatorPiece at h
  split at h
  case _ m hm =>
    cases h
    obtain ⟨more, hmore⟩ := mark_at_starts hm
    have htake : (c :: cs).take m.text.length = m.text.toList := by
      rw [← hmore, ← String.length_toList, List.take_left]
    refine ⟨?_, ?_, ?_⟩
    · simp only [List.take_append_drop]
    · simp only [htake]
      cases m <;> simp [Mark.text]
    · exact htake
  case _ =>
    split at h
    case isTrue =>
      cases h
      exact ⟨rfl, by simp, rfl⟩
    case isFalse => cases h

theorem backquoted_genuine {cs name : List Char} (h : backquoted? cs = some name) :
    Piece.Genuine ('`' :: cs) ⟨.quotedIdentifier (String.ofList name), '`' :: name ++ ['`'],
      cs.drop (name.length + 1)⟩ := by
  unfold backquoted? at h
  simp only at h
  split at h
  case isTrue => cases h
  case isFalse hn =>
    cases h
    simp only [Bool.or_eq_true, List.isEmpty_iff, List.contains_eq_mem, decide_eq_true_eq,
      beq_iff_eq, not_or] at hn
    obtain ⟨⟨hne, hline⟩, hlen⟩ := hn
    have hsplit := List.takeWhile_append_dropWhile (p := (· != '`')) (l := cs)
    obtain ⟨d, rest, hd⟩ : ∃ d rest, cs.dropWhile (· != '`') = d :: rest := by
      cases hd : cs.dropWhile (· != '`') with
      | nil =>
        rw [hd, List.append_nil] at hsplit
        exact absurd (congrArg List.length hsplit) hlen
      | cons d rest => exact ⟨d, rest, rfl⟩
    have hq : d = '`' := by
      have := List.head?_dropWhile_not (· != '`') cs
      rw [hd] at this
      simpa using this
    subst hq
    rw [hd] at hsplit
    refine ⟨?_, by simp, by rw [String.toList_ofList], ?_⟩
    · have hdrop : cs.drop ((cs.takeWhile (· != '`')).length + 1) = rest := by
        conv => lhs; arg 2; rw [← hsplit]
        rw [← List.drop_drop, List.drop_left]
        rfl
      simp only [hdrop]
      conv => lhs; rw [← hsplit]
      simp
    · refine ⟨by rwa [String.toList_ofList], ?_, by rwa [String.toList_ofList]⟩
      rw [String.toList_ofList]
      intro hm
      have := List.mem_takeWhile_imp hm
      simp at this

theorem next_genuine {before : Option Char} {c : Char} {cs : List Char} {p : Piece}
    (h : next before c cs = .ok p) : Piece.Genuine (c :: cs) p := by
  unfold next at h
  split at h
  case _ opening closing rest hn =>
    split at hn
    case isTrue hc =>
      obtain rfl := beq_iff_eq.mp hc
      unfold noteStart? at hn
      split at hn
      case _ o r =>
        obtain ⟨cl, hcl, he⟩ := Option.map_eq_some_iff.mp hn
        cases he
        exact noteAt_genuine hcl h
      case _ => cases hn
    case isFalse => cases hn
  case _ =>
    split at h
    case isTrue hq =>
      rw [Bool.or_eq_true, beq_iff_eq, beq_iff_eq] at hq
      exact quotedLiteral_genuine hq h fun v body hb => ⟨c, body, rfl, hb⟩
    case isFalse =>
      split at h
      case _ name hb =>
        split at hb
        case isTrue hc =>
          obtain rfl := beq_iff_eq.mp hc
          cases h
          exact backquoted_genuine hb
        case isFalse => cases hb
      case _ =>
        split at h
        case isTrue => exact integer_genuine h
        case isFalse hd =>
          have hd : Text.isDigit c = false := by
            rw [Bool.or_eq_true, not_or] at hd
            exact Bool.eq_false_iff.mpr hd.1
          split at h
          case isTrue hc =>
            cases h
            exact name_genuine hd hc
          case isFalse =>
            split at h
            case _ piece hs =>
              cases h
              exact sigilPiece_genuine hs
            case _ =>
              split at h
              case isTrue hc =>
                rw [Bool.and_eq_true, beq_iff_eq] at hc
                obtain ⟨rfl, -⟩ := hc
                exact symbol_genuine h
              case isFalse => exact operatorPiece_genuine h

end Lexer

/-- A token stands in a text where it says, spelled as it says. -/
def Token.In (text : List Char) (t : Token) : Prop :=
  ∃ front w back, text = front ++ w ++ back ∧ w ≠ [] ∧ t.start = Position.first.after front ∧
    t.stop = t.start.after w ∧ t.lexeme.Taken w

namespace Lexer

/-- What one step of scanning can do: end, pass white space, or pass a comment or a token. -/
theorem scanFrom_cases {fuel : Nat} {r : Reader} {scan : Scan}
    (h : scanFrom (fuel + 1) r = .ok scan) :
    (r.rest = [] ∧ scan = ⟨[], [], r.position⟩) ∨
    (∃ c cs, r.rest = c :: cs ∧ isSpace c = true ∧ scanFrom fuel (r.pass [c] cs) = .ok scan) ∨
    (∃ cs more, r.rest = '#' :: cs ∧
      scanFrom fuel (r.pass ('#' :: cs.takeWhile (· != '\n')) (cs.dropWhile (· != '\n'))) =
        .ok more ∧
      scan = { more with comments := ⟨commentText (cs.takeWhile (· != '\n')), r.position,
        r.position.after ('#' :: cs.takeWhile (· != '\n')), r.blank⟩ :: more.comments }) ∨
    (∃ c cs piece more, r.rest = c :: cs ∧ isSpace c = false ∧ c ≠ '#' ∧
      next r.before c cs = .ok piece ∧ scanFrom fuel (r.pass piece.taken piece.rest) = .ok more ∧
      scan = { more with tokens :=
        ⟨piece.lexeme, r.position, r.position.after piece.taken⟩ :: more.tokens }) := by
  rw [scanFrom] at h
  cases hr : r.rest with
  | nil =>
    rw [hr] at h
    cases h
    exact .inl ⟨rfl, rfl⟩
  | cons c cs =>
    rw [hr] at h
    simp only at h
    split at h
    case isTrue hc => exact .inr (.inl ⟨c, cs, rfl, hc, h⟩)
    case isFalse hspace =>
      split at h
      case isTrue hc =>
        obtain rfl := eq_of_beq hc
        cases hm : scanFrom fuel (r.pass ('#' :: cs.takeWhile (· != '\n'))
            (cs.dropWhile (· != '\n'))) with
        | error e => rw [hm] at h; cases h
        | ok more =>
          rw [hm] at h
          cases h
          exact .inr (.inr (.inl ⟨cs, more, rfl, hm, rfl⟩))
      case isFalse hmark =>
        split at h
        case _ => cases h
        case _ piece hn =>
          cases hm : scanFrom fuel (r.pass piece.taken piece.rest) with
          | error e => rw [hm] at h; cases h
          | ok more =>
            rw [hm] at h
            cases h
            exact .inr (.inr (.inr ⟨c, cs, piece, more, rfl, Bool.eq_false_iff.mpr hspace,
              by simpa using hmark, hn, hm, rfl⟩))

theorem scanFrom_sound (fuel : Nat) (r : Reader) (front : List Char) {scan : Scan}
    (hp : r.position = Position.first.after front) (h : scanFrom fuel r = .ok scan) :
    ∀ t ∈ scan.tokens, t.In (front ++ r.rest) := by
  induction fuel generalizing r front scan with
  | zero =>
    cases h
    simp
  | succ fuel ih =>
    obtain ⟨hr, rfl⟩ | ⟨c, cs, hr, -, hm⟩ | ⟨cs, more, hr, hm, rfl⟩ |
      ⟨c, cs, piece, more, hr, -, -, hn, hm, rfl⟩ := scanFrom_cases h
    · simp
    · have := ih (r.pass [c] cs) (front ++ [c]) (by rw [Position.after_append, ← hp]; rfl) hm
      rw [hr]
      simpa using this
    · have := ih _ (front ++ '#' :: cs.takeWhile (· != '\n')) (by
        rw [Position.after_append, ← hp]; rfl) hm
      rw [hr]
      simpa [List.takeWhile_append_dropWhile] using this
    · obtain ⟨hs, hne, ht⟩ := next_genuine hn
      have hrest := ih _ (front ++ piece.taken) (by rw [Position.after_append, ← hp]; rfl) hm
      intro t htok
      rw [hr]
      rcases List.mem_cons.mp htok with rfl | htok
      · exact ⟨front, piece.taken, piece.rest, by rw [hs, List.append_assoc], hne, hp, rfl, ht⟩
      · rw [hs, ← List.append_assoc]
        exact hrest t htok

/-- Every token of a text stands in it as it says. -/
theorem scan_sound {text : List Char} {sc : Scan} (h : scan text = .ok sc) :
    ∀ t ∈ sc.tokens, t.In text :=
  scanFrom_sound _ (.start text) [] rfl h

theorem ReadsAs.taken {s : String} {l : Lexeme} (h : ReadsAs s l) : ∃ w, l.Taken w := by
  obtain ⟨sc, hs, ht⟩ := h
  obtain ⟨t, hm⟩ : ∃ t, sc.tokens = [t] := by
    cases hts : sc.tokens with
    | nil => rw [hts] at ht; cases ht
    | cons t ts =>
      rw [hts] at ht
      cases ts with
      | nil => exact ⟨t, rfl⟩
      | cons u us => cases ht
  rw [hm] at ht
  cases ht
  obtain ⟨_, w, _, -, -, -, -, hw⟩ := scan_sound hs t (by simp [hm])
  exact ⟨w, hw⟩

theorem nameLexeme_text (w : List Char) : (nameLexeme w).text = String.ofList w := by
  unfold nameLexeme
  simp only
  split
  case _ k hk =>
    rw [Keyword.ofName?] at hk
    have := List.find?_some hk
    exact beq_iff_eq.mp this
  case _ =>
    split
    · split <;> rfl
    · split <;> rfl
    · rfl

/-- A token that is a name was read from that name. -/
theorem taken_name {s : String} {l : Lexeme} {w : List Char} (h : l.Taken w)
    (hl : l = .constant s ∨ l = .interfaceName s ∨ l = .identifier s) :
    IsName s.toList ∧ nameLexeme s.toList = l := by
  have key : IsName w ∧ nameLexeme w = l ∧ l.text = s := by
    rcases hl with rfl | rfl | rfl <;> exact ⟨h.1, h.2, rfl⟩
  obtain ⟨hn, hlex, ht⟩ := key
  have hs : s.toList = w := by
    rw [← ht, ← hlex, nameLexeme_text, String.toList_ofList]
  rw [hs]
  exact ⟨hn, hlex⟩

/-- A text that is read as a name of one kind is that name. -/
theorem ReadsAs.name {s : String} {l : Lexeme} (h : ReadsAs s l)
    (hl : l = .constant s ∨ l = .interfaceName s ∨ l = .identifier s) :
    IsName s.toList ∧ nameLexeme s.toList = l := by
  obtain ⟨w, hw⟩ := h.taken
  exact taken_name hw hl

end Lexer
end RubySig
