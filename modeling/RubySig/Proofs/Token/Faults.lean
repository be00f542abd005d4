import RubySig.Proofs.Token.Scan

/-!
Why a text cannot be read as tokens: what stands at the place where no token can be split off.
Literals fail on their values only where they name a code point in braces that no character has, and
integers where their digits are too many or are no decimal digits.
-/
namespace RubySig

open Lexer (Failure isQuote isNameStart isSpace literalBody? closing?)

namespace Escape

/-- A literal body names a code point in braces for which there is no character. -/
def NamesNoCharacter (fault : ValueFault) (body : List Char) : Prop :=
  ∃ front codes rest word, body = front ++ '\\' :: 'u' :: '\x7b' :: codes ++ '\x7d' :: rest ∧
    word ∈ words codes ∧ charOf (Text.ofHexDigits 16 word) = .error fault

variable {fault : ValueFault} {cs body : List Char}

theorem NamesNoCharacter.behind (h : NamesNoCharacter fault body) (front : List Char) :
    NamesNoCharacter fault (front ++ body) := by
  obtain ⟨f, codes, rest, word, rfl, hword, hchar⟩ := h
  exact ⟨front ++ f, codes, rest, word, by simp, hword, hchar⟩

theorem hexValue_lt {c : Char} {d : Nat} (h : Text.hexValue? c = some d) : d < 16 := by
  have bounds {a b : Char} (hc : (decide (a ≤ c) && decide (c ≤ b)) = true) :
      a.toNat ≤ c.toNat ∧ c.toNat ≤ b.toNat := by
    rw [Bool.and_eq_true, decide_eq_true_eq, decide_eq_true_eq, Char.le_def, Char.le_def,
      UInt32.le_iff_toNat_le, UInt32.le_iff_toNat_le] at hc
    exact hc
  unfold Text.hexValue? at h
  split at h
  case isTrue hc =>
    have := bounds hc
    have hn : '9'.toNat = 57 := rfl
    cases h
    omega
  case isFalse =>
    split at h
    case isTrue hc =>
      have := bounds hc
      have hn : 'f'.toNat = 102 := rfl
      cases h
      omega
    case isFalse =>
      split at h
      case isTrue hc =>
        have := bounds hc
        have hn : 'F'.toNat = 70 := rfl
        cases h
        omega
      case isFalse => cases h

theorem ofDigits_mono {base : Nat} (hbase : base ≤ 16) (ds : List Nat) :
    Text.ofDigits base ds ≤ Text.ofDigits 16 ds := by
  induction ds using List.reverseRecOn with
  | nil => exact Nat.le_refl _
  | append_singleton ds d ih =>
    have hscaled := Nat.mul_le_mul ih hbase
    rw [Text.ofDigits, Text.ofDigits] at hscaled ⊢
    rw [List.foldl_append, List.foldl_append, List.foldl_cons, List.foldl_cons, List.foldl_nil,
      List.foldl_nil]
    omega

/-- Up to four digits name a code point that is not too large. -/
theorem charOf_short {base : Nat} (hbase : base ≤ 16) {w : List Char} (hw : w.length ≤ 4) :
    charOf (Text.ofHexDigits base w) ≠ .error fault := by
  have hdigits : ∀ d ∈ w.filterMap Text.hexValue?, d < 16 := by
    intro d hd
    obtain ⟨c, -, hc⟩ := List.mem_filterMap.mp hd
    exact hexValue_lt hc
  have hvalue : Text.ofHexDigits base w < 0x10000 :=
    calc Text.ofHexDigits base w
      _ ≤ Text.ofDigits 16 (w.filterMap Text.hexValue?) := ofDigits_mono hbase _
      _ < 16 ^ (w.filterMap Text.hexValue?).length := Lexer.ofDigits_lt hdigits
      _ ≤ 16 ^ 4 := Nat.pow_le_pow_right (by decide) ((List.length_filterMap_le _ w).trans hw)
  unfold charOf
  rw [if_neg (by omega), if_neg (by omega)]
  split <;> simp

theorem mapM_error {α β ε : Type} {g : α → Except ε β} {as : List α} {e : ε}
    (h : as.mapM g = .error e) : ∃ a ∈ as, g a = .error e := by
  induction as with
  | nil => cases h
  | cons a as ih =>
    rw [List.mapM_cons] at h
    cases ha : g a with
    | error e' =>
      rw [ha] at h
      cases h
      exact ⟨a, List.mem_cons_self .., ha⟩
    | ok b =>
      cases has : as.mapM g with
      | error e' =>
        rw [ha, has] at h
        cases h
        obtain ⟨a', ha', hg⟩ := ih has
        exact ⟨a', List.mem_cons_of_mem _ ha', hg⟩
      | ok bs =>
        rw [ha, has] at h
        cases h

theorem braced_split {inner codes : List Char} {size : Nat}
    (h : braced? inner = some (codes, size)) :
    ∃ rest, inner = codes ++ '\x7d' :: rest := by
  unfold braced? at h
  dsimp only at h
  have hsplit := List.take_append_drop
    (inner.takeWhile fun c => Text.isHexDigit c || c == ' ').length inner
  rw [← List.prefix_iff_eq_take.mp (List.takeWhile_prefix _)] at hsplit
  split at h
  case _ c cs rest hcodes hrest =>
    cases h
    rw [hrest] at hsplit
    exact ⟨rest, hsplit.symm⟩
  case _ => cases h

/-- Of the escape sequences only code points in braces can fail. -/
theorem read_error (h : read cs = .error fault) : NamesNoCharacter fault ('\\' :: cs) := by
  have short {base : Nat} {w : List Char} {n : Nat} (hbase : base ≤ 16) (hw : w.length ≤ 4)
      (h : (do return ([← charOf (Text.ofHexDigits base w)], n) :
        Except ValueFault (List Char × Nat)) =
        .error fault) : NamesNoCharacter fault ('\\' :: cs) := by
    cases hc : charOf (Text.ofHexDigits base w) with
    | error e =>
      rw [hc] at h
      cases h
      exact absurd hc (charOf_short hbase hw)
    | ok a =>
      rw [hc] at h
      cases h
  unfold read at h
  split at h
  · cases h
  · dsimp only at h
    split at h
    case _ codes size hwhole =>
      split at hwhole
      case _ inner =>
        obtain ⟨rest, rfl⟩ := braced_split hwhole
        cases hm : (words codes).mapM fun w => charOf (Text.ofHexDigits 16 w) with
        | ok chars =>
          rw [hm] at h
          cases h
        | error e =>
          rw [hm] at h
          cases h
          obtain ⟨word, hword, hchar⟩ := mapM_error hm
          exact ⟨[], codes, rest, word, by simp, hword, hchar⟩
      case _ => cases hwhole
    case _ =>
      split at h
      case _ digits hfour =>
        unfold fourHex? at hfour
        dsimp only at hfour
        split at hfour
        case isTrue =>
          cases hfour
          exact short (by decide) (List.length_take_le _ _) h
        case isFalse => cases hfour
      case _ => cases h
  · have hlength (rest : List Char) : ((rest.take 2).takeWhile Text.isHexDigit).length ≤ 4 :=
      ((List.takeWhile_prefix _).length_le.trans (List.length_take_le _ _)).trans (by decide)
    split at h
    case _ => cases h
    case _ => exact short (by decide) (hlength _) h
  · have hlength (rest : List Char) : ((rest.take 3).takeWhile Text.isOctalDigit).length ≤ 4 :=
      ((List.takeWhile_prefix _).length_le.trans (List.length_take_le _ _)).trans (by decide)
    split at h
    case _ => cases h
    case _ => exact short (by decide) (hlength _) h

theorem decodeDouble_error {skip : Nat} (h : decodeDouble skip body = .error fault) :
    NamesNoCharacter fault body := by
  induction body generalizing skip with
  | nil =>
    rw [decodeDouble] at h
    cases h
  | cons c cs ih =>
    have behind {n : Nat} (h : decodeDouble n cs = .error fault) :
        NamesNoCharacter fault (c :: cs) :=
      (ih h).behind [c]
    cases skip with
    | succ skip =>
      rw [decodeDouble] at h
      exact behind h
    | zero =>
      rw [decodeDouble] at h
      split at h
      case isTrue hc =>
        obtain rfl := beq_iff_eq.mp hc
        cases hr : read cs with
        | error e =>
          rw [hr] at h
          cases h
          exact read_error hr
        | ok r =>
          cases hrest : decodeDouble r.2 cs with
          | error e =>
            rw [hr] at h
            change (decodeDouble r.2 cs >>= _) = _ at h
            rw [hrest] at h
            cases h
            exact behind hrest
          | ok more =>
            rw [hr] at h
            change (decodeDouble r.2 cs >>= _) = _ at h
            rw [hrest] at h
            cases h
      case isFalse =>
        cases hrest : decodeDouble 0 cs with
        | error e =>
          rw [hrest] at h
          cases h
          exact behind hrest
        | ok more =>
          rw [hrest] at h
          cases h

end Escape

/-- Digits that spell no number: too many of them, or one that is no decimal digit. -/
inductive UnreadableDigits (w : List Char) : Prop where
  | many : Text.maxIntegerDigits < ((Text.unsigned w).filter (· != '_')).length → UnreadableDigits w
  | odd {d : Char} : d ∈ Text.unsigned w → d ≠ '_' → Text.decimalValue? d = none →
      UnreadableDigits w

namespace Lexer

/-- What begins a text where no token can be split off. -/
inductive Stuck (text : List Char) : Failure → Prop where
  | character {c : Char} {cs : List Char} : text = c :: cs → Mark.at? text = none →
      isNameStart c = false → Text.isDigit c = false →
      Stuck text (.cause (.unexpectedCharacter c) [])
  | string {lead cs : List Char} {q : Char} : text = lead ++ q :: cs → isQuote q = true →
      literalBody? q cs = none → Stuck text (.cause .unterminatedString lead)
  | note {opening closing : Char} {cs : List Char} : text = '%' :: 'a' :: opening :: cs →
      closing? opening = some closing → closing ∉ cs → Stuck text (.cause .unterminatedNote [])
  | digits {w rest : List Char} : text = w ++ rest →
      (∀ d ∈ Text.unsigned w, Text.isDigit d = true ∨ d = '_') → UnreadableDigits w →
      Stuck text (.value .unreadableInteger)
  | codePoint {lead body rest : List Char} {fault : ValueFault} :
      text = lead ++ '"' :: body ++ '"' :: rest → Escape.NamesNoCharacter fault body →
      Stuck text (.value fault)

/-- What stands between the start of a token and the character at fault begins the text. -/
theorem Stuck.skipped {text skip : List Char} {cause : Cause} (h : Stuck text (.cause cause skip)) :
    ∃ back, text = skip ++ back := by
  cases h with
  | character => exact ⟨text, rfl⟩
  | string htext => exact ⟨_, htext⟩
  | note => exact ⟨text, rfl⟩

variable {c : Char} {cs : List Char} {failure : Failure}

theorem noteAt_fault {opening closing : Char} (hc : closing? opening = some closing)
    (h : noteAt opening closing cs = .error failure) :
    Stuck ('%' :: 'a' :: opening :: cs) failure := by
  unfold noteAt at h
  split at h
  case _ hd =>
    cases h
    refine .note rfl hc fun hmem => ?_
    have hall := List.dropWhile_eq_nil_iff.mp hd closing hmem
    simp at hall
  case _ => cases h

theorem quotedLiteral_fault {q : Char} (hq : isQuote q = true) (lead : List Char)
    {make : String → Lexeme} (h : quotedLiteral q lead make cs = .error failure) :
    Stuck (lead ++ q :: cs) failure := by
  have hne : q ≠ '\\' := by
    rintro rfl
    cases hq
  unfold quotedLiteral at h
  split at h
  case _ hb =>
    cases h
    exact .string rfl hq hb
  case _ body rest hb =>
    obtain ⟨rfl, -⟩ := literalBody_closed hne hb
    split at h
    case _ fault hv =>
      cases h
      unfold literalValue at hv
      split at hv
      case isTrue hdouble =>
        obtain rfl := beq_iff_eq.mp hdouble
        cases hd : Escape.double body with
        | ok value =>
          rw [hd] at hv
          cases hv
        | error e =>
          rw [hd] at hv
          cases hv
          have htext : lead ++ '"' :: (body ++ '"' :: rest) =
              lead ++ '"' :: body ++ '"' :: rest := by simp
          exact .codePoint htext (Escape.decodeDouble_error hd)
      case isFalse => cases hv
    case _ => cases h

theorem mapM_none {α β : Type} {g : α → Option β} {as : List α} (h : as.mapM g = none) :
    ∃ a ∈ as, g a = none := by
  induction as with
  | nil => cases h
  | cons a as ih =>
    rw [List.mapM_cons] at h
    cases ha : g a with
    | none => exact ⟨a, List.mem_cons_self .., ha⟩
    | some b =>
      cases has : as.mapM g with
      | none =>
        obtain ⟨a', ha', hg⟩ := ih has
        exact ⟨a', List.mem_cons_of_mem _ ha', hg⟩
      | some bs =>
        rw [ha, has] at h
        cases h

theorem integerValue_error {w : List Char} {fault : ValueFault}
    (h : integerValue w = .error fault) :
    fault = .unreadableInteger ∧ UnreadableDigits w := by
  unfold integerValue at h
  dsimp only at h
  split at h
  case isTrue hmany =>
    cases h
    exact ⟨rfl, .many hmany⟩
  case isFalse =>
    split at h
    case _ hnone =>
      cases h
      obtain ⟨d, hd, hv⟩ := mapM_none hnone
      obtain ⟨hmem, hne⟩ := List.mem_filter.mp hd
      exact ⟨rfl, .odd hmem (by simpa using hne) hv⟩
    case _ => cases h

theorem integer_fault (hc : Text.isDigit c = true ∨ c = '+' ∨ c = '-')
    (h : integer c cs = .error failure) : Stuck (c :: cs) failure := by
  have hpart : ∀ d ∈ cs.takeWhile fun d =>
      Text.isDigit d || d == '_', Text.isDigit d = true ∨ d = '_' :=
    fun d hd => by simpa using List.mem_takeWhile_imp hd
  unfold integer at h
  dsimp only at h
  split at h
  case _ fault hv =>
    cases h
    obtain ⟨rfl, hw⟩ := integerValue_error hv
    have htext : c :: cs = (c :: cs.takeWhile fun d => Text.isDigit d || d == '_') ++
        cs.dropWhile fun d => Text.isDigit d || d == '_' := by
      rw [List.cons_append, List.takeWhile_append_dropWhile]
    refine .digits htext (fun d hd => ?_) hw
    unfold Text.unsigned at hd
    split at hd
    case _ heq =>
      cases heq
      exact hpart d hd
    case _ heq =>
      cases heq
      exact hpart d hd
    case _ hplus hminus =>
      rcases List.mem_cons.mp hd with rfl | hd
      · rcases hc with hc | rfl | rfl
        · exact .inl hc
        · exact absurd rfl (hplus _)
        · exact absurd rfl (hminus _)
      · exact hpart d hd
  case _ => cases h

theorem symbol_fault {before : Option Char} (hs : isSymbolStart before cs = true)
    (h : symbol cs = .error failure) : Stuck (':' :: cs) failure := by
  cases cs with
  | nil => cases hs
  | cons c cs =>
    by_cases hq : isQuote c = true
    · rw [symbol_quote hq] at h
      exact quotedLiteral_fault hq [':'] h
    · -- A colon that starts a symbol stands in front of a name, a sigil or an operator.
      rw [isSymbolStart_cons, Bool.and_eq_true, Bool.and_eq_true] at hs
      unfold symbol at h
      dsimp only at h
      split at h
      case isTrue hc => exact absurd hc hq
      case isFalse =>
        split at h
        case isTrue => cases h
        case isFalse hsigil =>
          split at h
          case isTrue => cases h
          case isFalse hname =>
            split at h
            case _ => cases h
            case _ hoperator =>
              have hstarts := hs.2.2
              rw [hoperator] at hstarts
              simp_all [isQuote]

theorem operatorPiece_fault (hd : Text.isDigit c = false) (hn : isNameStart c = false)
    (h : operatorPiece c cs = .error failure) : Stuck (c :: cs) failure := by
  unfold operatorPiece at h
  split at h
  case _ => cases h
  case _ hm =>
    split at h
    case isTrue => cases h
    case isFalse =>
      cases h
      exact .character rfl hm hn hd

/-- A failure to split off a token says what stands there. -/
theorem next_fault {before : Option Char} (h : next before c cs = .error failure) :
    Stuck (c :: cs) failure := by
  unfold next at h
  split at h
  case _ opening closing rest hn =>
    split at hn
    case isTrue hc =>
      obtain rfl := beq_iff_eq.mp hc
      unfold noteStart? at hn
      split at hn
      case _ o r =>
        obtain ⟨cl, hcl, he⟩ := Option.map_eq_some_iff.mp hn
        cases he
        exact noteAt_fault hcl h
      case _ => cases hn
    case isFalse => cases hn
  case _ =>
    split at h
    case isTrue hq => exact quotedLiteral_fault hq [] h
    case isFalse =>
      split at h
      case _ => cases h
      case _ =>
        split at h
        case isTrue hd =>
          refine integer_fault ?_ h
          rw [Bool.or_eq_true, Bool.and_eq_true, Bool.or_eq_true, beq_iff_eq, beq_iff_eq] at hd
          exact hd.imp_right And.left
        case isFalse hd =>
          rw [Bool.or_eq_true, not_or] at hd
          split at h
          case isTrue => cases h
          case isFalse hn =>
            split at h
            case _ => cases h
            case _ =>
              split at h
              case isTrue hc =>
                rw [Bool.and_eq_true, beq_iff_eq] at hc
                obtain ⟨rfl, hs⟩ := hc
                exact symbol_fault hs h
              case isFalse =>
                exact operatorPiece_fault (Bool.eq_false_iff.mpr hd.1) (Bool.eq_false_iff.mpr hn) h

/-- A text that cannot be read is stuck at a place, which the error tells. -/
theorem scanFrom_fault (fuel : Nat) (r : Reader) {e : Error} (h : scanFrom fuel r = .error e) :
    ∃ front back failure, r.rest = front ++ back ∧ Stuck back failure ∧
      e = failure.locate (r.position.after front) := by
  induction fuel generalizing r with
  | zero => cases h
  | succ fuel ih =>
    have hbehind {w rest : List Char} (hr : r.rest = w ++ rest)
        (hm : scanFrom fuel (r.pass w rest) = .error e) :
        ∃ front back failure, r.rest = front ++ back ∧
          Stuck back failure ∧ e = failure.locate (r.position.after front) := by
      obtain ⟨front, back, failure, hrest, hstuck, rfl⟩ := ih (r.pass w rest) hm
      refine ⟨w ++ front, back, failure, ?_, hstuck, ?_⟩
      · rw [hr, List.append_assoc]
        exact congrArg _ hrest
      · rw [Reader.position_pass, Position.after_append]
    rw [scanFrom] at h
    cases hr : r.rest with
    | nil =>
      rw [hr] at h
      cases h
    | cons c cs =>
      rw [hr] at h hbehind
      dsimp only at h
      split at h
      case isTrue => exact hbehind (w := [c]) rfl h
      case isFalse =>
        split at h
        case isTrue =>
          have hline : c :: cs = (c :: cs.takeWhile (· != '\n')) ++ cs.dropWhile (· != '\n') := by
            rw [List.cons_append, List.takeWhile_append_dropWhile]
          cases hm : scanFrom fuel (r.pass (c :: cs.takeWhile (· != '\n'))
              (cs.dropWhile (· != '\n'))) with
          | error e' =>
            rw [hm] at h
            cases h
            exact hbehind hline hm
          | ok more =>
            rw [hm] at h
            cases h
        case isFalse =>
          split at h
          case _ failure hn =>
            cases h
            exact ⟨[], c :: cs, failure, rfl, next_fault hn, rfl⟩
          case _ piece hn =>
            cases hm : scanFrom fuel (r.pass piece.taken piece.rest) with
            | error e' =>
              rw [hm] at h
              cases h
              exact hbehind (next_genuine hn).split hm
            | ok more =>
              rw [hm] at h
              cases h

theorem scan_fault {text : List Char} {e : Error} (h : scan text = .error e) :
    ∃ front back failure, text = front ++ back ∧ Stuck back failure ∧
      e = failure.locate (Position.first.after front) :=
  scanFrom_fault _ (.start text) h

end Lexer
end RubySig
