import RubySig.Proofs.Tree.NameReads

/-! What a printed type starts with. -/
namespace RubySig.Grammar

open Format (wordsOf tyPieces namePieces bracketedPieces)
open Format.Piece (mark keyword named)

theorem typeLike_mark {m : Mark} (hm : startsType (.mark m) = true) (ls : List Lexeme) :
    TypeLike (.mark m :: ls) :=
  ⟨_, _, rfl, hm, fun h => by cases h⟩

theorem typeLike_single {l : Lexeme} (hl : startsType l = true) : TypeLike [l] :=
  ⟨_, _, rfl, hl, fun _ => by simp⟩

theorem typeLike_name {n : TypeName} {last : String → Lexeme} (h : n.Formed last)
    (hl : ∀ s, last s = .constant s ∨ last s = .interfaceName s ∨ last s = .identifier s) :
    TypeLike (lexemesOf (wordsOf (namePieces n))) := by
  rw [wordsOf_name h hl]
  split
  case isTrue => exact typeLike_mark (by decide) _
  case isFalse =>
    cases hp : n.path with
    | nil =>
      refine typeLike_single ?_
      rcases hl n.name with h | h | h <;> rw [h] <;> rfl
    | cons s path => exact ⟨_, _, rfl, rfl, fun _ => by simp⟩

theorem typeLike_bracketed {ps : List Format.Piece} (h : TypeLike (lexemesOf (wordsOf ps)))
    (pss : List (List Format.Piece)) :
    TypeLike (lexemesOf (wordsOf (ps ++ bracketedPieces pss))) := by
  rw [wordsOf_append, lexemesOf_append]
  refine h.append ?_
  unfold bracketedPieces
  split <;> simp

theorem typeLike_separated {m : Mark} (hm : m ≠ .colon) {ps : List Format.Piece}
    (h : TypeLike (lexemesOf (wordsOf ps))) (pss : List (List Format.Piece)) :
    TypeLike (lexemesOf (wordsOf (Format.alternativesPieces m (ps :: pss)))) := by
  unfold Format.alternativesPieces
  cases pss with
  | nil => simpa using h
  | cons qs pss =>
    rw [List.intercalate_cons_cons, wordsOf_append, wordsOf_append, lexemesOf_append,
      lexemesOf_append, List.append_assoc]
    exact h.append (by simpa using hm)

theorem typeLike_parens {wrap : Bool} {ps : List Format.Piece}
    (h : wrap = false → TypeLike (lexemesOf (wordsOf ps))) :
    TypeLike (lexemesOf (wordsOf (Format.parenthesizedPieces wrap ps))) := by
  unfold Format.parenthesizedPieces
  split
  case isTrue => exact typeLike_mark (by decide) _
  case isFalse hw => exact h (by simpa using hw)

theorem startsType_literal (d : Format.Context) (location : Option Span) (value : Literal) :
    TypeLike (lexemesOf (wordsOf [Format.literalPiece d location value])) := by
  cases value <;> exact typeLike_single rfl

/-- A printed type starts with a token that a type can start with. -/
theorem typeLike_ty (d : Format.Context) {scope : List String} {source : List Char} (wrap : Bool) :
    (t : Ty) → t.Formed scope source → TypeLike (lexemesOf (wordsOf (tyPieces d wrap t)))
  | .base _ kind, _ => typeLike_single (startsType_nameLexeme _)
  | .variable _ name, _ => typeLike_single (startsType_nameLexeme _)
  | .classInstance _ _ _, h => typeLike_bracketed (typeLike_name h.1 fun _ => .inl rfl) _
  | .interface _ _ _, h => typeLike_bracketed (typeLike_name h.1 fun _ => .inr (.inl rfl)) _
  | .alias _ _ _, h => typeLike_bracketed (typeLike_name h.1 fun _ => .inr (.inr rfl)) _
  | .classSingleton _ _, _ => ⟨_, _, rfl, rfl, fun _ => by simp⟩
  | .optional _ type, h => by
    rw [tyPieces]
    split
    case _ => exact typeLike_single rfl
    case _ =>
      rw [wordsOf_append, lexemesOf_append]
      exact (typeLike_parens fun _ => typeLike_ty d true type h).append (by simp)
  | .union _ [], h => absurd h.1 (by decide)
  | .union _ (t :: ts), h =>
    typeLike_parens fun _ => typeLike_separated (by decide) (typeLike_ty d wrap t h.2.1) _
  | .intersection _ [], h => absurd h.1 (by decide)
  | .intersection _ (t :: ts), h =>
    typeLike_parens fun _ => typeLike_separated (by decide) (typeLike_ty d true t h.2.1) _
  | .tuple _ types, _ => by
    rw [tyPieces, Format.tuplePieces]
    split
    case isTrue => exact typeLike_mark (by decide) _
    case isFalse h =>
      rw [bracketedPieces, if_neg h]
      exact typeLike_mark (by decide) _
  | .record _ fields, _ => by
    rw [tyPieces, Format.recordPieces]
    split <;> exact typeLike_mark (by decide) _
  | .literal location value, _ => startsType_literal d location value
  | .proc _ signature block, _ => typeLike_parens fun _ => typeLike_mark (by decide) _

end RubySig.Grammar
