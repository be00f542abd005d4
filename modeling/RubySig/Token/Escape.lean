import RubySig.Text.Hex

/-!
Escape sequences of string literals. Values are lists of characters, so they hold no surrogates:
literals that differ only in which surrogates they escape have one value here.
-/
namespace RubySig

/-- Values that a literal cannot have. -/
inductive ValueFault where
  /-- The digits of an integer are too many, or are no decimal digits. -/
  | unreadableInteger
  /-- A code point lies above U+10FFFF. -/
  | codePointTooLarge
  /-- A code point does not fit 31 bits. -/
  | codePointOutOfRange
  deriving DecidableEq, Repr

namespace Escape

/-- The character with a code point; U+FFFD stands for a surrogate, which is no character. -/
def charOf (n : Nat) : Except ValueFault Char :=
  if n ≥ 0x80000000 then .error .codePointOutOfRange
  else if n > 0x10FFFF then .error .codePointTooLarge
  else if 0xD800 ≤ n && n ≤ 0xDFFF then .ok '\uFFFD'
  else .ok (Char.ofNat n)

/-- What a backslash and a letter stand for; other characters stand for themselves. -/
def simple : Char → Char
  | 'n' => '\n'
  | 't' => '\t'
  | 'r' => '\r'
  | 's' => ' '
  | 'e' => '\x1b'
  | 'a' => '\x07'
  | 'b' => '\x08'
  | 'f' => '\x0c'
  | 'v' => '\x0b'
  | c => c

/-- The words between spaces. -/
def words : List Char → List (List Char)
  | [] => []
  | c :: cs =>
    if c == ' ' then words cs
    else match cs, words cs with
      | [], _ => [[c]]
      | d :: _, ws => if d == ' ' then [c] :: ws else
        match ws with
        | w :: ws => (c :: w) :: ws
        | [] => [[c]]

/-- The code points in braces, given the text behind the opening brace, and how many characters
they take with the closing brace. -/
def braced? (cs : List Char) : Option (List Char × Nat) :=
  let codes := cs.takeWhile fun c => Text.isHexDigit c || c == ' '
  match codes, cs.drop codes.length with
  | _ :: _, '\x7d' :: _ => some (codes, codes.length + 1)
  | _, _ => none

/-- The first four characters, when all are hexadecimal digits. -/
def fourHex? (cs : List Char) : Option (List Char) :=
  let digits := cs.take 4
  if digits.length == 4 && digits.all Text.isHexDigit then some digits else none

/-- Decodes what follows a backslash: the characters meant, and how many characters it takes. -/
def read (cs : List Char) : Except ValueFault (List Char × Nat) :=
  match cs with
  | [] => .ok (['\\'], 0)
  | 'u' :: rest =>
    let whole := match rest with
      | '\x7b' :: inner => braced? inner
      | _ => none
    match whole with
    | some (codes, size) => do
      let chars ← (words codes).mapM fun w => charOf (Text.ofHexDigits 16 w)
      return (chars, size + 2)
    | none =>
      match fourHex? rest with
      | some digits => do return ([← charOf (Text.ofHexDigits 16 digits)], 5)
      | none => .ok (['u'], 1)
  | 'x' :: rest =>
    match (rest.take 2).takeWhile Text.isHexDigit with
    | [] => .ok (['x'], 1)
    | digits => do return ([← charOf (Text.ofHexDigits 16 digits)], digits.length + 1)
  | c :: _ =>
    match (cs.take 3).takeWhile Text.isOctalDigit with
    | [] => .ok ([simple c], 1)
    | digits => do return ([← charOf (Text.ofHexDigits 8 digits)], digits.length)

/-- Decodes a double-quoted body, after passing over `skip` characters. -/
def decodeDouble : (skip : Nat) → List Char → Except ValueFault (List Char)
  | _, [] => .ok []
  | skip + 1, _ :: cs => decodeDouble skip cs
  | 0, c :: cs =>
    if c == '\\' then do
      let (chars, size) ← read cs
      return chars ++ (← decodeDouble size cs)
    else do return c :: (← decodeDouble 0 cs)

def double (body : List Char) : Except ValueFault (List Char) :=
  decodeDouble 0 body

/-- The value of a single-quoted body: only a backslash and a single quote can be escaped. -/
def single : List Char → List Char
  | '\\' :: '\\' :: cs => '\\' :: single cs
  | '\\' :: '\'' :: cs => '\'' :: single cs
  | c :: cs => c :: single cs
  | [] => []

end Escape
end RubySig
