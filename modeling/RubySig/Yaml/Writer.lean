import RubySig.Yaml.Style

/-! Writing YAML scalars: lines are ended at single blanks behind the last column. -/
namespace RubySig.Yaml

/-- The column behind which lines are ended. -/
def lastColumn : Nat := 120

def levelWidth : Nat := 2

/-- What has been written, last character first, and what is known about the end of it. -/
structure Writer where
  reversed : List Char
  column : Nat
  /-- The last thing written was white space, or allows what follows to touch it. -/
  spaced : Bool
  /-- The line holds nothing but indentation so far. -/
  fresh : Bool
  deriving DecidableEq, Repr

namespace Writer

def start : Writer := ⟨[], 0, true, true⟩

def put (w : Writer) (cs : List Char) : Writer :=
  { w with reversed := cs.reverseAux w.reversed, column := w.column + cs.length }

def breakLine (w : Writer) (c : Char) : Writer :=
  ⟨c :: w.reversed, 0, true, true⟩

/-- Goes to the column `indent` of a fresh line, which may be this one. -/
def toIndent (w : Writer) (indent : Nat) : Writer :=
  let w := if !w.fresh || w.column > indent || (w.column == indent && !w.spaced)
    then w.breakLine '\n' else w
  if w.column < indent then
    { w.put (List.replicate (indent - w.column) ' ') with spaced := true }
  else w

def mark (w : Writer) (text : String) (needsBlank spaced fresh : Bool) : Writer :=
  let w' := w.put (if needsBlank && !w.spaced then ' ' :: text.toList else text.toList)
  { w' with spaced := spaced, fresh := w.fresh && fresh }

/-- What has been written is neither white space nor indentation. -/
def touched (w : Writer) : Writer :=
  { w with spaced := false, fresh := false }

/-- Whether a line can be ended here. -/
def isLate (w : Writer) (split : Bool) : Bool :=
  split && w.column > lastColumn

/-- A run of equal-natured characters at the start of a text, and the rest. -/
def run (p : Char → Bool) (cs : List Char) : List Char × List Char :=
  (cs.takeWhile p, cs.dropWhile p)

/-- Writes plain text. A single blank may become a line end. -/
def plainText (split : Bool) (indent : Nat) : (fuel : Nat) → List Char → Writer → Writer
  | 0, _, w => w
  | _, [], w => w
  | fuel + 1, c :: cs, w =>
    if c == ' ' then
      let (blanks, rest) := run (· == ' ') (c :: cs)
      let w := if blanks.length == 1 && w.isLate split then (w.toIndent indent).touched
        else w.put blanks
      plainText split indent fuel rest w
    else
      let (word, rest) := run (· != ' ') (c :: cs)
      plainText split indent fuel rest (w.put word)

/-- Writes a text as it is, broken at single blanks where lines get long. -/
def plain (w : Writer) (split : Bool) (indent : Nat) (cs : List Char) : Writer :=
  if cs.isEmpty then w
  else
    let w := if w.spaced then w else w.put [' ']
    plainText split indent cs.length cs w.touched

def breaks (w : Writer) (run : List Char) : Writer :=
  run.foldl breakLine w

/-- Writes text between single quotes: a quote is doubled, a single blank inside may become a line
end, and the first line feed of a run is doubled. -/
def singleText (split : Bool) (indent : Nat) (first : Bool) :
    (fuel : Nat) → List Char → Writer → Writer
  | 0, _, w => w
  | _, [], w => w
  | fuel + 1, c :: cs, w =>
    if c == ' ' then
      let (blanks, rest) := run (· == ' ') (c :: cs)
      let w := if blanks.length == 1 && w.isLate split && !first && !rest.isEmpty
        then w.toIndent indent else w.put blanks
      singleText split indent false fuel rest w
    else if isBreak c then
      let (ends, rest) := run isBreak (c :: cs)
      let w := if c == '\n' then w.breakLine '\n' else w
      singleText split indent false fuel rest ((w.breaks ends).toIndent indent)
    else if c == '\'' then singleText split indent false fuel cs (w.put ['\'', '\''])
    else
      let (word, rest) := run (fun d => d != ' ' && d != '\'' && !isBreak d) (c :: cs)
      singleText split indent false fuel rest (w.put word)

def single (w : Writer) (split : Bool) (indent : Nat) (cs : List Char) : Writer :=
  (singleText split indent true cs.length cs (w.mark "'" true false false)).mark
    "'" false false false

/-- Whether a character stands for itself between double quotes. -/
def isDoubleChar (c : Char) : Bool :=
  let n := c.toNat
  c != '"' && c != '\\' && n != 0x85 && n != 0x2028 && n != 0x2029 && n != 0xFEFF &&
    ((0x20 ≤ n && n ≤ 0x7E) || (0xA0 ≤ n && n ≤ 0xD7FF) || (0xE000 ≤ n && n ≤ 0xFFFD))

/-- The escape sequence of a character. -/
def escape (c : Char) : List Char :=
  match c with
  | '\x00' => ['\\', '0']
  | '\x07' => ['\\', 'a']
  | '\x08' => ['\\', 'b']
  | '\x09' => ['\\', 't']
  | '\n' => ['\\', 'n']
  | '\x0b' => ['\\', 'v']
  | '\x0c' => ['\\', 'f']
  | '\r' => ['\\', 'r']
  | '\x1b' => ['\\', 'e']
  | '"' => ['\\', '"']
  | '\\' => ['\\', '\\']
  | '\u0085' => ['\\', 'N']
  | '\u00a0' => ['\\', '_']
  | '\u2028' => ['\\', 'L']
  | '\u2029' => ['\\', 'P']
  | c =>
    if c.toNat < 0x100 then '\\' :: 'x' :: Text.upperHexDigits 2 c.toNat
    else if c.toNat < 0x10000 then '\\' :: 'u' :: Text.upperHexDigits 4 c.toNat
    else '\\' :: 'U' :: Text.upperHexDigits 8 c.toNat

/-- Writes text between double quotes. `pending` is what stands for itself and is not written yet,
last character first. Behind the last column a line can be ended at a blank or behind an escape
sequence, but not at either end of the text; a blank that would begin the next line is escaped. -/
def doubleText (split : Bool) (indent : Nat) (first : Bool) :
    List Char → (pending : List Char) → Writer → Writer
  | [], pending, w => w.put pending.reverse
  | c :: cs, pending, w =>
    let (pending', w) :=
      if isDoubleChar c then (pending, w) else ([], (w.put pending.reverse).put (escape c))
    let started := isDoubleChar c && !pending'.isEmpty
    let inside := !first && !cs.isEmpty
    let limit := if isDoubleChar c then lastColumn else lastColumn + 1
    if inside && (c == ' ' || !started) && split && w.column + pending'.length > limit then
      let w := ((w.put (pending'.reverse ++ ['\\'])).toIndent indent).touched
      let next := if isDoubleChar c then some c else cs.head?
      let w := if next == some ' ' then w.put ['\\'] else w
      doubleText split indent false cs (if isDoubleChar c then [c] else []) w
    else
      doubleText split indent false cs (if isDoubleChar c then c :: pending' else []) w

def double (w : Writer) (split : Bool) (indent : Nat) (cs : List Char) : Writer :=
  (doubleText split indent true cs [] (w.mark "\"" true false false)).mark "\"" false false false

def text (w : Writer) (split inFlow : Bool) (indent : Nat) (s : String) : Writer :=
  match Style.of inFlow s with
  | .plain => w.plain split indent s.toList
  | .single => w.single split indent s.toList
  | .double => w.double split indent s.toList

end Writer
end RubySig.Yaml
