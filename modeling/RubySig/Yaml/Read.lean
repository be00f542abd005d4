import RubySig.Data.Datum
import RubySig.Text.Lines
import RubySig.Yaml.Style

/-!
Reading small YAML texts: nested block mappings and sequences, flow collections on one line, quoted
and plain scalars, comments. What the reader does not know is refused.
-/
namespace RubySig.Yaml

/-- Reads something at the start of a text; nothing is read from a broken one. -/
abbrev Reader (α : Type) := List Char → Option (α × List Char)

/-- A text without the blanks in front. -/
def skipBlanks (cs : List Char) : List Char :=
  cs.dropWhile isBlankChar

/-- Whether only blanks and a comment are left of a line. -/
def isRestOfLine (cs : List Char) : Bool :=
  match skipBlanks cs with
  | [] => true
  | '#' :: _ => cs.head? != some '#'
  | _ => false

/-- The number that digits of one base spell, underscores apart. -/
def ofDigitsIn (base : Nat) (cs : List Char) : Nat :=
  Text.ofHexDigits base (cs.filter (· != '_'))

def integerValue (cs : List Char) : Int :=
  let digits := Text.unsigned cs
  let size : Nat := match digits with
    | '0' :: 'b' :: ds => ofDigitsIn 2 ds
    | '0' :: 'x' :: ds => ofDigitsIn 16 ds
    | '0' :: ds => ofDigitsIn 8 ds
    | ds => Text.ofDigits 60 ((ds.splitOn ':').map (ofDigitsIn 10))
  Text.signedLike cs size

def fractionValue (cs : List Char) : Float :=
  let cs := cs.filter (· != '_')
  let mantissa := cs.takeWhile fun c => c != 'e' && c != 'E'
  let power := cs.drop (mantissa.length + 1)
  let places := (mantissa.dropWhile (· != '.')).drop 1
  let exponent := Text.signedLike power (ofDigitsIn 10 (Text.unsigned power)) - places.length
  Float.ofScientific (Text.ofHexDigits 10 mantissa) (exponent < 0) exponent.natAbs

def floatValue (cs : List Char) : Float :=
  let body := Text.unsigned cs
  let size :=
    if nanWords.contains (String.ofList body) then 0.0 / 0.0
    else if infinityWords.contains (String.ofList body) then 1.0 / 0.0
    else ((body.splitOn ':').map fractionValue).foldl (fun x y => x * 60.0 + y) 0.0
  if cs.head? == some '-' then -size else size

def plainValue (s : String) : Scalar :=
  match Plain.of s with
  | .null => .null
  | .truth => .bool (trueWords.contains s)
  | .integer => .int (integerValue s.toList)
  | .float => .float (floatValue s.toList)
  | .text | .timestamp | .mark => .str s

/-- What a backslash and the text behind it mean, and how much of the text they take. -/
def unescape? : List Char → Option (Char × Nat)
  | '0' :: _ => some ('\x00', 1)
  | 'a' :: _ => some ('\x07', 1)
  | 'b' :: _ => some ('\x08', 1)
  | 't' :: _ | '\t' :: _ => some ('\t', 1)
  | 'n' :: _ => some ('\n', 1)
  | 'v' :: _ => some ('\x0b', 1)
  | 'f' :: _ => some ('\x0c', 1)
  | 'r' :: _ => some ('\r', 1)
  | 'e' :: _ => some ('\x1b', 1)
  | ' ' :: _ => some (' ', 1)
  | '"' :: _ => some ('"', 1)
  | '\\' :: _ => some ('\\', 1)
  | '/' :: _ => some ('/', 1)
  | 'N' :: _ => some ('\u0085', 1)
  | '_' :: _ => some ('\u00a0', 1)
  | 'L' :: _ => some ('\u2028', 1)
  | 'P' :: _ => some ('\u2029', 1)
  | 'x' :: cs => code 2 cs
  | 'u' :: cs => code 4 cs
  | 'U' :: cs => code 8 cs
  | _ => none
where
  code (size : Nat) (cs : List Char) : Option (Char × Nat) :=
    let digits := cs.take size
    if digits.length == size && digits.all Text.isHexDigit then
      some (Char.ofNat (Text.ofHexDigits 16 digits), size + 1)
    else none

/-- Reads a double-quoted scalar behind its opening quote, after passing over `skip`
characters. -/
def doubleQuoted : (skip : Nat) → Reader (List Char)
  | _, [] => none
  | skip + 1, _ :: cs => doubleQuoted skip cs
  | 0, c :: cs =>
    if c == '"' then some ([], cs)
    else if c == '\\' then do
      let (meant, size) ← unescape? cs
      let (body, rest) ← doubleQuoted size cs
      return (meant :: body, rest)
    else do
      let (body, rest) ← doubleQuoted 0 cs
      return (c :: body, rest)

/-- Reads a single-quoted scalar behind its opening quote; a quote inside is doubled. -/
def singleQuoted : Reader (List Char)
  | [] => none
  | '\'' :: '\'' :: cs => do
    let (body, rest) ← singleQuoted cs
    return ('\'' :: body, rest)
  | c :: cs =>
    if c == '\'' then some ([], cs)
    else do
      let (body, rest) ← singleQuoted cs
      return (c :: body, rest)

/-- Whether a colon in front of this text ends a plain scalar. -/
def endsKey (inFlow : Bool) (cs : List Char) : Bool :=
  gapAhead cs || (inFlow && (cs.head?.map [',', '[', ']', '\x7b', '\x7d'].contains).getD false)

/-- The characters of a plain scalar, and what follows. -/
def plainRun (inFlow afterBlank : Bool) : List Char → List Char × List Char
  | [] => ([], [])
  | c :: cs =>
    if (c == ':' && endsKey inFlow cs) || (c == '#' && afterBlank) ||
        (inFlow && flowMarks.contains c) then ([], c :: cs)
    else
      let (run, rest) := plainRun inFlow (isBlankChar c) cs
      (c :: run, rest)

/-- Whether a plain scalar can begin here. -/
def startsPlain (inFlow : Bool) : List Char → Bool
  | [] => false
  | c :: cs =>
    if c == '-' || c == '?' || c == ':' then !gapAhead cs && !(inFlow && c == '?')
    else !firstMarks.contains c

/-- A text without the blanks at its end. -/
def trimRight (cs : List Char) : List Char :=
  (cs.reverse.dropWhile isBlankChar).reverse

/-- Reads a scalar, and tells whether it stood without quotes. -/
def scalar (inFlow : Bool) : Reader (Scalar × Bool)
  | '"' :: cs => do
    let (body, rest) ← doubleQuoted 0 cs
    return ((.str (String.ofList body), false), rest)
  | '\'' :: cs => do
    let (body, rest) ← singleQuoted cs
    return ((.str (String.ofList body), false), rest)
  | cs =>
    if startsPlain inFlow cs then
      let (run, rest) := plainRun inFlow false cs
      some ((plainValue (String.ofList (trimRight run)), true), rest)
    else none

/-- Adds an entry to a dictionary; the last value of a key counts. -/
def put (entries : List (Scalar × Datum)) (key : Scalar) (value : Datum) : List (Scalar × Datum) :=
  if entries.any fun (k, _) => k.sameKey key then
    entries.map fun (k, v) => if k.sameKey key then (k, value) else (k, v)
  else entries ++ [(key, value)]

/-- A value as a key; only those without parts can be one. -/
def toKey? : Datum → Option Scalar
  | .scalar s => some s
  | _ => none

mutual

def flowValue : (fuel : Nat) → Reader Datum
  | 0, _ => none
  | fuel + 1, cs =>
    match skipBlanks cs with
    | '[' :: cs => flowItems fuel [] cs
    | '\x7b' :: cs => flowEntries fuel [] cs
    | cs => do
      let ((s, _), rest) ← scalar true cs
      return (.scalar s, rest)

def flowAfterColon : (fuel : Nat) → Reader Datum
  | 0, _ => none
  | fuel + 1, cs =>
    match skipBlanks cs with
    | ',' :: _ | ']' :: _ | '\x7d' :: _ => some (.null, cs)
    | cs => flowValue fuel cs

def flowItems : (fuel : Nat) → List Datum → Reader Datum
  | 0, _, _ => none
  | fuel + 1, items, cs =>
    match skipBlanks cs with
    | ']' :: cs => some (.list items, cs)
    | cs => do
      let (d, rest) ← flowValue fuel cs
      let (d, rest) ← match skipBlanks rest with
        | ':' :: cs => do
          let (value, rest) ← flowAfterColon fuel cs
          pure (Datum.dict [(← toKey? d, value)], rest)
        | rest => pure (d, rest)
      match skipBlanks rest with
      | ',' :: cs => flowItems fuel (items ++ [d]) cs
      | ']' :: cs => some (.list (items ++ [d]), cs)
      | _ => none

def flowEntries : (fuel : Nat) → List (Scalar × Datum) → Reader Datum
  | 0, _, _ => none
  | fuel + 1, entries, cs =>
    match skipBlanks cs with
    | '\x7d' :: cs => some (.dict entries, cs)
    | cs => do
      let (key, rest) ← flowValue fuel cs
      let (value, rest) ← match skipBlanks rest with
        | ':' :: cs => flowAfterColon fuel cs
        | rest => pure (.null, rest)
      let entries := put entries (← toKey? key) value
      match skipBlanks rest with
      | ',' :: cs => flowEntries fuel entries cs
      | '\x7d' :: cs => some (.dict entries, cs)
      | _ => none

end

/-- A line that holds more than a comment, without its indentation. -/
structure Line where
  indent : Nat
  text : List Char
  deriving DecidableEq, Repr

def Line.isItem (l : Line) : Bool :=
  match l.text with
  | '-' :: cs => gapAhead cs
  | _ => false

/-- The key that a line begins with, and the text behind its colon. -/
def key? (cs : List Char) : Option (Scalar × List Char) := do
  let ((key, _), rest) ← scalar false cs
  match skipBlanks rest with
  | ':' :: rest => if gapAhead rest then some (key, rest) else none
  | _ => none

/-- A value that stands on one line, and whether it is a plain scalar, which may go on. -/
def lineValue (cs : List Char) : Option (Datum × Bool) := do
  let fuel := 2 * cs.length + 2
  match cs with
  | '[' :: _ | '\x7b' :: _ =>
    let (d, rest) ← flowValue fuel cs
    if isRestOfLine rest then some (d, false) else none
  | cs =>
    let ((s, plain), rest) ← scalar false cs
    if isRestOfLine rest || (plain && rest.head? == some '#') then some (.scalar s, plain)
    else none

/-- A value on one line, with the lines that a plain scalar goes on with. -/
def foldedValue (cs : List Char) (more : List Line) : Option Datum := do
  let (d, plain) ← lineValue cs
  if more.isEmpty then return d
  if !plain then none
  let lines := (⟨0, cs⟩ :: more).map fun l => trimRight (plainRun false false l.text).1
  if more.any fun l => (key? l.text).isSome then none
  return .str (String.ofList ([' '].intercalate lines))

mutual

/-- Reads the value that the next lines form. -/
def block : (fuel : Nat) → List Line → Option (Datum × List Line)
  | 0, _ => none
  | _, [] => some (.null, [])
  | fuel + 1, l :: lines =>
    if l.isItem then blockItems fuel l.indent [] (l :: lines)
    else if (key? l.text).isSome then blockEntries fuel l.indent [] (l :: lines)
    else do
      let more := lines.takeWhile fun m => m.indent ≥ l.indent
      return (← foldedValue l.text more, lines.drop more.length)

def blockItems : (fuel : Nat) → Nat → List Datum → List Line → Option (Datum × List Line)
  | 0, _, _, _ => none
  | _, _, items, [] => some (.list items, [])
  | fuel + 1, indent, items, l :: lines =>
    if l.indent < indent || (l.indent == indent && !l.isItem) then some (.list items, l :: lines)
    else if l.indent > indent then none
    else
      let text := l.text.drop 1
      if isRestOfLine text then
        match lines with
        | m :: _ =>
          if m.indent > indent then do
            let (d, lines) ← block fuel lines
            blockItems fuel indent (items ++ [d]) lines
          else blockItems fuel indent (items ++ [.null]) lines
        | [] => some (.list (items ++ [.null]), [])
      else do
        let inner := skipBlanks text
        let column := indent + 1 + (text.length - inner.length)
        let (d, lines) ← block fuel (⟨column, inner⟩ :: lines)
        blockItems fuel indent (items ++ [d]) lines

def blockEntries :
    (fuel : Nat) → Nat → List (Scalar × Datum) → List Line → Option (Datum × List Line)
  | 0, _, _, _ => none
  | _, _, entries, [] => some (.dict entries, [])
  | fuel + 1, indent, entries, l :: lines =>
    if l.indent < indent then some (.dict entries, l :: lines)
    else if l.indent > indent then none
    else do
      let (key, text) ← key? l.text
      if isRestOfLine text then
        match lines with
        | m :: _ =>
          if m.indent > indent || (m.indent == indent && m.isItem) then
            let (d, lines) ← block fuel lines
            blockEntries fuel indent (put entries key d) lines
          else blockEntries fuel indent (put entries key .null) lines
        | [] => some (.dict (put entries key .null), [])
      else
        let more := lines.takeWhile fun m => m.indent > indent
        let d ← foldedValue (skipBlanks text) more
        blockEntries fuel indent (put entries key d) (lines.drop more.length)

end

def Line.of? (cs : List Char) : Option Line :=
  let text := cs.dropWhile (· == ' ')
  match skipBlanks text with
  | [] | '#' :: _ => none
  | _ => some ⟨cs.length - text.length, text⟩

/-- Whether a line is a marker such as `---`. -/
def isMarker (marker : List Char) (l : Line) : Bool :=
  l.indent == 0 && l.text.take 3 == marker && gapAhead (l.text.drop 3)

/-- The lines of the document, without the marker in front of it. -/
def body : List Line → List Line
  | [] => []
  | l :: lines =>
    if isMarker ['-', '-', '-'] l then
      match Line.of? (l.text.drop 3) with
      | some first => ⟨first.indent + 3, first.text⟩ :: lines
      | none => lines
    else l :: lines

/-- The value of a text with one document; nothing for a broken one. -/
def read? (text : String) : Option Datum := do
  let cs := match text.toList with
    | '\uFEFF' :: cs => cs
    | cs => cs
  let lines := body (((Text.unixLines cs).splitOnP isBreak).filterMap Line.of?)
  let lines := lines.takeWhile fun l => !isMarker ['.', '.', '.'] l
  if lines.any (isMarker ['-', '-', '-']) then none
  let (d, rest) ← block (2 * cs.length + 2) lines
  if rest.isEmpty then some d else none

end RubySig.Yaml
