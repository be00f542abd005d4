import RubySig.Yaml.Plain

/-! Which characters of a YAML scalar matter for its style: plain, single or double quoted. -/
namespace RubySig.Yaml

/-- The ends of lines. -/
def isBreak (c : Char) : Bool :=
  c == '\n' || c == '\u0085' || c == '\u2028' || c == '\u2029'

/-- What separates a scalar from what follows. -/
def isGap (c : Char) : Bool :=
  isBreak c || c == '\x00' || c == ' ' || c == '\t' || c == '\r'

/-- Whether a character can stand unescaped. -/
def isPlainChar (c : Char) : Bool :=
  let n := c.toNat
  c == '\n' || (0x20 ≤ n && n ≤ 0x7E) || n == 0x85 || (0xA0 ≤ n && n ≤ 0xD7FF) ||
    (0xE000 ≤ n && n ≤ 0xFFFD && n != 0xFEFF) || (0x10000 ≤ n && n ≤ 0x10FFFE)

/-- What a scalar holds that decides its style. -/
structure Traits where
  /-- A character that means something inside a flow collection. -/
  flowIndicator : Bool
  /-- A character that means something in block style. -/
  blockIndicator : Bool
  multiline : Bool
  /-- A character that must be escaped. -/
  special : Bool
  /-- A blank or line end at one end of the text. -/
  openEnd : Bool
  /-- A blank next to a line end. -/
  blankAtBreak : Bool
  deriving DecidableEq, Repr

/-- Characters that mean something inside a flow collection. -/
def flowMarks : List Char := [',', '?', '[', ']', '\x7b', '\x7d']

/-- Characters that mean something at the start of a scalar. -/
def firstMarks : List Char :=
  ['#', ',', '[', ']', '\x7b', '\x7d', '&', '*', '!', '|', '>', '\'', '"', '%', '@', '`']

/-- Whether a scalar could end in front of this text. -/
def gapAhead : List Char → Bool
  | [] => true
  | c :: _ => isGap c

/-- Whether the first character means something in flow and in block style. -/
def firstIndicators : List Char → Bool × Bool
  | [] => (false, false)
  | c :: cs =>
    if firstMarks.contains c then (true, true)
    else if c == '?' || c == ':' then (true, gapAhead cs)
    else if c == '-' then (gapAhead cs, gapAhead cs)
    else (false, false)

/-- Whether a later character means something, given whether a gap stands in front of it. -/
def laterIndicators (afterGap : Bool) : List Char → Bool × Bool
  | [] => (false, false)
  | c :: cs =>
    let (flow, block) := laterIndicators (isGap c) cs
    if flowMarks.contains c then (true, block)
    else if c == ':' then (true, block || gapAhead cs)
    else if c == '#' && afterGap then (true, true)
    else (flow, block)

/-- Whether a text begins like a marker of documents. -/
def isDocumentMark : List Char → Bool
  | '-' :: '-' :: '-' :: _ | '.' :: '.' :: '.' :: _ => true
  | _ => false

/-- Whether a blank stands next to a line end. -/
def hasBlankAtBreak : List Char → Bool
  | a :: b :: cs => (a == ' ' && isBreak b) || (isBreak a && b == ' ') || hasBlankAtBreak (b :: cs)
  | _ => false

def isOpen (c : Char) : Bool :=
  c == ' ' || isBreak c

def Traits.of (cs : List Char) : Traits :=
  let (flow, block) := firstIndicators cs
  let (laterFlow, laterBlock) := match cs with
    | [] => (false, false)
    | c :: cs => laterIndicators (isGap c) cs
  let document := isDocumentMark cs
  { flowIndicator := flow || laterFlow || document
    blockIndicator := block || laterBlock || document
    multiline := cs.any isBreak
    special := cs.any (!isPlainChar ·)
    openEnd := (cs.head?.map isOpen).getD false || (cs.getLast?.map isOpen).getD false
    blankAtBreak := hasBlankAtBreak cs }

/-- How a scalar is written. -/
inductive Style where
  | plain | single | double
  deriving DecidableEq, Repr

/-- The style of a text: plain where it can be read back, else single quotes where nothing must be
escaped, else double quotes. The empty text is quoted. -/
def Style.of (inFlow : Bool) (s : String) : Style :=
  let t := Traits.of s.toList
  let indicator := if inFlow then t.flowIndicator else t.blockIndicator
  if Plain.of s == .text && !t.openEnd && !t.blankAtBreak && !t.special && !t.multiline
      && !indicator then .plain
  else if !t.blankAtBreak && !t.special then .single
  else .double

end RubySig.Yaml
