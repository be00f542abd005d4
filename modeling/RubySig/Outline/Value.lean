import RubySig.Outline.Text
import RubySig.Text.Integer

/-!
What plain values in outlines stand for: texts, integers, annotations, and the words and literals
of a tree.
-/
namespace RubySig.Outline

def toText : Outline → Except TreeFault String
  | .scalar (.str s) => .ok s
  | _ => .error .wrongType

def toText? : Outline → Except TreeFault (Option String)
  | .scalar .null => .ok none
  | o => some <$> o.toText

def toName : Outline → Except TreeFault TypeName
  | .node .typeName location _ [(_, name), (_, path), (_, absolute)] => do
    let segments ← segmentTexts path
    return ⟨location, ← name.toText, segments, !absolute.isEmpty⟩
  | _ => .error .noFields

/-- The integer that a value stands for; a number counts without what is behind its point. -/
def toInteger : Outline → Except TreeFault Int
  | .scalar (.int n) => .ok n
  | .scalar (.bool b) => .ok (if b then 1 else 0)
  | .scalar (.float x) =>
    match wholePart? x with
    | some n => .ok n
    | none => .error (if x.isNaN then .noInteger else .infinite)
  | .scalar (.str s) =>
    match Text.integer? s.toList with
    | some n => .ok n
    | none => .error .noInteger
  | _ => .error .wrongType

/-- The character that a value stands for. -/
def toCharacter : Outline → Except TreeFault Char
  | .scalar (.str s) =>
    match s.toList with
    | [c] => .ok c
    | _ => .error .wrongType
  | _ => .error .wrongType

/-- The text that a value spells: a list by its items, a table by its keys. -/
def spelled : Outline → Except TreeFault String
  | .scalar (.str s) => .ok s
  | .list items => String.ofList <$> items.mapM toCharacter
  | .table entries => String.ofList <$> entries.mapM fun (key, _) => toCharacter (str key)
  | _ => .error .wrongType

/-- How many parts a value has, if it can have parts. -/
def size? : Outline → Option Nat
  | .scalar (.str s) => some s.length
  | .notes ns => some ns.length
  | .list items => some items.length
  | .table entries => some entries.length
  | _ => none

def checkParts (o : Outline) : Except TreeFault Unit :=
  if o.size?.isSome then .ok () else .error .wrongType

def checkTable : Outline → Except TreeFault Unit
  | .table _ => .ok ()
  | _ => .error .noFields

/-- The annotations that a value holds; parts of any other kind are no annotations. -/
def toNotes : Outline → Except TreeFault (List Note)
  | .notes ns => .ok ns
  | o =>
    match o.size? with
    | none => .error .wrongType
    | some 0 => .ok []
    | some _ => .error .noFields

def toBaseKind : Outline → Except TreeFault BaseKind
  | .choice word =>
    match [BaseKind.untyped, .bool, .bottom, .class_, .instance_, .nil, .self, .top, .void].find?
        (·.text == word) with
    | some kind => .ok kind
    | none => .error .noFields
  | _ => .error .noFields

/-- A variance, which is looked up; what has parts cannot be looked up at all. -/
def toVariance : Outline → Except TreeFault Variance
  | .choice "invariant" => .ok .invariant
  | .choice "covariant" => .ok .covariant
  | .choice "contravariant" => .ok .contravariant
  | .choice _ | .scalar _ => .error .unknownWord
  | _ => .error .wrongType

/-- The level of an alias or attribute, which `what` names. -/
def toMemberLevel (kind : NodeKind) (what : String) : Outline → Except TreeFault MemberLevel
  | .choice "instance" => .ok .instance_
  | .choice "singleton" => .ok .singleton
  | .choice word => .error (.malformed kind (what ++ " cannot have kind " ++ word))
  | _ => .error .noFields

/-- The level of a method; what is no level counts as the usual one. -/
def toMethodLevel : Outline → MethodLevel
  | .choice "singleton" => .singleton
  | .choice "singleton_instance" => .both
  | _ => .instance_

def toVisibility? : Outline → Except TreeFault (Option Visibility)
  | .scalar .null => .ok none
  | .choice "public" => .ok (some .public_)
  | .choice "private" => .ok (some .private_)
  | _ => .error .noFields

/-- The variable behind an attribute; an empty value is the implied one. -/
def toBacking : Outline → Except TreeFault Backing
  | .scalar (.bool false) => .ok .absent
  | o => if o.isEmpty then .ok .implied else .named <$> o.text

/-- A literal. The value of a string that has a place is not needed, since its source is. -/
def toLiteral (location : Option Span) (kind value : Outline) : Except TreeFault Literal :=
  match kind with
  | .choice "integer" => .integer <$> value.toInteger
  | .choice "true" => .ok (.truth true)
  | .choice "false" => .ok (.truth false)
  | .choice "symbol" => .symbol <$> value.toText
  | .choice "string" =>
    if location.isSome then .ok (.string "") else .string <$> value.spelled
  | kind => .error (.malformed .literalType ("unknown literal kind " ++ kind.quoted))

end RubySig.Outline
