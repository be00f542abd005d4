import RubySig.Proofs.Format.Literals
import RubySig.Tree.Basic

/-!
Types of the shapes that the grammar builds: names that are read as one token, unions of two or more
members, readable integers, string literals that are true to the source, and parameter lists in
order.
-/
namespace RubySig

open Format (Quotes Readable)

def Lexer.ReadsAs (s : String) (l : Lexeme) : Prop :=
  ∃ scan, Lexer.scan s.toList = .ok scan ∧ scan.tokens.map (·.lexeme) = [l]

/-- A name whose last segment is a token of one kind, behind constants. -/
structure TypeName.Formed (last : String → Lexeme) (n : TypeName) : Prop where
  path : ∀ s ∈ n.path, Lexer.ReadsAs s (.constant s)
  name : Lexer.ReadsAs n.name (last n.name)

/-- A name that nothing stands in front of. -/
def TypeName.isBare (n : TypeName) : Bool := !n.absolute && n.path.isEmpty

/-- What can stand between backquotes. -/
structure Nameable (s : String) : Prop where
  nonempty : s.toList ≠ []
  unquoted : '`' ∉ s.toList
  oneLine : '\n' ∉ s.toList

/-- A text is a string literal with the value `v`. -/
def IsQuoted (text : List Char) (v : String) : Prop :=
  ∃ q body, text = q :: body ++ [q] ∧ Quotes q body v

/-- A literal that can be written down; a string with a place is what stands there. -/
def Literal.Formed (source : List Char) (location : Option Span) : Literal → Prop
  | .integer n => Readable n
  | .string v => ∀ span ∈ location, IsQuoted (span.slice source) v
  | .symbol _ | .truth _ => True

/-- Parameters in the order in which they can be read. -/
structure Signature.Ordered (s : Signature) : Prop where
  trailing : s.rest = none → s.trailing = []
  keywords : ((s.requiredKeywords ++ s.optionalKeywords).map (·.1)).Nodup

mutual

/-- A type of a shape that the grammar builds, where the type parameters of `scope` are known. -/
def Ty.Formed (scope : List String) (source : List Char) : Ty → Prop
  | .base _ _ => True
  | .variable _ name => Lexer.ReadsAs name (.constant name) ∧ name ∈ scope
  | .classInstance _ name args =>
    name.Formed .constant ∧ (name.isBare = true → name.name ∉ scope) ∧
      Ty.FormedAll scope source args
  | .interface _ name args => name.Formed .interfaceName ∧ Ty.FormedAll scope source args
  | .alias _ name args => name.Formed .identifier ∧ Ty.FormedAll scope source args
  | .classSingleton _ name => name.Formed .constant
  | .optional _ type => type.Formed scope source
  | .union _ types => 2 ≤ types.length ∧ Ty.FormedAll scope source types
  | .intersection _ types => 2 ≤ types.length ∧ Ty.FormedAll scope source types
  | .tuple _ types => Ty.FormedAll scope source types
  | .record _ fields => Ty.FormedFields scope source fields
  | .literal location value => value.Formed source location
  | .proc _ signature block => signature.Formed scope source ∧ Ty.FormedBlock scope source block

def Ty.FormedAll (scope : List String) (source : List Char) : List Ty → Prop
  | [] => True
  | t :: ts => t.Formed scope source ∧ Ty.FormedAll scope source ts

def Ty.FormedFields (scope : List String) (source : List Char) : List Field → Prop
  | [] => True
  | ⟨_, keyLocation, key, type⟩ :: fields =>
    key.Formed source keyLocation ∧ type.Formed scope source ∧ Ty.FormedFields scope source fields

def Param.Formed (scope : List String) (source : List Char) : Param → Prop
  | ⟨_, type, name⟩ => type.Formed scope source ∧ ∀ s ∈ name, Nameable s

def Param.FormedAll (scope : List String) (source : List Char) : List Param → Prop
  | [] => True
  | p :: ps => p.Formed scope source ∧ Param.FormedAll scope source ps

def Param.FormedOption (scope : List String) (source : List Char) : Option Param → Prop
  | none => True
  | some p => p.Formed scope source

def Param.FormedKeywords (scope : List String) (source : List Char) : List (String × Param) → Prop
  | [] => True
  | (name, p) :: ps => Nameable name ∧ p.Formed scope source ∧ Param.FormedKeywords scope source ps

def Signature.Formed (scope : List String) (source : List Char) : Signature → Prop
  | ⟨l, result, required, optional, rest, trailing, requiredKeywords, optionalKeywords,
      restKeywords⟩ =>
    Signature.Ordered ⟨l, result, required, optional, rest, trailing, requiredKeywords,
      optionalKeywords, restKeywords⟩ ∧ result.Formed scope source ∧
    Param.FormedAll scope source required ∧ Param.FormedAll scope source optional ∧
    Param.FormedOption scope source rest ∧ Param.FormedAll scope source trailing ∧
    Param.FormedKeywords scope source requiredKeywords ∧
    Param.FormedKeywords scope source optionalKeywords ∧
    Param.FormedOption scope source restKeywords

def Ty.FormedBlock (scope : List String) (source : List Char) : Option Block → Prop
  | none => True
  | some ⟨_, signature, _⟩ => signature.Formed scope source

end

theorem Ty.formedAll_iff {scope : List String} {source : List Char} {ts : List Ty} :
    Ty.FormedAll scope source ts ↔ ∀ t ∈ ts, t.Formed scope source := by
  induction ts with
  | nil => simp [Ty.FormedAll]
  | cons t ts ih => simp [Ty.FormedAll, ih]

theorem Ty.formedFields_iff {scope : List String} {source : List Char} {fields : List Field} :
    Ty.FormedFields scope source fields ↔
      ∀ e ∈ fields, e.key.Formed source e.keyLocation ∧ e.type.Formed scope source := by
  induction fields with
  | nil => simp [Ty.FormedFields]
  | cons e fields ih =>
    cases e
    simp [Ty.FormedFields, ih, and_assoc]

theorem Param.formedAll_iff {scope : List String} {source : List Char} {ps : List Param} :
    Param.FormedAll scope source ps ↔ ∀ p ∈ ps, p.Formed scope source := by
  induction ps with
  | nil => simp [Param.FormedAll]
  | cons p ps ih => simp [Param.FormedAll, ih]

theorem Param.formedOption_iff {scope : List String} {source : List Char} {p : Option Param} :
    Param.FormedOption scope source p ↔ ∀ q ∈ p, q.Formed scope source := by
  cases p <;> simp [Param.FormedOption]

theorem Param.formedKeywords_iff {scope : List String} {source : List Char}
    {ps : List (String × Param)} :
    Param.FormedKeywords scope source ps ↔ ∀ p ∈ ps, Nameable p.1 ∧ p.2.Formed scope source := by
  induction ps with
  | nil => simp [Param.FormedKeywords]
  | cons p ps ih => simp [Param.FormedKeywords, ih, and_assoc]

end RubySig
