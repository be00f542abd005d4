import RubySig.Source.Position

/-! Tokens of signature files: what they are, how they are spelled, where they stand. -/
namespace RubySig

/-- The words that have a meaning of their own. -/
inductive Keyword where
  | alias | attrAccessor | attrReader | attrWriter | bool | bot | class_ | def_ | end_ | extend
  | false | in_ | include_ | instance_ | interface | module_ | nil | out | prepend | private_
  | public_ | self | singleton | top | true | type | unchecked | untyped | void
  deriving DecidableEq, Repr

namespace Keyword

def text : Keyword → String
  | .alias => "alias"
  | .attrAccessor => "attr_accessor"
  | .attrReader => "attr_reader"
  | .attrWriter => "attr_writer"
  | .bool => "bool"
  | .bot => "bot"
  | .class_ => "class"
  | .def_ => "def"
  | .end_ => "end"
  | .extend => "extend"
  | .false => "false"
  | .in_ => "in"
  | .include_ => "include"
  | .instance_ => "instance"
  | .interface => "interface"
  | .module_ => "module"
  | .nil => "nil"
  | .out => "out"
  | .prepend => "prepend"
  | .private_ => "private"
  | .public_ => "public"
  | .self => "self"
  | .singleton => "singleton"
  | .top => "top"
  | .true => "true"
  | .type => "type"
  | .unchecked => "unchecked"
  | .untyped => "untyped"
  | .void => "void"

def all : List Keyword :=
  [.alias, .attrAccessor, .attrReader, .attrWriter, .bool, .bot, .class_, .def_, .end_, .extend,
    .false, .in_, .include_, .instance_, .interface, .module_, .nil, .out, .prepend, .private_,
    .public_, .self, .singleton, .top, .true, .type, .unchecked, .untyped, .void]

theorem mem_all (k : Keyword) : k ∈ all := by
  cases k <;> decide

def ofName? (name : String) : Option Keyword :=
  all.find? fun k => k.text == name

end Keyword

/-- Punctuation. -/
inductive Mark where
  | lparen | rparen | lbrace | rbrace | lbracket | rbracket | comma | pipe | ampersand | question
  | caret | lt | eq | dot | star | colon | ellipsis | arrow | fatArrow | doubleStar | doubleColon
  deriving DecidableEq, Repr

namespace Mark

def text : Mark → String
  | .lparen => "("
  | .rparen => ")"
  | .lbrace => "\x7b"
  | .rbrace => "\x7d"
  | .lbracket => "["
  | .rbracket => "]"
  | .comma => ","
  | .pipe => "|"
  | .ampersand => "&"
  | .question => "?"
  | .caret => "^"
  | .lt => "<"
  | .eq => "="
  | .dot => "."
  | .star => "*"
  | .colon => ":"
  | .ellipsis => "..."
  | .arrow => "->"
  | .fatArrow => "=>"
  | .doubleStar => "**"
  | .doubleColon => "::"

/-- The mark at the start of a text; the longer ones go first. -/
def at? : List Char → Option Mark
  | '.' :: '.' :: '.' :: _ => some .ellipsis
  | '-' :: '>' :: _ => some .arrow
  | '=' :: '>' :: _ => some .fatArrow
  | '*' :: '*' :: _ => some .doubleStar
  | ':' :: ':' :: _ => some .doubleColon
  | '(' :: _ => some .lparen
  | ')' :: _ => some .rparen
  | '\x7b' :: _ => some .lbrace
  | '\x7d' :: _ => some .rbrace
  | '[' :: _ => some .lbracket
  | ']' :: _ => some .rbracket
  | ',' :: _ => some .comma
  | '|' :: _ => some .pipe
  | '&' :: _ => some .ampersand
  | '?' :: _ => some .question
  | '^' :: _ => some .caret
  | '<' :: _ => some .lt
  | '=' :: _ => some .eq
  | '.' :: _ => some .dot
  | '*' :: _ => some .star
  | ':' :: _ => some .colon
  | _ => none

end Mark

/-- What a token says. Literals hold their decoded value. -/
inductive Lexeme where
  | integer (value : Int)
  | string (value : String)
  | symbol (name : String)
  | identifier (name : String)
  | constant (name : String)
  | interfaceName (name : String)
  | quotedIdentifier (name : String)
  | instanceVariable (name : String)
  | classVariable (name : String)
  | globalVariable (name : String)
  | keyword (keyword : Keyword)
  | mark (mark : Mark)
  | operator (char : Char)
  /-- An annotation: the text between its delimiters. -/
  | note (text : String)
  deriving DecidableEq, Repr

namespace Lexeme

def text : Lexeme → String
  | .integer n => toString n
  | .string s | .symbol s | .identifier s | .constant s | .interfaceName s | .quotedIdentifier s
  | .instanceVariable s | .classVariable s | .globalVariable s | .note s => s
  | .keyword k => k.text
  | .mark m => m.text
  | .operator c => String.singleton c

/-- The name that a token can serve as; every keyword can. -/
def name? : Lexeme → Option String
  | .identifier s | .constant s | .interfaceName s | .quotedIdentifier s => some s
  | .keyword k => some k.text
  | _ => none

end Lexeme

/-- A token with its range in the text. -/
structure Token where
  lexeme : Lexeme
  start : Position
  stop : Position
  deriving DecidableEq, Repr

/-- A `#` comment. It is `alone` when only blanks stand before it on its line. -/
structure CommentLine where
  text : String
  start : Position
  stop : Position
  alone : Bool
  deriving DecidableEq, Repr

namespace Token

def span (t : Token) : Span :=
  .between t.start t.stop

end Token
end RubySig
