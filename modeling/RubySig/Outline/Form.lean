import RubySig.Layout.Doc
import RubySig.Outline.Text
import RubySig.Outline.Value
import RubySig.Spell.Literal

/-!
Outlines as nested forms `(label flags field=value ...)`. Fields that hold nothing are left out.
-/
namespace RubySig

namespace NodeKind

/-- The label of a kind and the fields of its form, in their order. -/
def form : NodeKind → String × List String
  | .root => ("root", ["declarations"])
  | .classRef => ("name", ["name", "args"])
  | .typeParam => ("type-param", ["name", "upper_bound"])
  | .classDecl => ("class", ["name", "type_params", "super_class", "members"])
  | .moduleDecl => ("module", ["name", "type_params", "self_types", "members"])
  | .interfaceDecl => ("interface", ["name", "type_params", "members"])
  | .constantDecl => ("constant", ["name", "type"])
  | .globalDecl => ("global", ["name", "type"])
  | .typeAliasDecl => ("type-alias", ["name", "type_params", "type"])
  | .aliasMember => ("alias", ["new_name", "old_name"])
  | .attrReader => ("attr-reader", ["name", "ivar_name", "type"])
  | .attrWriter => ("attr-writer", ["name", "ivar_name", "type"])
  | .attrAccessor => ("attr-accessor", ["name", "ivar_name", "type"])
  | .instanceVariable => ("instance-variable", ["name", "type"])
  | .classInstanceVariable => ("class-instance-variable", ["name", "type"])
  | .classVariable => ("class-variable", ["name", "type"])
  | .includeMember => ("include", ["name", "args"])
  | .extendMember => ("extend", ["name", "args"])
  | .prependMember => ("prepend", ["name", "args"])
  | .publicMember => ("public", [])
  | .privateMember => ("private", [])
  | .method => ("method-definition", ["name", "overloads"])
  | .overload => ("overload", ["annotations", "method_type"])
  | .methodType => ("method-type", ["type_params", "type", "block"])
  | .variableType => ("variable", ["name"])
  | .classInstanceType => ("class-instance", ["name", "args"])
  | .interfaceType => ("interface", ["name", "args"])
  | .aliasType => ("alias", ["name", "args"])
  | .singletonType => ("class-singleton", ["name"])
  | .optionalType => ("optional", ["type"])
  | .unionType => ("union", ["types"])
  | .intersectionType => ("intersection", ["types"])
  | .tupleType => ("tuple", ["types"])
  | .recordType => ("record", ["fields"])
  | .recordField => ("field", ["key", "type"])
  | .literalType => ("literal", ["value"])
  | .procType => ("proc", ["type", "block"])
  | .signature => ("function",
      ["required_positionals", "optional_positionals", "rest_positionals",
        "trailing_positionals", "required_keywords", "optional_keywords", "rest_keywords",
        "return_type"])
  | .param => ("param", ["type", "name"])
  | .block => ("block", ["type"])
  | .typeName | .baseType | .declaration | .member | .type | .attributeMember | .mixinMember =>
    ("", [])

end NodeKind

namespace Outline

def wordIn (fields : List (String × Outline)) (name : String) : Except TreeFault String :=
  match field? fields name with
  | some (.choice word) => .ok word
  | _ => .error .noFields

def isSet (fields : List (String × Outline)) (name : String) : Bool :=
  ((field? fields name).map (!·.isEmpty)).getD false

/-- A word as a flag, unless it is the usual one. -/
def unusual (usual word : String) : List String :=
  if word == usual then [] else [word.map fun c => if c == '_' then '-' else c]

def memberFlags (fields : List (String × Outline)) : Except TreeFault (List String) := do
  let level ← wordIn fields "kind"
  let shown ← match field? fields "visibility" with
    | some (.scalar .null) => pure []
    | _ => ([·]) <$> wordIn fields "visibility"
  return shown ++ unusual "instance" level

def flags (kind : NodeKind) (fields : List (String × Outline)) :
    Except TreeFault (List String) :=
  match kind with
  | .typeParam => do
    let variance ← wordIn fields "variance"
    return (if isSet fields "unchecked" then ["unchecked"] else []) ++
      unusual "invariant" variance
  | .aliasMember => unusual "instance" <$> wordIn fields "kind"
  | .attrReader | .attrWriter | .attrAccessor => memberFlags fields
  | .method => do
    return (← memberFlags fields) ++ if isSet fields "overloading" then ["overloading"] else []
  | .overload => do
    let _ ← ((field? fields "annotations").getD (.notes [])).toNotes
    return []
  | .literalType => ([·]) <$> wordIn fields "kind"
  | .block => .ok (if isSet fields "required" then [] else ["optional"])
  | _ => .ok []

def bracketed (indent : Int) (items : List (List Doc)) : Doc :=
  Doc.grouped [.text "[", .indent indent (Doc.softBreak :: Doc.separated [Doc.space] items),
    Doc.softBreak, .text "]"]

/-- Parts with a place to break in front of each. -/
def parts (items : List (List Doc)) : List Doc :=
  items.flatMap (Doc.space :: ·)

/-- A comment, and annotations; these are spelled twice. -/
def leadParts (indent : Int) (lead : Lead) : List (List Doc) :=
  (match lead.comment with
    | some comment => [[.text ("comment=" ++ Spell.string comment.text)]]
    | none => []) ++
  if lead.notes.isEmpty then [] else
    [[.text "annotations=", bracketed indent (lead.notes.map fun note =>
      [.text (Spell.string (Spell.string note.text))])]]

def scalarText : Scalar → String
  | .bool b => if b then "true" else "false"
  | .str s => Spell.string s
  | s => s.text

/-- A value that forms leave out. -/
def isOmitted : Outline → Bool
  | .scalar .null | .list [] | .table [] | .notes [] => true
  | _ => false

def chosen (order : List String) (docs : List (String × Bool × Except TreeFault (List Doc))) :
    Except TreeFault (List (List Doc)) := do
  let present := order.filterMap fun name =>
    match docs.lookup name with
    | some (false, value) => some (name, value)
    | _ => none
  present.mapM fun (name, value) => do return .text (name ++ "=") :: (← value)

mutual

def formDocs (indent : Int) : Outline → Except TreeFault (List Doc)
  | .scalar s => .ok [.text (scalarText s)]
  | .choice word => .ok [.text word]
  | .notes ns => .ok [bracketed indent (ns.map fun n => [.text (Spell.string n.text)])]
  | .list items => return [bracketed indent (← itemForms indent items)]
  | .table entries => return [bracketed indent (← entryForms indent entries)]
  | .node kind _ lead fields =>
    match kind with
    | .declaration | .member | .type | .attributeMember | .mixinMember =>
      .error (.unsupported kind.name)
    | .typeName => do
      return [.text ("(type-name " ++ Spell.string (← nameText fields) ++ ")")]
    | .baseType => do return [.text ("(" ++ (← wordIn fields "kind") ++ ")")]
    | kind => do
      let (label, order) := kind.form
      let flags ← flags kind fields
      let values ← chosen order (fieldForms indent fields)
      let inside := leadParts indent lead ++ flags.map (fun flag => [.text flag]) ++ values
      return [Doc.grouped [.text ("(" ++ label), .indent indent (parts inside), .text ")"]]

def itemForms (indent : Int) : List Outline → Except TreeFault (List (List Doc))
  | [] => .ok []
  | v :: vs => do
    let first ← formDocs indent v
    return first :: (← itemForms indent vs)

def entryForms (indent : Int) : List (String × Outline) → Except TreeFault (List (List Doc))
  | [] => .ok []
  | (key, v) :: vs => do
    let first ← formDocs indent v
    return (.text (key ++ ": ") :: first) :: (← entryForms indent vs)

/-- The forms of all fields, and whether they are left out. -/
def fieldForms (indent : Int) :
    List (String × Outline) → List (String × Bool × Except TreeFault (List Doc))
  | [] => []
  | (name, v) :: vs => (name, v.isOmitted, formDocs indent v) :: fieldForms indent vs

end

def formText (indent width : Int) (o : Outline) : Except TreeFault String := do
  unless o.isNode do throw (.unsupported o.typeName)
  return (Doc.grouped ((← o.formDocs indent) ++ [Doc.hardBreak])).render width

end Outline
end RubySig
