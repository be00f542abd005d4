import RubySig.Format.Text
import RubySig.Outline.Value

/-!
Outlines in canonical form. A node is printed alike wherever it stands, also where no tree could
have it. What is wrong with an outline is noticed in the order of printing.
-/
namespace RubySig.Outline

/-- What printing needs. The name of a type variable is not looked at before lines are laid out,
so `nameless` tells what stands for a name that is no text. -/
structure Printer extends Format.Context where
  nameless : Outline → Except TreeFault String

/-- What is printed of a value that may be absent. -/
def ifPresent {α : Type} (o : Outline) (printed : Except TreeFault (List α)) :
    Except TreeFault (List α) :=
  match o with
  | .scalar .null => .ok []
  | _ => printed

def ifAny {α : Type} (o : Outline) (printed : Except TreeFault (List α)) :
    Except TreeFault (List α) :=
  if o.isEmpty then .ok [] else printed

/-- The nodes of a value that is no list: its parts, if it has any, are texts and not nodes. -/
def noNodes {α : Type} (o : Outline) : Except TreeFault (List α) :=
  match o.size? with
  | none => .error .wrongType
  | some 0 => .ok []
  | some _ => .error (.unsupported (typeName (str "")))

def isOptional : Outline → Bool
  | .node .optionalType _ _ _ => true
  | _ => false

/-- Whether there is a field for a kind, as the keys of records need one. -/
def hasKind : Outline → Bool
  | .node _ _ _ fields => (field? fields "kind").isSome
  | _ => false

/-- The line on which an item begins, which only members and declarations tell. -/
def firstLine? : Outline → Option Int
  | .node kind location lead _ => if kind.isDecorated then some (lead.firstLine location) else none
  | _ => none

def lastLine? : Outline → Option Int
  | .node _ location _ _ => location.map (·.endLine)
  | _ => none

/-- The line on which an item begins, which matters only behind an item that has a place. -/
def firstLineBehind (last : Option Int) (o : Outline) : Except TreeFault Int :=
  match last, o.firstLine? with
  | none, line => .ok (line.getD 0)
  | some _, some line => .ok line
  | some _, none => .error .noFields

/-- The word in front of the name of an attribute or mixin. -/
def keyword : NodeKind → String
  | .attrReader => Access.reader.text
  | .attrWriter => Access.writer.text
  | .attrAccessor => Access.accessor.text
  | .includeMember => MixinKind.include_.text
  | .extendMember => MixinKind.extend.text
  | .prependMember => MixinKind.prepend.text
  | _ => ""

mutual

/-- A node with what stands above it; with `wrap` a type that would be misread where it stands
gets parentheses. -/
def docs (p : Printer) (wrap : Bool) : Outline → Except TreeFault (List Doc)
  | .node .signature _ _ fields => do
    let (params, result) ← signatureParts p fields
    return [Format.signatureDoc p.toContext [] params [] (← result)]
  | .node kind location lead fields => do
    if kind.isAbstract then throw (.unsupported kind.name)
    if kind.isDecorated then
      return Format.leadDocs p.toContext lead ++ (← itemDocs p kind fields)
    else partDocs p wrap location kind fields
  | o => .error (.unsupported o.typeName)

/-- The nodes that a value holds, each as `docs` has it. -/
def elementDocs (p : Printer) (wrap : Bool) : Outline → Except TreeFault (List (List Doc))
  | .list items => listDocs p wrap items
  | o => o.noNodes

def listDocs (p : Printer) (wrap : Bool) : List Outline → Except TreeFault (List (List Doc))
  | [] => .ok []
  | o :: os => do
    let first ← docs p wrap o
    return first :: (← listDocs p wrap os)

/-- A node that is neither a member nor a declaration nor a signature. -/
def partDocs (p : Printer) (wrap : Bool) (location : Option Span) :
    NodeKind → List (String × Outline) → Except TreeFault (List Doc)
  | .root, [(_, declarations)] => Format.fileDocs <$> elementDocs p false declarations
  | .typeName, fields => do return [.text (← nameText fields)]
  | .classRef, [(_, name), (_, args)] | .classInstanceType, [(_, name), (_, args)]
  | .interfaceType, [(_, name), (_, args)] | .aliasType, [(_, name), (_, args)] => do
    let name ← docs p false name
    return [Format.applied name (← ifAny args (elementDocs p false args))]
  | .typeParam, [(_, name), (_, variance), (_, unchecked), (_, bound)] => do
    let variance ← variance.toVariance
    let heading := Format.typeParamHeading (!unchecked.isEmpty)
      (Format.Variance.keyword variance) (← name.toText)
    return heading :: (← ifPresent bound ((.text " < " :: ·) <$> docs p false bound))
  | .overload, [(_, method), (_, annotations)] => do
    let above := Format.notesBefore p.toContext (← annotations.toNotes)
    return above ++ (← docs p false method)
  | .methodType, [(_, signature), (_, params), (_, block)] => do
    let params ← ifAny params (elementDocs p false params)
    let (required, result) ← signatureOf p signature
    let block ← ifPresent block (docs p false block)
    return [Format.signatureDoc p.toContext (Format.spaced (Format.bracketed params)) required
      (Format.spaced block) (← result)]
  | .baseType, [(_, kind)] => do return [.text (← kind.toBaseKind).text]
  | .variableType, [(_, .scalar (.str name))] => .ok [.text name]
  | .variableType, [(_, name)] => do return [.text (← p.nameless name)]
  | .singletonType, [(_, name)] => do
    return .text "singleton(" :: (← docs p false name) ++ [.text ")"]
  | .optionalType, [(_, type)] => do
    return Format.parenthesized type.isOptional (← docs p true type) ++ [.text "?"]
  | .unionType, [(_, types)] => do
    return Format.parenthesized wrap [Format.alternatives "| " (← elementDocs p wrap types)]
  | .intersectionType, [(_, types)] => do
    return Format.parenthesized wrap [Format.alternatives "& " (← elementDocs p true types)]
  | .tupleType, [(_, types)] =>
    Format.tupleDocs <$> ifAny types (elementDocs p false types)
  | .recordType, [(_, entries)] =>
    Format.recordDocs p.toContext <$> ifAny entries (elementDocs p false entries)
  | .recordField, [(_, .node .literalType place _ [(_, kind), (_, value)]), (_, type)] => do
    let key := Format.keyDocs p.toContext place (← toLiteral place kind value)
    return key ++ (← docs p false type)
  | .recordField, [(_, key), (_, type)] => do
    unless key.hasKind do throw .noFields
    let key ← docs p false key
    return key ++ .text " => " :: (← docs p false type)
  | .literalType, [(_, kind), (_, value)] =>
    Format.literalDocs p.toContext location <$> toLiteral location kind value
  | .procType, [(_, signature), (_, block)] => do
    let (params, result) ← signatureOf p signature
    let block ← ifPresent block (docs p false block)
    return [Doc.grouped (Format.parenthesized wrap [.text "^",
      Format.signatureDoc p.toContext [] params (Format.spaced block) (← result)])]
  | .param, [(_, type), (_, name)] => do
    let type ← docs p false type
    return Format.namedDocs type (← name.toText?)
  | .block, [(_, signature), (_, required)] =>
    Format.clauseDocs p.toContext (!required.isEmpty) <$> docs p false signature
  | kind, _ => .error (.unsupported kind.name)

def itemDocs (p : Printer) : NodeKind → List (String × Outline) → Except TreeFault (List Doc)
  | .classDecl, [(_, name), (_, params), (_, superclass), (_, members)] => do
    let name ← docs p false name
    let params ← ifAny params (elementDocs p false params)
    let parent ← ifPresent superclass ((.text " < " :: ·) <$> docs p false superclass)
    return Format.bodied p.toContext
      (.text "class " :: name ++ Format.bracketed params ++ parent) (← bodyDocs p members)
  | .moduleDecl, [(_, name), (_, params), (_, selfTypes), (_, members)] => do
    let name ← docs p false name
    let params ← ifAny params (elementDocs p false params)
    let selves ← ifAny selfTypes
      ((.text " : " :: Format.inline ·) <$> elementDocs p false selfTypes)
    return Format.bodied p.toContext
      (.text "module " :: name ++ Format.bracketed params ++ selves) (← bodyDocs p members)
  | .interfaceDecl, [(_, name), (_, params), (_, members)] => do
    let name ← docs p false name
    let params ← ifAny params (elementDocs p false params)
    return Format.bodied p.toContext
      (.text "interface " :: name ++ Format.bracketed params) (← bodyDocs p members)
  | .constantDecl, [(_, name), (_, type)] => do
    let name ← docs p false name
    return [Doc.grouped (name ++ .text ": " :: (← docs p false type))]
  | .typeAliasDecl, [(_, name), (_, type), (_, params)] => do
    let name ← docs p false name
    let params ← ifAny params (elementDocs p false params)
    return [Format.typeAliasDoc p.toContext name (Format.bracketed params)
      (← docs p false type)]
  | .globalDecl, [(_, name), (_, type)] | .instanceVariable, [(_, name), (_, type)]
  | .classVariable, [(_, name), (_, type)] => do
    let name ← name.text
    return [Doc.grouped (.text (name ++ ": ") :: (← docs p false type))]
  | .classInstanceVariable, [(_, name), (_, type)] => do
    let name ← name.text
    return [Doc.grouped (.text ("self." ++ name ++ ": ") :: (← docs p false type))]
  | .aliasMember, [(_, newName), (_, oldName), (_, level)] => do
    let level ← toMemberLevel .aliasMember "alias" level
    let newName ← newName.toText
    return [Format.aliasDoc (Format.MemberLevel.receiver level) newName (← oldName.toText)]
  | .publicMember, _ => .ok [.text Visibility.public_.text]
  | .privateMember, _ => .ok [.text Visibility.private_.text]
  | kind, [(_, name), (_, args)] => do
    let name ← docs p false name
    return [Format.mixinDoc (keyword kind) name (← ifAny args (elementDocs p false args))]
  | .method, [(_, name), (_, overloads), (_, level), (_, overloading), (_, shown)] => do
    let shown ← shown.toVisibility?
    let heading := Format.methodHeading (Format.visibilityText shown)
      (Format.MethodLevel.receiver level.toMethodLevel) (← name.toText)
    let entries := Format.methodEntries (← elementDocs p false overloads)
      (!overloading.isEmpty)
    if entries.isEmpty then throw (.malformed .method "method has no overloads")
    return [Doc.grouped (Format.overloadsDocs heading entries)]
  | kind, [(_, name), (_, type), (_, backing), (_, level), (_, shown)] => do
    let shown ← shown.toVisibility?
    let level ← toMemberLevel kind "attribute" level
    let name ← name.toText
    let heading := Format.attributeHeading (Format.visibilityText shown) (keyword kind)
      (Format.MemberLevel.receiver level) name (Format.Backing.text (← backing.toBacking))
    return [Doc.grouped (heading :: (← docs p false type))]
  | kind, _ => .error (.unsupported kind.name)

/-- The parameters of a signature, and the return type, which is printed last. -/
def signatureParts (p : Printer) :
    List (String × Outline) → Except TreeFault (List (List Doc) × Except TreeFault (List Doc))
  | [(_, result), (_, required), (_, optional), (_, rest), (_, trailing), (_, requiredKeywords),
      (_, optionalKeywords), (_, restKeywords)] => do
    required.checkParts
    optional.checkParts
    trailing.checkParts
    requiredKeywords.checkTable
    optionalKeywords.checkTable
    let required ← elementDocs p false required
    let optional ← elementDocs p false optional
    let rest ← ifPresent rest ((fun docs => [.text "*" :: docs]) <$> docs p false rest)
    let trailing ← elementDocs p false trailing
    let requiredKeywords ← keywordDocs p "" requiredKeywords
    let optionalKeywords ← keywordDocs p "?" optionalKeywords
    let restKeywords ← ifPresent restKeywords
      ((fun docs => [.text "**" :: docs]) <$> docs p false restKeywords)
    let params := required.map (.text "" :: ·) ++ optional.map (.text "?" :: ·) ++ rest ++
      trailing.map (.text "" :: ·) ++ requiredKeywords ++ optionalKeywords ++ restKeywords
    return (params, docs p true result)
  | _ => .error .noFields

def signatureOf (p : Printer) :
    Outline → Except TreeFault (List (List Doc) × Except TreeFault (List Doc))
  | .node .signature _ _ fields => signatureParts p fields
  | _ => .error .noFields

def keywordDocs (p : Printer) (mark : String) : Outline → Except TreeFault (List (List Doc))
  | .table entries => entryDocs p mark entries
  | _ => .error .noFields

def entryDocs (p : Printer) (mark : String) :
    List (String × Outline) → Except TreeFault (List (List Doc))
  | [] => .ok []
  | (name, o) :: os => do
    let first ← docs p false o
    return (.text (mark ++ Spell.name name true ++ ": ") :: first) :: (← entryDocs p mark os)

def bodyDocs (p : Printer) : Outline → Except TreeFault (List Doc)
  | .list items => bodyItems p none items
  | o => o.noNodes

/-- Items behind one that ended on line `last`, if it had a place. -/
def bodyItems (p : Printer) (last : Option Int) : List Outline → Except TreeFault (List Doc)
  | [] => .ok []
  | o :: os => do
    let line ← o.firstLineBehind last
    let item ← docs p false o
    return Format.bodyItem last line item ++ (← bodyItems p o.lastLine? os)

end

/-- Takes the place of a name that is no text, as wide as the name has parts. -/
def placeholder (o : Outline) : String :=
  "".pushn '\uFFFE' (max 1 (o.size?.getD 1))

/-- The formatted text of a tree or a part of one, read from `source`. That the name of a type
variable is no text counts only when nothing else is wrong, and the first such name decides: one
without parts has no width, and one with parts is no piece of text. Where it ends a line, it is
already noticed that no blanks can be cut off it. -/
def formatted (o : Outline) (settings : Settings) (source : String) :
    Except TreeFault String := do
  let print (nameless : Outline → Except TreeFault String) :=
    settings.render <$> o.docs ⟨settings.context source, nameless⟩ false
  let held ← print fun name => .ok name.placeholder
  match print fun name => .error (if name.size?.isSome then .noFields else .wrongType) with
  | .error .noFields => throw (if held.contains "\uFFFE\n" then .noFields else .wrongType)
  | result => result

end RubySig.Outline
