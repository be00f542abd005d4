import RubySig.Proofs.Format.Remarks
import RubySig.Proofs.Tree.Accounts

/-! The string literals among the words of a file: those at its sites, in their order, and no
others. -/
namespace RubySig.Format

open Piece (mark keyword named)

/-- The value and the characters of a word that is a string literal. -/
def Piece.string? : Piece → Option (String × List Char)
  | .word (.string v) w => some (v, w)
  | _ => none

def strings (ps : List Piece) : List (String × List Char) := ps.filterMap Piece.string?

/-- The strings at sites, with the characters that they are printed with. -/
def printedStrings (c : Context) (sites : List Site) : List (String × List Char) :=
  (sites.filterMap Site.string?).map fun s => (s.2, stringChars c s.1 s.2)

section Lists

variable {ps qs sep : List Piece} {pss : List (List Piece)}

@[simp] theorem strings_nil : strings [] = [] := rfl

@[simp] theorem strings_append : strings (ps ++ qs) = strings ps ++ strings qs :=
  List.filterMap_append ..

@[simp] theorem strings_gap (g : Gap) : strings (.gap g :: ps) = strings ps := rfl

@[simp] theorem strings_mark (m : Mark) : strings (mark m :: ps) = strings ps := rfl

@[simp] theorem strings_keyword (k : Keyword) : strings (keyword k :: ps) = strings ps := rfl

theorem strings_word {l : Lexeme} (h : l.isPlain = true) (w : List Char) :
    strings (.word l w :: ps) = strings ps := by
  cases l <;> first | rfl | cases h

theorem isPlain_nameLexeme (w : List Char) : (Lexer.nameLexeme w).isPlain = true := by
  unfold Lexer.nameLexeme
  dsimp only
  split
  · rfl
  · split
    · split <;> rfl
    · split <;> rfl
    · rfl

@[simp] theorem strings_named (s : String) : strings (named s :: ps) = strings ps :=
  strings_word (isPlain_nameLexeme _) _

@[simp] theorem strings_namePiece (s : String) (allowReserved : Bool) :
    strings (namePiece s allowReserved :: ps) = strings ps := by
  unfold namePiece
  split
  · rfl
  · exact strings_word (isPlain_nameLexeme _) _

theorem strings_intercalate (hs : strings sep = []) :
    strings (sep.intercalate pss) = pss.flatMap strings :=
  filterMap_intercalate hs

theorem strings_bracketed : strings (bracketedPieces pss) = pss.flatMap strings := by
  have hinline : strings (inlinePieces pss) = pss.flatMap strings := strings_intercalate rfl
  unfold bracketedPieces
  split
  · next h => simp [List.isEmpty_iff.mp h]
  · simp [hinline]

@[simp] theorem strings_parenthesized (wrap : Bool) :
    strings (parenthesizedPieces wrap ps) = strings ps := by
  cases wrap <;> simp [parenthesizedPieces]

theorem strings_list : strings (listPieces pss) = pss.flatMap strings := by
  have hcomma : strings (commaPieces pss) = pss.flatMap strings := strings_intercalate rfl
  unfold listPieces
  split
  · next h => simp [List.isEmpty_iff.mp h]
  · simp [hcomma]

theorem strings_tuple : strings (tuplePieces pss) = pss.flatMap strings := by
  unfold tuplePieces
  split
  · next h => simp [List.isEmpty_iff.mp h]
  · exact strings_bracketed

theorem strings_record : strings (recordPieces pss) = pss.flatMap strings := by
  have hcomma : strings (commaPieces pss) = pss.flatMap strings := strings_intercalate rfl
  unfold recordPieces
  split
  · next h => simp [List.isEmpty_iff.mp h]
  · simp [hcomma]

@[simp] theorem strings_namePieces (n : TypeName) : strings (namePieces n) = [] := by
  have hpath : ∀ path : List String,
      strings (path.flatMap fun s => [named s, mark .doubleColon]) = [] := by
    intro path
    induction path with
    | nil => rfl
    | cons s path ih => simpa using ih
  unfold namePieces
  rw [strings_append, strings_append, hpath]
  cases n.absolute <;> simp

@[simp] theorem strings_namedPieces (name : Option String) :
    strings (namedPieces ps name) = strings ps := by
  cases name <;> simp [namedPieces]

end Lists

section Types

variable (c : Context)

@[simp] theorem printedStrings_nil : printedStrings c [] = [] := rfl

@[simp] theorem printedStrings_append (a b : List Site) :
    printedStrings c (a ++ b) = printedStrings c a ++ printedStrings c b := by
  simp [printedStrings]

theorem strings_literal (l : Option Span) (value : Literal) (scopes : List (List String)) :
    strings [literalPiece c l value] = printedStrings c [.type scopes (.literal l value)] := by
  cases value with
  | truth b => cases b <;> rfl
  | _ => rfl

theorem strings_key (l : Option Span) (key : Literal) :
    strings (keyPieces c l key) = printedStrings c [.key l key] := by
  cases key with
  | symbol s =>
    rw [keyPieces]
    split <;> simp [literalPiece] <;> rfl
  | truth b => cases b <;> rfl
  | _ => rfl

/-- What is at a site that is no string. -/
theorem printedStrings_cons {t : Ty} (h : t.string? = none) (scopes : List (List String))
    (a : List Site) : printedStrings c (.type scopes t :: a) = printedStrings c a := by
  have hsite : (Site.type scopes t).string? = none := h
  simp [printedStrings, hsite]

variable (scopes : List (List String))

mutual

theorem strings_ty (wrap : Bool) : (t : Ty) →
    strings (tyPieces c wrap t) = printedStrings c (t.sites scopes)
  | .base _ _ | .variable _ _ => by
    rw [Ty.sites, printedStrings_cons c rfl, Ty.inner, tyPieces, strings_named]
    rfl
  | .literal l value => strings_literal c l value scopes
  | .classInstance _ name args | .interface _ name args | .alias _ name args => by
    rw [Ty.sites, printedStrings_cons c rfl, Ty.inner, tyPieces, strings_append, strings_bracketed,
      strings_tys false args, strings_namePieces, List.nil_append]
  | .classSingleton _ name => by
    rw [Ty.sites, printedStrings_cons c rfl, Ty.inner]
    simp [tyPieces]
  | .optional _ type => by
    rw [Ty.sites, printedStrings_cons c rfl, Ty.inner]
    unfold tyPieces
    split
    · next s hs =>
      obtain ⟨-, l, rfl⟩ := Ty.openSymbol?_eq_some hs
      rfl
    · rw [strings_append, strings_parenthesized, strings_ty true type]
      exact List.append_nil _
  | .union _ types => by
    rw [Ty.sites, printedStrings_cons c rfl, Ty.inner, tyPieces, strings_parenthesized,
      alternativesPieces,
      strings_intercalate rfl, strings_tys wrap types]
  | .intersection _ types => by
    rw [Ty.sites, printedStrings_cons c rfl, Ty.inner, tyPieces, strings_parenthesized,
      alternativesPieces,
      strings_intercalate rfl, strings_tys true types]
  | .tuple _ types => by
    rw [Ty.sites, printedStrings_cons c rfl, Ty.inner, ← strings_tys false types]
    exact strings_tuple
  | .record _ fields => by
    rw [Ty.sites, printedStrings_cons c rfl, Ty.inner, ← strings_fields fields]
    exact strings_record
  | .proc _ signature block => by
    rw [Ty.sites, printedStrings_cons c rfl, Ty.inner, tyPieces,
      strings_parenthesized, strings_mark,
      strings_signature [] (strings_block block) signature]
    rfl

theorem strings_tys (wrap : Bool) : (ts : List Ty) →
    (tysPieces c wrap ts).flatMap strings = printedStrings c (Ty.sitesAll scopes ts)
  | [] => rfl
  | t :: ts => by
    have hsites : Ty.sitesAll scopes (t :: ts) = t.sites scopes ++ Ty.sitesAll scopes ts := rfl
    rw [tysPieces, List.flatMap_cons, strings_ty wrap t, strings_tys wrap ts, hsites,
      printedStrings_append]

theorem strings_fields : (fields : List Field) →
    (fieldsPieces c fields).flatMap strings = printedStrings c (Field.sitesAll scopes fields)
  | [] => rfl
  | ⟨l, keyLocation, key, type⟩ :: fields => by
    have hsites : Field.sitesAll scopes (⟨l, keyLocation, key, type⟩ :: fields) =
        [.key keyLocation key] ++ type.sites scopes ++ Field.sitesAll scopes fields := rfl
    rw [fieldsPieces, List.flatMap_cons, strings_append, strings_key, strings_ty false type,
      strings_fields fields, hsites, printedStrings_append, printedStrings_append]

theorem strings_param : (p : Param) →
    strings (paramPieces c p) = printedStrings c (p.sites scopes)
  | ⟨_, type, name⟩ => by
    rw [paramPieces, strings_namedPieces, strings_ty false type]
    rfl

theorem strings_params {lead : List Piece} (hl : strings lead = []) : (ps : List Param) →
    (paramsPieces c lead ps).flatMap strings = printedStrings c (Param.sitesAll scopes ps)
  | [] => rfl
  | p :: ps => by
    rw [paramsPieces, List.flatMap_cons, strings_append, hl, strings_param p, strings_params hl ps,
      Param.sitesAll, printedStrings_append, List.nil_append]

theorem strings_rest {lead : List Piece} (hl : strings lead = []) : (p : Option Param) →
    (restPieces c lead p).flatMap strings = printedStrings c (Param.sitesOption scopes p)
  | none => rfl
  | some p => by
    rw [restPieces, List.flatMap_singleton, strings_append, hl, strings_param p, Param.sitesOption,
      List.nil_append]

theorem strings_keywords {lead : List Piece} (hl : strings lead = []) :
    (ps : List (String × Param)) →
      (keywordsPieces c lead ps).flatMap strings = printedStrings c (Param.sitesKeywords scopes ps)
  | [] => rfl
  | (name, p) :: ps => by
    rw [keywordsPieces, List.flatMap_cons, strings_append, hl, strings_namePiece,
      strings_mark, strings_gap,
      strings_param p, strings_keywords hl ps, Param.sitesKeywords, printedStrings_append,
      List.nil_append]

theorem strings_signature (typeParams : List Piece) {block : List Piece} {blockSites : List Site}
    (hb : strings block = printedStrings c blockSites) : (s : Signature) →
      strings (signaturePiecesOf c typeParams block s) =
        strings typeParams ++ printedStrings c (s.sites scopes blockSites)
  | ⟨_, result, required, optional, rest, trailing, requiredKeywords, optionalKeywords,
      restKeywords⟩ => by
    have hresult : Site.type scopes result :: result.inner scopes = result.sites scopes := rfl
    have hnil : strings [] = [] := rfl
    have hmark (m : Mark) : strings [mark m] = [] := rfl
    rw [signaturePiecesOf, signaturePieces, Signature.sites, hresult]
    simp only [strings_append, strings_list, List.flatMap_append, strings_params hnil,
      strings_params (hmark _), strings_rest (hmark _), strings_keywords hnil,
      strings_keywords (hmark _), hb, strings_mark, strings_gap, strings_ty true result,
      printedStrings_append, List.append_assoc]

theorem strings_block : (block : Option Block) →
    strings (blockPieces c block) = printedStrings c (Block.sites scopes block)
  | none => rfl
  | some ⟨_, signature, required⟩ => by
    have hinside : strings (signaturePiecesOf c [] [] signature) =
        printedStrings c (signature.sites scopes []) := strings_signature [] rfl signature
    cases required <;> simp [blockPieces, clausePieces, hinside, Block.sites]

end

theorem strings_typeParams (params : List TypeParam) (declared : List String) :
    (params.map (typeParamPieces c)).flatMap strings =
      printedStrings c (TypeParam.sites scopes declared params) := by
  induction params generalizing declared with
  | nil => rfl
  | cons p params ih =>
    obtain ⟨l, name, variance, unchecked, bound⟩ := p
    have hbound : strings (boundPieces c bound) =
        printedStrings c (bound.toList.flatMap (Ty.sites ((name :: declared) :: scopes))) := by
      cases bound with
      | none => rfl
      | some t => simpa [boundPieces] using strings_ty c _ false t
    have hparam : strings (typeParamPieces c ⟨l, name, variance, unchecked, bound⟩) =
        strings (boundPieces c bound) := by
      unfold typeParamPieces
      cases variance <;> cases unchecked <;> simp [varianceWords]
    rw [List.map_cons, List.flatMap_cons, ih, hparam, hbound, TypeParam.sites,
      printedStrings_append]

theorem strings_typeParamsPieces (params : List TypeParam) : strings (typeParamsPieces c params) =
    printedStrings c (TypeParam.sites scopes [] params) := by
  rw [typeParamsPieces, strings_bracketed, strings_typeParams c scopes params []]

theorem strings_notes (notes : List Note) {sep : Piece} (hs : sep.string? = none) :
    strings (notes.flatMap fun n => [notePiece c n, sep]) = [] := by
  have hpair (n : Note) : strings [notePiece c n, sep] = [] := by
    change [sep].filterMap Piece.string? = []
    rw [List.filterMap_cons_none hs, List.filterMap_nil]
  induction notes with
  | nil => rfl
  | cons n notes ih => rw [List.flatMap_cons, strings_append, ih, hpair, List.append_nil]

theorem strings_overload (o : Overload) :
    strings (overloadPieces c o) = printedStrings c (o.sites scopes) := by
  have hspaced : strings (spacedPieces (typeParamsPieces c o.method.params)) =
      printedStrings c (TypeParam.sites scopes [] o.method.params) := by
    rw [← strings_typeParamsPieces]
    unfold spacedPieces
    split
    · next h => rw [List.isEmpty_iff.mp h]
    · rw [strings_append]
      exact List.append_nil _
  rw [overloadPieces, strings_append, strings_notes c o.notes rfl, methodTypePieces,
    strings_signature c _ _ (strings_block c _ o.method.block), hspaced, Overload.sites,
    MethodType.sites,
    printedStrings_append, List.nil_append]

theorem strings_signPieces (cs : List Char) : strings (signPieces cs) = [] := by
  induction cs using signPieces.induct with
  | case1 => rfl
  | case2 cs ih | case3 cs ih =>
    rw [signPieces]
    exact ih
  | case4 c cs hstar harrow ih =>
    have hsign : (signPiece c).string? = none := by
      unfold signPiece
      split <;> rfl
    rw [signPieces]
    · rw [strings, List.filterMap_cons_none hsign]
      exact ih
    · exact hstar
    · exact harrow

@[simp] theorem strings_methodName (name : String) (quoteReserved : Bool) :
    strings (methodNamePieces name quoteReserved) = [] := by
  unfold methodNamePieces wholeNamePieces
  split
  · rfl
  · dsimp only
    rw [strings_append, strings_signPieces, List.append_nil]
    split
    · rfl
    · exact strings_word (isPlain_nameLexeme _) _

@[simp] theorem strings_visibility (visibility : Option Visibility) :
    strings (visibilityPieces visibility) = [] := by
  cases visibility <;> rfl

@[simp] theorem strings_receiver (level : MemberLevel) : strings (receiverPieces level) = [] := by
  cases level <;> rfl

@[simp] theorem strings_heading (visibility : Option Visibility) (level : MethodLevel)
    (name : String) :
    strings (headingPieces visibility level name) = [] := by
  have hreceiver : strings (methodReceiverPieces level) = [] := by cases level <;> rfl
  simp [headingPieces, hreceiver]

theorem strings_member : (m : Member) →
    strings (memberPieces c m) = printedStrings c (m.sites scopes)
  | .alias newName oldName level => by simp [memberPieces, Member.sites]
  | .attribute access name type backing level visibility => by
    have hbacking : strings (backingPieces backing) = [] := by cases backing <;> rfl
    simp [memberPieces, hbacking, strings_ty c scopes, Member.sites]
  | .variable kind name type => by
    have hname : strings (variablePieces kind name) = [] := by cases kind <;> rfl
    simp [memberPieces, hname, strings_ty c scopes, Member.sites]
  | .mixin kind name args => by
    simp [memberPieces, strings_bracketed, strings_tys c scopes, Member.sites]
  | .visibility v => rfl
  | .method name overloads level overloading visibility => by
    have hoverloads : (overloads.map (overloadPieces c)).flatMap strings =
        printedStrings c (overloads.flatMap (Overload.sites scopes)) := by
      induction overloads with
      | nil => rfl
      | cons o os ih =>
        rw [List.map_cons, List.flatMap_cons, ih, strings_overload c scopes, List.flatMap_cons,
          printedStrings_append]
    have hentries : (methodEntryPieces c overloads overloading).flatMap strings =
        printedStrings c (overloads.flatMap (Overload.sites scopes)) := by
      rw [methodEntryPieces, List.flatMap_append, hoverloads]
      cases overloading <;> exact List.append_nil _
    rw [memberPieces, strings_append, strings_append, strings_heading, entriesPieces,
      strings_intercalate rfl, hentries]
    rfl

theorem strings_lead (lead : Lead) : strings (leadPieces c lead) = [] := by
  have hremarks : strings (remarkPieces lead.comment) = [] := by
    rw [remarkPieces_eq, strings, List.filterMap_map, List.filterMap_eq_nil_iff]
    exact fun line _ => rfl
  rw [leadPieces, strings_append, hremarks, notesPieces, strings_notes c lead.notes rfl,
    List.append_nil]

theorem strings_classRef (r : ClassRef) :
    strings (classRefPieces c r) = printedStrings c (r.sites scopes) := by
  rw [classRefPieces, strings_append, strings_namePieces, strings_bracketed, strings_tys c scopes,
    List.nil_append]
  rfl

theorem strings_superclass (superclass : Option ClassRef) :
    strings (superclassPieces c superclass) =
    printedStrings c (superclass.toList.flatMap (ClassRef.sites scopes)) := by
  cases superclass with
  | none => rfl
  | some r => simp [superclassPieces, strings_classRef c scopes]

theorem strings_selfTypes (selves : List ClassRef) : strings (selfTypesPieces c selves) =
    printedStrings c (selves.flatMap (ClassRef.sites scopes)) := by
  have hinline : strings (inlinePieces (selves.map (classRefPieces c))) =
      printedStrings c (selves.flatMap (ClassRef.sites scopes)) := by
    rw [inlinePieces, strings_intercalate rfl]
    induction selves with
    | nil => rfl
    | cons r rs ih =>
      rw [List.map_cons, List.flatMap_cons, ih, strings_classRef c scopes, List.flatMap_cons,
        printedStrings_append]
  unfold selfTypesPieces
  split
  · next h => simp [List.isEmpty_iff.mp h]
  · simp [hinline]

theorem strings_bodied (heading body : List Piece) :
    strings (bodiedPieces heading body) = strings heading ++ strings body := by
  simp [bodiedPieces]

mutual

theorem strings_declaration (scopes : List (List String)) : (d : Declaration) →
    strings (declarationPieces c d) = printedStrings c (d.sites scopes)
  | .class_ name params superclass members => by
    rw [declarationPieces, strings_bodied,
      strings_body (TypeParam.names params :: scopes) none members,
      Declaration.sites]
    simp [strings_typeParamsPieces c scopes,
      strings_superclass c (TypeParam.names params :: scopes)]
  | .module_ name params selfTypes members => by
    rw [declarationPieces, strings_bodied,
      strings_body (TypeParam.names params :: scopes) none members,
      Declaration.sites]
    simp [strings_typeParamsPieces c scopes, strings_selfTypes c (TypeParam.names params :: scopes)]
  | .interface name params members => by
    rw [declarationPieces, strings_bodied,
      strings_body (TypeParam.names params :: scopes) none members,
      Declaration.sites]
    simp [strings_typeParamsPieces c scopes]
  | .constant name type => by
    simp [declarationPieces, strings_ty c scopes, Declaration.sites]
  | .global name type => by
    have hname (ps : List Piece) :
        strings (.word (.globalVariable name) name.toList :: ps) = strings ps := rfl
    simp [declarationPieces, hname, strings_ty c scopes, Declaration.sites]
  | .typeAlias name type params => by
    simp [declarationPieces, strings_typeParamsPieces c scopes,
      strings_ty c (TypeParam.names params :: scopes), Declaration.sites]

theorem strings_item (scopes : List (List String)) : (item : Item) →
    strings (itemPieces c item) = printedStrings c (item.sites scopes)
  | .member l lead m => by
    rw [itemPieces, strings_append, strings_lead, strings_member c scopes, List.nil_append]
    rfl
  | .declaration l lead d => by
    rw [itemPieces, strings_append, strings_lead, strings_declaration scopes d, List.nil_append]
    rfl

theorem strings_body (scopes : List (List String)) (last : Option Int) : (items : List Item) →
    strings (bodyPieces c last items) = printedStrings c (Item.sitesAll scopes items)
  | [] => rfl
  | item :: items => by
    have hbreak : ∀ blank, strings (itemBreak blank) = [] := by
      intro blank
      cases blank <;> rfl
    rw [bodyPieces, strings_append, strings_append, hbreak, strings_item scopes item,
      strings_body scopes _ items, Item.sitesAll, printedStrings_append, List.nil_append]

end

/-- The string literals of a printed file are those at its sites. -/
theorem strings_root (root : Root) : strings (rootPieces c root) = printedStrings c root.sites := by
  have hitems (items : List Item) : (items.map (itemPieces c)).flatMap strings =
      printedStrings c (Item.sitesAll [] items) := by
    induction items with
    | nil => rfl
    | cons item items ih =>
      rw [List.map_cons, List.flatMap_cons, ih, strings_item c [], Item.sitesAll,
        printedStrings_append]
  rw [rootPieces, strings_append, strings_intercalate rfl, hitems]
  exact List.append_nil _

end Types
end RubySig.Format
