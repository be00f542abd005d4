import RubySig.Proofs.Format.ItemPieces
import RubySig.Proofs.Format.TyShow
import RubySig.Proofs.Token.Sound

/-! Printed members, declarations and files come out as their pieces. -/
namespace RubySig.Format

open Piece (mark keyword named)

/-- Pieces on one line, with their characters. -/
def Inked (ps : List Piece) (cs : List Char) : Prop :=
  (∀ p ∈ ps, p.isInline = true) ∧ ps.flatMap Piece.ink = cs

namespace Inked

theorem nil : Inked [] [] := ⟨by simp, rfl⟩

theorem single {p : Piece} (h : p.isInline = true) : Inked [p] p.ink :=
  ⟨by simpa using h, by simp⟩

theorem append {ps qs : List Piece} {cs ds : List Char} (h : Inked ps cs) (k : Inked qs ds) :
    Inked (ps ++ qs) (cs ++ ds) :=
  ⟨List.forall_mem_append.mpr ⟨h.1, k.1⟩, by rw [List.flatMap_append, h.2, k.2]⟩

theorem cons {p : Piece} {ps : List Piece} {cs : List Char} (hp : p.isInline = true)
    (h : Inked ps cs) : Inked (p :: ps) (p.ink ++ cs) :=
  (single hp).append h

theorem shows {ps : List Piece} {s : String} (h : Inked ps s.toList) : Shows [.text s] ps :=
  .text h.1 h.2.symm

end Inked

theorem mark_at_single {c : Char} {m : Mark} (h : Mark.at? [c] = some m) : m.text.toList = [c] := by
  have hp := Lexer.mark_at_starts h
  rcases List.prefix_cons_iff.mp hp with hnil | ⟨t, ht, hnil⟩
  · cases m <;> cases hnil
  · rw [ht, List.prefix_nil.mp hnil]

theorem inked_signPiece (c : Char) : Inked [signPiece c] [c] := by
  unfold signPiece
  cases h : Mark.at? [c] with
  | none => exact .single rfl
  | some m =>
    have hm : Inked [mark m] m.text.toList := .single rfl
    rwa [mark_at_single h] at hm

theorem inked_signPieces (cs : List Char) : Inked (signPieces cs) cs := by
  fun_induction signPieces cs with
  | case1 => exact .nil
  | case2 cs ih => exact .cons (p := mark .doubleStar) rfl ih
  | case3 cs ih => exact .cons (p := mark .fatArrow) rfl ih
  | case4 c cs _ _ ih => exact (inked_signPiece c).append ih

theorem inked_wholeName (cs : List Char) : Inked (wholeNamePieces cs) cs := by
  have hbase : Inked (if (cs.takeWhile MethodName.isPart).isEmpty then []
      else [.word (Lexer.nameLexeme (cs.takeWhile MethodName.isPart))
        (cs.takeWhile MethodName.isPart)]) (cs.takeWhile MethodName.isPart) := by
    split
    case isTrue h =>
      rw [List.isEmpty_iff.mp h]
      exact .nil
    case isFalse => exact .single rfl
  have := hbase.append (inked_signPieces (cs.dropWhile MethodName.isPart))
  rwa [List.takeWhile_append_dropWhile] at this

theorem inked_methodName (name : String) (quoteReserved : Bool) :
    Inked (methodNamePieces name quoteReserved) (Spell.methodName name quoteReserved).toList := by
  unfold methodNamePieces Spell.methodName isQuotedMethod
  cases quoteReserved && Spell.isReserved name with
  | true => exact .single rfl
  | false =>
    cases MethodName.isWhole name.toList with
    | true => exact inked_wholeName name.toList
    | false => exact .single rfl

theorem inked_variance (v : Variance) : Inked (varianceWords v) (Variance.keyword v).toList := by
  cases v <;> exact ⟨by simp [varianceWords], rfl⟩

theorem typeParamDocs_shows (c : Context) (p : TypeParam) :
    Shows (typeParamDocs c p) (typeParamPieces c p) := by
  have hunchecked : Inked (if p.unchecked then [keyword .unchecked, .gap .blank] else [])
      (if p.unchecked then "unchecked " else "").toList := by
    split <;> exact ⟨by simp, rfl⟩
  have hheading : Shows [typeParamHeading p.unchecked (Variance.keyword p.variance) p.name]
      ((if p.unchecked then [keyword .unchecked, .gap .blank] else []) ++
        varianceWords p.variance ++ [named p.name]) := by
    refine Inked.shows ?_
    rw [String.toList_append, String.toList_append]
    exact (hunchecked.append (inked_variance p.variance)).append (.single rfl)
  obtain ⟨l, name, variance, unchecked, bound⟩ := p
  refine hheading.cons ?_
  cases bound with
  | none => exact .nil
  | some bound =>
    have hlt : Shows [.text " < "] [.gap .blank, mark .lt, .gap .blank] := .text (by simp) rfl
    exact hlt.cons (tyDocs_shows c false bound)

theorem forall₂_shows {α : Type} {f : α → List Doc} {g : α → List Piece}
    (h : ∀ a, Shows (f a) (g a)) (as : List α) : List.Forall₂ Shows (as.map f) (as.map g) :=
  List.forall₂_map_left_iff.mpr (List.forall₂_map_right_iff.mpr (List.forall₂_same.mpr
    fun a _ => h a))

theorem typeParamsDocs_shows (c : Context) (ps : List TypeParam) :
    Shows (typeParamsDocs c ps) (typeParamsPieces c ps) :=
  .bracketed (forall₂_shows (typeParamDocs_shows c) ps)

theorem Shows.blank : Shows [.text " "] [.gap .blank] := .text (by simp) rfl

/-- Type parameters in front of a signature. -/
theorem spaced_typeParams_shows (c : Context) (ps : List TypeParam) :
    Shows (spaced (typeParamsDocs c ps)) (spacedPieces (typeParamsPieces c ps)) := by
  cases ps with
  | nil => exact .nil
  | cons p ps => exact (typeParamsDocs_shows c (p :: ps)).append .blank

theorem methodTypeDocs_shows (c : Context) (m : MethodType) :
    Shows (methodTypeDocs c m) (methodTypePieces c m) :=
  signatureDocOf_shows c (spaced_typeParams_shows c m.params)
    (blockBefore_shows c m.block) m.signature

theorem noteDoc_shows (c : Context) (n : Note) : Shows [noteDoc c n] [notePiece c n] := by
  obtain ⟨text, location⟩ := n
  have hspelled : Inked [.word (.note text) ('%' :: 'a' :: '\x7b' :: text.toList ++ ['\x7d'])]
      ("%a\x7b" ++ text ++ "\x7d").toList := by
    have h : ("%a\x7b" ++ text ++ "\x7d").toList =
        '%' :: 'a' :: '\x7b' :: text.toList ++ ['\x7d'] := by
      rw [String.toList_append, String.toList_append]
      rfl
    rw [h]
    exact .single rfl
  unfold noteDoc notePiece noteChars
  cases location with
  | none => exact hspelled.shows
  | some span =>
    dsimp only
    split
    · refine Inked.shows ?_
      rw [String.toList_ofList]
      exact .single rfl
    · exact hspelled.shows

/-- Documents one behind the other. -/
theorem Shows.flatMap {α : Type} {f : α → List Doc} {g : α → List Piece}
    (h : ∀ a, Shows (f a) (g a)) (as : List α) : Shows (as.flatMap f) (as.flatMap g) := by
  induction as with
  | nil => exact .nil
  | cons a as ih => exact (h a).append ih

theorem overloadDocs_shows (c : Context) (o : Overload) :
    Shows (overloadDocs c o) (overloadPieces c o) :=
  (Shows.flatMap (fun n => (noteDoc_shows c n).cons .blank) o.notes).append
    (methodTypeDocs_shows c o.method)

theorem inked_visibility (v : Option Visibility) :
    Inked (visibilityPieces v) (visibilityText v).toList := by
  rcases v with _ | v
  · exact .nil
  · cases v <;> exact ⟨by simp [visibilityPieces], rfl⟩

theorem inked_receiver (level : MemberLevel) :
    Inked (receiverPieces level) (MemberLevel.receiver level).toList := by
  cases level <;> exact ⟨by simp [receiverPieces], rfl⟩

theorem inked_methodReceiver (level : MethodLevel) :
    Inked (methodReceiverPieces level) (MethodLevel.receiver level).toList := by
  cases level <;> exact ⟨by simp [methodReceiverPieces], rfl⟩

theorem inked_backing (backing : Backing) :
    Inked (backingPieces backing) (Backing.text backing).toList := by
  cases backing with
  | implied => exact .nil
  | absent => exact ⟨by simp [backingPieces], rfl⟩
  | named name => exact ⟨by simp [backingPieces], by simp [backingPieces, Backing.text, Mark.text]⟩

theorem inked_colon : Inked [mark .colon, .gap .blank] [':', ' '] := ⟨by simp, rfl⟩

theorem inked_heading (visibility : Option Visibility) (level : MethodLevel) (name : String) :
    Inked (headingPieces visibility level name)
      (methodHeading (visibilityText visibility) (MethodLevel.receiver level) name).toList := by
  have hdef : Inked [keyword .def_, .gap .blank] "def ".toList := ⟨by simp, rfl⟩
  have := (((inked_visibility visibility).append hdef).append
    (inked_methodReceiver level)).append (inked_methodName name true)
  simpa [headingPieces, methodHeading] using this

/-- The signatures of a method behind its heading. -/
theorem Shows.overloads {header : String} {ps : List Piece} (hh : Inked ps header.toList)
    {entries : List (List Doc)} {pss : List (List Piece)} (h : List.Forall₂ Shows entries pss) :
    Shows (overloadsDocs header entries)
      (ps ++ [Piece.mark .colon, .gap .blank] ++ entriesPieces pss) := by
  have hcolon : Shows [.text (header ++ ": ")] (ps ++ [Piece.mark .colon, .gap .blank]) := by
    refine Inked.shows ?_
    rw [String.toList_append]
    exact hh.append inked_colon
  have hbar : Shows [.text "| "] [Piece.mark .pipe, .gap .blank] := .text (by simp) rfl
  have hentries := Shows.separated (Shows.hardBreak.cons hbar) h
  unfold overloadsDocs
  split
  case _ entry =>
    cases h with
    | cons he hnil =>
      cases hnil
      rw [entriesPieces, List.intercalate_singleton]
      exact hcolon.cons he
  case _ => exact hcolon.cons hentries.indent

theorem entries_shows (c : Context) (os : List Overload) (overloading : Bool) :
    List.Forall₂ Shows (methodEntries (os.map (overloadDocs c)) overloading)
      (methodEntryPieces c os overloading) := by
  refine List.rel_append (forall₂_shows (overloadDocs_shows c) os) ?_
  cases overloading with
  | true => exact .cons (.mark .ellipsis rfl) .nil
  | false => exact .nil

theorem mixin_shows (c : Context) (kind : MixinKind) (name : TypeName) (args : List Ty) :
    Shows [mixinDoc kind.text [.text name.text] (tyItems c false args)]
      ([keyword kind.keyword, .gap .blank] ++
        (namePieces name ++ bracketedPieces (tysPieces c false args))) := by
  have hkind : Shows [.text (kind.text ++ " ")] [keyword kind.keyword, .gap .blank] := by
    cases kind <;> exact .text (by simp) rfl
  exact (hkind.cons ((Shows.name name).applied (tyItems_shows c false args))).grouped

theorem variable_shows (c : Context) (kind : VariableKind) (name : String) (type : Ty) :
    Shows (memberDocs c (.variable kind name type))
      (memberPieces c (.variable kind name type)) := by
  have hname : Inked (variablePieces kind name)
      ((if kind == .classInstance then "self." else "") ++ name).toList := by
    cases kind <;>
      exact ⟨by simp [variablePieces], by simp [variablePieces, Mark.text, Keyword.text]⟩
  have hcolon : Shows [.text ((if kind == .classInstance then "self." else "") ++ name ++ ": ")]
      (variablePieces kind name ++ [mark .colon, .gap .blank]) := by
    refine Inked.shows ?_
    rw [String.toList_append]
    exact hname.append inked_colon
  exact (hcolon.cons (tyDocs_shows c false type)).grouped

theorem attribute_shows (c : Context) (access : Access) (name : String) (type : Ty)
    (backing : Backing) (level : MemberLevel) (visibility : Option Visibility) :
    Shows (memberDocs c (.attribute access name type backing level visibility))
      (memberPieces c (.attribute access name type backing level visibility)) := by
  have haccess : Inked [keyword access.keyword, .gap .blank] (access.text ++ " ").toList := by
    cases access <;> exact ⟨by simp, rfl⟩
  have hname : Inked [namePiece name true] (Spell.name name true).toList := .single rfl
  have hheading := (((((inked_visibility visibility).append haccess).append
    (inked_receiver level)).append hname).append (inked_backing backing)).append inked_colon
  have hshown : Shows [attributeHeading (visibilityText visibility) access.text
      (MemberLevel.receiver level) name (Backing.text backing)]
      (visibilityPieces visibility ++ [keyword access.keyword, .gap .blank] ++
        receiverPieces level ++ [namePiece name true] ++ backingPieces backing ++
        [mark .colon, .gap .blank]) := by
    refine Inked.shows ?_
    simpa using hheading
  exact (hshown.cons (tyDocs_shows c false type)).grouped

theorem alias_shows (newName oldName : String) (level : MemberLevel) (c : Context) :
    Shows (memberDocs c (.alias newName oldName level))
      (memberPieces c (.alias newName oldName level)) := by
  have halias : Inked [keyword .alias, .gap .blank] "alias ".toList := ⟨by simp, rfl⟩
  have hblank : Inked [.gap .blank] [' '] := ⟨by simp, rfl⟩
  have h := ((((halias.append (inked_receiver level)).append
    (inked_methodName newName false)).append hblank).append (inked_receiver level)).append
      (inked_methodName oldName false)
  refine Inked.shows ?_
  simpa [memberPieces] using h

theorem memberDocs_shows (c : Context) (m : Member) :
    Shows (memberDocs c m) (memberPieces c m) := by
  match m with
  | .alias newName oldName level => exact alias_shows newName oldName level c
  | .attribute access name type backing level visibility =>
    exact attribute_shows c access name type backing level visibility
  | .variable kind name type => exact variable_shows c kind name type
  | .mixin kind name args => exact mixin_shows c kind name args
  | .visibility v => cases v <;> exact .text (by simp [memberPieces]) rfl
  | .method name overloads level overloading visibility =>
    exact (Shows.overloads (inked_heading visibility level name)
      (entries_shows c overloads overloading)).grouped

/-- A comment line and the line end behind it. -/
theorem Shows.remark (line : List Char) :
    Shows [.text ("# " ++ String.ofList line), Doc.hardBreak] [.remark line] := by
  intro i ss h
  cases h with
  | text h =>
    cases h with
    | newline h =>
      cases h
      have hchars : ("# " ++ String.ofList line).toList = '#' :: ' ' :: line := by
        simp
      rw [hchars]
      exact .remark .nil

theorem commentLines_ne_nil (text : List Char) : Spell.commentLines text ≠ [] := by
  unfold Spell.commentLines
  exact List.splitOn_ne_nil _ _

theorem Shows.remarks {lines : List (List Char)} (hne : lines ≠ []) :
    Shows (Doc.separated [Doc.hardBreak]
      (lines.map fun line => [Doc.text ("# " ++ String.ofList line)]) ++ [Doc.hardBreak])
      (lines.map .remark) := by
  induction lines with
  | nil => exact absurd rfl hne
  | cons line lines ih =>
    cases lines with
    | nil => exact Shows.remark line
    | cons next lines =>
      have := (Shows.remark line).append (ih (by simp))
      simpa [Doc.separated, List.intercalate_cons_cons] using this

theorem commentDocs_shows (comment : Option Comment) :
    Shows (commentDocs comment) (remarkPieces comment) := by
  cases comment with
  | none => exact .nil
  | some comment => exact .remarks (commentLines_ne_nil comment.text.toList)

theorem leadDocs_shows (c : Context) (lead : Lead) : Shows (leadDocs c lead) (leadPieces c lead) :=
  (commentDocs_shows lead.comment).append
    (Shows.flatMap (fun n => (noteDoc_shows c n).cons .hardBreak) lead.notes)

theorem classRefDocs_shows (c : Context) (r : ClassRef) :
    Shows (classRefDocs c r) (classRefPieces c r) :=
  (Shows.name r.name).applied (tyItems_shows c false r.args)

/-- A heading with a body below it. -/
theorem Shows.bodied {c : Context} {heading body : List Doc} {ps qs : List Piece}
    (h : Shows heading ps) (hb : Shows body qs) :
    Shows (bodied c heading body) (bodiedPieces ps qs) := by
  have hend : Shows [.text "end"] [keyword .end_] := .text (by simp) rfl
  have := h.append ((hb.indent (k := c.indent)).cons (Shows.hardBreak.cons hend))
  simpa [Format.bodied, bodiedPieces] using this.grouped

/-- The keyword and the name that a declaration begins with, with its type parameters. -/
theorem heading_shows (c : Context) {k : Keyword} {s : String}
    (hk : s.toList = k.text.toList ++ [' ']) (name : TypeName) (params : List TypeParam) :
    Shows ([.text s, .text name.text] ++ typeParamsDocs c params)
      (keyword k :: .gap .blank :: namePieces name ++ typeParamsPieces c params) := by
  have hkeyword : Shows [.text s] [keyword k, .gap .blank] := .text (by simp) (by simp [hk])
  exact (hkeyword.cons (Shows.name name)).append (typeParamsDocs_shows c params)

theorem superclass_shows (c : Context) (superclass : Option ClassRef) :
    Shows (match superclass with
      | none => []
      | some r => .text " < " :: classRefDocs c r) (superclassPieces c superclass) := by
  cases superclass with
  | none => exact .nil
  | some r =>
    have hlt : Shows [.text " < "] [.gap .blank, mark .lt, .gap .blank] := .text (by simp) rfl
    exact hlt.cons (classRefDocs_shows c r)

theorem selfTypes_shows (c : Context) (selves : List ClassRef) :
    Shows (if selves.isEmpty then [] else .text " : " :: inline (selves.map (classRefDocs c)))
      (selfTypesPieces c selves) := by
  unfold selfTypesPieces
  split
  · exact .nil
  · have hcolon : Shows [.text " : "] [.gap .blank, mark .colon, .gap .blank] := .text (by simp) rfl
    exact hcolon.cons (.inline (forall₂_shows (classRefDocs_shows c) selves))

theorem itemBreak_shows (blank : Bool) :
    Shows (Doc.hardBreak :: if blank then [Doc.hardBreak] else []) (itemBreak blank) := by
  refine Shows.hardBreak.cons ?_
  cases blank with
  | true => exact .hardBreak
  | false => exact .nil

theorem typeAlias_shows (c : Context) (name : TypeName) (type : Ty) (params : List TypeParam) :
    Shows (declarationDocs c (.typeAlias name type params))
      (declarationPieces c (.typeAlias name type params)) := by
  have heq : Shows [.text " ="] [.gap .blank, mark .eq] := .text (by simp) rfl
  have htype := ((Shows.space.cons (tyDocs_shows c false type)).indent (k := c.indent)).grouped
  have h := (heading_shows c (k := .type) (s := "type ") rfl name params).append (heq.cons htype)
  have := h.grouped
  simpa [declarationDocs, declarationPieces, typeAliasDoc] using this

mutual

theorem declarationDocs_shows (c : Context) : (d : Declaration) →
    Shows (declarationDocs c d) (declarationPieces c d)
  | .class_ name params superclass members =>
    ((heading_shows c (k := .class_) rfl name params).append
      (superclass_shows c superclass)).bodied (bodyDocs_shows c none members)
  | .module_ name params selfTypes members =>
    ((heading_shows c (k := .module_) rfl name params).append
      (selfTypes_shows c selfTypes)).bodied (bodyDocs_shows c none members)
  | .interface name params members =>
    (heading_shows c (k := .interface) rfl name params).bodied (bodyDocs_shows c none members)
  | .constant name type => by
    have hcolon : Shows [.text ": "] [mark .colon, .gap .blank] := inked_colon.shows
    have := ((Shows.name name).cons (hcolon.cons (tyDocs_shows c false type))).grouped
    simpa [declarationDocs, declarationPieces] using this
  | .global name type => by
    have hname : Shows [.text (name ++ ": ")]
        [.word (.globalVariable name) name.toList, mark .colon, .gap .blank] :=
      .text (by simp) (by simp [Mark.text])
    exact (hname.cons (tyDocs_shows c false type)).grouped
  | .typeAlias name type params => typeAlias_shows c name type params

theorem itemDocs_shows (c : Context) : (item : Item) → Shows (itemDocs c item) (itemPieces c item)
  | .member _ lead member => (leadDocs_shows c lead).append (memberDocs_shows c member)
  | .declaration _ lead declaration =>
    (leadDocs_shows c lead).append (declarationDocs_shows c declaration)

theorem bodyDocs_shows (c : Context) (last : Option Int) : (items : List Item) →
    Shows (bodyDocs c last items) (bodyPieces c last items)
  | [] => .nil
  | item :: items =>
    ((itemBreak_shows (blankLine last (item.lead.firstLine item.location))).append
      (itemDocs_shows c item)).append (bodyDocs_shows c (item.location.map (·.endLine)) items)

end

/-- Whatever the width, a printed file comes out as its pieces. -/
theorem rootDocs_shows (c : Context) (root : Root) : Shows (rootDocs c root) (rootPieces c root) :=
  (Shows.separated (Shows.hardBreak.cons .hardBreak)
    (forall₂_shows (itemDocs_shows c) root.declarations)).append .hardBreak

end RubySig.Format
