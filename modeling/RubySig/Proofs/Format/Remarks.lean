import RubySig.Proofs.Format.ItemShow
import RubySig.Proofs.Tree.CommentRun
import RubySig.Proofs.Tree.Items

/-! The comment lines among the pieces of a file: those of its items, in their order, and no
others. -/
namespace RubySig.Format

open Piece (mark keyword named)

def Piece.remark? : Piece → Option (List Char)
  | .remark line => some line
  | .word _ _ | .gap _ => none

def remarks (ps : List Piece) : List (List Char) := ps.filterMap Piece.remark?

section Lists

variable {ps qs sep : List Piece} {pss : List (List Piece)}

@[simp] theorem remarks_nil : remarks [] = [] := rfl

@[simp] theorem remarks_append : remarks (ps ++ qs) = remarks ps ++ remarks qs :=
  List.filterMap_append ..

@[simp] theorem remarks_word (l : Lexeme) (w : List Char) :
    remarks (.word l w :: ps) = remarks ps := rfl

@[simp] theorem remarks_mark (m : Mark) : remarks (mark m :: ps) = remarks ps := rfl

@[simp] theorem remarks_keyword (k : Keyword) : remarks (keyword k :: ps) = remarks ps := rfl

@[simp] theorem remarks_named (s : String) : remarks (named s :: ps) = remarks ps := rfl

@[simp] theorem remarks_gap (g : Gap) : remarks (.gap g :: ps) = remarks ps := rfl

/-- What is picked out of pieces with a separator between them, where nothing is of the
separator. -/
theorem filterMap_intercalate {α : Type} {f : Piece → Option α} (hs : sep.filterMap f = []) :
    (sep.intercalate pss).filterMap f = pss.flatMap (List.filterMap f) := by
  induction pss with
  | nil => rfl
  | cons ps pss ih =>
    cases pss with
    | nil => simp
    | cons qs pss =>
      rw [List.intercalate_cons_cons, List.filterMap_append, List.filterMap_append, hs, ih]
      simp

theorem remarks_intercalate (hs : remarks sep = []) :
    remarks (sep.intercalate pss) = pss.flatMap remarks :=
  filterMap_intercalate hs

theorem remarks_quiet (hs : remarks sep = []) (h : ∀ ps ∈ pss, remarks ps = []) :
    remarks (sep.intercalate pss) = [] := by
  rw [remarks_intercalate hs, List.flatMap_eq_nil_iff]
  exact h

theorem remarks_bracketed (h : ∀ ps ∈ pss, remarks ps = []) :
    remarks (bracketedPieces pss) = [] := by
  have hinline : remarks (inlinePieces pss) = [] := remarks_quiet rfl h
  unfold bracketedPieces
  split
  · rfl
  · simp [hinline]

theorem remarks_parenthesized {wrap : Bool} (h : remarks ps = []) :
    remarks (parenthesizedPieces wrap ps) = [] := by
  cases wrap with
  | true => simp [parenthesizedPieces, h]
  | false => exact h

theorem remarks_list (h : ∀ ps ∈ pss, remarks ps = []) : remarks (listPieces pss) = [] := by
  have hcomma : remarks (commaPieces pss) = [] := remarks_quiet rfl h
  unfold listPieces
  split
  · rfl
  · simp [hcomma]

theorem remarks_namePieces (n : TypeName) : remarks (namePieces n) = [] := by
  have hpath : ∀ path : List String,
      remarks (path.flatMap fun s => [named s, mark .doubleColon]) = [] := by
    intro path
    induction path with
    | nil => rfl
    | cons s path ih => simpa using ih
  unfold namePieces
  rw [remarks_append, remarks_append, hpath]
  cases n.absolute <;> rfl

theorem remarks_namedPieces (h : remarks ps = []) (name : Option String) :
    remarks (namedPieces ps name) = [] := by
  cases name with
  | none => exact h
  | some s =>
    rw [namedPieces, remarks_append, h]
    rfl

end Lists

section Types

variable (c : Context)

theorem remarks_key (l : Option Span) (key : Literal) : remarks (keyPieces c l key) = [] := by
  have hplain : remarks [literalPiece c l key, .gap .blank, mark .fatArrow, .gap .blank] = [] := by
    cases key <;> rfl
  cases key with
  | symbol s =>
    rw [keyPieces]
    split
    · rfl
    · exact hplain
  | _ => exact hplain

mutual

theorem remarks_ty (wrap : Bool) : (t : Ty) → remarks (tyPieces c wrap t) = []
  | .base _ _ | .variable _ _ => rfl
  | .literal _ value => by cases value <;> rfl
  | .classInstance _ name args | .interface _ name args | .alias _ name args => by
    rw [tyPieces, remarks_append, remarks_namePieces, remarks_bracketed (remarks_tys false args)]
    rfl
  | .classSingleton _ name => by simp [tyPieces, remarks_namePieces]
  | .optional _ type => by
    unfold tyPieces
    split
    · rfl
    · rw [remarks_append, remarks_parenthesized (remarks_ty true type)]
      rfl
  | .union _ types => remarks_parenthesized (remarks_quiet rfl (remarks_tys wrap types))
  | .intersection _ types => remarks_parenthesized (remarks_quiet rfl (remarks_tys true types))
  | .tuple _ types => by
    unfold tyPieces tuplePieces
    split
    · rfl
    · exact remarks_bracketed (remarks_tys false types)
  | .record _ fields => by
    have hcomma : remarks (commaPieces (fieldsPieces c fields)) = [] :=
      remarks_quiet rfl (remarks_fields fields)
    unfold tyPieces recordPieces
    split
    · rfl
    · simp [hcomma]
  | .proc _ signature block => by
    refine remarks_parenthesized ?_
    exact remarks_signature rfl (remarks_block block) signature

theorem remarks_tys (wrap : Bool) : (ts : List Ty) → ∀ ps ∈ tysPieces c wrap ts, remarks ps = []
  | [] => by simp [tysPieces]
  | t :: ts => List.forall_mem_cons.mpr ⟨remarks_ty wrap t, remarks_tys wrap ts⟩

theorem remarks_fields : (fields : List Field) → ∀ ps ∈ fieldsPieces c fields, remarks ps = []
  | [] => by simp [fieldsPieces]
  | ⟨_, keyLocation, key, type⟩ :: fields => by
    refine List.forall_mem_cons.mpr ⟨?_, remarks_fields fields⟩
    rw [remarks_append, remarks_key, remarks_ty false type]
    rfl

theorem remarks_param : (p : Param) → remarks (paramPieces c p) = []
  | ⟨_, type, name⟩ => remarks_namedPieces (remarks_ty false type) name

theorem remarks_params {lead : List Piece} (hl : remarks lead = []) :
    (ps : List Param) → ∀ qs ∈ paramsPieces c lead ps, remarks qs = []
  | [] => by simp [paramsPieces]
  | p :: ps => by
    refine List.forall_mem_cons.mpr ⟨?_, remarks_params hl ps⟩
    rw [remarks_append, hl, remarks_param p]
    rfl

theorem remarks_rest {lead : List Piece} (hl : remarks lead = []) :
    (p : Option Param) → ∀ qs ∈ restPieces c lead p, remarks qs = []
  | none => by simp [restPieces]
  | some p => by
    refine List.forall_mem_singleton.mpr ?_
    rw [remarks_append, hl, remarks_param p]
    rfl

theorem remarks_keywords {lead : List Piece} (hl : remarks lead = []) :
    (ps : List (String × Param)) → ∀ qs ∈ keywordsPieces c lead ps, remarks qs = []
  | [] => by simp [keywordsPieces]
  | (name, p) :: ps => by
    refine List.forall_mem_cons.mpr ⟨?_, remarks_keywords hl ps⟩
    rw [remarks_append, hl]
    exact remarks_param p

theorem remarks_signature {typeParams block : List Piece} (ht : remarks typeParams = [])
    (hb : remarks block = []) :
    (s : Signature) → remarks (signaturePiecesOf c typeParams block s) = []
  | ⟨_, result, required, optional, rest, trailing, requiredKeywords, optionalKeywords,
      restKeywords⟩ => by
    unfold signaturePiecesOf signaturePieces
    rw [remarks_append, remarks_append, remarks_append, ht, hb, remarks_list]
    · exact remarks_ty true result
    · simp only [List.forall_mem_append]
      exact ⟨⟨⟨⟨⟨⟨remarks_params rfl required, remarks_params rfl optional⟩, remarks_rest rfl rest⟩,
        remarks_params rfl trailing⟩, remarks_keywords rfl requiredKeywords⟩,
        remarks_keywords rfl optionalKeywords⟩, remarks_rest rfl restKeywords⟩

theorem remarks_block : (block : Option Block) → remarks (blockPieces c block) = []
  | none => rfl
  | some ⟨_, signature, required⟩ => by
    have hinside : remarks (signaturePiecesOf c [] [] signature) = [] :=
      remarks_signature rfl rfl signature
    cases required <;> simp [blockPieces, clausePieces, hinside]

end

theorem remarks_inline {ps : List Piece} (h : ∀ p ∈ ps, p.isInline = true) : remarks ps = [] := by
  rw [remarks, List.filterMap_eq_nil_iff]
  intro p hp
  cases p with
  | remark line => cases h _ hp
  | _ => rfl

theorem remarks_notes (notes : List Note) {sep : Piece} (hs : sep.remark? = none) :
    remarks (notes.flatMap fun n => [notePiece c n, sep]) = [] := by
  induction notes with
  | nil => rfl
  | cons n notes ih =>
    rw [List.flatMap_cons, remarks_append, ih]; cases sep <;> first | rfl | cases hs

theorem remarks_typeParams (params : List TypeParam) :
    remarks (typeParamsPieces c params) = [] := by
  refine remarks_bracketed fun ps hps => ?_
  obtain ⟨p, -, rfl⟩ := List.mem_map.mp hps
  obtain ⟨l, name, variance, unchecked, bound⟩ := p
  have hbound : remarks (boundPieces c bound) = [] := by
    cases bound with
    | none => rfl
    | some t => exact remarks_ty c false t
  unfold typeParamPieces
  cases variance <;> cases unchecked <;> simpa [varianceWords] using hbound

theorem remarks_overload (o : Overload) : remarks (overloadPieces c o) = [] := by
  have hspaced : remarks (spacedPieces (typeParamsPieces c o.method.params)) = [] := by
    unfold spacedPieces
    split
    · rfl
    · rw [remarks_append, remarks_typeParams]
      rfl
  rw [overloadPieces, remarks_append, remarks_notes c o.notes rfl, methodTypePieces,
    remarks_signature c hspaced (remarks_block c o.method.block)]
  rfl

theorem remarks_member : (m : Member) → remarks (memberPieces c m) = []
  | .alias newName oldName level => by
    have hreceiver := remarks_inline (inked_receiver level).1
    simp [memberPieces, hreceiver, remarks_inline (inked_methodName newName false).1,
      remarks_inline (inked_methodName oldName false).1]
  | .attribute access name type backing level visibility => by
    have hname (ps : List Piece) : remarks (namePiece name true :: ps) = remarks ps := rfl
    simp [memberPieces, remarks_inline (inked_visibility visibility).1, hname,
      remarks_inline (inked_receiver level).1, remarks_inline (inked_backing backing).1, remarks_ty]
  | .variable kind name type => by
    have hname : remarks (variablePieces kind name) = [] := by cases kind <;> rfl
    simp [memberPieces, hname, remarks_ty]
  | .mixin kind name args => by
    simp [memberPieces, remarks_namePieces, remarks_bracketed (remarks_tys c false args)]
  | .visibility v => rfl
  | .method name overloads level overloading visibility => by
    have hentries : ∀ ps ∈ methodEntryPieces c overloads overloading, remarks ps = [] := by
      refine List.forall_mem_append.mpr
        ⟨List.forall_mem_map.mpr fun o _ => remarks_overload c o, ?_⟩
      cases overloading <;> simp
    have hentries' : remarks (entriesPieces (methodEntryPieces c overloads overloading)) = [] :=
      remarks_quiet rfl hentries
    simp [memberPieces, remarks_inline (inked_heading visibility level name).1, hentries']

theorem remarkPieces_eq (comment : Option Comment) :
    remarkPieces comment = (comment.toList.flatMap Comment.lines).map .remark := by
  cases comment with
  | none => rfl
  | some comment => simp [remarkPieces, Comment.lines]

theorem remarks_lead (lead : Lead) :
    remarks (leadPieces c lead) = lead.comment.toList.flatMap Comment.lines := by
  have hlines (lines : List (List Char)) : remarks (lines.map .remark) = lines := by
    induction lines with
    | nil => rfl
    | cons line lines ih => exact congrArg (line :: ·) ih
  rw [leadPieces, notesPieces, remarks_append, remarks_notes c lead.notes rfl,
    remarkPieces_eq, hlines,
    List.append_nil]

theorem remarks_classRef (r : ClassRef) : remarks (classRefPieces c r) = [] := by
  rw [classRefPieces, remarks_append, remarks_namePieces,
    remarks_bracketed (remarks_tys c false r.args)]
  rfl

theorem remarks_superclass (superclass : Option ClassRef) :
    remarks (superclassPieces c superclass) = [] := by
  cases superclass with
  | none => rfl
  | some r => simp [superclassPieces, remarks_classRef]

theorem remarks_selfTypes (selves : List ClassRef) : remarks (selfTypesPieces c selves) = [] := by
  have hinline : remarks (inlinePieces (selves.map (classRefPieces c))) = [] :=
    remarks_quiet rfl (List.forall_mem_map.mpr fun r _ => remarks_classRef c r)
  unfold selfTypesPieces
  split
  · rfl
  · simp [hinline]

theorem remarks_bodied {heading body : List Piece} (h : remarks heading = []) :
    remarks (bodiedPieces heading body) = remarks body := by
  simp [bodiedPieces, h]

mutual

theorem remarks_declaration : (d : Declaration) →
    remarks (declarationPieces c d) = d.comments.flatMap Comment.lines
  | .class_ name params superclass members => by
    rw [declarationPieces, remarks_bodied, remarks_body none members]
    · rfl
    · simp [remarks_namePieces, remarks_typeParams, remarks_superclass]
  | .module_ name params selfTypes members => by
    rw [declarationPieces, remarks_bodied, remarks_body none members]
    · rfl
    · simp [remarks_namePieces, remarks_typeParams, remarks_selfTypes]
  | .interface name params members => by
    rw [declarationPieces, remarks_bodied, remarks_body none members]
    · rfl
    · simp [remarks_namePieces, remarks_typeParams]
  | .constant name type => by
    simp [declarationPieces, remarks_namePieces, remarks_ty, Declaration.comments,
      Declaration.items]
  | .global name type => by
    simp [declarationPieces, remarks_ty, Declaration.comments, Declaration.items]
  | .typeAlias name type params => by
    simp [declarationPieces, remarks_namePieces, remarks_typeParams, remarks_ty,
      Declaration.comments,
      Declaration.items]

theorem remarks_item : (item : Item) →
    remarks (itemPieces c item) = item.comments.flatMap Comment.lines
  | .member l lead m => by
    rw [itemPieces, remarks_append, remarks_lead, remarks_member, Item.comments_member,
      List.append_nil]
  | .declaration l lead d => by
    rw [itemPieces, remarks_append, remarks_lead, remarks_declaration d, Item.comments_declaration,
      List.flatMap_append]

theorem remarks_body (last : Option Int) : (items : List Item) →
    remarks (bodyPieces c last items) = (Item.allComments items).flatMap Comment.lines
  | [] => rfl
  | item :: items => by
    have hbreak : ∀ blank, remarks (itemBreak blank) = [] := by
      intro blank
      cases blank <;> rfl
    rw [bodyPieces, remarks_append, remarks_append, hbreak, remarks_item item, remarks_body _ items,
      Item.allComments_cons, List.flatMap_append, List.nil_append]

end

/-- The comment lines of a printed file are those of its comments. -/
theorem remarks_root (root : Root) :
    remarks (rootPieces c root) = root.comments.flatMap Comment.lines := by
  have hitems (items : List Item) : (items.map (itemPieces c)).flatMap remarks =
      (Item.allComments items).flatMap Comment.lines := by
    induction items with
    | nil => rfl
    | cons item items ih =>
      rw [List.map_cons, List.flatMap_cons, ih, remarks_item, Item.allComments_cons,
        List.flatMap_append]
  rw [rootPieces, remarks_append, remarks_intercalate rfl, hitems]
  exact List.append_nil _

end Types
end RubySig.Format
