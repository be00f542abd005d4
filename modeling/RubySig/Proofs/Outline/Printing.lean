import RubySig.Format.Outline
import RubySig.Outline.OfTree
import RubySig.Proofs.Tree.WellFormed

/-!
The outline of a tree is printed as the tree is. Only a method without an entry, and a variable
that is named by an empty name, can not be told from what a tree means by it.
-/
namespace RubySig

namespace Outline

section Nodes

variable (p : Printer)

/-- Whether a node is printed by itself, without a comment or annotations above it. -/
def isPart (kind : NodeKind) : Bool :=
  kind != .signature && !kind.isAbstract && !kind.isDecorated

theorem docs_part {kind : NodeKind} (h : isPart kind = true) (wrap : Bool) (l : Option Span)
    (lead : Lead) (fields : List (String × Outline)) :
    docs p wrap (.node kind l lead fields) = partDocs p wrap l kind fields := by
  simp only [isPart, Bool.and_eq_true, bne_iff_ne, Bool.not_eq_true'] at h
  obtain ⟨⟨hsignature, habstract⟩, hdecorated⟩ := h
  rw [docs.eq_2 _ _ _ _ _ _ fun h => hsignature h, habstract, hdecorated]
  rfl

theorem docs_item {kind : NodeKind} (h : (!kind.isAbstract && kind.isDecorated) = true)
    (wrap : Bool) (l : Option Span) (lead : Lead) (fields : List (String × Outline)) :
    docs p wrap (.node kind l lead fields) =
      (Format.leadDocs p.toContext lead ++ ·) <$> itemDocs p kind fields := by
  simp only [Bool.and_eq_true, Bool.not_eq_true'] at h
  obtain ⟨habstract, hdecorated⟩ := h
  have hsignature : kind ≠ .signature := by
    rintro rfl
    cases hdecorated
  rw [docs.eq_2 _ _ _ _ _ _ fun h => hsignature h, habstract, hdecorated]
  rfl

theorem ifAny_list (wrap : Bool) (os : List Outline) :
    ifAny (.list os) (elementDocs p wrap (.list os)) = listDocs p wrap os := by
  cases os <;> rfl

theorem listDocs_map {α : Type} {f : α → Outline} {g : α → List Doc} {wrap : Bool} {items : List α}
    (h : ∀ a ∈ items, docs p wrap (f a) = .ok (g a)) :
    listDocs p wrap (items.map f) = .ok (items.map g) := by
  induction items with
  | nil => rfl
  | cons a items ih =>
    obtain ⟨ha, hitems⟩ := List.forall_mem_cons.mp h
    rw [List.map_cons, listDocs, ha, ih hitems]
    rfl

end Nodes

end Outline

open Outline

theorem TypeName.docs_outline (p : Printer) (wrap : Bool) (n : TypeName) :
    docs p wrap n.outline = .ok [.text n.text] := by
  have hpath : itemTexts (n.path.map .str) = .ok n.path := by
    induction n.path with
    | nil => rfl
    | cons s path ih =>
      rw [List.map_cons, itemTexts, ih]
      rfl
  rw [TypeName.outline, docs_part p rfl, partDocs, nameText, ofList, segmentTexts, hpath]
  obtain ⟨l, name, path, absolute⟩ := n
  cases absolute <;> rfl

theorem Literal.docs_outline (p : Printer) (wrap : Bool) (l : Option Span) (value : Literal) :
    docs p wrap (value.outline l) = .ok (Format.literalDocs p.toContext l value) := by
  cases value with
  | truth b => cases b <;> rfl
  | string s => cases l <;> rfl
  | _ => rfl

theorem Literal.recordField_outline (p : Printer) (wrap : Bool) (l keyLocation : Option Span)
    (key : Literal) (type : Outline) :
    partDocs p wrap l .recordField [("key", key.outline keyLocation), ("type", type)] = do
      return Format.keyDocs p.toContext keyLocation key ++ (← docs p false type) := by
  cases key with
  | truth b => cases b <;> rfl
  | string s => cases keyLocation <;> rfl
  | _ => rfl

namespace Format

/-- The parameters of a signature in the order in which they are printed. -/
def allParams (c : Context) : Signature → List (List Doc)
  | ⟨_, _, required, optional, rest, trailing, requiredKeywords, optionalKeywords, restKeywords⟩ =>
    paramItems c "" required ++ paramItems c "?" optional ++ paramItem c "*" rest ++
      paramItems c "" trailing ++ keywordItems c "" requiredKeywords ++
      keywordItems c "?" optionalKeywords ++ paramItem c "**" restKeywords

theorem signatureDocOf_eq (c : Context) (typeParams block : List Doc) (s : Signature) :
    signatureDocOf c typeParams block s =
      signatureDoc c typeParams (allParams c s) block (tyDocs c true s.result) := by
  cases s
  rfl

theorem paramItems_eq_map (c : Context) (mark : String) (ps : List Param) :
    paramItems c mark ps = (ps.map (paramDocs c)).map (.text mark :: ·) := by
  induction ps with
  | nil => rfl
  | cons q ps ih => rw [paramItems, ih, List.map_cons, List.map_cons]

end Format

section Types

variable (p : Printer)

mutual

theorem Ty.docs_outline (wrap : Bool) : (t : Ty) →
    docs p wrap t.outline = .ok (Format.tyDocs p.toContext wrap t)
  | .base l kind => by cases kind <;> rfl
  | .variable l name => rfl
  | .classInstance l name args | .interface l name args | .alias l name args => by
    rw [Ty.outline, docs_part p rfl, partDocs, name.docs_outline, ifAny_list, Ty.docs_outlines]
    rfl
  | .classSingleton l name => by
    rw [Ty.outline, docs_part p rfl, partDocs, name.docs_outline]
    rfl
  | .optional l type => by
    have hoptional : type.outline.isOptional = type.isOptional := by
      cases type with
      | literal l value => cases value with
        | truth b => cases b <;> rfl
        | _ => rfl
      | _ => rfl
    rw [Ty.outline, docs_part p rfl, partDocs, Ty.docs_outline true type, hoptional]
    rfl
  | .union l types | .intersection l types => by
    rw [Ty.outline, docs_part p rfl, partDocs, elementDocs, Ty.docs_outlines]
    rfl
  | .tuple l types => by
    rw [Ty.outline, docs_part p rfl, partDocs, ifAny_list, Ty.docs_outlines]
    rfl
  | .record l fields => by
    rw [Ty.outline, docs_part p rfl, partDocs, ifAny_list, Field.docs_outlines]
    rfl
  | .literal l value => value.docs_outline p wrap l
  | .proc l signature block => by
    obtain ⟨before, hbefore, hspaced⟩ := Block.docs_option block
    rw [Ty.outline, docs_part p rfl, partDocs, Signature.parts_outline signature, hbefore,
      Format.tyDocs, Format.signatureDocOf_eq, ← hspaced]
    rfl

theorem Ty.docs_outlines (wrap : Bool) : (ts : List Ty) →
    listDocs p wrap (tyOutlines ts) = .ok (Format.tyItems p.toContext wrap ts)
  | [] => rfl
  | t :: ts => by
    rw [tyOutlines, listDocs, Ty.docs_outline wrap t, Ty.docs_outlines wrap ts]
    rfl

theorem Field.docs_outlines : (fields : List Field) →
    listDocs p false (fieldOutlines fields) = .ok (Format.fieldItems p.toContext fields)
  | [] => rfl
  | ⟨l, keyLocation, key, type⟩ :: fields => by
    have hentry : docs p false (.node .recordField l .none
        [("key", key.outline keyLocation), ("type", type.outline)]) =
        .ok
          (Format.keyDocs p.toContext keyLocation key ++ Format.tyDocs p.toContext false type) := by
      rw [docs_part p rfl, Literal.recordField_outline p, Ty.docs_outline false type]
      rfl
    rw [fieldOutlines, listDocs, hentry, Field.docs_outlines fields]
    rfl

theorem Param.docs_outline : (q : Param) →
    docs p false (paramOutline q) = .ok (Format.paramDocs p.toContext q)
  | ⟨l, type, name⟩ => by
    rw [paramOutline, docs_part p rfl, partDocs, Ty.docs_outline false type]
    cases name <;> rfl

theorem Param.docs_outlines : (ps : List Param) →
    listDocs p false (paramOutlines ps) = .ok (ps.map (Format.paramDocs p.toContext))
  | [] => rfl
  | q :: ps => by
    rw [paramOutlines, listDocs, Param.docs_outline q, Param.docs_outlines ps]
    rfl

theorem Param.docs_option (mark : String) : (q : Option Param) →
    ifPresent (paramOutline? q)
        ((fun docs => [.text mark :: docs]) <$> docs p false (paramOutline? q)) =
      .ok (Format.paramItem p.toContext mark q)
  | none => rfl
  | some q => by
    rw [paramOutline?, Param.docs_outline q]
    cases q
    rfl

theorem Param.docs_keywords (mark : String) : (ps : List (String × Param)) →
    entryDocs p mark (keywordOutlines ps) = .ok (Format.keywordItems p.toContext mark ps)
  | [] => rfl
  | (name, q) :: ps => by
    rw [keywordOutlines, entryDocs, Param.docs_outline q, Param.docs_keywords mark ps]
    rfl

theorem Signature.parts_outline : (s : Signature) →
    signatureOf p (signatureOutline s) =
      .ok (Format.allParams p.toContext s, .ok (Format.tyDocs p.toContext true s.result))
  | ⟨l, result, required, optional, rest, trailing, requiredKeywords, optionalKeywords,
      restKeywords⟩ => by
    have hparts : signatureOf p (signatureOutline ⟨l, result, required, optional, rest, trailing,
        requiredKeywords, optionalKeywords, restKeywords⟩) = do
      let required ← listDocs p false (paramOutlines required)
      let optional ← listDocs p false (paramOutlines optional)
      let rest ← ifPresent (paramOutline? rest)
        ((fun docs => [.text "*" :: docs]) <$> docs p false (paramOutline? rest))
      let trailing ← listDocs p false (paramOutlines trailing)
      let requiredKeywords ← entryDocs p "" (keywordOutlines requiredKeywords)
      let optionalKeywords ← entryDocs p "?" (keywordOutlines optionalKeywords)
      let restKeywords ← ifPresent (paramOutline? restKeywords)
        ((fun docs => [.text "**" :: docs]) <$> docs p false (paramOutline? restKeywords))
      let params := required.map (.text "" :: ·) ++ optional.map (.text "?" :: ·) ++ rest ++
        trailing.map (.text "" :: ·) ++ requiredKeywords ++ optionalKeywords ++ restKeywords
      return (params, docs p true result.outline) := rfl
    rw [hparts, Param.docs_outlines required, Param.docs_outlines optional,
      Param.docs_option "*" rest,
      Param.docs_outlines trailing, Param.docs_keywords "" requiredKeywords,
      Param.docs_keywords "?" optionalKeywords, Param.docs_option "**" restKeywords,
      Ty.docs_outline true result, Format.allParams, Format.paramItems_eq_map,
      Format.paramItems_eq_map, Format.paramItems_eq_map]
    rfl

theorem Block.docs_option : (block : Option Block) → ∃ docs,
    ifPresent (blockOutline? block) (Outline.docs p false (blockOutline? block)) = .ok docs ∧
      Format.spaced docs = Format.blockBefore p.toContext block
  | none => ⟨[], rfl, rfl⟩
  | some ⟨l, signature, required⟩ => by
    refine ⟨Format.blockDocs p.toContext ⟨l, signature, required⟩, ?_, ?_⟩
    · have hsignature : docs p false (signatureOutline signature) =
          .ok [Format.signatureDocOf p.toContext [] [] signature] := by
        have hnode : docs p false (signatureOutline signature) = do
            let (params, result) ← signatureOf p (signatureOutline signature)
            return [Format.signatureDoc p.toContext [] params [] (← result)] := by
          cases signature
          rfl
        rw [hnode, Signature.parts_outline signature, Format.signatureDocOf_eq]
        rfl
      have hclause : docs p false (blockOutline ⟨l, signature, required⟩) =
          Format.clauseDocs p.toContext required <$> docs p false (signatureOutline signature) := by
        cases required <;> rfl
      rw [blockOutline?, hclause, hsignature]
      rfl
    · cases required <;> rfl

end

end Types

section Items

variable (p : Printer)

theorem ifPresent_node {α : Type} {o : Outline} (h : o.isNode = true)
    (printed : Except TreeFault (List α)) : ifPresent o printed = printed := by
  cases o with
  | node => rfl
  | _ => cases h

theorem docs_option {α : Type} {f : α → Outline} {g : α → List Doc}
    (h : ∀ a, docs p false (f a) = .ok (g a)) (hnode : ∀ a, (f a).isNode = true) (mark : Doc)
    (a : Option α) :
    ifPresent ((a.map f).getD .null) ((mark :: ·) <$> docs p false ((a.map f).getD .null)) =
      .ok (a.elim [] fun a => mark :: g a) := by
  cases a with
  | none => rfl
  | some a =>
    rw [Option.map_some, Option.getD_some, ifPresent_node (hnode a), h a]
    rfl

theorem TypeParam.docs_outline (q : TypeParam) :
    docs p false q.outline = .ok (Format.typeParamDocs p.toContext q) := by
  obtain ⟨l, name, variance, unchecked, bound⟩ := q
  rw [TypeParam.outline, docs_part p rfl, partDocs,
    docs_option p (Ty.docs_outline p false) Ty.isNode_outline]
  cases variance <;> cases unchecked <;> cases bound <;> rfl

theorem TypeParam.docs_outlines (ps : List TypeParam) :
    ifAny (ofList TypeParam.outline ps) (elementDocs p false (ofList TypeParam.outline ps)) =
      .ok (ps.map (Format.typeParamDocs p.toContext)) := by
  rw [ofList, ifAny_list]
  exact listDocs_map p fun q _ => q.docs_outline p

theorem ClassRef.docs_outline (r : ClassRef) :
    docs p false r.outline = .ok (Format.classRefDocs p.toContext r) := by
  rw [ClassRef.outline, docs_part p rfl, partDocs, r.name.docs_outline, ifAny_list,
    Ty.docs_outlines p]
  rfl

theorem MethodType.docs_outline (m : MethodType) :
    docs p false m.outline = .ok (Format.methodTypeDocs p.toContext m) := by
  obtain ⟨before, hbefore, hspaced⟩ := Block.docs_option p m.block
  rw [MethodType.outline, docs_part p rfl, partDocs, TypeParam.docs_outlines p,
    Signature.parts_outline p, hbefore, Format.methodTypeDocs, Format.signatureDocOf_eq, ← hspaced]
  rfl

theorem Overload.docs_outline (o : Overload) :
    docs p false o.outline = .ok (Format.overloadDocs p.toContext o) := by
  rw [Overload.outline, docs_part p rfl, partDocs, MethodType.docs_outline]
  rfl

theorem toVisibility_outline (v : Option Visibility) :
    (Visibility.outline? v).toVisibility? = .ok v := by
  rcases v with _ | (_ | _) <;> rfl

theorem toMemberLevel_word (kind : NodeKind) (what : String) (level : MemberLevel) :
    toMemberLevel kind what (.choice level.word) = .ok level := by
  cases level <;> rfl

theorem toBacking_outline (backing : Backing) (h : (backing != .named "") = true) :
    backing.outline.toBacking = .ok backing := by
  cases backing with
  | named name =>
    have hname : (Outline.str name).isEmpty = false := by
      rw [Bool.eq_false_iff]
      intro hempty
      rw [String.isEmpty_iff.mp hempty] at h
      cases h
    change (if (Outline.str name).isEmpty = true then _ else _) = _
    rw [hname]
    rfl
  | _ => rfl

theorem Member.docs_outline : (m : Member) → m.passes .wellFormed = true →
    Outline.itemDocs p m.kind m.fields = .ok (Format.memberDocs p.toContext m)
  | .alias newName oldName level, _ => by cases level <;> rfl
  | .attribute access name type backing level v, h => by
    obtain ⟨-, hbacking⟩ := Bool.and_eq_true_iff.mp h
    have hitem : itemDocs p access.kind
        (Member.attribute access name type backing level v).fields = do
        let shown ← (Visibility.outline? v).toVisibility?
        let level ← toMemberLevel access.kind "attribute" (.choice level.word)
        let heading := Format.attributeHeading (Format.visibilityText shown) access.text
          (Format.MemberLevel.receiver level) name
            (Format.Backing.text (← backing.outline.toBacking))
        return [Doc.grouped (heading :: (← docs p false type.outline))] := by
      cases access <;> rfl
    rw [Member.kind, hitem, toVisibility_outline, toMemberLevel_word,
      toBacking_outline backing hbacking,
      Ty.docs_outline p false type]
    rfl
  | .variable kind name type, _ => by
    have hitem : itemDocs p kind.kind [("name", .str name), ("type", type.outline)] = do
        let heading := (if kind == .classInstance then "self." else "") ++ name ++ ": "
        return [Doc.grouped (.text heading :: (← docs p false type.outline))] := by
      cases kind <;> rfl
    rw [Member.kind, Member.fields, hitem, Ty.docs_outline p false type]
    rfl
  | .mixin kind name args, _ => by
    have hitem : itemDocs p kind.kind
        [("name", name.outline), ("args", .list (tyOutlines args))] = do
        let name ← docs p false name.outline
        return [Format.mixinDoc kind.text name (← listDocs p false (tyOutlines args))] := by
      rw [← ifAny_list]
      cases kind <;> rfl
    rw [Member.kind, Member.fields, hitem, name.docs_outline, Ty.docs_outlines p]
    rfl
  | .visibility v, _ => by cases v <;> rfl
  | .method name os level overloading v, h => by
    obtain ⟨hentry, -⟩ := Bool.and_eq_true_iff.mp h
    have hlevel : toMethodLevel (.choice level.word) = level := by cases level <;> rfl
    have hentries :
        (Format.methodEntries (os.map (Format.overloadDocs p.toContext)) overloading).isEmpty =
        false := by
      cases overloading with
      | false =>
        cases os with
        | nil => cases hentry
        | cons o os => rfl
      | true => simp [Format.methodEntries]
    have hset : (!(Outline.bool overloading).isEmpty) = overloading := by cases overloading <;> rfl
    rw [Member.kind, Member.fields, itemDocs, toVisibility_outline, ofList, elementDocs,
      listDocs_map p fun o _ => o.docs_outline p, hset, hlevel]
    change (if
      (Format.methodEntries (os.map (Format.overloadDocs p.toContext)) overloading).isEmpty = true
      then _ else Except.ok (Format.memberDocs p.toContext (.method name os level overloading v))) =
        _
    rw [hentries]
    rfl

theorem Member.isItem_kind : (m : Member) → (!m.kind.isAbstract && m.kind.isDecorated) = true
  | .alias .. | .method .. => rfl
  | .attribute access .. => by cases access <;> rfl
  | .variable kind .. => by cases kind <;> rfl
  | .mixin kind .. => by cases kind <;> rfl
  | .visibility v => by cases v <;> rfl

theorem Declaration.isItem_kind (a : Declaration) :
    (!a.kind.isAbstract && a.kind.isDecorated) = true := by
  cases a <;> rfl

theorem Item.lines_outline (item : Item) (last : Option Int) :
    item.outline.firstLineBehind last = .ok (item.lead.firstLine item.location) ∧
      item.outline.lastLine? = item.location.map (·.endLine) := by
  have hline : item.outline.firstLine? = some (item.lead.firstLine item.location) := by
    cases item with
    | member l lead m =>
      exact if_pos (Bool.and_eq_true_iff.mp m.isItem_kind).2
    | declaration l lead a => exact if_pos (Bool.and_eq_true_iff.mp a.isItem_kind).2
  constructor
  · unfold firstLineBehind
    rw [hline]
    cases last <;> rfl
  · cases item <;> rfl

mutual

theorem Declaration.docs_outline : (a : Declaration) → a.passes .wellFormed = true →
    Outline.itemDocs p a.kind a.fields = .ok (Format.declarationDocs p.toContext a)
  | .class_ name params superclass members, h => by
    simp only [Declaration.passes, Bool.and_eq_true] at h
    rw [Declaration.kind, Declaration.fields, Outline.itemDocs, name.docs_outline,
      TypeParam.docs_outlines p,
      docs_option p (fun ref => ref.docs_outline p) (fun _ => rfl), Outline.bodyDocs,
      Item.docs_outlines none members h.2]
    cases superclass <;> rfl
  | .module_ name params selfTypes members, h => by
    simp only [Declaration.passes, Bool.and_eq_true] at h
    have hselves : ifAny (ofList ClassRef.outline selfTypes)
        ((.text " : " :: Format.inline ·) <$> elementDocs p false
          (ofList ClassRef.outline selfTypes)) =
        .ok (if selfTypes.isEmpty then []
          else .text " : " :: Format.inline (selfTypes.map (Format.classRefDocs p.toContext))) := by
      rw [ofList, elementDocs, listDocs_map p fun ref _ => ref.docs_outline p]
      cases selfTypes <;> rfl
    rw [Declaration.kind, Declaration.fields, Outline.itemDocs, name.docs_outline,
      TypeParam.docs_outlines p,
      hselves, Outline.bodyDocs, Item.docs_outlines none members h.2]
    rfl
  | .interface name params members, h => by
    obtain ⟨-, hmembers⟩ := Bool.and_eq_true_iff.mp h
    rw [Declaration.kind, Declaration.fields, Outline.itemDocs, name.docs_outline,
      TypeParam.docs_outlines p,
      Outline.bodyDocs, Item.docs_outlines none members hmembers]
    rfl
  | .constant name type, _ => by
    rw [Declaration.kind, Declaration.fields, Outline.itemDocs, name.docs_outline,
      Ty.docs_outline p]
    rfl
  | .global name type, _ => by
    rw [Declaration.kind, Declaration.fields, Outline.itemDocs, Ty.docs_outline p]
    rfl
  | .typeAlias name type params, _ => by
    rw [Declaration.kind, Declaration.fields, Outline.itemDocs, name.docs_outline,
      TypeParam.docs_outlines p,
      Ty.docs_outline p]
    rfl

theorem Item.docs_outline : (item : Item) → item.passes .wellFormed = true →
    docs p false item.outline = .ok (Format.itemDocs p.toContext item)
  | .member l lead m, h => by
    rw [Item.outline, docs_item p m.isItem_kind, m.docs_outline p h]
    rfl
  | .declaration l lead a, h => by
    rw [Item.outline, docs_item p a.isItem_kind, Declaration.docs_outline a h]
    rfl

theorem Item.docs_outlines (last : Option Int) : (items : List Item) →
    Item.allPass .wellFormed items = true →
    bodyItems p last (itemOutlines items) = .ok (Format.bodyDocs p.toContext last items)
  | [], _ => rfl
  | item :: items, h => by
    obtain ⟨hitem, hitems⟩ := Bool.and_eq_true_iff.mp h
    obtain ⟨hfirst, hlast⟩ := item.lines_outline last
    rw [itemOutlines, bodyItems, hfirst, hlast, Item.docs_outline item hitem,
      Item.docs_outlines _ items hitems]
    rfl

end

theorem Root.docs_outline {root : Root} (h : root.isWellFormed = true) :
    docs p false root.outline = .ok (Format.rootDocs p.toContext root) := by
  rw [Root.outline, docs_part p rfl, partDocs, elementDocs, itemOutlines_eq_map,
    listDocs_map p fun item hitem => item.docs_outline p (Item.allPass_iff.mp h item hitem)]
  rfl

end Items

/-- The outline of a well-formed tree is printed as the tree is. -/
theorem Root.formatted_outline {root : Root} (h : root.isWellFormed = true) (settings : Settings)
    (source : String) :
    root.outline.formatted settings source = .ok (root.formatted settings source) := by
  unfold Outline.formatted
  simp only [Root.docs_outline _ h]
  rfl

end RubySig
