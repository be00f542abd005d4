import RubySig.Format.Text
import RubySig.Proofs.Tree.DeclarationLikeness

/-!
Trees that are read from corresponding tokens are printed alike: what is copied from the sources is
the same text, and where a body keeps a blank line it keeps one in both.
-/
namespace RubySig

open List (Forall₂)
open Grammar (Likeness)

variable {c c' : Grammar.Context}

/-- Two printers, each with the text of its own tree. -/
structure Grammar.Likeness.Prints (_ : Likeness c c') (d d' : Format.Context) : Prop where
  source : d.source = c.text
  source' : d'.source = c'.text
  indent : d.indent = d'.indent

namespace Format

variable {L : Likeness c c'} {d d' : Format.Context}

theorem literalDocs_same (hd : L.Prints d d') {l l' : Option Span} {value : Literal}
    (h : L.SameLiteral l l' value) : literalDocs d l value = literalDocs d' l' value := by
  cases value with
  | string s =>
    obtain ⟨t, t', ht, -, rfl, rfl⟩ := h
    simp only [literalDocs, stringDocs, hd.source, hd.source', L.slice ht]
  | _ => rfl

theorem keyDocs_same (hd : L.Prints d d') {l l' : Option Span} {key : Literal}
    (h : L.SameLiteral l l' key) : keyDocs d l key = keyDocs d' l' key := by
  cases key with
  | symbol s => rfl
  | _ => exact congrArg (· ++ [Doc.text " => "]) (literalDocs_same hd h)

theorem nameText_same {n n' : TypeName} (h : L.SameName n n') : n.text = n'.text := by
  rw [TypeName.text, TypeName.text, h.name, h.path, h.absolute]

theorem isOptional_same {t t' : Ty} (h : L.SameTy t t') : t.isOptional = t'.isOptional := by
  cases h <;> rfl

mutual

theorem tyDocs_same (hd : L.Prints d d') (wrap : Bool) :
    (t : Ty) → ∀ t' : Ty, L.SameTy t t' → tyDocs d wrap t = tyDocs d' wrap t'
  | .base _ _, _, h => by
    cases h
    rfl
  | .variable _ _, _, h => by
    cases h
    rfl
  | .classInstance _ _ args, _, h => by
    have hitems := tyItems_same hd false args
    cases h with
    | classInstance hn hargs => rw [tyDocs, tyDocs, nameText_same hn, hitems _ hargs]
  | .interface _ _ args, _, h => by
    have hitems := tyItems_same hd false args
    cases h with
    | interface hn hargs => rw [tyDocs, tyDocs, nameText_same hn, hitems _ hargs]
  | .alias _ _ args, _, h => by
    have hitems := tyItems_same hd false args
    cases h with
    | «alias» hn hargs => rw [tyDocs, tyDocs, nameText_same hn, hitems _ hargs]
  | .classSingleton _ _, _, h => by
    cases h with
    | classSingleton hn => rw [tyDocs, tyDocs, nameText_same hn]
  | .optional _ t, _, h => by
    have htype := tyDocs_same hd true t
    cases h with
    | optional ht => rw [tyDocs, tyDocs, isOptional_same ht, htype _ ht]
  | .union _ ts, _, h => by
    have hitems := tyItems_same hd wrap ts
    cases h with
    | union hts => rw [tyDocs, tyDocs, hitems _ hts]
  | .intersection _ ts, _, h => by
    have hitems := tyItems_same hd true ts
    cases h with
    | intersection hts => rw [tyDocs, tyDocs, hitems _ hts]
  | .tuple _ ts, _, h => by
    have hitems := tyItems_same hd false ts
    cases h with
    | tuple hts => rw [tyDocs, tyDocs, hitems _ hts]
  | .record _ fields, _, h => by
    have hitems := fieldItems_same hd fields
    cases h with
    | record hfields => rw [tyDocs, tyDocs, recordDocs, recordDocs, hitems _ hfields, hd.indent]
  | .literal _ _, _, h => by
    cases h with
    | literal hvalue => rw [tyDocs, tyDocs, literalDocs_same hd hvalue]
  | .proc _ s b, _, h => by
    have hsignature := fun before => signatureDocOf_same hd [] before s
    have hbefore := blockBefore_same hd b
    cases h with
    | proc hs hb => rw [tyDocs, tyDocs, hbefore _ hb, hsignature _ _ hs]
termination_by structural t => t

theorem tyItems_same (hd : L.Prints d d') (wrap : Bool) : (ts : List Ty) →
    ∀ ts' : List Ty, Forall₂ L.SameTy ts ts' → tyItems d wrap ts = tyItems d' wrap ts'
  | [], _, h => by
    cases h
    rfl
  | t :: ts, _, h => by
    have htype := tyDocs_same hd wrap t
    have hitems := tyItems_same hd wrap ts
    cases h with
    | cons ht hts => rw [tyItems, tyItems, htype _ ht, hitems _ hts]
termination_by structural ts => ts

theorem fieldItems_same (hd : L.Prints d d') : (fields : List Field) → ∀ fields' : List Field,
    Forall₂ L.SameField fields fields' → fieldItems d fields = fieldItems d' fields'
  | [], _, h => by
    cases h
    rfl
  | ⟨_, _, _, t⟩ :: fields, _, h => by
    have htype := tyDocs_same hd false t
    have hitems := fieldItems_same hd fields
    cases h with
    | cons hfield hfields =>
      cases hfield with
      | mk hkey ht =>
        rw [fieldItems, fieldItems, keyDocs_same hd hkey, htype _ ht, hitems _ hfields]
termination_by structural fields => fields

theorem paramDocs_same (hd : L.Prints d d') :
    (p : Param) → ∀ p' : Param, L.SameParam p p' → paramDocs d p = paramDocs d' p'
  | ⟨_, t, _⟩, _, h => by
    have htype := tyDocs_same hd false t
    cases h with
    | mk ht _ => rw [paramDocs, paramDocs, htype _ ht]
termination_by structural p => p

theorem paramItems_same (hd : L.Prints d d') (mark : String) : (ps : List Param) →
    ∀ ps' : List Param, Forall₂ L.SameParam ps ps' → paramItems d mark ps = paramItems d' mark ps'
  | [], _, h => by
    cases h
    rfl
  | p :: ps, _, h => by
    have hparam := paramDocs_same hd p
    have hitems := paramItems_same hd mark ps
    cases h with
    | cons hp hps => rw [paramItems, paramItems, hparam _ hp, hitems _ hps]
termination_by structural ps => ps

theorem paramItem_same (hd : L.Prints d d') (mark : String) : (p : Option Param) →
    ∀ p' : Option Param, Option.Rel L.SameParam p p' → paramItem d mark p = paramItem d' mark p'
  | none, _, h => by
    cases h
    rfl
  | some p, _, h => by
    have hparam := paramDocs_same hd p
    cases h with
    | some hp => rw [paramItem, paramItem, hparam _ hp]
termination_by structural p => p

theorem keywordItems_same (hd : L.Prints d d') (mark : String) : (ps : List (String × Param)) →
    ∀ ps' : List (String × Param), Forall₂ L.SameKeyword ps ps' →
      keywordItems d mark ps = keywordItems d' mark ps'
  | [], _, h => by
    cases h
    rfl
  | (_, p) :: ps, _, h => by
    have hparam := paramDocs_same hd p
    have hitems := keywordItems_same hd mark ps
    cases h with
    | cons hkeyword hps =>
      cases hkeyword with
      | mk _ hp => rw [keywordItems, keywordItems, hparam _ hp, hitems _ hps]
termination_by structural ps => ps

theorem signatureDocOf_same (hd : L.Prints d d') (typeParams block : List Doc) : (s : Signature) →
    ∀ s' : Signature, L.SameSignature s s' →
      signatureDocOf d typeParams block s = signatureDocOf d' typeParams block s'
  | ⟨_, result, required, optional, rest, trailing, requiredKeywords, optionalKeywords,
      restKeywords⟩, _, h => by
    have hrequired := paramItems_same hd "" required
    have hoptional := paramItems_same hd "?" optional
    have hrest := paramItem_same hd "*" rest
    have htrailing := paramItems_same hd "" trailing
    have hrequiredKeywords := keywordItems_same hd "" requiredKeywords
    have hoptionalKeywords := keywordItems_same hd "?" optionalKeywords
    have hrestKeywords := paramItem_same hd "**" restKeywords
    have hresult := tyDocs_same hd true result
    cases h with
    | mk ht h₁ h₂ h₃ h₄ h₅ h₆ h₇ =>
      rw [signatureDocOf, signatureDocOf, signatureDoc, signatureDoc, hd.indent, hrequired _ h₁,
        hoptional _ h₂, hrest _ h₃, htrailing _ h₄, hrequiredKeywords _ h₅, hoptionalKeywords _ h₆,
        hrestKeywords _ h₇, hresult _ ht]
termination_by structural s => s

theorem blockDocs_same (hd : L.Prints d d') :
    (b : Block) → ∀ b' : Block, L.SameBlock b b' → blockDocs d b = blockDocs d' b'
  | ⟨_, s, _⟩, _, h => by
    have hsignature := signatureDocOf_same hd [] [] s
    cases h with
    | mk hs => rw [blockDocs, blockDocs, clauseDocs, clauseDocs, hd.indent, hsignature _ hs]
termination_by structural b => b

theorem blockBefore_same (hd : L.Prints d d') : (b : Option Block) → ∀ b' : Option Block,
    Option.Rel L.SameBlock b b' → blockBefore d b = blockBefore d' b'
  | none, _, h => by
    cases h
    rfl
  | some b, _, h => by
    have hblock := blockDocs_same hd b
    cases h with
    | some hb => rw [blockBefore, blockBefore, hblock _ hb]
termination_by structural b => b

end

theorem map_same {α β : Type} {R : α → α → Prop} {f f' : α → β} {xs xs' : List α}
    (h : Forall₂ R xs xs') (hf : ∀ x x', R x x' → f x = f' x') : xs.map f = xs'.map f' := by
  induction h with
  | nil => rfl
  | cons hx _ ih => rw [List.map_cons, List.map_cons, hf _ _ hx, ih]

theorem typeParamsDocs_same (hd : L.Prints d d') {ps ps' : List TypeParam}
    (h : Forall₂ L.SameTypeParam ps ps') : typeParamsDocs d ps = typeParamsDocs d' ps' := by
  refine congrArg bracketed (map_same h fun p p' hp => ?_)
  obtain ⟨_, name, variance, unchecked, bound⟩ := p
  obtain ⟨_, name', variance', unchecked', bound'⟩ := p'
  obtain ⟨rfl, rfl, rfl, hbound, -⟩ := hp
  cases hbound with
  | none => rfl
  | @some t t' ht =>
    simp only [typeParamDocs]
    rw [tyDocs_same hd false t t' ht]

theorem classRefDocs_same (hd : L.Prints d d') {r r' : ClassRef} (h : L.SameClassRef r r') :
    classRefDocs d r = classRefDocs d' r' := by
  rw [classRefDocs, classRefDocs, nameText_same h.name, tyItems_same hd false _ _ h.args]

theorem noteDoc_same (hd : L.Prints d d') {n n' : Note} (h : L.SameNote n n') :
    noteDoc d n = noteDoc d' n' := by
  obtain ⟨⟨l, p, q⟩, ⟨l', p', q'⟩, ht, hn, hn'⟩ := h
  cases l with
  | note text =>
    obtain rfl : Lexeme.note text = l' := L.lexeme ht
    cases hn
    cases hn'
    have hslice : (Span.between p q).slice d.source = (Span.between p' q').slice d'.source := by
      rw [hd.source, hd.source']
      exact L.slice ht
    simp only [noteDoc, hslice]
  | _ => cases hn

theorem overloadDocs_same (hd : L.Prints d d') {o o' : Overload} (h : L.SameOverload o o') :
    overloadDocs d o = overloadDocs d' o' := by
  have hnotes : notesBefore d o.notes = notesBefore d' o'.notes := by
    rw [notesBefore, notesBefore, List.flatMap_def, List.flatMap_def]
    exact congrArg List.flatten (map_same h.notes fun n n' hn => by rw [noteDoc_same hd hn])
  rw [overloadDocs, overloadDocs, hnotes, methodTypeDocs, methodTypeDocs,
    typeParamsDocs_same hd h.method.params, blockBefore_same hd _ _ h.method.block,
    signatureDocOf_same hd _ _ _ _ h.method.signature]

theorem memberDocs_same (hd : L.Prints d d') {m m' : Member} (h : L.SameMember m m') :
    memberDocs d m = memberDocs d' m' := by
  cases h with
  | «alias» => rfl
  | «attribute» _ ht _ => rw [memberDocs, memberDocs, tyDocs_same hd false _ _ ht]
  | «variable» _ ht => rw [memberDocs, memberDocs, tyDocs_same hd false _ _ ht]
  | mixin hn hargs => rw [memberDocs, memberDocs, nameText_same hn, tyItems_same hd false _ _ hargs]
  | visibility => rfl
  | method _ hos =>
    rw [memberDocs, memberDocs, map_same hos fun o o' ho => overloadDocs_same hd ho]

theorem leadDocs_same (hd : L.Prints d d') {lead lead' : Lead} (h : L.SameLead lead lead') :
    leadDocs d lead = leadDocs d' lead' := by
  have hcomment : commentDocs lead.comment = commentDocs lead'.comment := by
    have hrel := h.comment
    generalize lead.comment = k at hrel
    generalize lead'.comment = k' at hrel
    cases hrel with
    | none => rfl
    | some hk => rw [commentDocs, commentDocs, hk.text]
  rw [leadDocs, leadDocs, hcomment, List.flatMap_def, List.flatMap_def,
    map_same h.notes fun n n' hn => by rw [noteDoc_same hd hn]]

/-- A blank line is kept above both of two items or above neither. -/
theorem blankLine_same {last last' : Option Int} {a a' : Nat} (ha : L.line a a')
    (h : (last = none ∧ last' = none) ∨
      ∃ b b' : Nat, L.line b b' ∧ last = some (b : Int) ∧ last' = some (b' : Int)) :
    blankLine last a = blankLine last' a' := by
  rcases h with ⟨rfl, rfl⟩ | ⟨b, b', hb, rfl, rfl⟩
  · rfl
  · have := L.near hb ha
    simp only [blankLine, decide_eq_decide]
    omega

/-- The first and the last lines of two items correspond. -/
theorem itemLines_same {item item' : Item} (h : L.SameItem item item') :
    (∃ a a' : Nat, L.line a a' ∧ item.lead.firstLine item.location = a ∧
      item'.lead.firstLine item'.location = a') ∧
    ∃ b b' : Nat, L.line b b' ∧ item.location.map (·.endLine) = some (b : Int) ∧
      item'.location.map (·.endLine) = some (b' : Int) := by
  cases h with
  | member hl hlead _ => exact ⟨hlead.firstLine hl, hl.endLine⟩
  | declaration hl hlead _ => exact ⟨hlead.firstLine hl, hl.endLine⟩

theorem bodied_same (hd : L.Prints d d') (heading body : List Doc) :
    bodied d heading body = bodied d' heading body := by
  rw [bodied, bodied, hd.indent]

mutual

theorem declarationDocs_same (hd : L.Prints d d') : (a : Declaration) → ∀ a' : Declaration,
    L.SameDeclaration a a' → declarationDocs d a = declarationDocs d' a'
  | .class_ _ _ _ items, _, h => by
    have hbody := bodyDocs_same hd none none items
    cases h with
    | class_ hn hps hparent hitems =>
      simp only [declarationDocs]
      rw [nameText_same hn, typeParamsDocs_same hd hps, bodied_same hd,
        hbody _ hitems (.inl ⟨rfl, rfl⟩)]
      cases hparent with
      | none => rfl
      | some hr =>
        dsimp only
        rw [classRefDocs_same hd hr]
  | .module_ _ _ selves items, _, h => by
    have hbody := bodyDocs_same hd none none items
    cases h with
    | module_ hn hps hselves hitems =>
      simp only [declarationDocs]
      rw [nameText_same hn, typeParamsDocs_same hd hps, bodied_same hd,
        hbody _ hitems (.inl ⟨rfl, rfl⟩), map_same hselves fun r r' hr => classRefDocs_same hd hr]
      cases hselves <;> rfl
  | .interface _ _ items, _, h => by
    have hbody := bodyDocs_same hd none none items
    cases h with
    | interface hn hps hitems =>
      rw [declarationDocs, declarationDocs, nameText_same hn,
        typeParamsDocs_same hd hps, bodied_same hd,
        hbody _ hitems (.inl ⟨rfl, rfl⟩)]
  | .constant _ _, _, h => by
    cases h with
    | constant hn ht =>
      rw [declarationDocs, declarationDocs, nameText_same hn, tyDocs_same hd false _ _ ht]
  | .global _ _, _, h => by
    cases h with
    | global _ ht => rw [declarationDocs, declarationDocs, tyDocs_same hd false _ _ ht]
  | .typeAlias _ _ _, _, h => by
    cases h with
    | typeAlias hn ht hps =>
      rw [declarationDocs, declarationDocs, nameText_same hn, typeParamsDocs_same hd hps,
        tyDocs_same hd false _ _ ht, typeAliasDoc, typeAliasDoc, hd.indent]

theorem itemDocs_same (hd : L.Prints d d') :
    (item : Item) → ∀ item' : Item, L.SameItem item item' → itemDocs d item = itemDocs d' item'
  | .member _ _ _, _, h => by
    cases h with
    | member _ hlead hm => rw [itemDocs, itemDocs, leadDocs_same hd hlead, memberDocs_same hd hm]
  | .declaration _ _ a, _, h => by
    have hdeclaration := declarationDocs_same hd a
    cases h with
    | declaration _ hlead ha =>
      rw [itemDocs, itemDocs, leadDocs_same hd hlead, hdeclaration _ ha]

theorem bodyDocs_same (hd : L.Prints d d') (last last' : Option Int) : (items : List Item) →
    ∀ items' : List Item, Forall₂ L.SameItem items items' →
      ((last = none ∧ last' = none) ∨
        ∃ b b' : Nat, L.line b b' ∧ last = some (b : Int) ∧ last' = some (b' : Int)) →
      bodyDocs d last items = bodyDocs d' last' items'
  | [], _, h, _ => by
    cases h
    rfl
  | item :: items, _, h, hlast => by
    have hdocs := itemDocs_same hd item
    have hbody := fun last last' => bodyDocs_same hd last last' items
    cases h with
    | cons hitem hitems =>
      obtain ⟨⟨a, a', ha, hfirst, hfirst'⟩, hend⟩ := itemLines_same hitem
      rw [bodyDocs, bodyDocs, hdocs _ hitem, hfirst, hfirst', bodyItem, bodyItem,
        blankLine_same ha hlast, hbody _ _ _ hitems (.inr hend)]

end

theorem rootDocs_same (hd : L.Prints d d') {items items' : List Item}
    (h : Forall₂ L.SameItem items items') (l l' : Option Span) :
    rootDocs d ⟨l, items⟩ = rootDocs d' ⟨l', items'⟩ :=
  congrArg fileDocs (map_same h fun item item' hitem => itemDocs_same hd item item' hitem)

end Format
end RubySig
