import RubySig.Proofs.Tree.RootPlain
import RubySig.Proofs.Tree.TyReread

/-! Printed declarations are read back. -/
namespace RubySig.Grammar

open Format (wordsOf tyPieces namePieces)

variable {c : Context} {d : Format.Context} {f g : Showing} {scope : List String} {fuel : Nat}
  {α β : Type} {ws : List Word} {n : List Lexeme → Prop} {S : β → Prop}

def isNote : Lexeme → Bool
  | .note _ => true
  | _ => false

theorem noteOf_eq_none {t : Token} (h : isNote t.lexeme = false) : noteOf? t = none := by
  obtain ⟨l, start, stop⟩ := t
  cases l with
  | note text => cases h
  | _ => rfl

theorem Reads.lead_bind {k : Lead → Parser β} {ns : List Note} {start : Position}
    (h : ∀ comment, Reads c (k ⟨comment, ns⟩) ws n S) :
    Reads c (leadOf ns start >>= k) ws n S := by
  intro toks rest last blocks ht hrest
  obtain ⟨comment, kept, hlead⟩ : ∃ comment kept, leadOf ns start c ⟨toks ++ rest, last, blocks⟩ =
      .ok (⟨comment, ns⟩, ⟨toks ++ rest, last, kept⟩) := ⟨_, _, rfl⟩
  obtain ⟨b, left, hb, hS⟩ := h comment toks rest last kept ht hrest
  refine ⟨b, left, ?_, hS⟩
  change (leadOf ns start c _ >>= fun r => k r.1 c r.2) = _
  rw [hlead]
  exact hb

def DeclarationRereads (f g : Showing) (declaration a : Declaration) : Prop :=
  (a.rewrite (.erasing f)).bare = ((declaration.rewrite .rereading).rewrite (.erasing g)).bare

theorem reads_constant (hk : Keeps c d f g) {name : TypeName} (hn : name.Formed .constant) {t : Ty}
    (ht : t.Formed scope d.source) (hf : 4 * (tyWords d false t).length ≤ fuel) :
    Reads c (constant fuel scope)
      (wordsOf (namePieces name) ++ (.mark .colon, Mark.colon.text.toList) :: tyWords d false t)
      (Bound 3 (tyWords d false t)) (DeclarationRereads f g (.constant name t)) := by
  unfold constant
  refine (reads_typeName hn (fun s => .inl rfl) (fun s => rfl) _).bind (fun a ha => ?_)
    fun x _ _ => by simp
  refine .expect_bind ?_
  refine ((readsBack hk fuel).ready ht hf).reads.last (fun u hu => .pure ?_) fun x hx => hx
  simp only [DeclarationRereads, Declaration.rewrite, Rewriting.erasing, Rewriting.rereading,
    Declaration.bare, ha, hu]

/-- A declaration behind what is written above it. -/
def declarationBody (fuel : Nat) (scope : List String) : Parser Declaration := do
  match ← peek with
  | some (.keyword .class_) =>
    advance 1
    let name ← typeName .constant .className
    let ps ← typeParams fuel scope
    let inner := within ps scope
    let superclass ← show Parser (Option ClassRef) from do
      if ← eat (.mark .lt) then return some (← classRef .constant .superclassName fuel inner)
      else return none
    let members ← body fuel true inner
    expect (.keyword .end_) .endOfClass
    return .class_ name ps superclass members
  | some (.keyword .module_) =>
    advance 1
    let name ← typeName .constant .moduleName
    let ps ← typeParams fuel scope
    let inner := within ps scope
    let selves ← selfTypes fuel inner
    let members ← body fuel true inner
    expect (.keyword .end_) .endOfModule
    return .module_ name ps selves members
  | some (.keyword .interface) =>
    advance 1
    let name ← typeName .interface .interfaceName
    let ps ← typeParams fuel scope
    let members ← body fuel false (within ps scope)
    expect (.keyword .end_) .endOfInterface
    return .interface name ps members
  | some (.keyword .type) =>
    advance 1
    typeAlias fuel scope
  | some (.constant _) | some (.mark .doubleColon) => constant fuel scope
  | some (.globalVariable name) =>
    advance 1
    expect (.mark .colon) .colonOfGlobal
    return .global name (← type fuel scope)
  | found => failHere (.unexpected found)

theorem declaration_succ (fuel : Nat) (scope : List String) :
    declaration (fuel + 1) scope = (do
      let ns ← notes
      let start ← here
      let a ← declarationBody fuel scope
      let location ← spanFrom start
      return .declaration location (← leadOf ns start) a) := rfl

def ItemRereads (f g : Showing) (item a : Item) : Prop :=
  (a.rewrite (.erasing f)).bare = ((item.rewrite .rereading).rewrite (.erasing g)).bare

def bodyItem (fuel : Nat) (nested : Bool) (scope : List String) (before : State) : Parser Item := do
  let ns ← notes
  let start ← here
  if nested && ((← peek).map startsDeclaration).getD false then
    set before
    declaration fuel scope
  else
    let m ← member nested fuel scope
    let location ← spanFrom start
    return .member location (← leadOf ns start) m

theorem body_succ (fuel : Nat) (nested : Bool) (scope : List String) :
    body (fuel + 1) nested scope = (do
      if ← isNext (.keyword .end_) then return []
      if (← peek).isNone then failHere .unclosedBody
      let before ← get
      let first ← bodyItem fuel nested scope before
      return first :: (← body fuel nested scope)) := by
  rw [body]
  simp only [bodyItem, bind_assoc]

end RubySig.Grammar
