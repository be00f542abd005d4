import RubySig.Proofs.Tree.Sites

/-!
The grammar over a stack of scopes: each list of type parameters is pushed while what sees it is
read, and popped behind it. It reads what the grammar reads whose scope is an argument, and each
production leaves the stack as it found it.
-/
namespace RubySig.Grammar

/-- A parser with a stack of scopes, the innermost first. -/
abbrev Stacked := StateT (List (List String)) Parser

namespace Stacked

variable {α β : Type}

/-- What only looks at the names on the stack. -/
def looking (p : List String → Parser α) : Stacked α := do
  let stack ← get
  p stack.flatten

/-- Reads something with one more scope on the stack. -/
def under (names : List String) (p : Stacked α) : Stacked α := do
  modify (names :: ·)
  let a ← p
  modify List.tail
  return a

/-- One more name in the innermost scope. -/
def grown (name : String) : List (List String) → List (List String)
  | [] => []
  | names :: outer => (name :: names) :: outer

/-- Type parameters up to the closing bracket, each of which is added to the innermost scope. -/
def typeParamsFrom (depth : Nat) : (fuel : Nat) → Stacked (List TypeParam)
  | 0 => return []
  | fuel + 1 => do
    if ← isNext (.mark .rbracket) then return []
    let start ← here
    let unchecked ← eat (.keyword .unchecked)
    let variance ← show Parser Variance from do
      if ← eat (.keyword .out) then return .covariant
      else if ← eat (.keyword .in_) then return .contravariant
      else return .invariant
    match ← peek with
    | some (.constant name) =>
      advance 1
      modify (grown name)
      let bound ← looking fun scope => do
        if ← eat (.mark .lt) then return some (← type depth scope) else return none
      let p := ⟨← spanFrom start, name, variance, unchecked, bound⟩
      if ← eat (.mark .comma) then return p :: (← typeParamsFrom depth fuel) else return [p]
    | _ => failMissing .typeParam

def typeParams (fuel : Nat) : Stacked (List TypeParam) := do
  if ← eat (.mark .lbracket) then
    let ps ← under [] (typeParamsFrom fuel fuel)
    expect (.mark .rbracket) .closeOfTypeParams
    return ps
  else return []

def methodType (fuel : Nat) : Stacked MethodType := do
  let start ← here
  let ps ← typeParams fuel
  let (inner, block) ← under (TypeParam.names ps) <| looking fun scope =>
    signature (type fuel scope) (optionalType fuel scope) fuel
  return ⟨← spanFrom start, inner, ps, block⟩

def overloads (depth : Nat) : (fuel : Nat) → Stacked (List Overload × Bool)
  | 0 => return ([], false)
  | fuel + 1 => do
    if ← eat (.mark .ellipsis) then return ([], true)
    let start ← here
    let ns ← notes
    let method ← methodType depth
    let o := ⟨← spanFrom start, method, ns⟩
    if ← eat (.mark .pipe) then
      let (more, overloading) ← overloads depth fuel
      return (o :: more, overloading)
    else return ([o], false)

def methodDefinition (fuel : Nat) (visibility : Option Visibility) : Stacked Member := do
  let level ← show Parser MethodLevel from do
    if ← selfDot then return .singleton
    else if (← isNext (.keyword .self)) && (← peekAt 1) == some (.mark .question)
        && (← peekAt 2) == some (.mark .dot) then
      advance 3
      return .both
    else return .instance_
  let name ← methodName
  expect (.mark .colon) (.colonOfMethod name)
  let (os, overloading) ← overloads fuel fuel
  return .method name os level overloading visibility

def member (nested : Bool) (fuel : Nat) : Stacked Member := do
  let visibility ← visibilityMark
  let refuse : Parser Member := do failHere (.unexpectedInBody (← peek))
  match ← peek with
  | none => refuse
  | some l =>
    if l == .keyword .def_ then
      advance 1
      methodDefinition fuel visibility
    else if let (some access, true) := (access? l, nested) then
      advance 1
      looking fun scope => attributeMember access fuel scope visibility
    else if let some kind := (mixin? l).filter (fun kind => nested || kind == .include_) then
      advance 1
      let target ← looking (classRef .any (.mixinTarget kind) fuel)
      return .mixin kind target.name target.args
    else if l == .keyword .alias then
      advance 1
      aliasMember
    else if !nested then refuse
    else match l with
      | .keyword .public_ =>
        advance 1
        return .visibility .public_
      | .keyword .private_ =>
        advance 1
        return .visibility .private_
      | .instanceVariable name =>
        advance 1
        looking (variableMember .instance_ name fuel)
      | .classVariable name =>
        advance 1
        looking (variableMember .class_ name fuel)
      | .keyword .self =>
        if ← selfDot then
          match ← peek with
          | some (.instanceVariable name) =>
            advance 1
            looking (variableMember .classInstance name fuel)
          | _ => failMissing .variableOfSelf
        else refuse
      | _ => refuse

def typeAlias (fuel : Nat) : Stacked Declaration := do
  let name ← typeName .identifier .aliasName
  let ps ← typeParams fuel
  expect (.mark .eq) .equalsOfAlias
  return .typeAlias name (← under (TypeParam.names ps) (looking (type fuel))) ps

mutual

def declaration : (fuel : Nat) → Stacked Item
  | 0 => do failHere (.unexpected (← peek))
  | fuel + 1 => do
    let ns ← notes
    let start ← here
    let d ← show Stacked Declaration from do
      match ← peek with
      | some (.keyword .class_) =>
        advance 1
        let name ← typeName .constant .className
        let ps ← typeParams fuel
        let (superclass, members) ← under (TypeParam.names ps) do
          let superclass ← looking fun scope => do
            if ← eat (.mark .lt) then return some (← classRef .constant .superclassName fuel scope)
            else return none
          let members ← body fuel true
          return (superclass, members)
        expect (.keyword .end_) .endOfClass
        return .class_ name ps superclass members
      | some (.keyword .module_) =>
        advance 1
        let name ← typeName .constant .moduleName
        let ps ← typeParams fuel
        let (selves, members) ← under (TypeParam.names ps) do
          let selves ← looking (selfTypes fuel)
          let members ← body fuel true
          return (selves, members)
        expect (.keyword .end_) .endOfModule
        return .module_ name ps selves members
      | some (.keyword .interface) =>
        advance 1
        let name ← typeName .interface .interfaceName
        let ps ← typeParams fuel
        let members ← under (TypeParam.names ps) (body fuel false)
        expect (.keyword .end_) .endOfInterface
        return .interface name ps members
      | some (.keyword .type) =>
        advance 1
        typeAlias fuel
      | some (.constant _) | some (.mark .doubleColon) => looking (constant fuel)
      | some (.globalVariable name) =>
        advance 1
        expect (.mark .colon) .colonOfGlobal
        return .global name (← looking (type fuel))
      | found => failHere (.unexpected found)
    let location ← spanFrom start
    return .declaration location (← leadOf ns start) d

def body : (fuel : Nat) → (nested : Bool) → Stacked (List Item)
  | 0, _ => return []
  | fuel + 1, nested => do
    if ← isNext (.keyword .end_) then return []
    if (← peek).isNone then failHere .unclosedBody
    let before ← getThe State
    let ns ← notes
    let start ← here
    let first ← show Stacked Item from do
      if nested && ((← peek).map startsDeclaration).getD false then
        set before
        declaration fuel
      else
        let m ← member nested fuel
        let location ← spanFrom start
        return .member location (← leadOf ns start) m
    return first :: (← body fuel nested)

end

def declarations (depth : Nat) : (fuel : Nat) → Stacked (List Item)
  | 0 => return []
  | fuel + 1 => do
    if (← peek).isNone then return []
    let first ← declaration depth
    return first :: (← declarations depth fuel)

end Stacked

/-- Over a stack, one parser reads what the other reads, and then the stack is as `next` tells. -/
def Follows {α : Type} (stack : List (List String)) (sp : Stacked α) (p : Parser α)
    (next : α → List (List String)) : Prop :=
  sp.run stack = (fun a => (a, next a)) <$> p

/-- Over every stack, one parser reads what the other reads with the names on the stack in scope,
and then the stack is what it was. -/
def KeepsStack {α : Type} (sp : Stacked α) (p : List String → Parser α) : Prop :=
  ∀ stack, Follows stack sp (p stack.flatten) fun _ => stack

namespace Follows

variable {α β : Type} {stack : List (List String)} {sp sq : Stacked α} {p q : Parser α}
  {next : α → List (List String)}

theorem lift : Follows stack (liftM p) p fun _ => stack := rfl

theorem looking {p : List String → Parser α} :
    Follows stack (Stacked.looking p) (p stack.flatten) fun _ => stack := rfl

theorem pure {a : α} (h : next a = stack) : Follows stack (Pure.pure a) (Pure.pure a) next := by
  simp [Follows, h]

theorem bind (h : Follows stack sp p next) {f : α → Stacked β} {g : α → Parser β}
    {last : β → List (List String)} (k : ∀ a, Follows (next a) (f a) (g a) last) :
    Follows stack (sp >>= f) (p >>= g) last := by
  have hrun : sp.run stack = (fun a => (a, next a)) <$> p := h
  change (sp >>= f).run stack = (fun b => (b, last b)) <$> (p >>= g)
  rw [StateT.run_bind, hrun, bind_map_left, map_bind]
  exact congrArg _ (funext k)

theorem keep_bind (h : Follows stack sp p fun _ => stack) {f : α → Stacked β} {g : α → Parser β}
    {last : β → List (List String)} (k : ∀ a, Follows stack (f a) (g a) last) :
    Follows stack (sp >>= f) (p >>= g) last :=
  bind h k

theorem lift_bind {p : Parser α} {f : α → Stacked β} {g : α → Parser β}
    {last : β → List (List String)} (k : ∀ a, Follows stack (f a) (g a) last) :
    Follows stack (liftM p >>= f) (p >>= g) last :=
  keep_bind lift k

theorem ite {b : Prop} [Decidable b] (h : Follows stack sp p next) (k : Follows stack sq q next) :
    Follows stack (if b then sp else sq) (if b then p else q) next := by
  split <;> assumption

theorem failMissing {what : Missing} :
    Follows stack (liftM (failMissing (α := α) what)) (Grammar.failMissing what) next := rfl

theorem declaring {name : String} {names : List String} {outer : List (List String)}
    {f : Unit → Stacked α} (h : Follows ((name :: names) :: outer) (f ()) p next) :
    Follows (names :: outer) (modify (Stacked.grown name) >>= f) p next := h

/-- A scope is pushed in front of what is read and popped behind it, whatever it has come to
hold. -/
theorem under {names : List String} {inside : α → List String}
    (h : Follows (names :: stack) sp p fun a => inside a :: stack) :
    Follows stack (Stacked.under names sp) p fun _ => stack := by
  have hrun : sp.run (names :: stack) = (fun a => (a, inside a :: stack)) <$> p := h
  simp [Follows, Stacked.under, hrun]

/-- Two things are read under one scope, and the rest behind them without it. -/
theorem under_both {γ : Type} {names : List String} {sr : Stacked β} {r : Parser β}
    {f : α × β → Stacked γ} {g : α → β → Parser γ} {last : γ → List (List String)}
    (h : Follows (names :: stack) sp p fun _ => names :: stack)
    (k : Follows (names :: stack) sr r fun _ => names :: stack)
    (m : ∀ a b, Follows stack (f (a, b)) (g a b) last) :
    Follows stack (Stacked.under names (do let a ← sp; let b ← sr; return (a, b)) >>= f)
      (p >>= fun a => r >>= g a) last := by
  have hboth : (p >>= fun a => r >>= g a) =
      (do let a ← p; let b ← r; return (a, b)) >>= fun x => g x.1 x.2 := by
    simp
  rw [hboth]
  have hpushed : Follows (names :: stack) (do let a ← sp; let b ← sr; return (a, b))
      (do let a ← p; let b ← r; return (a, b)) fun _ => names :: stack :=
    h.bind fun a => k.bind fun b => .pure rfl
  exact .keep_bind hpushed.under fun x => m x.1 x.2

end Follows

/-- The innermost scope comes to hold the parameters that are read. -/
theorem typeParamsFrom_grows (depth fuel : Nat) (declared : List String)
    (outer : List (List String)) :
    Follows (declared :: outer) (Stacked.typeParamsFrom depth fuel)
      (typeParamsFrom depth fuel (declared ++ outer.flatten))
      fun ps => ((TypeParam.names ps).reverse ++ declared) :: outer := by
  induction fuel generalizing declared with
  | zero => exact .pure rfl
  | succ fuel ih =>
    unfold Stacked.typeParamsFrom typeParamsFrom
    refine .lift_bind fun closed => .ite (.pure rfl) ?_
    refine .lift_bind fun start => .lift_bind fun unchecked => .lift_bind fun variance => ?_
    refine .lift_bind fun l => ?_
    cases l with
    | none => exact .failMissing
    | some l =>
      cases l with
      | constant name =>
        refine .lift_bind fun _ => .declaring (.bind .looking fun b => ?_)
        refine .lift_bind fun location => .lift_bind fun more => .ite ?_ (.pure ?_)
        · refine .bind (ih _) fun ps => .pure ?_
          simp [TypeParam.names]
        · simp [TypeParam.names]
      | _ => exact .failMissing

theorem typeParams_keepsStack (fuel : Nat) :
    KeepsStack (Stacked.typeParams fuel) (typeParams fuel) := by
  intro stack
  refine .lift_bind fun opened => .ite ?_ (.pure rfl)
  refine .bind (.under (typeParamsFrom_grows fuel fuel [] stack)) fun ps => ?_
  exact .lift_bind fun _ => .pure rfl

theorem methodType_keepsStack (fuel : Nat) :
    KeepsStack (Stacked.methodType fuel) (methodType fuel) := by
  intro stack
  refine .lift_bind fun start => .bind (typeParams_keepsStack fuel stack) fun ps => ?_
  refine .bind (.under .looking) fun inner => ?_
  exact .lift_bind fun location => .pure rfl

theorem overloads_keepsStack (depth fuel : Nat) :
    KeepsStack (Stacked.overloads depth fuel) fun scope => overloads depth scope fuel := by
  intro stack
  induction fuel with
  | zero => exact .pure rfl
  | succ fuel ih =>
    refine .lift_bind fun dots => .ite (.pure rfl) ?_
    refine .lift_bind fun start => .lift_bind fun ns => ?_
    refine .bind (methodType_keepsStack depth stack) fun method => .lift_bind fun location => ?_
    exact .lift_bind fun more => .ite (.bind ih fun os => .pure rfl) (.pure rfl)

theorem methodDefinition_keepsStack (fuel : Nat) (visibility : Option Visibility) :
    KeepsStack (Stacked.methodDefinition fuel visibility)
      fun scope => methodDefinition fuel scope visibility := by
  intro stack
  refine .lift_bind fun level => .lift_bind fun name => .lift_bind fun _ => ?_
  exact .bind (overloads_keepsStack fuel fuel stack) fun os => .pure rfl

theorem member_keepsStack (nested : Bool) (fuel : Nat) :
    KeepsStack (Stacked.member nested fuel) (member nested fuel) := by
  intro stack
  refine .lift_bind fun visibility => .lift_bind fun l => ?_
  cases l with
  | none => exact .lift
  | some l =>
    refine .ite (.lift_bind fun _ => methodDefinition_keepsStack fuel visibility stack) ?_
    generalize access? l = access
    generalize (mixin? l).filter (fun kind => nested || kind == .include_) = kind
    match access, nested with
    | some access, true => exact .lift_bind fun _ => .looking
    | none, true | none, false | some _, false =>
      cases kind with
      | some kind => exact .lift_bind fun _ => .bind .looking fun target => .pure rfl
      | none =>
        refine .ite (.lift_bind fun _ => .lift) (.ite .lift ?_)
        cases l with
        | instanceVariable name | classVariable name => exact .lift_bind fun _ => .looking
        | keyword k =>
          cases k with
          | public_ | private_ => exact .lift_bind fun _ => .pure rfl
          | self =>
            refine .lift_bind fun dot => .ite (.lift_bind fun l => ?_) .lift
            cases l with
            | none => exact .lift
            | some l =>
              cases l with
              | instanceVariable name => exact .lift_bind fun _ => .looking
              | _ => exact .lift
          | _ => exact .lift
        | _ => exact .lift

theorem typeAlias_keepsStack (fuel : Nat) :
    KeepsStack (Stacked.typeAlias fuel) (typeAlias fuel) := by
  intro stack
  refine .lift_bind fun name => .bind (typeParams_keepsStack fuel stack) fun ps => ?_
  exact .lift_bind fun _ => .bind (.under .looking) fun t => .pure rfl

/-- Declarations and bodies leave the stack as it is, where the grammar is `fuel` levels deep. -/
structure ItemsKeepStack (fuel : Nat) : Prop where
  declaration : KeepsStack (Stacked.declaration fuel) (declaration fuel)
  body : ∀ nested, KeepsStack (Stacked.body fuel nested) (body fuel nested)

theorem declaration_keepsStack {fuel : Nat} (h : ItemsKeepStack fuel) :
    KeepsStack (Stacked.declaration (fuel + 1)) (declaration (fuel + 1)) := by
  intro stack
  refine .lift_bind fun ns => .lift_bind fun start => .keep_bind ?_ fun d =>
    .lift_bind fun location => .lift_bind fun lead => .pure rfl
  refine .lift_bind fun l => ?_
  cases l with
  | none => exact .lift
  | some l =>
    cases l with
    | constant name => exact .looking
    | globalVariable name =>
      exact .lift_bind fun _ => .lift_bind fun _ => .bind .looking fun t => .pure rfl
    | mark m =>
      cases m with
      | doubleColon => exact .looking
      | _ => exact .lift
    | keyword k =>
      cases k with
      | class_ =>
        refine .lift_bind fun _ => .lift_bind fun name =>
          .bind (typeParams_keepsStack fuel stack) fun ps => ?_
        exact .under_both .looking (h.body true _) fun superclass members =>
          .lift_bind fun _ => .pure rfl
      | module_ =>
        refine .lift_bind fun _ => .lift_bind fun name =>
          .bind (typeParams_keepsStack fuel stack) fun ps => ?_
        exact .under_both .looking (h.body true _) fun selves members =>
          .lift_bind fun _ => .pure rfl
      | interface =>
        refine .lift_bind fun _ => .lift_bind fun name =>
          .bind (typeParams_keepsStack fuel stack) fun ps => ?_
        exact .bind (.under (h.body false _)) fun members => .lift_bind fun _ => .pure rfl
      | type => exact .lift_bind fun _ => typeAlias_keepsStack fuel stack
      | _ => exact .lift
    | _ => exact .lift

theorem body_keepsStack {fuel : Nat} (h : ItemsKeepStack fuel) (nested : Bool) :
    KeepsStack (Stacked.body (fuel + 1) nested) (body (fuel + 1) nested) := by
  intro stack
  refine .lift_bind fun closed => .ite (.pure rfl) (.lift_bind fun l => ?_)
  refine .ite (.lift_bind fun _ => ?_) ?_
  all_goals
    refine .lift_bind fun before => .lift_bind fun ns => .lift_bind fun start => ?_
    refine .keep_bind ?_ fun first => .bind (h.body nested stack) fun more => .pure rfl
    refine .lift_bind fun l => .ite (.lift_bind fun _ => h.declaration stack) ?_
    refine .bind (member_keepsStack nested fuel stack) fun m => ?_
    exact .lift_bind fun location => .lift_bind fun lead => .pure rfl

theorem items_keepStack (fuel : Nat) : ItemsKeepStack fuel := by
  induction fuel with
  | zero => exact ⟨fun stack => .lift_bind fun l => .lift, fun nested stack => .pure rfl⟩
  | succ fuel ih => exact ⟨declaration_keepsStack ih, body_keepsStack ih⟩

theorem declarations_keepEmpty (depth fuel : Nat) :
    Follows [] (Stacked.declarations depth fuel) (declarations depth fuel) fun _ => [] := by
  induction fuel with
  | zero => exact .pure rfl
  | succ fuel ih =>
    refine .lift_bind fun l => .ite (.pure rfl) ?_
    exact .bind ((items_keepStack depth).declaration []) fun first => .bind ih fun more => .pure rfl

/-- What pushes scopes reads as the grammar does and leaves the stack as it found it. What does not
push any only looks at the stack. -/
structure StackKept : Prop where
  typeParams : ∀ fuel, KeepsStack (Stacked.typeParams fuel) (typeParams fuel)
  methodType : ∀ fuel, KeepsStack (Stacked.methodType fuel) (methodType fuel)
  overloads : ∀ depth fuel, KeepsStack (Stacked.overloads depth fuel) fun scope =>
    overloads depth scope fuel
  methodDefinition : ∀ fuel visibility, KeepsStack (Stacked.methodDefinition fuel visibility)
    fun scope => methodDefinition fuel scope visibility
  member : ∀ nested fuel, KeepsStack (Stacked.member nested fuel) (member nested fuel)
  typeAlias : ∀ fuel, KeepsStack (Stacked.typeAlias fuel) (typeAlias fuel)
  declaration : ∀ fuel, KeepsStack (Stacked.declaration fuel) (declaration fuel)
  body : ∀ fuel nested, KeepsStack (Stacked.body fuel nested) (body fuel nested)
  declarations : ∀ depth fuel,
    Follows [] (Stacked.declarations depth fuel) (declarations depth fuel) fun _ => []

theorem stack_kept : StackKept where
  typeParams := typeParams_keepsStack
  methodType := methodType_keepsStack
  overloads := overloads_keepsStack
  methodDefinition := methodDefinition_keepsStack
  member := member_keepsStack
  typeAlias := typeAlias_keepsStack
  declaration fuel := (items_keepStack fuel).declaration
  body fuel := (items_keepStack fuel).body
  declarations := declarations_keepEmpty

end RubySig.Grammar
