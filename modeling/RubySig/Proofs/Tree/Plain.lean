import RubySig.Proofs.Format.TyPieces
import RubySig.Tree.Basic

/-!
Types up to places and nested unions: types without locations, types in which unions inside unions
are spliced, and the type that printing and reading make of a type.
-/
namespace RubySig

/-- How the value of a string literal is shown. -/
abbrev Showing := Option Span → String → String

def TypeName.erase (n : TypeName) : TypeName := { n with location := none }

theorem TypeName.eq_of_erase {a b : TypeName} (h : a.erase = b.erase) :
    a.name = b.name ∧ a.path = b.path ∧ a.absolute = b.absolute := by
  simp only [TypeName.erase, TypeName.mk.injEq] at h
  exact ⟨h.2.1, h.2.2.1, h.2.2.2⟩

def Literal.erase (f : Showing) (location : Option Span) : Literal → Literal
  | .string v => .string (f location v)
  | value => value

mutual

/-- A type without locations, its string literals as `f` shows them. -/
def Ty.erase (f : Showing) : Ty → Ty
  | .base _ kind => .base none kind
  | .variable _ name => .variable none name
  | .classInstance _ name args => .classInstance none name.erase (Ty.eraseAll f args)
  | .interface _ name args => .interface none name.erase (Ty.eraseAll f args)
  | .alias _ name args => .alias none name.erase (Ty.eraseAll f args)
  | .classSingleton _ name => .classSingleton none name.erase
  | .optional _ type => .optional none (type.erase f)
  | .union _ types => .union none (Ty.eraseAll f types)
  | .intersection _ types => .intersection none (Ty.eraseAll f types)
  | .tuple _ types => .tuple none (Ty.eraseAll f types)
  | .record _ fields => .record none (Ty.eraseFields f fields)
  | .literal location value => .literal none (value.erase f location)
  | .proc _ signature block => .proc none (signature.erase f) (Ty.eraseBlock f block)

def Ty.eraseAll (f : Showing) : List Ty → List Ty
  | [] => []
  | t :: ts => t.erase f :: Ty.eraseAll f ts

def Ty.eraseFields (f : Showing) : List Field → List Field
  | [] => []
  | ⟨_, keyLocation, key, type⟩ :: fields =>
    ⟨none, none, key.erase f keyLocation, type.erase f⟩ :: Ty.eraseFields f fields

def Param.erase (f : Showing) : Param → Param
  | ⟨_, type, name⟩ => ⟨none, type.erase f, name⟩

def Param.eraseAll (f : Showing) : List Param → List Param
  | [] => []
  | p :: ps => p.erase f :: Param.eraseAll f ps

def Param.eraseOption (f : Showing) : Option Param → Option Param
  | none => none
  | some p => some (p.erase f)

def Param.eraseKeywords (f : Showing) : List (String × Param) → List (String × Param)
  | [] => []
  | (name, p) :: ps => (name, p.erase f) :: Param.eraseKeywords f ps

def Signature.erase (f : Showing) : Signature → Signature
  | ⟨_, result, required, optional, rest, trailing, requiredKeywords, optionalKeywords,
      restKeywords⟩ =>
    ⟨none, result.erase f, Param.eraseAll f required, Param.eraseAll f optional,
      Param.eraseOption f rest, Param.eraseAll f trailing, Param.eraseKeywords f requiredKeywords,
      Param.eraseKeywords f optionalKeywords, Param.eraseOption f restKeywords⟩

def Ty.eraseBlock (f : Showing) : Option Block → Option Block
  | none => none
  | some ⟨_, signature, required⟩ => some ⟨none, signature.erase f, required⟩

end

/-- The members of a union, or the type itself. -/
def Ty.parts : Ty → List Ty
  | .union _ types => types
  | t => [t]

mutual

/-- A type whose unions have no unions as members. -/
def Ty.spliced : Ty → Ty
  | .base l kind => .base l kind
  | .variable l name => .variable l name
  | .classInstance l name args => .classInstance l name (Ty.splicedAll args)
  | .interface l name args => .interface l name (Ty.splicedAll args)
  | .alias l name args => .alias l name (Ty.splicedAll args)
  | .classSingleton l name => .classSingleton l name
  | .optional l type => .optional l type.spliced
  | .union l types => .union l ((Ty.splicedAll types).flatMap Ty.parts)
  | .intersection l types => .intersection l (Ty.splicedAll types)
  | .tuple l types => .tuple l (Ty.splicedAll types)
  | .record l fields => .record l (Ty.splicedFields fields)
  | .literal l value => .literal l value
  | .proc l signature block => .proc l signature.spliced (Ty.splicedBlock block)

def Ty.splicedAll : List Ty → List Ty
  | [] => []
  | t :: ts => t.spliced :: Ty.splicedAll ts

def Ty.splicedFields : List Field → List Field
  | [] => []
  | ⟨l, keyLocation, key, type⟩ :: fields =>
    ⟨l, keyLocation, key, type.spliced⟩ :: Ty.splicedFields fields

def Param.spliced : Param → Param
  | ⟨l, type, name⟩ => ⟨l, type.spliced, name⟩

def Param.splicedAll : List Param → List Param
  | [] => []
  | p :: ps => p.spliced :: Param.splicedAll ps

def Param.splicedOption : Option Param → Option Param
  | none => none
  | some p => some p.spliced

def Param.splicedKeywords : List (String × Param) → List (String × Param)
  | [] => []
  | (name, p) :: ps => (name, p.spliced) :: Param.splicedKeywords ps

def Signature.spliced : Signature → Signature
  | ⟨l, result, required, optional, rest, trailing, requiredKeywords, optionalKeywords,
      restKeywords⟩ =>
    ⟨l, result.spliced, Param.splicedAll required, Param.splicedAll optional,
      Param.splicedOption rest, Param.splicedAll trailing, Param.splicedKeywords requiredKeywords,
      Param.splicedKeywords optionalKeywords, Param.splicedOption restKeywords⟩

def Ty.splicedBlock : Option Block → Option Block
  | none => none
  | some ⟨l, signature, required⟩ => some ⟨l, signature.spliced, required⟩

end

mutual

/-- What reading makes of a printed type: unions that were printed without parentheses inside unions
are spliced, and symbols take in the marks behind them. -/
def Ty.reread (wrap : Bool) : Ty → Ty
  | .base l kind => .base l kind
  | .variable l name => .variable l name
  | .classInstance l name args => .classInstance l name (Ty.rereadAll false args)
  | .interface l name args => .interface l name (Ty.rereadAll false args)
  | .alias l name args => .alias l name (Ty.rereadAll false args)
  | .classSingleton l name => .classSingleton l name
  | .optional l type =>
    match type.openSymbol? with
    | some s => .literal l (.symbol (s ++ "?"))
    | none => .optional l (type.reread true)
  | .union l types =>
    .union l (if wrap then Ty.rereadAll true types else (Ty.rereadAll false types).flatMap Ty.parts)
  | .intersection l types => .intersection l (Ty.rereadAll true types)
  | .tuple l types => .tuple l (Ty.rereadAll false types)
  | .record l fields => .record l (Ty.rereadFields fields)
  | .literal l value => .literal l value
  | .proc l signature block => .proc l signature.reread (Ty.rereadBlock block)

def Ty.rereadAll (wrap : Bool) : List Ty → List Ty
  | [] => []
  | t :: ts => t.reread wrap :: Ty.rereadAll wrap ts

def Ty.rereadFields : List Field → List Field
  | [] => []
  | ⟨l, keyLocation, key, type⟩ :: fields =>
    ⟨l, keyLocation, key, type.reread false⟩ :: Ty.rereadFields fields

def Param.reread : Param → Param
  | ⟨l, type, name⟩ => ⟨l, type.reread false, name⟩

def Param.rereadAll : List Param → List Param
  | [] => []
  | p :: ps => p.reread :: Param.rereadAll ps

def Param.rereadOption : Option Param → Option Param
  | none => none
  | some p => some p.reread

def Param.rereadKeywords : List (String × Param) → List (String × Param)
  | [] => []
  | (name, p) :: ps => (name, p.reread) :: Param.rereadKeywords ps

def Signature.reread : Signature → Signature
  | ⟨l, result, required, optional, rest, trailing, requiredKeywords, optionalKeywords,
      restKeywords⟩ =>
    ⟨l, result.reread true, Param.rereadAll required, Param.rereadAll optional,
      Param.rereadOption rest, Param.rereadAll trailing, Param.rereadKeywords requiredKeywords,
      Param.rereadKeywords optionalKeywords, Param.rereadOption restKeywords⟩

def Ty.rereadBlock : Option Block → Option Block
  | none => none
  | some ⟨l, signature, required⟩ => some ⟨l, signature.reread, required⟩

end

mutual

/-- The alternatives of a type that is printed without parentheses. -/
def Ty.branches : Ty → List Ty
  | .union _ types => Ty.branchesAll types
  | t => [t]

def Ty.branchesAll : List Ty → List Ty
  | [] => []
  | t :: ts => t.branches ++ Ty.branchesAll ts

end

def Ty.isUnion : Ty → Bool
  | .union _ _ => true
  | _ => false

theorem Ty.parts_of_not_union {t : Ty} (h : t.isUnion = false) : t.parts = [t] := by
  cases t <;> first | rfl | cases h

theorem Ty.not_union_reread {t : Ty} (h : t.isUnion = false) (wrap : Bool) :
    (t.reread wrap).isUnion = false := by
  cases t with
  | union => cases h
  | optional l type =>
    rw [Ty.reread]
    split <;> rfl
  | _ => rfl

theorem Ty.rereadAll_eq_map (wrap : Bool) (ts : List Ty) :
    Ty.rereadAll wrap ts = ts.map (Ty.reread wrap) := by
  induction ts with
  | nil => rfl
  | cons t ts ih => rw [Ty.rereadAll, ih, List.map_cons]

theorem Ty.eraseAll_eq_map (f : Showing) (ts : List Ty) :
    Ty.eraseAll f ts = ts.map (Ty.erase f) := by
  induction ts with
  | nil => rfl
  | cons t ts ih => rw [Ty.eraseAll, ih, List.map_cons]

theorem Ty.splicedAll_eq_map (ts : List Ty) : Ty.splicedAll ts = ts.map Ty.spliced := by
  induction ts with
  | nil => rfl
  | cons t ts ih => rw [Ty.splicedAll, ih, List.map_cons]

mutual

/-- Reading gives the alternatives of a type as the parts of a union. -/
theorem Ty.parts_reread : (t : Ty) → (t.reread false).parts = t.branches.map (Ty.reread false)
  | .union _ types => Ty.parts_rereadAll types
  | .optional l type => by
    have h : ((Ty.optional l type).reread false).isUnion = false := Ty.not_union_reread rfl false
    rw [Ty.parts_of_not_union h]
    rfl
  | .base _ _ => rfl
  | .variable _ _ => rfl
  | .classInstance _ _ _ => rfl
  | .interface _ _ _ => rfl
  | .alias _ _ _ => rfl
  | .classSingleton _ _ => rfl
  | .intersection _ _ => rfl
  | .tuple _ _ => rfl
  | .record _ _ => rfl
  | .literal _ _ => rfl
  | .proc _ _ _ => rfl

theorem Ty.parts_rereadAll : (ts : List Ty) →
    (Ty.rereadAll false ts).flatMap Ty.parts = (Ty.branchesAll ts).map (Ty.reread false)
  | [] => rfl
  | t :: ts => by
    rw [Ty.rereadAll, List.flatMap_cons, Ty.parts_reread t, Ty.parts_rereadAll ts, Ty.branchesAll,
      List.map_append]

end

end RubySig
