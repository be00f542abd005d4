/-! The versions of the library and of the signature language that it reads. -/
namespace RubySig

/-- A version by its three numbers. -/
structure Version where
  major : Nat
  minor : Nat
  patch : Nat
  deriving DecidableEq, Repr

namespace Version

def text (v : Version) : String :=
  toString v.major ++ "." ++ toString v.minor ++ "." ++ toString v.patch

def library : Version := ⟨0, 3, 0⟩

def language : Version := ⟨3, 0, 0⟩

def line : String :=
  "RBSAST " ++ library.text ++ " (RBS " ++ language.text ++ " compatible)"

end Version
end RubySig
