import Generics.Ty.Text
import Generics.Diagnostic

/-!
# Generics.Failure: what can go wrong

A `Clash` is a formal and an actual type that do not fit together, and the reason.  A `Violation`
is a binding or a declaration that breaks a rule.  Every operation that can fail does so with one of
the two, and `Failure.message` holds the wording of both.
-/

namespace Generics

/-- Why a formal type does not fit an actual type. -/
inductive Clash.Reason where
  /-- Two wildcards with different numbers of upper or of lower bounds. -/
  | boundCount
  /-- An applied class against a type that is none. -/
  | notApplied
  /-- Applications of two different classes. -/
  | differentClass (formal actual : Nominal)
  /-- Applications of one class to different numbers of arguments. -/
  | argumentCount (formal actual : Nat)
  /-- An array against a type that is not array-shaped. -/
  | notArray
  /-- A class against any other type. -/
  | otherType (c : Nominal)
  deriving DecidableEq, Inhabited

/-- A formal and an actual type that do not fit together. -/
structure Clash where
  formal : Ty
  actual : Ty
  reason : Clash.Reason
  deriving Inhabited

/-- A binding or a declaration that breaks a rule. -/
inductive Violation where
  /-- A variable bound to itself. -/
  | selfBinding (key : VarKey)
  /-- An applied class that is not declared. -/
  | undeclared (c : Nominal)
  /-- A class applied to more or fewer arguments than it declares parameters. -/
  | parameterCount (c : Nominal) (declared supplied : Nat)
  deriving DecidableEq, Inhabited

/-- The failure of an operation. -/
inductive Failure where
  | clash (c : Clash)
  | violation (v : Violation)
  deriving Inhabited

/-- A text between backquotes. -/
def quoted (s : String) : String := "`" ++ s ++ "`"

namespace Clash

def message (c : Clash) : String :=
  let formal := quoted c.formal.render
  let actual := quoted c.actual.render
  match c.reason with
  | .boundCount => "incompatible wildcard bounds: " ++ formal ++ " vs " ++ actual
  | .notApplied => actual ++ " is not a parameterized type (unifying with " ++ formal ++ ")"
  | .differentClass f a =>
    "inconsistent raw type: " ++ quoted f.render ++ " vs " ++ quoted a.render ++
      " (unifying " ++ formal ++ " with " ++ actual ++ ")"
  | .argumentCount f a =>
    formal ++ " not compatible with " ++ actual ++ ": " ++ f.repr ++ " vs " ++ a.repr ++
      " type arguments"
  | .notArray => actual ++ " is not an array type (unifying with " ++ formal ++ ")"
  | .otherType d => "no mapping from raw class " ++ quoted d.render ++ " to " ++ actual

end Clash

namespace Violation

def message : Violation → String
  | selfBinding k => "type variable " ++ quoted k.render ++ " bound to itself"
  | undeclared c => "class " ++ quoted c.render ++ " has no declaration in the class registry"
  | parameterCount c declared supplied =>
    "expected " ++ declared.repr ++ " type arguments for " ++ quoted c.render ++
      ", but got " ++ supplied.repr

end Violation

namespace Failure

def message : Failure → String
  | clash c => c.message
  | violation v => "invariant violated: " ++ v.message

def category : Failure → Category
  | clash _ => .malformedUnification
  | violation _ => .invariantViolation

/-- The failure as a coded message, with the fix that its category suggests. -/
def diagnostic (f : Failure) : Diagnostic :=
  { category := f.category, message := f.message, help := some f.category.suggestion }

end Failure

end Generics
