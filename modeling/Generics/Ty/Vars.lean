import Generics.Ty
import Generics.Ascending

/-!
# Generics.Ty.Vars: the variables that occur in a type

`vars` lists the keys of the variables of a type from left to right, `freeKeys` is their set in key
order.  The bounds of a variable are not part of the type in this sense; those of a wildcard are.
-/

namespace Generics.Ty

mutual

/-- The keys of the variables of a type, occurrence by occurrence. -/
def vars : Ty → List VarKey
  | nominal _ => []
  | applied owner _ args => varsOwner owner ++ varsEach args
  | array c => vars c
  | wildcard _ upper lower => varsEach upper ++ varsEach lower
  | var k _ => [k]

/-- The variables of an owner. -/
def varsOwner : Option Ty → List VarKey
  | none => []
  | some o => vars o

/-- The variables of the types of a list. -/
def varsEach : List Ty → List VarKey
  | [] => []
  | t :: ts => vars t ++ varsEach ts

end

/-- The keys of the variables of a type, each once, in key order. -/
def freeKeys (t : Ty) : List VarKey := ascending t.vars

@[simp] theorem varsEach_eq_flatMap (ts : List Ty) : varsEach ts = ts.flatMap vars := by
  induction ts with
  | nil => rfl
  | cons t ts ih => rw [varsEach, ih, List.flatMap_cons]

end Generics.Ty
