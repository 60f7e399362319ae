import Generics.Ty

/-!
# Generics.Ty.Array: arrays of types and what arrays hold

`arrayOf` builds the array of any type in its normal form: arrays of a class are classes again, and
an array of a wildcard with a single bound is a wildcard over arrays.  `component?` goes the other
way; a variable or a wildcard holds what its first array-shaped bound holds.
-/

namespace Generics.Ty

/-- The type of arrays of a type. -/
def arrayOf : Ty → Ty
  | nominal c => nominal c.array
  | wildcard _ _ [lower] => above (arrayOf lower)
  | wildcard _ [upper] [] => extending (arrayOf upper)
  | t => array t

/-- A type that is only known as an upper bound: `? extends c`, save that nothing is properly
below a primitive class. -/
def widen : Ty → Ty
  | nominal c => if c.isPrimitive then nominal c else extending (nominal c)
  | c => extending c

mutual

/-- What an array of this type holds, if the type is array-shaped. -/
def component? : Ty → Option Ty
  | nominal c => c.component?.map nominal
  | applied _ _ _ => none
  | array c => some c
  | wildcard _ upper _ => (firstComponent? upper).map widen
  | var _ bounds => (firstComponent? bounds).map widen

/-- What the first array-shaped type of a list holds. -/
def firstComponent? : List Ty → Option Ty
  | [] => none
  | t :: ts => (component? t).or (firstComponent? ts)

end

end Generics.Ty
