/-!
# Generics.Nominal: classes without type arguments

A `Nominal` is a class name with a number of array dimensions: `String` has none, `String[][]` has
two.  Arrays of a class stay classes.  Dimensions are counted in 32 bits and the count wraps around:
`array` and `component?` are inverse to each other except on a class with the largest count
(`isFull`), whose array is the class without dimensions.
-/

namespace Generics

/-- A class, or with `dims` above zero the class of arrays of it. -/
structure Nominal where
  /-- The name of the element class, without brackets. -/
  name : String
  dims : UInt32
  deriving DecidableEq, Inhabited

namespace Nominal

/-- The class of that name, not an array. -/
def plain (name : String) : Nominal := ⟨name, 0⟩

/-- The class above all others. -/
def top : Nominal := plain "Object"

/-- The names of the classes that hold bare values and have no subclasses. -/
def primitiveNames : List String :=
  ["boolean", "byte", "char", "short", "int", "long", "float", "double", "void"]

/-- Is this a class of arrays? -/
def isArray (c : Nominal) : Bool := decide (0 < c.dims)

/-- Is this the class above all others? -/
def isTop (c : Nominal) : Bool := decide (c = top)

/-- Is this one of the primitive classes, not an array of one? -/
def isPrimitive (c : Nominal) : Bool := decide (c.dims = 0) && primitiveNames.contains c.name

/-- The class of arrays of `c`.  The largest count of dimensions is followed by zero. -/
def array (c : Nominal) : Nominal := ⟨c.name, c.dims + 1⟩

/-- What the arrays of the class `c` hold, if `c` is a class of arrays. -/
def component? (c : Nominal) : Option Nominal :=
  if c.isArray then some ⟨c.name, c.dims - 1⟩ else none

/-- Does the class have as many dimensions as can be counted? -/
def isFull (c : Nominal) : Bool := decide (c.dims + 1 = 0)

theorem component?_array {c : Nominal} (h : c.isFull = false) : c.array.component? = some c := by
  have hne : c.dims + 1 ≠ 0 := of_decide_eq_false h
  have harray : c.array.isArray = true := decide_eq_true (UInt32.pos_iff_ne_zero.mpr hne)
  rw [component?, if_pos harray, array, UInt32.add_sub_cancel]

theorem component?_array_of_isFull {c : Nominal} (h : c.isFull = true) :
    c.array.component? = none := by
  have harray : c.array.isArray = false := by
    rw [isArray, array, of_decide_eq_true h]
    rfl
  rw [component?, if_neg (Bool.eq_false_iff.mp harray)]

/-- A class of arrays is the array of its component, which is not full: what is counted down can be
counted up again. -/
theorem array_of_component? {c d : Nominal} (h : c.component? = some d) :
    d.array = c ∧ d.isFull = false := by
  rw [component?, Option.ite_none_right_eq_some, Option.some.injEq] at h
  obtain ⟨hc, rfl⟩ := h
  have hcount : c.dims - 1 + 1 = c.dims := UInt32.sub_add_cancel _ _
  refine ⟨by rw [array, hcount], decide_eq_false ?_⟩
  rw [hcount]
  exact UInt32.pos_iff_ne_zero.mp (of_decide_eq_true hc)

/-- The name, followed by a pair of brackets for every dimension. -/
def render (c : Nominal) : String := c.name ++ String.join (List.replicate c.dims.toNat "[]")

/-- Classes are ordered by name, then by dimensions. -/
instance : LT Nominal where
  lt c d := c.name < d.name ∨ c.name = d.name ∧ c.dims < d.dims

instance : DecidableLT Nominal := fun c d =>
  inferInstanceAs (Decidable (c.name < d.name ∨ c.name = d.name ∧ c.dims < d.dims))

end Nominal

end Generics
