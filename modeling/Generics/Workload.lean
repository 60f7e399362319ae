import Generics.Registry
import Generics.Table

/-!
# Generics.Workload: inputs that grow with a number

Three families of inputs for measuring: nested pairs for unification, a chain of interfaces for the
supertype walk, and a chain of variables for resolution.  Variables and classes are told apart by the
numbers in their names.
-/

namespace Generics.Workload

/-- Different numbers are written differently. -/
theorem repr_injective : Function.Injective Nat.repr := by
  intro i j h
  have hdigits := congrArg String.toList h
  rw [Nat.toList_repr, Nat.toList_repr] at hdigits
  rw [← Nat.ofDigitChars_ten_toDigits (n := i), hdigits, Nat.ofDigitChars_ten_toDigits]

/-! ### Nested pairs -/

/-- The class `Pair` applied to two types. -/
def pair (a b : Ty) : Ty := .applied none (.plain "Pair") [a, b]

/-- The variable `A<i>` of the class `Pair`. -/
def pairKey (i : Nat) : VarKey := ⟨.type "Pair", "A" ++ i.repr⟩

theorem pairKey_injective : Function.Injective pairKey := by
  intro i j h
  have hname : "A" ++ i.repr = "A" ++ j.repr := congrArg VarKey.name h
  exact repr_injective ((String.append_right_inj "A").mp hname)

/-- `Pair<A<i>, Pair<A<i+1>, ...>>` with `n` pairs around `String`. -/
def pairsOfVars (i : Nat) : Nat → Ty
  | 0 => .plain "String"
  | n + 1 => pair (.ofKey (pairKey i)) (pairsOfVars (i + 1) n)

/-- `Pair<Integer, Pair<Integer, ...>>` with `n` pairs around `String`. -/
def pairsOfIntegers : Nat → Ty
  | 0 => .plain "String"
  | n + 1 => pair (.plain "Integer") (pairsOfIntegers n)

/-- A formal and an actual type of `n` nested pairs. -/
def pairs (n : Nat) : Ty × Ty := (pairsOfVars 0 n, pairsOfIntegers n)

/-! ### A chain of interfaces -/

/-- The name of the class `C<i>`. -/
def chainClass (i : Nat) : String := "C" ++ i.repr

theorem chainClass_injective : Function.Injective chainClass := fun _ _ h =>
  repr_injective ((String.append_right_inj "C").mp h)

/-- The class `C<i>` applied to one type. -/
def chainType (i : Nat) (arg : Ty) : Ty := .applied none (.plain (chainClass i)) [arg]

/-- The declaration of `C<i><E>` in a chain of `n` classes: all but the last implement the next. -/
def chainDeclaration (n i : Nat) : Declaration :=
  let d := Declaration.generic (chainClass i) ["E"]
  if i + 1 < n then { d with interfaces := d.paramTypes.map (chainType (i + 1)) } else d

/-- Classes `C0` to `C<n-1>`, each implementing the next, and the context `C0<String>`. -/
def interfaces (n : Nat) : Registry × Ty :=
  ((List.range n).foldl (fun R i => R.register (chainClass i) (chainDeclaration n i)) .empty,
    chainType 0 (.plain "String"))

/-! ### A chain of variables -/

/-- The variable `T` of the method `m<i>`. -/
def chainKey (i : Nat) : VarKey := ⟨.method "Chain" ("m" ++ i.repr), "T"⟩

theorem chainKey_injective : Function.Injective chainKey := by
  intro i j h
  have hscope : Scope.method "Chain" ("m" ++ i.repr) = .method "Chain" ("m" ++ j.repr) :=
    congrArg VarKey.scope h
  rw [Scope.method.injEq] at hscope
  exact repr_injective ((String.append_right_inj "m").mp hscope.2)

/-- What the variable of `m<i>` is mapped to in a chain of `n` variables: the variable of the next
method, or for the last one `String`. -/
def chainTarget (n i : Nat) : Ty :=
  if i + 1 < n then .ofKey (chainKey (i + 1)) else .plain "String"

/-- A table that maps each of `n` variables to the next, and the type `List<T>` of the first. -/
def methodVars (n : Nat) : Except Violation (Table × Ty) :=
  (Table.empty.extend ((List.range n).map fun i => (chainKey i, chainTarget n i))).map fun T =>
    (T, .applied none (.plain "List") [.ofKey (chainKey 0)])

end Generics.Workload
