import Generics.Ty

/-!
# Generics.Registry: declared classes

A `Declaration` lists the type parameters of a class and its generic supertypes, which may mention
those parameters.  A `Registry` holds the declarations by name.  Array classes are never declared.
-/

namespace Generics

/-- A type parameter of a class. -/
structure Param where
  key : VarKey
  bounds : List Ty := []
  deriving Inhabited

/-- The parameter as a type. -/
def Param.ty (p : Param) : Ty := .var p.key p.bounds

/-- What is declared about a class. -/
structure Declaration where
  params : List Param := []
  superclass : Option Ty := none
  interfaces : List Ty := []
  deriving Inhabited

namespace Declaration

/-- A class whose parameters have these names and the class `name` for their scope, without
supertypes. -/
def generic (name : String) (params : List String) : Declaration :=
  { params := params.map fun p => { key := ⟨.type name, p⟩ } }

/-- The parameters as types, in the order of declaration. -/
def paramTypes (d : Declaration) : List Ty := d.params.map Param.ty

/-- The superclass, then the interfaces in the order of declaration. -/
def supertypes (d : Declaration) : List Ty := d.superclass.toList ++ d.interfaces

end Declaration

/-- Declarations by the names of their classes. -/
structure Registry where
  declarations : List (String × Declaration) := []
  deriving Inhabited

namespace Registry

/-- The registry without declarations. -/
def empty : Registry := {}

/-- The declaration under a name. -/
def named? (R : Registry) (name : String) : Option Declaration := R.declarations.lookup name

/-- The declaration of a class; there is none for arrays. -/
def find? (R : Registry) (c : Nominal) : Option Declaration :=
  if c.isArray then none else R.named? c.name

/-- Puts a declaration under a name, in place of the one before. -/
def register (R : Registry) (name : String) (d : Declaration) : Registry :=
  ⟨(name, d) :: R.declarations.filter fun e => decide (e.1 ≠ name)⟩

/-- The declared supertypes of a class. -/
def supertypes (R : Registry) (c : Nominal) : List Ty :=
  match R.find? c with
  | some d => d.supertypes
  | none => []

/-- All supertypes that occur in declarations. -/
def allSupertypes (R : Registry) : List Ty := R.declarations.flatMap fun e => e.2.supertypes

theorem mem_allSupertypes {R : Registry} {c : Nominal} {t : Ty} (h : t ∈ R.supertypes c) :
    t ∈ R.allSupertypes := by
  unfold supertypes find? named? at h
  by_cases hc : c.isArray = true
  · simp [hc] at h
  · rw [if_neg hc] at h
    cases hd : R.declarations.lookup c.name with
    | none => simp [hd] at h
    | some d =>
      rw [hd] at h
      obtain ⟨es, fs, heq, -⟩ := List.lookup_eq_some_iff.mp hd
      refine List.mem_flatMap.mpr ⟨(c.name, d), ?_, h⟩
      rw [heq]
      exact List.mem_append_right es List.mem_cons_self

end Registry

end Generics
