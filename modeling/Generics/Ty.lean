import Generics.VarKey
import Generics.Nominal

/-!
# Generics.Ty: generic type expressions

`Ty` is the syntax of generic types: classes, applied classes such as `Outer<A>.Inner<B>`, generic
arrays, wildcards and type variables with their bounds.

A wildcard may carry a *site*.  Two occurrences with one site are the same wildcard, met at two
places; an occurrence without a site is a wildcard of its own.  Sites matter to capture alone:
comparing, printing and substituting types never look at them.
-/

namespace Generics

/-- A generic type expression. -/
inductive Ty where
  /-- A class without type arguments. -/
  | nominal (c : Nominal)
  /-- The class `raw` applied to type arguments, inside `owner` if there is one. -/
  | applied (owner : Option Ty) (raw : Nominal) (args : List Ty)
  /-- An array of `component`. -/
  | array (component : Ty)
  /-- A wildcard between its lower and its upper bounds. -/
  | wildcard (site : Option Nat) (upper lower : List Ty)
  /-- A type variable. -/
  | var (key : VarKey) (bounds : List Ty)
  deriving Inhabited

namespace Ty

/-- The five kinds of types. -/
inductive Kind where
  | nominal
  | applied
  | array
  | wildcard
  | var
  deriving DecidableEq, Inhabited

/-- The name of a kind in traces. -/
def Kind.render : Kind → String
  | nominal => "class"
  | applied => "parameterized"
  | array => "array"
  | wildcard => "wildcard"
  | var => "variable"

/-- The kind of a type. -/
def kind : Ty → Kind
  | nominal _ => .nominal
  | applied _ _ _ => .applied
  | array _ => .array
  | wildcard _ _ _ => .wildcard
  | var _ _ => .var

/-- The class of that name, not an array. -/
def plain (name : String) : Ty := nominal (.plain name)

/-- The class above all others. -/
def top : Ty := nominal .top

/-- The wildcard `? extends bound`. -/
def extending (bound : Ty) : Ty := wildcard none [bound] []

/-- The wildcard `? super bound`. -/
def above (bound : Ty) : Ty := wildcard none [top] [bound]

/-- The wildcard `?`. -/
def any : Ty := extending top

/-- The variable of that key without bounds. -/
def ofKey (k : VarKey) : Ty := var k []

/-- Is this the class above all others? -/
def isTop : Ty → Bool
  | nominal c => c.isTop
  | _ => false

/-- Is this a wildcard? -/
def isWildcard (t : Ty) : Bool := decide (t.kind = .wildcard)

/-- Are these the bounds of the wildcard `?`: no lower bound, and the top class alone above? -/
def boundsNothing (upper lower : List Ty) : Bool :=
  lower.isEmpty && match upper with
    | [b] => b.isTop
    | _ => false

/-- The class, if the type is one. -/
def nominal? : Ty → Option Nominal
  | nominal c => some c
  | _ => none

/-- The key of the variable, if the type is one. -/
def key? : Ty → Option VarKey
  | var k _ => some k
  | _ => none

/-- Is the type the variable of that key, whatever its bounds? -/
def hasKey (t : Ty) (k : VarKey) : Bool := decide (t.key? = some k)

/-- Induction on types, with the hypothesis for every type in an owner or a list. -/
@[elab_as_elim]
theorem induct {P : Ty → Prop}
    (nominal : ∀ c, P (nominal c))
    (applied : ∀ owner raw args, (∀ o ∈ owner, P o) → (∀ a ∈ args, P a) →
      P (applied owner raw args))
    (array : ∀ c, P c → P (array c))
    (wildcard : ∀ site upper lower, (∀ b ∈ upper, P b) → (∀ b ∈ lower, P b) →
      P (wildcard site upper lower))
    (var : ∀ k bounds, (∀ b ∈ bounds, P b) → P (var k bounds))
    (t : Ty) : P t :=
  @Ty.rec P (fun o => ∀ t ∈ o, P t) (fun ts => ∀ t ∈ ts, P t)
    nominal
    (fun owner raw args ho ha => applied owner raw args ho ha)
    array
    (fun site upper lower hu hl => wildcard site upper lower hu hl)
    var
    (by simp)
    (fun o ho t ht => by
      rw [Option.mem_some_iff] at ht
      exact ht ▸ ho)
    (by simp)
    (fun head tail hh ht t hm => by
      rcases List.mem_cons.mp hm with rfl | hm
      · exact hh
      · exact ht t hm)
    t

end Ty

end Generics
