import Generics.Ty.Compare
import Generics.Ty.Array
import Generics.Ty.Text

/-!
# Generics.Capture: replacing wildcards by fresh variables

`capture` replaces every wildcard of a type that has proper upper bounds and no lower bound by a
variable with those bounds, so that the type can take part in a supertype walk.  Wildcards in the
bounds of wildcards and of variables stay.  The variables are numbered; the first free number comes
in and the next free number goes out.

Occurrences of one wildcard, known by its site and its bounds, get one variable.  An occurrence
without a site always gets a variable of its own.
-/

namespace Generics

/-- A wildcard that has been captured, and the variable that stands for it. -/
structure Captured where
  site : Option Nat
  upper : List Ty
  key : VarKey
  deriving Inhabited

namespace Captured

/-- The variable, with the upper bounds of the wildcard. -/
def standIn (c : Captured) : Ty := .var c.key c.upper

/-- Is this the wildcard of that site with those bounds? -/
def isAt (c : Captured) (site : Option Nat) (upper : List Ty) : Bool :=
  site.isSome && decide (c.site = site) && Ty.identicalEach c.upper upper

end Captured

/-- The key of the variable with number `n` for a wildcard with these upper bounds. -/
def captureKey (n : Nat) (upper : List Ty) : VarKey :=
  { scope := .capture
    name := "capture#" ++ n.repr ++ "-of ? extends " ++ "&".intercalate (Ty.renderEach upper) }

/-- The next free number, and what has been captured so far, the latest first. -/
structure Captor where
  next : Nat
  captured : List Captured := []
  deriving Inhabited

namespace Captor

/-- Captures a wildcard for the first time. -/
def fresh (s : Captor) (site : Option Nat) (upper : List Ty) : Ty × Captor :=
  let c : Captured := ⟨site, upper, captureKey s.next upper⟩
  (c.standIn, ⟨s.next + 1, c :: s.captured⟩)

/-- The variable for a wildcard: the one it has, or else a new one. -/
def standInFor (s : Captor) (site : Option Nat) (upper : List Ty) : Ty × Captor :=
  match s.captured.find? fun c => c.isAt site upper with
  | some c => (c.standIn, s)
  | none => s.fresh site upper

end Captor

namespace Ty

mutual

/-- A type with its wildcards captured, continuing from `s`. -/
def captureFrom (s : Captor) : Ty → Ty × Captor
  | nominal c => (nominal c, s)
  | applied owner raw args =>
    let owned := captureOwnerFrom s owner
    let each := captureEachFrom owned.2 args
    (applied owned.1 raw each.1, each.2)
  | array c =>
    let held := captureFrom s c
    (held.1.arrayOf, held.2)
  | wildcard site upper lower =>
    if boundsNothing upper lower || !lower.isEmpty then (wildcard site upper lower, s)
    else s.standInFor site upper
  | var k bounds => (var k bounds, s)

/-- An owner with its wildcards captured. -/
def captureOwnerFrom (s : Captor) : Option Ty → Option Ty × Captor
  | none => (none, s)
  | some o =>
    let owned := captureFrom s o
    (some owned.1, owned.2)

/-- The types of a list with their wildcards captured, from left to right. -/
def captureEachFrom (s : Captor) : List Ty → List Ty × Captor
  | [] => ([], s)
  | t :: ts =>
    let first := captureFrom s t
    let rest := captureEachFrom first.2 ts
    (first.1 :: rest.1, rest.2)

end

/-- A type with its wildcards captured, and the next free number. -/
def capture (t : Ty) (next : Nat) : Ty × Nat :=
  let r := captureFrom ⟨next, []⟩ t
  (r.1, r.2.next)

end Ty

end Generics
