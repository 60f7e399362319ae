import Generics.Table
import Generics.Trace

/-!
# Generics.Unifier: collecting bindings from many pairs, with a trace

A `Unifier` collects the bindings of the pairs it is given, a later binding of a variable replacing
an earlier one.  A pair that clashes changes no binding.  If asked to, the unifier also records the
decisions of all courses, up to a limit, numbered from one.
-/

namespace Generics

/-- Whether decisions are recorded, and how many at most. -/
structure Tracing where
  record : Bool := false
  limit : Nat := 256
  deriving DecidableEq, Inhabited

/-- The bindings collected so far, and the trace. -/
structure Unifier where
  tracing : Tracing := {}
  bindings : Table := .empty
  trace : Array TraceStep := #[]
  deriving Inhabited

namespace Unifier

/-- Records a decision, if it is to be recorded and there is room. -/
def note (u : Unifier) (d : Decision) : Unifier :=
  if u.tracing.record ∧ u.trace.size < u.tracing.limit then
    { u with trace := u.trace.push ⟨u.trace.size + 1, d⟩ }
  else u

/-- Records decisions in order. -/
def noteAll (u : Unifier) (ds : List Decision) : Unifier := ds.foldl note u

/-- Compares a formal with an actual type and takes over the bindings, or none if they clash.  What
is decided is recorded in both cases. -/
def unify (u : Unifier) (formal actual : Ty) : Except Clash Unit × Unifier :=
  let course := formal.settle actual
  let noted := u.noteAll course.decisions
  match course.clash? with
  | some c => (.error c, noted)
  | none => (.ok (), { noted with bindings := noted.bindings.insertAll course.bindings })

end Unifier

/-- The table extended with what the variables of the formal type stand for. -/
def Table.unify (T : Table) (formal actual : Ty) : Except Failure Table :=
  match Unifier.unify {} formal actual with
  | (.error c, _) => .error (.clash c)
  | (.ok (), u) => (T.extend u.bindings.entries).mapError .violation

/-- What the variables of the formal type stand for. -/
def unify (formal actual : Ty) : Except Failure Table := Table.empty.unify formal actual

end Generics
