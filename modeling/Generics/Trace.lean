import Generics.Course

/-!
# Generics.Trace: decisions in words

A trace lists the decisions of a unification, numbered from one, each with what was done about which
pair of types and why.
-/

namespace Generics

/-- The kinds of decisions that a trace tells apart. -/
inductive Action where
  | identity
  | bind
  | acceptWildcard
  | decompose
  | error
  deriving DecidableEq, Inhabited

namespace Action

def render : Action → String
  | identity => "identity"
  | bind => "bind"
  | acceptWildcard => "accept_wildcard"
  | decompose => "decompose"
  | error => "error"

/-- All actions, in the order of their texts. -/
def all : List Action := [acceptWildcard, bind, decompose, error, identity]

end Action

/-- The kind of a verdict. -/
def Verdict.action : Verdict → Action
  | same => .identity
  | bind _ => .bind
  | wildcardTakes => .acceptWildcard
  | wildcardSatisfied => .acceptWildcard
  | splitBounds => .decompose
  | splitArguments _ => .decompose
  | splitComponents => .decompose
  | clash _ => .error

namespace Decision

def action (d : Decision) : Action := d.verdict.action

/-- A decision in words. -/
def detail (d : Decision) : String :=
  match d.verdict with
  | .same => "types already equal"
  | .bind k => k.name ++ " := " ++ d.actual.render
  | .wildcardTakes => "wildcard accepts any type"
  | .wildcardSatisfied => d.formal.kind.render ++ " satisfies a wildcard"
  | .splitBounds => "unify wildcard bounds pairwise"
  | .splitArguments count => "unify " ++ count.repr ++ " type arguments pairwise"
  | .splitComponents => "unify array components"
  | .clash reason => Clash.message ⟨d.formal, d.actual, reason⟩

end Decision

/-- A recorded decision. -/
structure TraceStep where
  number : Nat
  decision : Decision
  deriving Inhabited

namespace TraceStep

def render (s : TraceStep) : String :=
  s.number.repr ++ ". " ++ s.decision.action.render ++ " " ++ s.decision.formal.render ++ " ~ " ++
    s.decision.actual.render ++ ": " ++ s.decision.detail

/-- A trace, one step a line. -/
def renderAll (steps : List TraceStep) : String := "\n".intercalate (steps.map render)

end TraceStep

end Generics
