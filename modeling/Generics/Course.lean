import Generics.Ty.Compare
import Generics.Ty.Array
import Generics.Failure

/-!
# Generics.Course: unifying a formal with an actual type

`formal.settle actual` compares a formal type with an actual type and says what the variables of the
formal type stand for.  The outcome is a `Course`: the decisions in the order in which they are
taken, and the clash that ended the comparison, if one did.  The bindings are part of the decisions
(`Course.bindings`), so whoever looks at a course, for a table or for a trace, looks at the same one.
-/

namespace Generics

/-- What is decided about a pair of types. -/
inductive Verdict where
  /-- The types agree already. -/
  | same
  /-- The formal type is this variable and stands for the actual type. -/
  | bind (key : VarKey)
  /-- The formal type is a wildcard, which takes anything. -/
  | wildcardTakes
  /-- The actual type is a wildcard, which anything satisfies. -/
  | wildcardSatisfied
  /-- Both are wildcards; their bounds are compared one by one. -/
  | splitBounds
  /-- Both apply one class to so many arguments, which are compared one by one. -/
  | splitArguments (count : Nat)
  /-- Both are array-shaped; what they hold is compared. -/
  | splitComponents
  /-- The types do not fit together. -/
  | clash (reason : Clash.Reason)
  deriving DecidableEq, Inhabited

/-- A pair of types and what is decided about it. -/
structure Decision where
  formal : Ty
  actual : Ty
  verdict : Verdict
  deriving Inhabited

/-- The variable that a decision binds, and the type it is bound to. -/
def Decision.binding? (d : Decision) : Option (VarKey × Ty) :=
  match d.verdict with
  | .bind k => some (k, d.actual)
  | _ => none

/-- The decisions of a comparison in order, and the clash that ended it, if one did. -/
structure Course where
  decisions : List Decision
  clash? : Option Clash
  deriving Inhabited

namespace Course

/-- Nothing to decide. -/
def done : Course := ⟨[], none⟩

/-- A single decision. -/
def settled (formal actual : Ty) (verdict : Verdict) : Course := ⟨[⟨formal, actual, verdict⟩], none⟩

/-- A clash, which ends the comparison. -/
def clashed (formal actual : Ty) (reason : Clash.Reason) : Course :=
  ⟨[⟨formal, actual, .clash reason⟩], some ⟨formal, actual, reason⟩⟩

/-- A course, and unless it ended in a clash the next one after it. -/
def andThen (c : Course) (next : Unit → Course) : Course :=
  match c.clash? with
  | some _ => c
  | none =>
    let rest := next ()
    ⟨c.decisions ++ rest.decisions, rest.clash?⟩

/-- The bindings decided on, in order. -/
def bindings (c : Course) : List (VarKey × Ty) := c.decisions.filterMap Decision.binding?

end Course

namespace Ty

mutual

/-- The course of comparing a formal with an actual type.  Types that agree need nothing; a formal
variable is bound; wildcards take and satisfy anything, without a look at their bounds, unless both
types are wildcards; all else is compared part by part. -/
def settle (formal actual : Ty) : Course :=
  if formal.agrees actual then .settled formal actual .same
  else match formal with
    | var k _ => .settled formal actual (.bind k)
    | wildcard _ upper lower =>
      match actual with
      | wildcard _ upper' lower' =>
        if upper.length ≠ upper'.length ∨ lower.length ≠ lower'.length then
          .clashed formal actual .boundCount
        else
          (Course.settled formal actual .splitBounds).andThen fun _ =>
            (settleEach upper upper').andThen fun _ => settleEach lower lower'
      | _ => .settled formal actual .wildcardTakes
    | applied owner raw args =>
      match actual with
      | wildcard _ _ _ => .settled formal actual .wildcardSatisfied
      | applied owner' raw' args' =>
        (settleOwners owner owner').andThen fun _ =>
          if raw ≠ raw' then .clashed formal actual (.differentClass raw raw')
          else if args.length ≠ args'.length then
            .clashed formal actual (.argumentCount args.length args'.length)
          else
            (Course.settled formal actual (.splitArguments args.length)).andThen fun _ =>
              settleEach args args'
      | _ => .clashed formal actual .notApplied
    | array c =>
      match actual with
      | wildcard _ _ _ => .settled formal actual .wildcardSatisfied
      | _ =>
        match actual.component? with
        | none => .clashed formal actual .notArray
        | some d =>
          (Course.settled formal actual .splitComponents).andThen fun _ => settle c d
    | nominal c =>
      match actual with
      | wildcard _ _ _ => .settled formal actual .wildcardSatisfied
      | _ => .clashed formal actual (.otherType c)

/-- Owners are compared only if both types have one. -/
def settleOwners : Option Ty → Option Ty → Course
  | some formal, some actual => settle formal actual
  | _, _ => .done

/-- The members of two lists compared one by one, up to the first clash. -/
def settleEach : List Ty → List Ty → Course
  | formal :: formals, actual :: actuals =>
    (settle formal actual).andThen fun _ => settleEach formals actuals
  | _, _ => .done

end

end Ty

end Generics
