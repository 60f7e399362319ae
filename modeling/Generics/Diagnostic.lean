/-!
# Generics.Diagnostic: coded messages for users

Every failure belongs to one of two categories, each with a stable code, a description and a fix
that is suggested by default.  A `Diagnostic` is a message of a category, with or without a hint.
-/

namespace Generics

/-- The two groups of failures. -/
inductive Category where
  /-- A formal and an actual type do not fit together. -/
  | malformedUnification
  /-- A binding or a declaration breaks a rule. -/
  | invariantViolation
  deriving DecidableEq, Inhabited

namespace Category

/-- All categories, in the order of their codes. -/
def all : List Category := [malformedUnification, invariantViolation]

def name : Category → String
  | malformedUnification => "malformed_unification"
  | invariantViolation => "invariant_violation"

/-- The category of that name. -/
def ofName? (s : String) : Option Category := all.find? fun c => decide (c.name = s)

def code : Category → String
  | malformedUnification => "E0001"
  | invariantViolation => "E0002"

def description : Category → String
  | malformedUnification => "The actual type does not have the shape required by the formal type."
  | invariantViolation => "A substitution or type declaration broke an engine invariant."

/-- What to do about a failure of the category. -/
def suggestion : Category → String
  | malformedUnification =>
    "Pass an actual type with the same raw type and argument count as the formal."
  | invariantViolation =>
    "Check the class registry declarations and never bind a variable to itself."

end Category

/-- A message of a category, with a hint if there is one. -/
structure Diagnostic where
  category : Category
  message : String
  help : Option String := none
  deriving DecidableEq, Inhabited

namespace Diagnostic

/-- The code of a diagnostic is that of its category. -/
def code (d : Diagnostic) : String := d.category.code

/-- Sets the hint, in place of the one before. -/
def advise (d : Diagnostic) (text : String) : Diagnostic := { d with help := some text }

/-- The hint stands on a line of its own. -/
def renderHelp : Option String → String
  | none => ""
  | some text => "\n  help: " ++ text

def render (d : Diagnostic) : String :=
  "error[" ++ d.code ++ "]: " ++ d.message ++ renderHelp d.help

end Diagnostic

end Generics
