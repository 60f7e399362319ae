import Generics.Supertypes
import Generics.Ty.Site
import Generics.Unifier

/-!
# Generics.Session: types, tables and unifiers under names

A `Session` keeps types, tables, unifiers and declarations from one command to the next, and the
numbers that are used up on the way.  What it keeps has a site at every wildcard, so a wildcard that
is kept once and used twice is known as the same.
-/

namespace Generics

/-- A table in which every wildcard has a site, and the next free site. -/
def Table.assignSites (next : Nat) (T : Table) : Table × Nat :=
  T.entries.foldl (fun (S, n) (k, t) =>
    let sited := t.assignSites n
    (S.insert k sited.1, sited.2)) (.empty, next)

/-- What is kept between commands. -/
structure Session where
  types : List (String × Ty) := []
  tables : List (String × Table) := []
  unifiers : List (String × Unifier) := []
  registry : Registry := .empty
  /-- The first free site. -/
  nextSite : Nat := 0
  /-- The first free number for a captured variable. -/
  nextCapture : Nat := 1
  deriving Inhabited

namespace Session

/-- The type under a name. -/
def type? (s : Session) (name : String) : Option Ty := s.types.lookup name

/-- The table under a name. -/
def table? (s : Session) (name : String) : Option Table := s.tables.lookup name

/-- The unifier under a name. -/
def unifier? (s : Session) (name : String) : Option Unifier := s.unifiers.lookup name

/-- Takes a type in: its wildcards get sites. -/
def takeIn (s : Session) (t : Ty) : Ty × Session :=
  let sited := t.assignSites s.nextSite
  (sited.1, { s with nextSite := sited.2 })

/-- Keeps a type under a name. -/
def keepType (s : Session) (name : String) (t : Ty) : Session :=
  let taken := s.takeIn t
  { taken.2 with types := (name, taken.1) :: s.types }

/-- Keeps a table under a name. -/
def keepTable (s : Session) (name : String) (T : Table) : Session :=
  let sited := T.assignSites s.nextSite
  { s with tables := (name, sited.1) :: s.tables, nextSite := sited.2 }

/-- Keeps a unifier under a name. -/
def keepUnifier (s : Session) (name : String) (u : Unifier) : Session :=
  let sited := u.bindings.assignSites s.nextSite
  { s with
    unifiers := (name, { u with bindings := sited.1 }) :: s.unifiers
    nextSite := sited.2 }

/-- Puts a declaration under a name. -/
def register (s : Session) (name : String) (d : Declaration) : Session :=
  { s with registry := s.registry.register name d }

/-- A type with its wildcards captured. -/
def capture (s : Session) (t : Ty) : Ty × Session :=
  let captured := t.capture s.nextCapture
  (captured.1, { s with nextCapture := captured.2 })

/-- What a context says about the parameters of its supertypes. -/
def survey (s : Session) (context : Ty) : Except Violation Table × Session :=
  let found := s.registry.survey context s.nextCapture
  (found.1, { s with nextCapture := found.2 })

/-- The table of what a context says about the parameters of its supertypes. -/
def contextTable (s : Session) (context : Ty) : Except Violation Table × Session :=
  let found := s.registry.contextTable context s.nextCapture
  (found.1, { s with nextCapture := found.2 })

/-- Compares a formal with an actual type through a unifier, which is kept under its name. -/
def unify (s : Session) (name : String) (u : Unifier) (formal actual : Ty) :
    Except Clash Unit × Session :=
  let result := u.unify formal actual
  (result.1, s.keepUnifier name result.2)

end Session

end Generics
