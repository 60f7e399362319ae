import Generics.Ty

/-!
# Generics.Ty.Site: giving wildcards a site

A type that is kept under a name may be used many times over, and its wildcards are then the same
wildcards at every use.  `assignSites` gives every wildcard that has no site a fresh one, also
inside the bounds of wildcards and variables; the first free site comes in, the next one goes out.
-/

namespace Generics.Ty

mutual

/-- A type in which every wildcard has a site, and the next free site. -/
def assignSites (next : Nat) : Ty → Ty × Nat
  | nominal c => (nominal c, next)
  | applied owner raw args =>
    let owned := assignSitesOwner next owner
    let each := assignSitesEach owned.2 args
    (applied owned.1 raw each.1, each.2)
  | array c =>
    let held := assignSites next c
    (array held.1, held.2)
  | wildcard site upper lower =>
    let uppers := assignSitesEach next upper
    let lowers := assignSitesEach uppers.2 lower
    match site with
    | some s => (wildcard (some s) uppers.1 lowers.1, lowers.2)
    | none => (wildcard (some lowers.2) uppers.1 lowers.1, lowers.2 + 1)
  | var k bounds =>
    let each := assignSitesEach next bounds
    (var k each.1, each.2)

/-- An owner in which every wildcard has a site. -/
def assignSitesOwner (next : Nat) : Option Ty → Option Ty × Nat
  | none => (none, next)
  | some o =>
    let owned := assignSites next o
    (some owned.1, owned.2)

/-- The types of a list, from left to right, in which every wildcard has a site. -/
def assignSitesEach (next : Nat) : List Ty → List Ty × Nat
  | [] => ([], next)
  | t :: ts =>
    let first := assignSites next t
    let rest := assignSitesEach first.2 ts
    (first.1 :: rest.1, rest.2)

end

end Generics.Ty
