import Generics.Table
import Generics.Ty.Array
import Generics.Count

/-!
# Generics.Table.Resolve: substituting a table into a type

`T.resolve t` replaces the variables of `t` by what `T` maps them to, and the variables found there
again by what `T` maps them to.  While the entry of a variable is being resolved, a `Shield` makes
that variable stand for itself; while the bounds of an unmapped variable are being resolved, one does
so for every variable of its scope.  So resolution ends on every table, cyclic or not: an entry is
opened only for a mapped key that no shield covers yet, and from then on one does
(`exposed_entry_lt`).
-/

namespace Generics

/-- A reason why variables stand for themselves for the time being. -/
inductive Shield where
  /-- The entry of this variable is being resolved. -/
  | entry (key : VarKey)
  /-- The bounds of a variable of this scope are being resolved. -/
  | bounds (scope : Scope)
  deriving DecidableEq, Inhabited

/-- Does the variable stand for itself because of the shield? -/
def Shield.covers : Shield → VarKey → Bool
  | entry j, k => decide (j = k)
  | bounds s, k => decide (s = k.scope)

/-- The shields that are up, the latest first. -/
abbrev Shields := List Shield

/-- Does the variable stand for itself because of some shield? -/
def Shields.cover (g : Shields) (k : VarKey) : Bool := g.any fun s => s.covers k

@[simp] theorem Shields.cover_nil (k : VarKey) : Shields.cover [] k = false := rfl

@[simp] theorem Shields.cover_cons (s : Shield) (g : Shields) (k : VarKey) :
    Shields.cover (s :: g) k = (s.covers k || Shields.cover g k) := rfl

theorem Shields.cover_entry {g : Shields} {j k : VarKey} :
    Shields.cover (.entry j :: g) k = true ↔ j = k ∨ g.cover k = true := by
  rw [Shields.cover_cons, Bool.or_eq_true, Shield.covers, decide_eq_true_eq]

theorem Shields.cover_bounds {g : Shields} {s : Scope} {k : VarKey} :
    Shields.cover (.bounds s :: g) k = true ↔ s = k.scope ∨ g.cover k = true := by
  rw [Shields.cover_cons, Bool.or_eq_true, Shield.covers, decide_eq_true_eq]

namespace Table

variable (T : Table)

/-- The number of entries whose keys no shield covers. -/
def exposed (g : Shields) : Nat := T.entries.countP fun e => !g.cover e.1

theorem exposed_cons_le (s : Shield) (g : Shields) : T.exposed (s :: g) ≤ T.exposed g := by
  refine List.countP_mono_left fun e _ he => ?_
  simp only [Shields.cover_cons, Bool.not_or, Bool.and_eq_true] at he
  exact he.2

variable {T}

/-- Opening an entry that is not covered leaves one fewer of these. -/
theorem exposed_entry_lt {g : Shields} {k : VarKey} {t : Ty} (hg : ¬ g.cover k = true)
    (h : T.get? k = some t) : T.exposed (.entry k :: g) < T.exposed g := by
  refine countP_lt (fun e _ he => ?_) (mem_of_get? h) (by simpa using hg) (by simp [Shield.covers])
  simp only [Shields.cover_cons, Bool.not_or, Bool.and_eq_true] at he
  exact he.2

variable (T)

mutual

/-- A type with the table substituted into it, while the shields are up. -/
def resolveUnder (g : Shields) : Ty → Ty
  | .nominal c => .nominal c
  | .applied owner raw args =>
    .applied (resolveOwnerUnder g owner) raw (resolveEachUnder g args)
  | .array c => (resolveUnder g c).arrayOf
  | .wildcard _ upper lower =>
    .wildcard none (resolveEachUnder g upper) (resolveEachUnder g lower)
  | .var k bounds =>
    if _hg : g.cover k = true then .var k bounds
    else match _h : T.get? k with
      | some t => resolveUnder (.entry k :: g) t
      | none =>
        let resolved := resolveEachUnder (.bounds k.scope :: g) bounds
        -- the variable itself, sites included, where its bounds do not change
        if Ty.identicalEach resolved bounds then .var k bounds else .var k resolved
  termination_by t => (T.exposed g, sizeOf t)
  decreasing_by
    · exact Prod.Lex.right _ (by rw [Ty.applied.sizeOf_spec]; omega)
    · exact Prod.Lex.right _ (by rw [Ty.applied.sizeOf_spec]; omega)
    · exact Prod.Lex.right _ (by rw [Ty.array.sizeOf_spec]; omega)
    · exact Prod.Lex.right _ (by rw [Ty.wildcard.sizeOf_spec]; omega)
    · exact Prod.Lex.right _ (by rw [Ty.wildcard.sizeOf_spec]; omega)
    · exact Prod.Lex.left _ _ (exposed_entry_lt _hg _h)
    · exact Prod.Lex.right' _ (T.exposed_cons_le _ g) (by rw [Ty.var.sizeOf_spec]; omega)

/-- An owner with the table substituted into it. -/
def resolveOwnerUnder (g : Shields) : Option Ty → Option Ty
  | none => none
  | some o => some (resolveUnder g o)
  termination_by o => (T.exposed g, sizeOf o)

/-- The types of a list with the table substituted into them. -/
def resolveEachUnder (g : Shields) : List Ty → List Ty
  | [] => []
  | t :: ts => resolveUnder g t :: resolveEachUnder g ts
  termination_by ts => (T.exposed g, sizeOf ts)

end

@[simp] theorem resolveEachUnder_eq_map (g : Shields) (ts : List Ty) :
    T.resolveEachUnder g ts = ts.map (T.resolveUnder g) := by
  induction ts with
  | nil => rw [resolveEachUnder, List.map_nil]
  | cons t ts ih => rw [resolveEachUnder, ih, List.map_cons]

/-- A covered variable stands for itself. -/
theorem resolveUnder_covered {g : Shields} {k : VarKey} (bounds : List Ty)
    (hg : g.cover k = true) : T.resolveUnder g (.var k bounds) = .var k bounds := by
  rw [resolveUnder, dif_pos hg]

/-- A mapped variable stands for its entry, resolved. -/
theorem resolveUnder_mapped {g : Shields} {k : VarKey} {t : Ty} (bounds : List Ty)
    (hg : ¬ g.cover k = true) (h : T.get? k = some t) :
    T.resolveUnder g (.var k bounds) = T.resolveUnder (.entry k :: g) t := by
  rw [resolveUnder, dif_neg hg]
  split
  · next u hu =>
    rw [h] at hu
    cases hu
    rfl
  · next hu =>
    rw [h] at hu
    cases hu

/-- Any other variable keeps its key, and its bounds are resolved. -/
theorem resolveUnder_unmapped {g : Shields} {k : VarKey} (bounds : List Ty)
    (hg : ¬ g.cover k = true) (h : T.get? k = none) :
    T.resolveUnder g (.var k bounds) =
      if Ty.identicalEach (bounds.map (T.resolveUnder (.bounds k.scope :: g))) bounds then
        .var k bounds
      else .var k (bounds.map (T.resolveUnder (.bounds k.scope :: g))) := by
  rw [resolveUnder, dif_neg hg]
  split
  · next u hu =>
    rw [h] at hu
    cases hu
  · simp only [resolveEachUnder_eq_map]

/-- A type with the table substituted into it. -/
def resolve (t : Ty) : Ty := T.resolveUnder [] t

/-- The types of a list with the table substituted into them. -/
def resolveEach (ts : List Ty) : List Ty := ts.map T.resolve

end Table

end Generics
