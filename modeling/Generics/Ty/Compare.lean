import Generics.Ty

/-!
# Generics.Ty.Compare: two ways to compare types

`agrees` takes variables for equal when their keys are, whatever their bounds: it is the equality
that unification, tables and the supertype walk use.  `identical` compares the bounds as well.
Neither looks at the sites of wildcards.
-/

namespace Generics.Ty

mutual

/-- Equality of types that knows variables by their keys alone. -/
def agrees : Ty → Ty → Bool
  | nominal c, nominal d => decide (c = d)
  | applied o r as, applied p s bs => decide (r = s) && agreesOwner o p && agreesEach as bs
  | array c, array d => agrees c d
  | wildcard _ u l, wildcard _ v m => agreesEach u v && agreesEach l m
  | var k _, var j _ => decide (k = j)
  | _, _ => false

/-- Two owners agree when both are absent, or both are present and agree. -/
def agreesOwner : Option Ty → Option Ty → Bool
  | none, none => true
  | some a, some b => agrees a b
  | _, _ => false

/-- Two lists of types agree when they are of one length and agree member by member. -/
def agreesEach : List Ty → List Ty → Bool
  | [], [] => true
  | a :: as, b :: bs => agrees a b && agreesEach as bs
  | _, _ => false

end

mutual

/-- Equality of types that also compares the bounds of variables, at every depth. -/
def identical : Ty → Ty → Bool
  | nominal c, nominal d => decide (c = d)
  | applied o r as, applied p s bs => decide (r = s) && identicalOwner o p && identicalEach as bs
  | array c, array d => identical c d
  | wildcard _ u l, wildcard _ v m => identicalEach u v && identicalEach l m
  | var k bs, var j cs => decide (k = j) && identicalEach bs cs
  | _, _ => false

/-- Two owners are identical when both are absent, or both are present and identical. -/
def identicalOwner : Option Ty → Option Ty → Bool
  | none, none => true
  | some a, some b => identical a b
  | _, _ => false

/-- Two lists of types are identical when they are of one length and identical throughout. -/
def identicalEach : List Ty → List Ty → Bool
  | [], [] => true
  | a :: as, b :: bs => identical a b && identicalEach as bs
  | _, _ => false

end

theorem agreesEach_refl {ts : List Ty} (h : ∀ t ∈ ts, agrees t t = true) :
    agreesEach ts ts = true := by
  induction ts with
  | nil => rfl
  | cons t ts ih =>
    rw [agreesEach, h t List.mem_cons_self, ih fun s hs => h s (List.mem_cons_of_mem t hs)]
    rfl

/-- Every type agrees with itself. -/
@[simp] theorem agrees_refl (t : Ty) : agrees t t = true := by
  induction t using induct with
  | nominal c => simp [agrees]
  | applied owner raw args ho ha =>
    have howner : agreesOwner owner owner = true := by
      cases owner with
      | none => rfl
      | some o => exact ho o rfl
    simp [agrees, howner, agreesEach_refl ha]
  | array c ih => simpa [agrees] using ih
  | wildcard site upper lower hu hl => simp [agrees, agreesEach_refl hu, agreesEach_refl hl]
  | var k bounds _ => simp [agrees]

/-- Is `t` equal to a member of the list, up to the bounds of variables? -/
def listed (t : Ty) (ts : List Ty) : Bool := ts.any (agrees t)

/-- For each type of a list: is it new, not equal to one before it up to the bounds of variables? -/
def firstMarks (ts : List Ty) : List Bool :=
  ts.zipIdx.map fun (t, i) => !t.listed (ts.take i)

end Generics.Ty
