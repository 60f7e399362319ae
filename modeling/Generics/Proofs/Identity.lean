import Generics.Proofs.NormalForm
import Generics.Ty.Compare

/-!
# Generics.Proofs.Identity: types without the sites of their wildcards

Two types are identical when they differ in the sites of wildcards only.  `unsited` erases the sites
and keeps all else, the bounds of variables included; so two types are identical exactly when they are
equal after that (`identical_iff`), and identity can be shown by rewriting.
-/

namespace Generics.Ty

/-! ## Definition -/

mutual

/-- The type with the sites of its wildcards erased, also inside the bounds of variables. -/
def unsited : Ty → Ty
  | nominal c => nominal c
  | applied owner raw args => applied (unsitedOwner owner) raw (unsitedEach args)
  | array c => array (unsited c)
  | wildcard _ upper lower => wildcard none (unsitedEach upper) (unsitedEach lower)
  | var k bounds => var k (unsitedEach bounds)

/-- An owner with the sites erased. -/
def unsitedOwner : Option Ty → Option Ty
  | none => none
  | some o => some (unsited o)

/-- The types of a list with the sites erased. -/
def unsitedEach : List Ty → List Ty
  | [] => []
  | t :: ts => unsited t :: unsitedEach ts

end

theorem unsitedOwner_eq_map (owner : Option Ty) : unsitedOwner owner = owner.map unsited := by
  cases owner <;> rfl

theorem unsitedEach_eq_map (ts : List Ty) : unsitedEach ts = ts.map unsited := by
  induction ts with
  | nil => rfl
  | cons t ts ih => rw [unsitedEach, ih, List.map_cons]

@[simp] theorem unsited_nominal (c : Nominal) : unsited (nominal c) = nominal c := rfl

@[simp] theorem unsited_applied (owner : Option Ty) (raw : Nominal) (args : List Ty) :
    unsited (applied owner raw args) = applied (owner.map unsited) raw (args.map unsited) := by
  show applied (unsitedOwner owner) raw (unsitedEach args) = _
  rw [unsitedOwner_eq_map, unsitedEach_eq_map]

@[simp] theorem unsited_array (c : Ty) : unsited (array c) = array (unsited c) := rfl

@[simp] theorem unsited_wildcard (site : Option Nat) (upper lower : List Ty) :
    unsited (wildcard site upper lower) = wildcard none (upper.map unsited) (lower.map unsited) := by
  show wildcard none (unsitedEach upper) (unsitedEach lower) = _
  rw [unsitedEach_eq_map, unsitedEach_eq_map]

@[simp] theorem unsited_var (k : VarKey) (bounds : List Ty) :
    unsited (var k bounds) = var k (bounds.map unsited) := by
  show var k (unsitedEach bounds) = _
  rw [unsitedEach_eq_map]

@[simp] theorem unsited_top : unsited top = top := unsited_nominal _

@[simp] theorem unsited_unsited (t : Ty) : unsited (unsited t) = unsited t := by
  induction t using induct with
  | nominal c => rw [unsited_nominal, unsited_nominal]
  | applied owner raw args ho ha =>
    simp only [unsited_applied, Option.map_map, List.map_map, applied.injEq, true_and]
    exact ⟨Option.map_congr ho, List.map_congr_left ha⟩
  | array c ih => rw [unsited_array, unsited_array, ih]
  | wildcard site upper lower hu hl =>
    simp only [unsited_wildcard, List.map_map, wildcard.injEq, true_and]
    exact ⟨List.map_congr_left hu, List.map_congr_left hl⟩
  | var k bounds hb =>
    simp only [unsited_var, List.map_map, var.injEq, true_and]
    exact List.map_congr_left hb

/-! ## Identity -/

section Identity

/-- Lists are identical when they are equal up to sites, if that is so for the members of the
first. -/
theorem identicalEach_of_forall {as : List Ty}
    (h : ∀ a ∈ as, ∀ b, identical a b = true ↔ unsited a = unsited b) (bs : List Ty) :
    identicalEach as bs = true ↔ as.map unsited = bs.map unsited := by
  induction as generalizing bs with
  | nil => cases bs <;> simp [identicalEach]
  | cons a as ih =>
    cases bs with
    | nil => simp [identicalEach]
    | cons b bs =>
      have hhead := h a List.mem_cons_self b
      have htail := ih (fun c hc => h c (List.mem_cons_of_mem a hc)) bs
      rw [identicalEach, Bool.and_eq_true, hhead, htail, List.map_cons, List.map_cons,
        List.cons.injEq]

theorem identicalOwner_of_forall {o : Option Ty}
    (h : ∀ a ∈ o, ∀ b, identical a b = true ↔ unsited a = unsited b) (p : Option Ty) :
    identicalOwner o p = true ↔ o.map unsited = p.map unsited := by
  cases o with
  | none => cases p <;> simp [identicalOwner]
  | some a =>
    cases p with
    | none => simp [identicalOwner]
    | some b => rw [identicalOwner, h a rfl b, Option.map_some, Option.map_some, Option.some.injEq]

/-- **Identity is equality up to sites.** -/
theorem identical_iff {a b : Ty} : identical a b = true ↔ unsited a = unsited b := by
  induction a using induct generalizing b with
  | nominal c => cases b <;> simp [identical]
  | applied owner raw args ho ha =>
    cases b with
    | applied owner' raw' args' =>
      rw [identical, Bool.and_eq_true, Bool.and_eq_true, decide_eq_true_eq,
        identicalOwner_of_forall (fun a h b => ho a h), identicalEach_of_forall (fun a h b => ha a h),
        unsited_applied, unsited_applied, applied.injEq, and_assoc, and_left_comm]
    | _ => simp [identical]
  | array c ih =>
    cases b with
    | array d => rw [identical, ih, unsited_array, unsited_array, array.injEq]
    | _ => simp [identical]
  | wildcard site upper lower hu hl =>
    cases b with
    | wildcard site' upper' lower' =>
      rw [identical, Bool.and_eq_true, identicalEach_of_forall (fun a h b => hu a h),
        identicalEach_of_forall (fun a h b => hl a h), unsited_wildcard, unsited_wildcard,
        wildcard.injEq]
      simp
    | _ => simp [identical]
  | var k bounds hb =>
    cases b with
    | var j bounds' =>
      rw [identical, Bool.and_eq_true, decide_eq_true_eq,
        identicalEach_of_forall (fun a h b => hb a h), unsited_var, unsited_var, var.injEq]
    | _ => simp [identical]

theorem identicalEach_iff {as bs : List Ty} :
    identicalEach as bs = true ↔ as.map unsited = bs.map unsited :=
  identicalEach_of_forall (fun _ _ _ => identical_iff) bs

end Identity

/-! ## Arrays -/

@[simp] theorem folds_unsited (t : Ty) : (unsited t).folds = t.folds := by
  cases t with
  | wildcard site upper lower => simp [folds_wildcard]
  | _ => simp [folds]

/-- Building an array does not look at sites. -/
theorem unsited_arrayOf (t : Ty) : unsited (arrayOf t) = arrayOf (unsited t) := by
  induction t using arrayOf_induct with
  | nominal c => rw [arrayOf_nominal, unsited_nominal, unsited_nominal, arrayOf_nominal]
  | lower site upper lower ih =>
    rw [unsited_wildcard, List.map_singleton, arrayOf_wildcard_lower, arrayOf_wildcard_lower,
      above, unsited_wildcard, List.map_singleton, List.map_singleton, unsited_top, ih, above]
  | upper site upper ih =>
    rw [unsited_wildcard, List.map_singleton, List.map_nil, arrayOf_wildcard_upper,
      arrayOf_wildcard_upper, extending, unsited_wildcard, List.map_singleton, List.map_nil, ih,
      extending]
  | other t hf =>
    have hs : (unsited t).folds = false := by rw [folds_unsited, hf]
    rw [arrayOf_of_not_folds hf, arrayOf_of_not_folds hs, unsited_array]

end Generics.Ty
