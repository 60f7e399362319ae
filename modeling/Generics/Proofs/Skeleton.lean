import Generics.Proofs.NormalForm
import Generics.Ty.Compare

/-!
# Generics.Proofs.Skeleton: types without the bounds of their variables

The skeleton of a type is the type with the bounds of all variables and the sites of all wildcards
erased.  Two types agree exactly when their skeletons are equal (`agrees_iff`), so agreement is an
equivalence and every fact about it can be shown by rewriting skeletons.  Building arrays and listing
variables see nothing but the skeleton (`skeleton_arrayOf`, `vars_skeleton`).
-/

namespace Generics.Ty

/-! ## Definition -/

mutual

/-- The type with the bounds of its variables and the sites of its wildcards erased. -/
def skeleton : Ty → Ty
  | nominal c => nominal c
  | applied owner raw args => applied (skeletonOwner owner) raw (skeletonEach args)
  | array c => array (skeleton c)
  | wildcard _ upper lower => wildcard none (skeletonEach upper) (skeletonEach lower)
  | var k _ => ofKey k

/-- The skeleton of an owner. -/
def skeletonOwner : Option Ty → Option Ty
  | none => none
  | some o => some (skeleton o)

/-- The skeletons of the types of a list. -/
def skeletonEach : List Ty → List Ty
  | [] => []
  | t :: ts => skeleton t :: skeletonEach ts

end

theorem skeletonOwner_eq_map (owner : Option Ty) : skeletonOwner owner = owner.map skeleton := by
  cases owner <;> rfl

theorem skeletonEach_eq_map (ts : List Ty) : skeletonEach ts = ts.map skeleton := by
  induction ts with
  | nil => rfl
  | cons t ts ih => rw [skeletonEach, ih, List.map_cons]

@[simp] theorem skeleton_nominal (c : Nominal) : skeleton (nominal c) = nominal c := rfl

@[simp] theorem skeleton_applied (owner : Option Ty) (raw : Nominal) (args : List Ty) :
    skeleton (applied owner raw args) =
      applied (owner.map skeleton) raw (args.map skeleton) := by
  show applied (skeletonOwner owner) raw (skeletonEach args) = _
  rw [skeletonOwner_eq_map, skeletonEach_eq_map]

@[simp] theorem skeleton_array (c : Ty) : skeleton (array c) = array (skeleton c) := rfl

@[simp] theorem skeleton_wildcard (site : Option Nat) (upper lower : List Ty) :
    skeleton (wildcard site upper lower) =
      wildcard none (upper.map skeleton) (lower.map skeleton) := by
  show wildcard none (skeletonEach upper) (skeletonEach lower) = _
  rw [skeletonEach_eq_map, skeletonEach_eq_map]

@[simp] theorem skeleton_var (k : VarKey) (bounds : List Ty) : skeleton (var k bounds) = ofKey k :=
  rfl

@[simp] theorem skeleton_ofKey (k : VarKey) : skeleton (ofKey k) = ofKey k := skeleton_var k []

@[simp] theorem skeleton_top : skeleton top = top := skeleton_nominal _

@[simp] theorem kind_skeleton (t : Ty) : (skeleton t).kind = t.kind := by
  cases t <;> simp [kind, ofKey]

@[simp] theorem isWildcard_skeleton (t : Ty) : (skeleton t).isWildcard = t.isWildcard := by
  simp [isWildcard]

/-! ## Agreement -/

section Agreement

/-- Lists agree when their skeletons are equal, if that is so for the members of the first. -/
theorem agreesEach_iff {as : List Ty}
    (h : ∀ a ∈ as, ∀ b, agrees a b = true ↔ skeleton a = skeleton b) (bs : List Ty) :
    agreesEach as bs = true ↔ as.map skeleton = bs.map skeleton := by
  induction as generalizing bs with
  | nil => cases bs <;> simp [agreesEach]
  | cons a as ih =>
    cases bs with
    | nil => simp [agreesEach]
    | cons b bs =>
      have hhead := h a List.mem_cons_self b
      have htail := ih (fun c hc => h c (List.mem_cons_of_mem a hc)) bs
      rw [agreesEach, Bool.and_eq_true, hhead, htail, List.map_cons, List.map_cons,
        List.cons.injEq]

theorem agreesOwner_iff {o : Option Ty}
    (h : ∀ a ∈ o, ∀ b, agrees a b = true ↔ skeleton a = skeleton b) (p : Option Ty) :
    agreesOwner o p = true ↔ o.map skeleton = p.map skeleton := by
  cases o with
  | none => cases p <;> simp [agreesOwner]
  | some a =>
    cases p with
    | none => simp [agreesOwner]
    | some b => rw [agreesOwner, h a rfl b, Option.map_some, Option.map_some, Option.some.injEq]

/-- **Agreement is equality of skeletons.** -/
theorem agrees_iff {a b : Ty} : agrees a b = true ↔ skeleton a = skeleton b := by
  induction a using induct generalizing b with
  | nominal c => cases b <;> simp [agrees, ofKey]
  | applied owner raw args ho ha =>
    cases b with
    | applied owner' raw' args' =>
      rw [agrees, Bool.and_eq_true, Bool.and_eq_true, decide_eq_true_eq,
        agreesOwner_iff (fun a h b => ho a h), agreesEach_iff (fun a h b => ha a h),
        skeleton_applied, skeleton_applied, applied.injEq, and_assoc, and_left_comm]
    | _ => simp [agrees, ofKey]
  | array c ih =>
    cases b with
    | array d => rw [agrees, ih, skeleton_array, skeleton_array, array.injEq]
    | _ => simp [agrees, ofKey]
  | wildcard site upper lower hu hl =>
    cases b with
    | wildcard site' upper' lower' =>
      rw [agrees, Bool.and_eq_true, agreesEach_iff (fun a h b => hu a h),
        agreesEach_iff (fun a h b => hl a h), skeleton_wildcard, skeleton_wildcard,
        wildcard.injEq]
      simp
    | _ => simp [agrees, ofKey]
  | var k bounds _ => cases b <;> simp [agrees, ofKey]

end Agreement

/-! ## Arrays and variables see the skeleton only -/

@[simp] theorem folds_skeleton (t : Ty) : (skeleton t).folds = t.folds := by
  cases t with
  | wildcard site upper lower => simp [folds_wildcard]
  | _ => simp [folds, ofKey]

@[simp] theorem isFull_skeleton (t : Ty) : (skeleton t).isFull = t.isFull := by
  cases t <;> simp [isFull, ofKey]

/-- The skeleton of an array is the array of the skeleton. -/
theorem skeleton_arrayOf (t : Ty) : skeleton (arrayOf t) = arrayOf (skeleton t) := by
  induction t using arrayOf_induct with
  | nominal c => rw [arrayOf_nominal, skeleton_nominal, skeleton_nominal, arrayOf_nominal]
  | lower site upper lower ih =>
    rw [skeleton_wildcard, List.map_singleton, arrayOf_wildcard_lower, arrayOf_wildcard_lower,
      above, skeleton_wildcard, List.map_singleton, List.map_singleton, skeleton_top, ih, above]
  | upper site upper ih =>
    rw [skeleton_wildcard, List.map_singleton, List.map_nil, arrayOf_wildcard_upper,
      arrayOf_wildcard_upper, extending, skeleton_wildcard, List.map_singleton, List.map_nil, ih,
      extending]
  | other t hf =>
    have hs : (skeleton t).folds = false := by rw [folds_skeleton, hf]
    rw [arrayOf_of_not_folds hf, arrayOf_of_not_folds hs, skeleton_array]

/-- The skeleton of a normal type is normal. -/
theorem normal_skeleton {t : Ty} (h : normal t = true) : normal (skeleton t) = true := by
  induction t using induct with
  | nominal c => rw [skeleton_nominal, normal_nominal]
  | applied owner raw args ho ha =>
    obtain ⟨hno, hna⟩ := normal_applied.mp h
    rw [skeleton_applied, normal_applied]
    refine ⟨fun o hm => ?_, fun a hm => ?_⟩
    · obtain ⟨p, hp, rfl⟩ := Option.map_eq_some_iff.mp hm
      exact ho p hp (hno p hp)
    · obtain ⟨p, hp, rfl⟩ := List.mem_map.mp hm
      exact ha p hp (hna p hp)
  | array c ih =>
    obtain ⟨hf, hc⟩ := normal_array.mp h
    rw [skeleton_array, normal_array, folds_skeleton]
    exact ⟨hf, ih hc⟩
  | wildcard site upper lower hu hl =>
    obtain ⟨hnu, hnl⟩ := normal_wildcard.mp h
    rw [skeleton_wildcard, normal_wildcard]
    refine ⟨fun b hm => ?_, fun b hm => ?_⟩
    · obtain ⟨p, hp, rfl⟩ := List.mem_map.mp hm
      exact hu p hp (hnu p hp)
    · obtain ⟨p, hp, rfl⟩ := List.mem_map.mp hm
      exact hl p hp (hnl p hp)
  | var k bounds _ => rw [skeleton_var, normal_ofKey]

/-- The parts of a skeleton are the skeletons of the parts. -/
theorem exists_of_mem_nodes_skeleton {s t : Ty} (h : s ∈ nodes (skeleton t)) :
    ∃ u ∈ nodes t, s = skeleton u := by
  induction t using induct with
  | nominal c => exact ⟨nominal c, self_mem_nodes _, mem_nodes_nominal.mp (skeleton_nominal c ▸ h)⟩
  | applied owner raw args ho ha =>
    rw [skeleton_applied, mem_nodes_applied, ← skeleton_applied] at h
    rcases h with h | ⟨o', ho', h⟩ | ⟨a', ha', h⟩
    · exact ⟨applied owner raw args, self_mem_nodes _, h⟩
    · obtain ⟨o, hm, rfl⟩ := Option.map_eq_some_iff.mp ho'
      obtain ⟨u, hu, hs⟩ := ho o hm h
      exact ⟨u, mem_nodes_applied.mpr (.inr (.inl ⟨o, hm, hu⟩)), hs⟩
    · obtain ⟨a, hm, rfl⟩ := List.mem_map.mp ha'
      obtain ⟨u, hu, hs⟩ := ha a hm h
      exact ⟨u, mem_nodes_applied.mpr (.inr (.inr ⟨a, hm, hu⟩)), hs⟩
  | array c ih =>
    rw [skeleton_array, mem_nodes_array, ← skeleton_array] at h
    rcases h with h | h
    · exact ⟨array c, self_mem_nodes _, h⟩
    · obtain ⟨u, hu, hs⟩ := ih h
      exact ⟨u, mem_nodes_array.mpr (.inr hu), hs⟩
  | wildcard site upper lower hu hl =>
    rw [skeleton_wildcard, mem_nodes_wildcard, ← skeleton_wildcard site] at h
    rcases h with h | ⟨b', hb', h⟩ | ⟨b', hb', h⟩
    · exact ⟨wildcard site upper lower, self_mem_nodes _, h⟩
    · obtain ⟨b, hm, rfl⟩ := List.mem_map.mp hb'
      obtain ⟨u, hu, hs⟩ := hu b hm h
      exact ⟨u, mem_nodes_wildcard.mpr (.inr (.inl ⟨b, hm, hu⟩)), hs⟩
    · obtain ⟨b, hm, rfl⟩ := List.mem_map.mp hb'
      obtain ⟨u, hu, hs⟩ := hl b hm h
      exact ⟨u, mem_nodes_wildcard.mpr (.inr (.inr ⟨b, hm, hu⟩)), hs⟩
  | var k bounds _ =>
    refine ⟨var k bounds, self_mem_nodes _, ?_⟩
    rw [skeleton_var] at h ⊢
    exact mem_nodes_var.mp h

/-- The variables of a skeleton have no bounds. -/
theorem bounds_of_mem_nodes_skeleton {t : Ty} {k : VarKey} {bounds : List Ty}
    (h : var k bounds ∈ nodes (skeleton t)) : bounds = [] := by
  obtain ⟨u, -, hu⟩ := exists_of_mem_nodes_skeleton h
  cases u <;> simp_all [ofKey]

/-- A type and its skeleton have the same variables. -/
@[simp] theorem vars_skeleton (t : Ty) : vars (skeleton t) = vars t := by
  have hmap : ∀ ts : List Ty, (∀ s ∈ ts, vars (skeleton s) = vars s) →
      (ts.map skeleton).flatMap vars = ts.flatMap vars := by
    intro ts h
    rw [List.flatMap_map, List.flatMap_def, List.flatMap_def, List.map_congr_left h]
  induction t using induct with
  | nominal c => rw [skeleton_nominal]
  | applied owner raw args ho ha =>
    rw [skeleton_applied, vars, vars, varsEach_eq_flatMap, varsEach_eq_flatMap, hmap args ha]
    cases owner with
    | none => rfl
    | some o => rw [Option.map_some, varsOwner, varsOwner, ho o rfl]
  | array c ih => rw [skeleton_array, vars_array, vars_array, ih]
  | wildcard site upper lower hu hl =>
    rw [skeleton_wildcard, vars, vars, varsEach_eq_flatMap, varsEach_eq_flatMap,
      varsEach_eq_flatMap, varsEach_eq_flatMap, hmap upper hu, hmap lower hl]
  | var k bounds _ => rw [skeleton_var, vars_ofKey, vars_var]

/-- Building an array brings in no variable; it may drop some, those of an upper bound. -/
theorem mem_vars_of_arrayOf {k : VarKey} {t : Ty} (h : k ∈ vars (arrayOf t)) : k ∈ vars t := by
  induction t using arrayOf_induct with
  | nominal c => simp [arrayOf_nominal] at h
  | lower site upper lower ih =>
    rw [arrayOf_wildcard_lower, above, mem_vars_wildcard] at h
    obtain ⟨b, hb, hk⟩ | ⟨b, hb, hk⟩ := h
    · rw [List.mem_singleton.mp hb] at hk
      simp [top] at hk
    · rw [List.mem_singleton.mp hb] at hk
      exact mem_vars_wildcard.mpr (.inr ⟨lower, List.mem_singleton_self lower, ih hk⟩)
  | upper site upper ih =>
    rw [arrayOf_wildcard_upper, extending, mem_vars_wildcard] at h
    obtain ⟨b, hb, hk⟩ | ⟨b, hb, hk⟩ := h
    · rw [List.mem_singleton.mp hb] at hk
      exact mem_vars_wildcard.mpr (.inl ⟨upper, List.mem_singleton_self upper, ih hk⟩)
    · simp at hb
  | other t hf => rwa [arrayOf_of_not_folds hf, vars_array] at h

end Generics.Ty
