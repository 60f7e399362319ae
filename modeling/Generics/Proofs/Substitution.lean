import Generics.Proofs.Skeleton

/-!
# Generics.Proofs.Substitution: replacing variables once

`subst σ t` replaces every variable of `t` that `σ` gives a value by that value, all at once and
without a second look at what was put in.  The bounds of variables are left alone; arrays are rebuilt,
so that an array of a variable becomes an array class where the variable becomes a class.

Rebuilding commutes with substitution (`subst_arrayOf`), which makes two substitutions in a row one
substitution (`subst_subst`).
-/

namespace Generics.Ty

variable {σ τ : VarKey → Option Ty}

/-! ## Definition -/

mutual

/-- The type with every variable replaced by its value under `σ`, if it has one. -/
def subst (σ : VarKey → Option Ty) : Ty → Ty
  | nominal c => nominal c
  | applied owner raw args => applied (substOwner σ owner) raw (substEach σ args)
  | array c => (subst σ c).arrayOf
  | wildcard site upper lower => wildcard site (substEach σ upper) (substEach σ lower)
  | var k bounds => (σ k).getD (var k bounds)

/-- An owner with its variables replaced. -/
def substOwner (σ : VarKey → Option Ty) : Option Ty → Option Ty
  | none => none
  | some o => some (subst σ o)

/-- The types of a list with their variables replaced. -/
def substEach (σ : VarKey → Option Ty) : List Ty → List Ty
  | [] => []
  | t :: ts => subst σ t :: substEach σ ts

end

theorem substOwner_eq_map (owner : Option Ty) : substOwner σ owner = owner.map (subst σ) := by
  cases owner <;> rfl

theorem substEach_eq_map (ts : List Ty) : substEach σ ts = ts.map (subst σ) := by
  induction ts with
  | nil => rfl
  | cons t ts ih => rw [substEach, ih, List.map_cons]

@[simp] theorem subst_nominal (c : Nominal) : subst σ (nominal c) = nominal c := rfl

@[simp] theorem subst_applied (owner : Option Ty) (raw : Nominal) (args : List Ty) :
    subst σ (applied owner raw args) =
      applied (owner.map (subst σ)) raw (args.map (subst σ)) := by
  show applied (substOwner σ owner) raw (substEach σ args) = _
  rw [substOwner_eq_map, substEach_eq_map]

@[simp] theorem subst_array (c : Ty) : subst σ (array c) = (subst σ c).arrayOf := rfl

@[simp] theorem subst_wildcard (site : Option Nat) (upper lower : List Ty) :
    subst σ (wildcard site upper lower) =
      wildcard site (upper.map (subst σ)) (lower.map (subst σ)) := by
  show wildcard site (substEach σ upper) (substEach σ lower) = _
  rw [substEach_eq_map, substEach_eq_map]

@[simp] theorem subst_var (k : VarKey) (bounds : List Ty) :
    subst σ (var k bounds) = (σ k).getD (var k bounds) := rfl

@[simp] theorem subst_ofKey (k : VarKey) : subst σ (ofKey k) = (σ k).getD (ofKey k) :=
  subst_var k []

@[simp] theorem subst_top : subst σ top = top := subst_nominal _

/-! ## Laws -/

section Laws

/-- Substituting into an array and building the array of what was substituted into are the same:
where the type folds, it folds before as after. -/
theorem subst_arrayOf (t : Ty) : subst σ (arrayOf t) = arrayOf (subst σ t) := by
  induction t using arrayOf_induct with
  | nominal c => rw [arrayOf_nominal, subst_nominal, subst_nominal, arrayOf_nominal]
  | lower site upper lower ih =>
    rw [arrayOf_wildcard_lower, above, subst_wildcard, subst_wildcard, List.map_singleton,
      List.map_singleton, List.map_singleton, arrayOf_wildcard_lower, ih, subst_top, above]
  | upper site upper ih =>
    rw [arrayOf_wildcard_upper, extending, subst_wildcard, subst_wildcard, List.map_singleton,
      List.map_singleton, List.map_nil, arrayOf_wildcard_upper, ih, extending]
  | other t hf => rw [arrayOf_of_not_folds hf, subst_array]

/-- The result depends on the values of the variables of the type only. -/
theorem subst_congr {t : Ty} (h : ∀ k ∈ vars t, σ k = τ k) : subst σ t = subst τ t := by
  induction t using induct with
  | nominal c => rw [subst_nominal, subst_nominal]
  | applied owner raw args ho ha =>
    have howner : owner.map (subst σ) = owner.map (subst τ) :=
      Option.map_congr fun o hm =>
        ho o hm fun k hk => h k (mem_vars_applied.mpr (.inl ⟨o, hm, hk⟩))
    have hargs : args.map (subst σ) = args.map (subst τ) :=
      List.map_congr_left fun a hm =>
        ha a hm fun k hk => h k (mem_vars_applied.mpr (.inr ⟨a, hm, hk⟩))
    rw [subst_applied, subst_applied, howner, hargs]
  | array c ih =>
    rw [subst_array, subst_array, ih fun k hk => h k (by rwa [vars_array])]
  | wildcard site upper lower hu hl =>
    have hupper : upper.map (subst σ) = upper.map (subst τ) :=
      List.map_congr_left fun b hm =>
        hu b hm fun k hk => h k (mem_vars_wildcard.mpr (.inl ⟨b, hm, hk⟩))
    have hlower : lower.map (subst σ) = lower.map (subst τ) :=
      List.map_congr_left fun b hm =>
        hl b hm fun k hk => h k (mem_vars_wildcard.mpr (.inr ⟨b, hm, hk⟩))
    rw [subst_wildcard, subst_wildcard, hupper, hlower]
  | var k bounds _ => rw [subst_var, subst_var, h k (by simp)]

/-- **Two substitutions in a row are one**: it gives a variable the value of the first with the
second substituted into it, or else the value of the second. -/
theorem subst_subst (t : Ty) :
    subst σ (subst τ t) = subst (fun k => ((τ k).map (subst σ)).or (σ k)) t := by
  induction t using induct with
  | nominal c => simp only [subst_nominal]
  | applied owner raw args ho ha =>
    simp only [subst_applied, Option.map_map, List.map_map, applied.injEq, true_and]
    exact ⟨Option.map_congr ho, List.map_congr_left ha⟩
  | array c ih => rw [subst_array, subst_arrayOf, ih, subst_array]
  | wildcard site upper lower hu hl =>
    simp only [subst_wildcard, List.map_map, wildcard.injEq, true_and]
    exact ⟨List.map_congr_left hu, List.map_congr_left hl⟩
  | var k bounds _ =>
    rw [subst_var, subst_var]
    cases hk : τ k with
    | none => simp
    | some u => simp

/-- A normal type in which every variable is replaced by itself, or not at all, is left as it is. -/
theorem subst_eq_self {t : Ty} (hn : normal t = true)
    (h : ∀ k bounds, var k bounds ∈ nodes t → (σ k).getD (var k bounds) = var k bounds) :
    subst σ t = t := by
  induction t using induct with
  | nominal c => rw [subst_nominal]
  | applied owner raw args ho ha =>
    obtain ⟨hno, hna⟩ := normal_applied.mp hn
    have howner : owner.map (subst σ) = owner.map id :=
      Option.map_congr fun o hm =>
        ho o hm (hno o hm) fun k bs hk => h k bs (mem_nodes_applied.mpr (.inr (.inl ⟨o, hm, hk⟩)))
    have hargs : args.map (subst σ) = args.map id :=
      List.map_congr_left fun a hm =>
        ha a hm (hna a hm) fun k bs hk => h k bs (mem_nodes_applied.mpr (.inr (.inr ⟨a, hm, hk⟩)))
    rw [subst_applied, howner, hargs, Option.map_id, List.map_id, id]
  | array c ih =>
    obtain ⟨hf, hc⟩ := normal_array.mp hn
    have hself : subst σ c = c := ih hc fun k bs hk => h k bs (mem_nodes_array.mpr (.inr hk))
    rw [subst_array, hself, arrayOf_of_not_folds hf]
  | wildcard site upper lower hu hl =>
    obtain ⟨hnu, hnl⟩ := normal_wildcard.mp hn
    have hupper : upper.map (subst σ) = upper.map id :=
      List.map_congr_left fun b hm =>
        hu b hm (hnu b hm) fun k bs hk => h k bs (mem_nodes_wildcard.mpr (.inr (.inl ⟨b, hm, hk⟩)))
    have hlower : lower.map (subst σ) = lower.map id :=
      List.map_congr_left fun b hm =>
        hl b hm (hnl b hm) fun k bs hk => h k bs (mem_nodes_wildcard.mpr (.inr (.inr ⟨b, hm, hk⟩)))
    rw [subst_wildcard, hupper, hlower, List.map_id, List.map_id]
  | var k bounds _ =>
    rw [subst_var]
    exact h k bounds (mem_nodes_var.mpr rfl)

end Laws

/-! ## Variables, normal forms and skeletons of the result -/

/-- A variable of the result is one that was kept, or comes with a value that was put in. -/
theorem exists_of_mem_vars_subst {t : Ty} {v : VarKey} (h : v ∈ vars (subst σ t)) :
    ∃ k ∈ vars t, v ∈ vars ((σ k).getD (ofKey k)) := by
  induction t using induct with
  | nominal c => simp at h
  | applied owner raw args ho ha =>
    rw [subst_applied, mem_vars_applied] at h
    rcases h with ⟨o', ho', hv⟩ | ⟨a', ha', hv⟩
    · obtain ⟨o, hm, rfl⟩ := Option.map_eq_some_iff.mp ho'
      obtain ⟨k, hk, hkv⟩ := ho o hm hv
      exact ⟨k, mem_vars_applied.mpr (.inl ⟨o, hm, hk⟩), hkv⟩
    · obtain ⟨a, hm, rfl⟩ := List.mem_map.mp ha'
      obtain ⟨k, hk, hkv⟩ := ha a hm hv
      exact ⟨k, mem_vars_applied.mpr (.inr ⟨a, hm, hk⟩), hkv⟩
  | array c ih =>
    rw [subst_array] at h
    rw [vars_array]
    exact ih (mem_vars_of_arrayOf h)
  | wildcard site upper lower hu hl =>
    rw [subst_wildcard, mem_vars_wildcard] at h
    rcases h with ⟨b', hb', hv⟩ | ⟨b', hb', hv⟩
    · obtain ⟨b, hm, rfl⟩ := List.mem_map.mp hb'
      obtain ⟨k, hk, hkv⟩ := hu b hm hv
      exact ⟨k, mem_vars_wildcard.mpr (.inl ⟨b, hm, hk⟩), hkv⟩
    · obtain ⟨b, hm, rfl⟩ := List.mem_map.mp hb'
      obtain ⟨k, hk, hkv⟩ := hl b hm hv
      exact ⟨k, mem_vars_wildcard.mpr (.inr ⟨b, hm, hk⟩), hkv⟩
  | var k bounds _ =>
    refine ⟨k, by simp, ?_⟩
    rw [subst_var] at h
    cases hk : σ k with
    | none =>
      rw [hk, Option.getD_none, vars_var] at h
      rwa [Option.getD_none, vars_ofKey]
    | some u => rwa [hk, Option.getD_some] at h

/-- If what stands for the variables is normal, so is the result, whatever the type was: arrays are
rebuilt. -/
theorem normal_subst {t : Ty}
    (h : ∀ k bounds, var k bounds ∈ nodes t → normal ((σ k).getD (var k bounds)) = true) :
    normal (subst σ t) = true := by
  induction t using induct with
  | nominal c => rw [subst_nominal, normal_nominal]
  | applied owner raw args ho ha =>
    rw [subst_applied, normal_applied]
    refine ⟨fun o' hm' => ?_, fun a' hm' => ?_⟩
    · obtain ⟨o, hm, rfl⟩ := Option.map_eq_some_iff.mp hm'
      exact ho o hm fun k bs hk => h k bs (mem_nodes_applied.mpr (.inr (.inl ⟨o, hm, hk⟩)))
    · obtain ⟨a, hm, rfl⟩ := List.mem_map.mp hm'
      exact ha a hm fun k bs hk => h k bs (mem_nodes_applied.mpr (.inr (.inr ⟨a, hm, hk⟩)))
  | array c ih =>
    rw [subst_array]
    exact normal_arrayOf (ih fun k bs hk => h k bs (mem_nodes_array.mpr (.inr hk)))
  | wildcard site upper lower hu hl =>
    rw [subst_wildcard, normal_wildcard]
    refine ⟨fun b' hm' => ?_, fun b' hm' => ?_⟩
    · obtain ⟨b, hm, rfl⟩ := List.mem_map.mp hm'
      exact hu b hm fun k bs hk => h k bs (mem_nodes_wildcard.mpr (.inr (.inl ⟨b, hm, hk⟩)))
    · obtain ⟨b, hm, rfl⟩ := List.mem_map.mp hm'
      exact hl b hm fun k bs hk => h k bs (mem_nodes_wildcard.mpr (.inr (.inr ⟨b, hm, hk⟩)))
  | var k bounds _ =>
    rw [subst_var]
    exact h k bounds (mem_nodes_var.mpr rfl)

/-- Substitution acts on skeletons. -/
theorem skeleton_subst (t : Ty) :
    skeleton (subst σ t) = subst (fun k => (σ k).map skeleton) (skeleton t) := by
  induction t using induct with
  | nominal c => simp
  | applied owner raw args ho ha =>
    simp only [subst_applied, skeleton_applied, Option.map_map, List.map_map, applied.injEq,
      true_and]
    exact ⟨Option.map_congr ho, List.map_congr_left ha⟩
  | array c ih => rw [subst_array, skeleton_arrayOf, ih, skeleton_array, subst_array]
  | wildcard site upper lower hu hl =>
    simp only [subst_wildcard, skeleton_wildcard, List.map_map, wildcard.injEq, true_and]
    exact ⟨List.map_congr_left hu, List.map_congr_left hl⟩
  | var k bounds _ =>
    rw [subst_var, skeleton_var, subst_ofKey]
    cases hk : σ k with
    | none => simp
    | some u => simp

/-- A skeleton in which every variable stands for itself is left as it is. -/
theorem subst_skeleton_eq_self {t : Ty} {σ : VarKey → Ty} (hn : t.skeleton.normal = true)
    (hσ : ∀ k ∈ vars t, σ k = ofKey k) : t.skeleton.subst (fun k => some (σ k)) = t.skeleton := by
  refine subst_eq_self hn fun k bounds hk => ?_
  have hmem : k ∈ vars t := by
    rw [← vars_skeleton]
    exact mem_vars_iff.mpr ⟨bounds, hk⟩
  rw [Option.getD_some, hσ k hmem, bounds_of_mem_nodes_skeleton hk, ofKey]

end Generics.Ty
