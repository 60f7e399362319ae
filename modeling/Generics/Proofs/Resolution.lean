import Generics.Proofs.Dependency
import Generics.Proofs.Substitution
import Generics.Table.Resolve

/-!
# Generics.Proofs.Resolution: resolution up to the bounds of variables

Up to bounds, resolving a type is substituting into it what its variables resolve to
(`skeleton_resolveUnder`), so all there is to know about resolution is the `image` of a variable under
the shields that are up: itself if it is covered or not mapped, else its entry with the images under
one more shield put in.  Statements about images are shown by `image_induct`.

* `image_congr_table`: entries and shields matter only for variables that can be reached.
* `mem_vars_image`: a variable that is left over was reached, and if it is mapped, it is covered or
  lies on a cycle.
-/

namespace Generics.Table

open Relation

variable {T : Table} {g h : Shields} {k v : VarKey} {t : Ty}

/-! ## One equation per kind of type -/

section Equations

variable (T g)

theorem resolveOwnerUnder_eq_map (owner : Option Ty) :
    T.resolveOwnerUnder g owner = owner.map (T.resolveUnder g) := by
  cases owner <;> simp [resolveOwnerUnder]

theorem resolveUnder_nominal (c : Nominal) : T.resolveUnder g (.nominal c) = .nominal c := by
  rw [resolveUnder]

theorem resolveUnder_applied (owner : Option Ty) (raw : Nominal) (args : List Ty) :
    T.resolveUnder g (.applied owner raw args) =
      .applied (owner.map (T.resolveUnder g)) raw (args.map (T.resolveUnder g)) := by
  rw [resolveUnder, resolveOwnerUnder_eq_map, resolveEachUnder_eq_map]

theorem resolveUnder_array (c : Ty) :
    T.resolveUnder g (.array c) = (T.resolveUnder g c).arrayOf := by
  rw [resolveUnder]

theorem resolveUnder_wildcard (site : Option Nat) (upper lower : List Ty) :
    T.resolveUnder g (.wildcard site upper lower) =
      .wildcard none (upper.map (T.resolveUnder g)) (lower.map (T.resolveUnder g)) := by
  rw [resolveUnder, resolveEachUnder_eq_map, resolveEachUnder_eq_map]

/-- A variable without bounds that is not mapped stands for itself. -/
theorem resolveUnder_ofKey_unmapped {k : VarKey} (hk : T.get? k = none) :
    T.resolveUnder g (.ofKey k) = .ofKey k := by
  by_cases hg : g.cover k = true
  · exact resolveUnder_covered T [] hg
  · refine (resolveUnder_unmapped T [] hg hk).trans ?_
    rw [List.map_nil, ite_self, Ty.ofKey]

theorem resolve_nominal (c : Nominal) : T.resolve (.nominal c) = .nominal c :=
  resolveUnder_nominal T [] c

/-- A variable that stands for a class resolves to it. -/
theorem resolve_ofKey_of_nominal {k : VarKey} {c : Nominal} (h : T.get? k = some (.nominal c)) :
    T.resolve (.ofKey k) = .nominal c := by
  have hopen : ¬ Shields.cover [] k = true := by simp
  rw [resolve, Ty.ofKey, resolveUnder_mapped T [] hopen h, resolveUnder_nominal]

theorem resolve_applied (owner : Option Ty) (raw : Nominal) (args : List Ty) :
    T.resolve (.applied owner raw args) =
      .applied (owner.map T.resolve) raw (args.map T.resolve) :=
  resolveUnder_applied T [] owner raw args

theorem resolve_array (c : Ty) : T.resolve (.array c) = (T.resolve c).arrayOf :=
  resolveUnder_array T [] c

theorem resolve_wildcard (site : Option Nat) (upper lower : List Ty) :
    T.resolve (.wildcard site upper lower) =
      .wildcard none (upper.map T.resolve) (lower.map T.resolve) :=
  resolveUnder_wildcard T [] site upper lower

end Equations

/-! ## Images of variables -/

section Image

variable (T g)

/-- What a variable resolves to under the shields, up to bounds. -/
def image (k : VarKey) : Ty := (T.resolveUnder g (.ofKey k)).skeleton

variable {T g}

/-- An unmapped variable keeps its key. -/
theorem skeleton_resolveUnder_unmapped (bounds : List Ty) (hg : ¬ g.cover k = true)
    (hk : T.get? k = none) : (T.resolveUnder g (.var k bounds)).skeleton = .ofKey k := by
  rw [resolveUnder_unmapped T bounds hg hk]
  split <;> exact Ty.skeleton_var k _

/-- The bounds of a variable do not matter to its image. -/
theorem skeleton_resolveUnder_var (k : VarKey) (bounds : List Ty) :
    (T.resolveUnder g (.var k bounds)).skeleton = T.image g k := by
  unfold image Ty.ofKey
  by_cases hg : g.cover k = true
  · rw [resolveUnder_covered T bounds hg, resolveUnder_covered T [] hg, Ty.skeleton_var,
      Ty.skeleton_var]
  · cases hk : T.get? k with
    | none => rw [skeleton_resolveUnder_unmapped bounds hg hk, skeleton_resolveUnder_unmapped [] hg hk]
    | some t => rw [resolveUnder_mapped T bounds hg hk, resolveUnder_mapped T [] hg hk]

/-- **Resolving is substituting the images of the variables**, up to bounds. -/
theorem skeleton_resolveUnder (g : Shields) (t : Ty) :
    (T.resolveUnder g t).skeleton = t.skeleton.subst fun k => some (T.image g k) := by
  induction t using Ty.induct with
  | nominal c => rw [resolveUnder_nominal, Ty.skeleton_nominal, Ty.subst_nominal]
  | applied owner raw args ho ha =>
    simp only [resolveUnder_applied, Ty.skeleton_applied, Ty.subst_applied, Option.map_map,
      List.map_map, Ty.applied.injEq, true_and]
    exact ⟨Option.map_congr ho, List.map_congr_left ha⟩
  | array c ih =>
    rw [resolveUnder_array, Ty.skeleton_arrayOf, ih, Ty.skeleton_array, Ty.subst_array]
  | wildcard site upper lower hu hl =>
    simp only [resolveUnder_wildcard, Ty.skeleton_wildcard, Ty.subst_wildcard, List.map_map,
      Ty.wildcard.injEq, true_and]
    exact ⟨List.map_congr_left hu, List.map_congr_left hl⟩
  | var k bounds _ =>
    rw [skeleton_resolveUnder_var, Ty.skeleton_var, Ty.subst_ofKey, Option.getD_some]

theorem image_covered (hg : g.cover k = true) : T.image g k = .ofKey k := by
  rw [image, Ty.ofKey, resolveUnder_covered T [] hg, Ty.skeleton_var, Ty.ofKey]

theorem image_unmapped (hk : T.get? k = none) : T.image g k = .ofKey k := by
  by_cases hg : g.cover k = true
  · exact image_covered hg
  · exact skeleton_resolveUnder_unmapped [] hg hk

theorem image_mapped (hg : ¬ g.cover k = true) (hk : T.get? k = some t) :
    T.image g k = (T.resolveUnder (.entry k :: g) t).skeleton := by
  rw [image, Ty.ofKey, resolveUnder_mapped T [] hg hk]

/-- Induction along the resolution of a variable.  An entry is opened under one more shield, so the
number of entries left to open goes down. -/
@[elab_as_elim]
theorem image_induct {P : Shields → VarKey → Prop}
    (covered : ∀ (g : Shields) k, g.cover k = true → P g k)
    (unmapped : ∀ (g : Shields) k, T.get? k = none → P g k)
    (mapped : ∀ (g : Shields) k t, ¬ g.cover k = true → T.get? k = some t →
      (∀ j ∈ t.vars, P (.entry k :: g) j) → P g k)
    (g : Shields) (k : VarKey) : P g k := by
  induction hn : T.exposed g using Nat.strongRecOn generalizing g k with
  | _ n ih =>
    by_cases hg : g.cover k = true
    · exact covered g k hg
    · cases hk : T.get? k with
      | none => exact unmapped g k hk
      | some t =>
        refine mapped g k t hg hk fun j _ => ?_
        exact ih _ (hn ▸ exposed_entry_lt hg hk) (.entry k :: g) j rfl

/-- Two types with the same images for the variables of `t` resolve `t` alike. -/
theorem skeleton_resolveUnder_congr {T' : Table} (hi : ∀ j ∈ t.vars, T.image g j = T'.image h j) :
    (T.resolveUnder g t).skeleton = (T'.resolveUnder h t).skeleton := by
  rw [skeleton_resolveUnder, skeleton_resolveUnder]
  refine Ty.subst_congr fun j hj => ?_
  rw [Ty.vars_skeleton] at hj
  rw [hi j hj]

/-- **Only what can be reached matters**: the entries of the variables that can be reached, and the
shields over these. -/
theorem image_congr_table {T' : Table}
    (heq : ∀ v, ReflTransGen T.Mentions k v → T.get? v = T'.get? v ∧ g.cover v = h.cover v) :
    T.image g k = T'.image h k := by
  induction g, k using image_induct (T := T) generalizing h with
  | covered g k hg => rw [image_covered hg, image_covered ((heq k .refl).2 ▸ hg)]
  | unmapped g k hk => rw [image_unmapped hk, image_unmapped ((heq k .refl).1 ▸ hk)]
  | mapped g k t hg hk ih =>
    have hh : ¬ Shields.cover h k = true := (heq k .refl).2 ▸ hg
    rw [image_mapped hg hk, image_mapped hh ((heq k .refl).1 ▸ hk)]
    refine skeleton_resolveUnder_congr fun j hj => ih j hj fun v hv => ?_
    obtain ⟨hget, hcover⟩ := heq v (.head (mentions_of_get? hk hj) hv)
    exact ⟨hget, by rw [Shields.cover_cons, Shields.cover_cons, hcover]⟩

theorem image_congr (hgh : ∀ v, ReflTransGen T.Mentions k v → g.cover v = h.cover v) :
    T.image g k = T.image h k :=
  image_congr_table fun v hv => ⟨rfl, hgh v hv⟩

/-- **What is left over.**  A variable of an image was reached; if it is mapped, a shield covers it
or it lies on a cycle. -/
theorem mem_vars_image (hv : v ∈ (T.image g k).vars) :
    ReflTransGen T.Mentions k v ∧
      (T.contains v = true → g.cover v = true ∨ TransGen T.Mentions v v) := by
  induction g, k using image_induct (T := T) with
  | covered g k hg =>
    rw [image_covered hg, Ty.vars_ofKey, List.mem_singleton] at hv
    subst hv
    exact ⟨.refl, fun _ => .inl hg⟩
  | unmapped g k hk =>
    rw [image_unmapped hk, Ty.vars_ofKey, List.mem_singleton] at hv
    subst hv
    exact ⟨.refl, fun hc => absurd hc (not_contains_iff.mpr hk)⟩
  | mapped g k t hg hk ih =>
    rw [image_mapped hg hk, skeleton_resolveUnder] at hv
    obtain ⟨j, hj, hvj⟩ := Ty.exists_of_mem_vars_subst hv
    rw [Ty.vars_skeleton] at hj
    have hkj : T.Mentions k j := mentions_of_get? hk hj
    obtain ⟨hreach, hover⟩ := ih j hj hvj
    refine ⟨.head hkj hreach, fun hc => ?_⟩
    rcases hover hc with hcov | hcycle
    · rcases Shields.cover_entry.mp hcov with rfl | hcov
      · -- the shield of `k` itself: the entry of `k` leads back to `k`
        exact .inr (TransGen.head' hkj hreach)
      · exact .inl hcov
    · exact .inr hcycle

/-- An image is in array normal form, whatever the entries of the table are. -/
theorem normal_image (g : Shields) (k : VarKey) : (T.image g k).normal = true := by
  induction g, k using image_induct (T := T) with
  | covered g k hg => rw [image_covered hg, Ty.normal_ofKey]
  | unmapped g k hk => rw [image_unmapped hk, Ty.normal_ofKey]
  | mapped g k t hg hk ih =>
    rw [image_mapped hg hk, skeleton_resolveUnder]
    refine Ty.normal_subst fun j bounds hj => ih j ?_
    rw [← Ty.vars_skeleton]
    exact Ty.mem_vars_iff.mpr ⟨bounds, hj⟩

end Image

end Generics.Table
