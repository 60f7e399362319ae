import Generics.Proofs.Acyclic
import Generics.Proofs.Rollback

/-!
# Generics.Proofs.Staging: resolving in two stages

Let a table `S` avoid a table `T`: it neither maps a key of `T` nor mentions one.  Then resolving with
both at once is resolving with `T` first and with `S` afterwards, whatever cycles the two have
(`resolve_staged`).

With both at once, a variable of `S` may be met deep inside entries of `T`, under the shields over these;
in the second stage no shield is up.  It makes no difference, because as long as only entries of `T` have
been opened, all shields are over keys of `T` (`image_overlay`), and once an entry of `S` has been opened,
no key of `T` comes up any more (`image_overlay_of_unmapped`).
-/

namespace Generics.Table

open Relation

/-- The table `S` maps no key of `T`, and no entry of it mentions one. -/
structure Avoids (S T : Table) : Prop where
  keys : ∀ k ∈ T.keys, k ∉ S.keys
  entries : ∀ e ∈ S.entries, ∀ k ∈ e.2.freeKeys, k ∉ T.keys

instance (S T : Table) : Decidable (S.Avoids T) :=
  decidable_of_iff ((∀ k ∈ T.keys, k ∉ S.keys) ∧ ∀ e ∈ S.entries, ∀ k ∈ e.2.freeKeys, k ∉ T.keys)
    ⟨fun h => ⟨h.1, h.2⟩, fun h => ⟨h.keys, h.entries⟩⟩

section Avoids

variable {S T : Table} {g : Shields} {k v : VarKey} {t : Ty}

theorem not_mem_keys : k ∉ T.keys ↔ T.get? k = none := by
  rw [mem_keys, not_contains_iff]

theorem Avoids.get?_of_get? (h : S.Avoids T) (hk : T.get? k = some t) : S.get? k = none :=
  not_mem_keys.mp (h.keys k (mem_keys.mpr (contains_of_get? hk)))

/-- What `S` leads to from outside `T` stays outside `T`. -/
theorem Avoids.get?_of_reach (h : S.Avoids T) (hk : T.get? k = none)
    (hv : ReflTransGen S.Mentions k v) : T.get? v = none := by
  rcases hv.cases_tail with rfl | ⟨j, -, t, hj, hv⟩
  · exact hk
  · exact not_mem_keys.mp (h.entries (j, t) (mem_of_get? hj) v hv)

/-- A variable that is not mapped by `T` resolves as with `S` alone, if the shields that are up are over
keys of `T`. -/
theorem Avoids.image_overlay_of_unmapped (h : S.Avoids T)
    (hg : ∀ v, g.cover v = true → T.contains v = true) (hk : T.get? k = none) :
    (T.overlay S).image g k = S.image [] k := by
  refine (image_congr_table fun v hv => ?_).symm
  have hout : T.get? v = none := h.get?_of_reach hk hv
  refine ⟨by rw [get?_overlay, hout, Option.or_none], ?_⟩
  rw [Shields.cover_nil, eq_comm, Bool.eq_false_iff]
  exact fun hcover => not_contains_iff.mpr hout (hg v hcover)

/-- **A variable resolves in two stages**, if the shields that are up are over keys of `T`. -/
theorem Avoids.image_overlay (h : S.Avoids T)
    (hg : ∀ v, g.cover v = true → T.contains v = true) :
    (T.overlay S).image g k = (T.image g k).subst fun j => some (S.image [] j) := by
  induction g, k using image_induct (T := T) with
  | covered g k hcover =>
    obtain ⟨t, ht⟩ := contains_iff.mp (hg k hcover)
    rw [image_covered hcover, image_covered hcover, Ty.subst_ofKey, Option.getD_some,
      image_unmapped (h.get?_of_get? ht)]
  | unmapped g k hk =>
    rw [image_unmapped hk, Ty.subst_ofKey, Option.getD_some, h.image_overlay_of_unmapped hg hk]
  | mapped g k t hcover hk ih =>
    have hboth : (T.overlay S).get? k = some t := by
      rw [get?_overlay, h.get?_of_get? hk, Option.none_or, hk]
    have hg' : ∀ v, Shields.cover (.entry k :: g) v = true → T.contains v = true := by
      intro v hv
      rcases Shields.cover_entry.mp hv with rfl | hv
      · exact contains_of_get? hk
      · exact hg v hv
    rw [image_mapped hcover hboth, image_mapped hcover hk, skeleton_resolveUnder,
      skeleton_resolveUnder, Ty.subst_subst]
    refine Ty.subst_congr fun j hj => ?_
    rw [Ty.vars_skeleton] at hj
    rw [Option.map_some, Option.some_or, ih j hj hg']

/-- With both tables at once a type resolves as in two stages. -/
theorem Avoids.skeleton_resolve_overlay (h : S.Avoids T) (X : Ty) :
    ((T.overlay S).resolve X).skeleton = (S.resolve (T.resolve X)).skeleton := by
  rw [skeleton_resolve, skeleton_resolve, skeleton_resolve, Ty.subst_subst]
  refine Ty.subst_congr fun k _ => ?_
  rw [Option.map_some, Option.some_or, h.image_overlay (by simp)]

end Avoids

/-- **Resolving with the union of two tables is resolving in two stages**, if the second table maps no key
of the first and mentions none.  The union is the first table extended by the entries of the second, which
can be had unless the second binds a variable to itself. -/
theorem resolve_staged {T₁ T₂ : Table} (h : T₂.Avoids T₁) (X : Ty) :
    (T₂.SelfFree → ∃ U, T₁.extend T₂.entries = .ok U) ∧
      ∀ U, T₁.extend T₂.entries = .ok U → (U.resolve X).agrees (T₂.resolve (T₁.resolve X)) = true := by
  refine ⟨fun hself => ⟨_, hself.extend_entries T₁⟩, fun U hU => ?_⟩
  obtain ⟨-, rfl⟩ := extend_eq_ok_iff.mp hU
  exact Ty.agrees_iff.mpr (h.skeleton_resolve_overlay X)

/-- `A` stands for `List<B>`, and `B` for `Pair<A, P[]>`. -/
def outerCycle : Table :=
  (empty.insert ⟨.type "Box", "A"⟩
    (.applied none (.plain "List") [.ofKey ⟨.type "Box", "B"⟩])).insert ⟨.type "Box", "B"⟩
    (.applied none (.plain "Pair")
      [.ofKey ⟨.type "Box", "A"⟩, .array (.ofKey ⟨.method "Box" "of", "P"⟩)])

/-- `P` stands for `? extends Q`, and `Q` for `List<P>`. -/
def innerCycle : Table :=
  (empty.insert ⟨.method "Box" "of", "P"⟩ (.extending (.ofKey ⟨.method "Box" "of", "Q"⟩))).insert
    ⟨.method "Box" "of", "Q"⟩ (.applied none (.plain "List") [.ofKey ⟨.method "Box" "of", "P"⟩])

/-- In two stages `A` resolves to `List<Pair<A, P[]>>` and then to `List<Pair<A, ? extends List<P>[]>>`: the
array folds only in the second stage.  With both cycles in one table it resolves to the same. -/
theorem resolve_staged_cycles :
    let A : Ty := .ofKey ⟨.type "Box", "A"⟩
    let P : Ty := .ofKey ⟨.method "Box" "of", "P"⟩
    let list (t : Ty) : Ty := .applied none (.plain "List") [t]
    let pair (s t : Ty) : Ty := .applied none (.plain "Pair") [s, t]
    let staged := list (pair A (.extending (.array (list P))))
    innerCycle.Avoids outerCycle ∧ innerCycle.SelfFree ∧
      outerCycle.resolve A = list (pair A (.array P)) ∧
      innerCycle.resolve (list (pair A (.array P))) = staged ∧
      ∃ U, outerCycle.extend innerCycle.entries = .ok U ∧ (U.resolve A).agrees staged = true := by
  intro A P list pair staged
  have havoids : innerCycle.Avoids outerCycle := by decide
  have hself : innerCycle.SelfFree := selfFree_iff.mpr (by decide)
  have hfirst : outerCycle.resolve A = list (pair A (.array P)) := by
    let g : Shields := [.entry ⟨.type "Box", "B"⟩, .entry ⟨.type "Box", "A"⟩]
    have hA : outerCycle.resolveUnder g A = A := resolveUnder_covered outerCycle [] (by decide)
    have hP : outerCycle.resolveUnder g P = P := resolveUnder_ofKey_unmapped outerCycle g rfl
    refine (resolveUnder_mapped outerCycle [] (by decide) rfl).trans ?_
    rw [resolveUnder_applied, List.map_singleton, Ty.ofKey,
      resolveUnder_mapped outerCycle [] (by decide) rfl, resolveUnder_applied, List.map_cons,
      List.map_singleton, hA, resolveUnder_array, hP]
    rfl
  have hsecond : innerCycle.resolve (list (pair A (.array P))) = staged := by
    let g : Shields := [.entry ⟨.method "Box" "of", "Q"⟩, .entry ⟨.method "Box" "of", "P"⟩]
    have hcovered : innerCycle.resolveUnder g P = P := resolveUnder_covered innerCycle [] (by decide)
    have hP : innerCycle.resolve P = .extending (list P) := by
      refine (resolveUnder_mapped innerCycle [] (by decide) rfl).trans ?_
      rw [Ty.extending, resolveUnder_wildcard, List.map_singleton, Ty.ofKey,
        resolveUnder_mapped innerCycle [] (by decide) rfl, resolveUnder_applied, List.map_singleton,
        hcovered]
      rfl
    have hA : innerCycle.resolve A = A := resolveUnder_ofKey_unmapped innerCycle [] rfl
    show innerCycle.resolve (.applied none _ [.applied none _ [A, .array P]]) = _
    rw [resolve_applied, List.map_singleton, resolve_applied, List.map_cons, List.map_singleton, hA,
      resolve_array, hP]
    rfl
  obtain ⟨hexists, hagrees⟩ := resolve_staged havoids A
  obtain ⟨U, hU⟩ := hexists hself
  have hU' := hagrees U hU
  rw [hfirst, hsecond] at hU'
  exact ⟨havoids, hself, hfirst, hsecond, U, hU, hU'⟩

end Generics.Table
