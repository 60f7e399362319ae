import Generics.Proofs.Resolution
import Mathlib.Logic.Function.Iterate

/-!
# Generics.Proofs.Acyclic: resolution with acyclic tables is ordinary substitution

On an acyclic table no shield ever stops a variable that is still to be replaced: a mapped variable
resolves to its resolved entry (`Acyclic.image_eq`), and no mapped variable is left over
(`Acyclic.get?_of_mem_vars_resolve`).  So resolution does what substituting the entries does, over and
over until nothing is left to replace; as many rounds as the table has entries are enough
(`resolve_agrees_iterate_subst`).

A table is flat when its entries hold none of the variables it maps.  Then a single substitution is
enough, and a variable resolves to its entry as it stands (`image_of_flat`).
-/

namespace Generics.Table

open Relation

variable {T : Table} {g : Shields} {k v : VarKey} {t : Ty}

/-! ## Where nothing is mapped -/

theorem skeleton_resolve (T : Table) (t : Ty) :
    (T.resolve t).skeleton = t.skeleton.subst fun k => some (T.image [] k) :=
  skeleton_resolveUnder [] t

/-- A variable that is left over was reached from the type; if it is mapped, it lies on a cycle. -/
theorem mem_vars_resolve (hv : v ∈ (T.resolve t).vars) :
    (∃ k ∈ t.vars, ReflTransGen T.Mentions k v) ∧
      (T.contains v = true → TransGen T.Mentions v v) := by
  rw [← Ty.vars_skeleton, skeleton_resolve] at hv
  obtain ⟨k, hk, hvk⟩ := Ty.exists_of_mem_vars_subst hv
  rw [Ty.vars_skeleton] at hk
  rw [Option.getD_some] at hvk
  obtain ⟨hreach, hover⟩ := mem_vars_image hvk
  exact ⟨⟨k, hk, hreach⟩, fun hc => (hover hc).resolve_left (by simp)⟩

/-- A resolved type is in array normal form, up to bounds. -/
theorem normal_skeleton_resolve (T : Table) (t : Ty) : (T.resolve t).skeleton.normal = true := by
  rw [skeleton_resolve]
  exact Ty.normal_subst fun k _ _ => normal_image [] k

/-- A type in normal form none of whose variables is mapped resolves to itself. -/
theorem skeleton_resolveUnder_of_unmapped (hn : t.skeleton.normal = true)
    (hv : ∀ k ∈ t.vars, T.get? k = none) : (T.resolveUnder g t).skeleton = t.skeleton := by
  rw [skeleton_resolveUnder]
  exact Ty.subst_skeleton_eq_self hn fun k hk => image_unmapped (hv k hk)

/-- The entries are in normal form, up to bounds, and hold none of the variables mapped. -/
def Flat (T : Table) : Prop :=
  ∀ k t, T.get? k = some t → t.skeleton.normal = true ∧ ∀ j ∈ t.vars, T.get? j = none

/-- With a flat table a variable resolves to its entry as it stands. -/
theorem image_of_flat (hT : T.Flat) (k : VarKey) :
    T.image [] k = ((T.get? k).getD (.ofKey k)).skeleton := by
  cases hk : T.get? k with
  | none => rw [image_unmapped hk, Option.getD_none, Ty.skeleton_ofKey]
  | some t =>
    obtain ⟨hn, hv⟩ := hT k t hk
    have hopen : ¬ Shields.cover [] k = true := by simp
    rw [image_mapped hopen hk, Option.getD_some]
    exact skeleton_resolveUnder_of_unmapped hn hv

/-! ## Acyclic tables -/

section Acyclic

variable (hT : T.Acyclic)
include hT

/-- A mapped variable resolves to its resolved entry: the shield over it covers nothing that its
entry leads to. -/
theorem Acyclic.image_eq (hk : T.get? k = some t) : T.image [] k = (T.resolve t).skeleton := by
  have hopen : ¬ Shields.cover [] k = true := by simp
  rw [image_mapped hopen hk]
  refine skeleton_resolveUnder_congr fun j hj => image_congr fun v hv => ?_
  have hne : k ≠ v := hT.ne_of_mentions (mentions_of_get? hk hj) hv
  simp [Shield.covers, hne]

/-- No mapped variable is left over. -/
theorem Acyclic.get?_of_mem_vars_resolve (hv : v ∈ (T.resolve t).vars) : T.get? v = none := by
  refine not_contains_iff.mp fun hc => ?_
  exact hT.not_mentions_self ((mem_vars_resolve hv).2 hc)

/-- Putting in the entries once, before resolving, changes nothing. -/
theorem Acyclic.skeleton_resolve_subst (t : Ty) :
    (T.resolve (t.subst T.get?)).skeleton = (T.resolve t).skeleton := by
  rw [skeleton_resolve, Ty.skeleton_subst, Ty.subst_subst, skeleton_resolve]
  refine Ty.subst_congr fun k _ => ?_
  cases hk : T.get? k with
  | none => rfl
  | some u =>
    rw [Option.map_some, Option.map_some, Option.some_or, ← skeleton_resolve, ← hT.image_eq hk]

theorem Acyclic.skeleton_resolve_iterate (n : Nat) (t : Ty) :
    (T.resolve ((Ty.subst T.get?)^[n] t)).skeleton = (T.resolve t).skeleton := by
  induction n generalizing t with
  | zero => rfl
  | succ n ih => rw [Function.iterate_succ_apply, ih, hT.skeleton_resolve_subst]

omit hT

/-- A mapped variable that is still there after `n` rounds stands at the end of `n` dependencies. -/
theorem exists_descent {n : Nat} (hk : k ∈ ((Ty.subst T.get?)^[n] t).vars)
    (hc : T.contains k = true) :
    ∃ path : List VarKey, path.length = n ∧
      (k :: path).Pairwise (fun i j => TransGen T.Mentions j i) ∧
      ∀ i ∈ k :: path, T.contains i = true := by
  induction n generalizing k with
  | zero => exact ⟨[], rfl, List.pairwise_singleton _ _, by simpa using hc⟩
  | succ n ih =>
    rw [Function.iterate_succ_apply'] at hk
    obtain ⟨j, hj, hkj⟩ := Ty.exists_of_mem_vars_subst hk
    cases hg : T.get? j with
    | none =>
      -- an unmapped variable is never replaced, so it cannot have become the mapped `k`
      rw [hg, Option.getD_none, Ty.vars_ofKey, List.mem_singleton] at hkj
      exact absurd hc (not_contains_iff.mpr (hkj ▸ hg))
    | some u =>
      rw [hg, Option.getD_some] at hkj
      have hjk : T.Mentions j k := mentions_of_get? hg hkj
      obtain ⟨path, hlen, hpair, hall⟩ := ih hj hjk.contains
      refine ⟨j :: path, by rw [List.length_cons, hlen], ?_, ?_⟩
      · refine List.pairwise_cons.mpr ⟨fun i hi => ?_, hpair⟩
        rcases List.mem_cons.mp hi with rfl | hi
        · exact .single hjk
        · exact ((List.pairwise_cons.mp hpair).1 i hi).tail hjk
      · intro i hi
        rcases List.mem_cons.mp hi with rfl | hi
        · exact hc
        · exact hall i hi

include hT

/-- After as many rounds as there are entries no mapped variable is left. -/
theorem Acyclic.get?_of_mem_vars_iterate {n : Nat} (hn : T.size ≤ n)
    (hk : k ∈ ((Ty.subst T.get?)^[n] t).vars) : T.get? k = none := by
  refine not_contains_iff.mp fun hc => ?_
  obtain ⟨path, hlen, hpair, hall⟩ := exists_descent hk hc
  have hle := hT.descent_le_size hpair hall
  rw [List.length_cons] at hle
  omega

end Acyclic

/-! ## The main result -/

/-- Every entry of the table can be built from the constructors. -/
def Constructed (T : Table) : Prop := ∀ k t, T.get? k = some t → t.Constructed

theorem normal_iterate_subst (hT : T.Constructed) (ht : t.normal = true) (n : Nat) :
    ((Ty.subst T.get?)^[n] t).normal = true := by
  induction n with
  | zero => exact ht
  | succ n ih =>
    rw [Function.iterate_succ_apply']
    refine Ty.normal_subst fun k bounds hk => ?_
    cases hg : T.get? k with
    | none => exact Ty.normal_of_mem_nodes ih hk
    | some u => exact (hT k u hg).normal

/-- **Guarded resolution is ordinary substitution.**  With an acyclic table a type resolves to what
substituting the entries into it `n` times gives, for every `n` from the number of entries on.  The
entries have to be constructed as well: substituting puts them in as they stand, while resolving
rebuilds the arrays in them. -/
theorem resolve_agrees_iterate_subst (hc : T.Constructed) (hT : T.Acyclic) {X : Ty}
    (hX : X.Constructed) {n : Nat} (hn : T.size ≤ n) :
    (T.resolve X).agrees ((Ty.subst T.get?)^[n] X) = true := by
  have hnormal : ((Ty.subst T.get?)^[n] X).skeleton.normal = true :=
    Ty.normal_skeleton (normal_iterate_subst hc hX.normal n)
  rw [Ty.agrees_iff, ← hT.skeleton_resolve_iterate n X]
  exact skeleton_resolveUnder_of_unmapped hnormal fun k hk => hT.get?_of_mem_vars_iterate hn hk

/-- `K` stands for `V[]`, and `V` for `String`. -/
def arrayChain : Table :=
  (empty.insert ⟨.type "Map", "V"⟩ (.plain "String")).insert ⟨.type "Map", "K"⟩
    (.array (.ofKey ⟨.type "Map", "V"⟩))

theorem acyclic_arrayChain : arrayChain.Acyclic := by
  refine (acyclic_empty.insert ?_ ?_).insert ?_ ?_
  · rintro i ⟨t, ht, -⟩
    simp at ht
  · decide
  · rintro i ⟨t, ht, hj⟩
    rw [get?_insert] at ht
    split at ht
    · cases ht
      revert hj
      decide
    · simp at ht
  · decide

theorem constructed_arrayChain : arrayChain.Constructed := by
  intro k t ht
  have hentries : arrayChain.entries =
      [(⟨.type "Map", "K"⟩, .array (.ofKey ⟨.type "Map", "V"⟩)),
        (⟨.type "Map", "V"⟩, .plain "String")] := rfl
  have hmem := mem_of_get? ht
  rw [hentries] at hmem
  simp only [List.mem_cons, Prod.mk.injEq, List.not_mem_nil, or_false] at hmem
  rcases hmem with ⟨-, rfl⟩ | ⟨-, rfl⟩ <;> decide

/-- `Map<K, ? super V>` resolves to what two rounds of substitution make of it. -/
theorem resolve_agrees_iterate_subst_arrayChain :
    let X : Ty := .applied none (.plain "Map")
      [.ofKey ⟨.type "Map", "K"⟩, .above (.ofKey ⟨.type "Map", "V"⟩)]
    arrayChain.Constructed ∧ arrayChain.Acyclic ∧ X.Constructed ∧ arrayChain.size ≤ 2 ∧
      (arrayChain.resolve X).agrees ((Ty.subst arrayChain.get?)^[2] X) = true ∧
      (Ty.subst arrayChain.get?)^[2] X =
        .applied none (.plain "Map") [.nominal ⟨"String", 1⟩, .above (.plain "String")] :=
  ⟨constructed_arrayChain, acyclic_arrayChain, by decide, by decide,
    resolve_agrees_iterate_subst constructed_arrayChain acyclic_arrayChain (by decide) (by decide),
    rfl⟩

/-- `T` stands for the arrays of `String` with as many dimensions as can be counted. -/
def fullBox : Table :=
  empty.insert ⟨.type "Box", "T"⟩ (.nominal ⟨"String", 4294967295⟩)

/-- The dimensions of `T[]` are counted from zero again. -/
theorem resolve_array_fullBox :
    fullBox.resolve (.array (.ofKey ⟨.type "Box", "T"⟩)) = .plain "String" := by
  rw [resolve_array, resolve_ofKey_of_nominal fullBox rfl]
  rfl

end Generics.Table
