import Generics.Proofs.Entries
import Generics.Proofs.Skeleton
import Mathlib.Logic.Relation

/-!
# Generics.Proofs.Dependency: how the entries of a table hang together

A key *mentions* the variables of its entry, and *depends* on those of them that are mapped
themselves.  A table is *acyclic* when no key depends on itself, however indirectly.  Then every way
down the dependencies meets a key at most once, so it is no longer than the table (`descent_le_size`).

A table stays acyclic when a key is mapped that no entry mentions, not even its own
(`Acyclic.insert`).
-/

namespace Generics.Table

open Relation

variable {T : Table} {j k : VarKey} {t : Ty}

/-! ## Definitions -/

section Defs

variable (T)

/-- The entry of `k` mentions the variable `j`, outside the bounds of variables. -/
def Mentions (k j : VarKey) : Prop := ∃ t, T.get? k = some t ∧ j ∈ t.freeKeys

/-- The edges of the dependency graph: `k` and `j` are mapped, and the entry of `k` mentions `j`. -/
def Depends (k j : VarKey) : Prop := T.contains j = true ∧ T.Mentions k j

/-- No key depends on itself, directly or through other keys. -/
def Acyclic : Prop := ∀ k, ¬ TransGen T.Depends k k

end Defs

/-! ## Mentions and dependencies -/

theorem Mentions.contains (h : T.Mentions k j) : T.contains k = true := by
  obtain ⟨t, ht, -⟩ := h
  exact contains_of_get? ht

theorem mentions_of_get? (h : T.get? k = some t) (hj : j ∈ t.vars) : T.Mentions k j :=
  ⟨t, h, Ty.mem_freeKeys.mpr hj⟩

/-- From a mapped key to a mapped key, every chain of mentions is one of dependencies: what stands
in the middle of it mentions something, so it is mapped. -/
theorem transGen_depends (h : TransGen T.Mentions k j) (hj : T.contains j = true) :
    TransGen T.Depends k j := by
  induction h with
  | single hkj => exact .single ⟨hj, hkj⟩
  | tail _ hbc ih => exact (ih hbc.contains).tail ⟨hj, hbc⟩

theorem acyclic_iff : T.Acyclic ↔ ∀ k, ¬ TransGen T.Mentions k k := by
  constructor
  · intro h k hk
    obtain ⟨i, hki, -⟩ := TransGen.head'_iff.mp hk
    exact h k (transGen_depends hk hki.contains)
  · intro h k hk
    exact h k (TransGen.mono (fun _ _ hd => hd.2) k k hk)

theorem Acyclic.not_mentions_self (h : T.Acyclic) : ¬ TransGen T.Mentions k k :=
  acyclic_iff.mp h k

/-- In an acyclic table what the entry of a key leads to never leads back to the key. -/
theorem Acyclic.ne_of_mentions (h : T.Acyclic) {v : VarKey} (hkj : T.Mentions k j)
    (hjv : ReflTransGen T.Mentions j v) : k ≠ v := by
  rintro rfl
  exact h.not_mentions_self (TransGen.head' hkj hjv)

/-! ## Acyclic tables -/

theorem acyclic_empty : empty.Acyclic := by
  refine acyclic_iff.mpr fun k hk => ?_
  obtain ⟨i, ⟨t, ht, -⟩, -⟩ := TransGen.head'_iff.mp hk
  simp at ht

/-- **A key that nothing mentions can be mapped** without closing a cycle. -/
theorem Acyclic.insert (h : T.Acyclic) (hold : ∀ i, ¬ T.Mentions i k) (hnew : k ∉ t.vars) :
    (T.insert k t).Acyclic := by
  -- no edge of the new graph leads to `k`, so a chain that starts elsewhere never uses its entry
  have hto : ∀ i j, (T.insert k t).Mentions i j → j ≠ k := by
    rintro i j ⟨u, hu, hj⟩ rfl
    rw [get?_insert] at hu
    by_cases hi : i = j
    · rw [if_pos hi, Option.some.injEq] at hu
      subst hu
      exact hnew (Ty.mem_freeKeys.mp hj)
    · rw [if_neg hi] at hu
      exact hold i ⟨u, hu, hj⟩
  have hfrom : ∀ i j, i ≠ k → (T.insert k t).Mentions i j → T.Mentions i j := by
    rintro i j hi ⟨u, hu, hj⟩
    rw [get?_insert, if_neg hi] at hu
    exact ⟨u, hu, hj⟩
  have hchain : ∀ i j, i ≠ k → TransGen (T.insert k t).Mentions i j → TransGen T.Mentions i j := by
    intro i j hi hij
    induction hij with
    | single hb => exact .single (hfrom _ _ hi hb)
    | tail hib hbc ih =>
      obtain ⟨m, -, hmb⟩ := TransGen.tail'_iff.mp hib
      exact ih.tail (hfrom _ _ (hto _ _ hmb) hbc)
  refine acyclic_iff.mpr fun i hi => ?_
  obtain ⟨m, -, hmi⟩ := TransGen.tail'_iff.mp hi
  exact h.not_mentions_self (hchain i i (hto m i hmi) hi)

/-- **A way down an acyclic table is no longer than the table**: if all keys after a key of the
list lead to it, the keys are different from each other. -/
theorem Acyclic.descent_le_size (h : T.Acyclic) {path : List VarKey}
    (hp : path.Pairwise fun i j => TransGen T.Mentions j i)
    (hc : ∀ i ∈ path, T.contains i = true) : path.length ≤ T.size := by
  have hnd : path.Nodup := by
    refine hp.imp ?_
    rintro i j hji rfl
    exact h.not_mentions_self hji
  rw [← length_keys]
  exact hnd.length_le_of_subset fun i hi => mem_keys.mpr (hc i hi)

end Generics.Table
