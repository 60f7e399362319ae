import Generics.Proofs.Dependency
import Generics.Table.Record

/-!
# Generics.Proofs.Recording: what recording arguments does to a table

A parameter that is mapped already is left alone (`recordAll_of_contains`).  A list of parameters none
of which is mapped, or occurs in an entry or an argument, is simply added (`recordAll_of_fresh`): no
chain of variables leads back to any of them, so nothing is dropped, and an acyclic table stays
acyclic (`Acyclic.insertAll`).
-/

namespace Generics.Table

variable {T : Table} {j k : VarKey} {t : Ty} {es : List (VarKey × Ty)}

theorem Mentions.of_erase {i : VarKey} (h : (T.erase j).Mentions i k) : T.Mentions i k := by
  obtain ⟨u, hu, hk⟩ := h
  rw [get?_erase] at hu
  split at hu
  · cases hu
  · exact ⟨u, hu, hk⟩

/-- Following variables from a key meets that key and keys that entries mention. -/
theorem mem_trail (h : k ∈ T.trail j) : k = j ∨ ∃ i, T.Mentions i k := by
  fun_induction T.trail j with
  | case1 T j i bounds hj ih =>
    rcases List.mem_cons.mp h with rfl | h
    · exact .inl rfl
    · right
      rcases ih h with rfl | ⟨m, hm⟩
      · exact ⟨j, mentions_of_get? hj (by simp)⟩
      · exact ⟨m, hm.of_erase⟩
  | case2 T j hj => exact .inl (List.mem_singleton.mp h)

theorem record_of_contains (h : T.contains k = true) (t : Ty) : T.record k t = T := by
  rw [record, if_pos h]

theorem recordAll_of_contains (h : ∀ e ∈ es, T.contains e.1 = true) : T.recordAll es = T := by
  induction es with
  | nil => rfl
  | cons e es ih =>
    rw [List.forall_mem_cons] at h
    rw [recordAll, List.foldl_cons, record_of_contains h.1]
    exact ih h.2

/-- A key that neither an entry nor the argument mentions is added: the way from the argument never
comes to it. -/
theorem record_of_fresh (hc : ¬ T.contains k = true) (hold : ∀ i, ¬ T.Mentions i k)
    (hnew : k ∉ t.vars) : T.record k t = T.insert k t := by
  rw [record, if_neg hc]
  cases ht : t.key? with
  | none => rfl
  | some j =>
    have hj : k ≠ j := by
      rintro rfl
      cases t <;> simp [Ty.key?] at ht
      exact hnew (by simp [ht])
    have htrail : k ∉ T.trail j := by
      intro hk
      rcases mem_trail hk with rfl | ⟨i, hi⟩
      · exact hj rfl
      · exact hold i hi
    simp only [if_neg htrail]

/-- The keys of the entries are distinct, not mapped, and mentioned nowhere. -/
structure Fresh (T : Table) (es : List (VarKey × Ty)) : Prop where
  nodup : (es.map Prod.fst).Nodup
  unmapped : ∀ e ∈ es, ¬ T.contains e.1 = true
  unmentioned : ∀ e ∈ es, ∀ i, ¬ T.Mentions i e.1
  foreign : ∀ e ∈ es, ∀ f ∈ es, e.1 ∉ f.2.vars

/-- After the first entry is added, the rest is as fresh as before. -/
theorem Fresh.tail {e : VarKey × Ty} (h : T.Fresh (e :: es)) : (T.insert e.1 e.2).Fresh es where
  nodup := (List.nodup_cons.mp h.nodup).2
  unmapped f hf := by
    have hne : f.1 ≠ e.1 := by
      rintro heq
      exact (List.nodup_cons.mp h.nodup).1 (heq ▸ List.mem_map_of_mem hf)
    rw [not_contains_iff, get?_insert, if_neg hne]
    exact not_contains_iff.mp (h.unmapped f (List.mem_cons_of_mem e hf))
  unmentioned f hf i := by
    rintro ⟨u, hu, hk⟩
    rw [get?_insert] at hu
    split at hu
    · cases hu
      exact h.foreign f (List.mem_cons_of_mem e hf) e List.mem_cons_self (Ty.mem_freeKeys.mp hk)
    · exact h.unmentioned f (List.mem_cons_of_mem e hf) i ⟨u, hu, hk⟩
  foreign f hf g hg := h.foreign f (List.mem_cons_of_mem e hf) g (List.mem_cons_of_mem e hg)

theorem recordAll_of_fresh (h : T.Fresh es) : T.recordAll es = T.insertAll es := by
  induction es generalizing T with
  | nil => rfl
  | cons e es ih =>
    have hfirst : T.record e.1 e.2 = T.insert e.1 e.2 :=
      record_of_fresh (h.unmapped e List.mem_cons_self) (h.unmentioned e List.mem_cons_self)
        (h.foreign e List.mem_cons_self e List.mem_cons_self)
    rw [recordAll, List.foldl_cons, hfirst, insertAll_cons, ← ih h.tail, recordAll]

/-- Adding fresh entries changes none that is there. -/
theorem Fresh.get?_insertAll (h : T.Fresh es) (hk : T.get? k = some t) :
    (T.insertAll es).get? k = some t := by
  rw [get?_insertAll_of_not_mem ?_ T, hk]
  intro hmem
  obtain ⟨e, he, rfl⟩ := List.mem_map.mp hmem
  exact h.unmapped e he (contains_of_get? hk)

theorem Acyclic.insertAll (hT : T.Acyclic) (h : T.Fresh es) : (T.insertAll es).Acyclic := by
  induction es generalizing T with
  | nil => exact hT
  | cons e es ih =>
    rw [insertAll_cons]
    refine ih (hT.insert (h.unmentioned e List.mem_cons_self) ?_) h.tail
    exact h.foreign e List.mem_cons_self e List.mem_cons_self

end Generics.Table
