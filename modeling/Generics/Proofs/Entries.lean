import Generics.Table

/-!
# Generics.Proofs.Entries: tables as finite maps

A table is determined by its look-ups (`ext_get?`): its entries stand in key order, so there is only
one way to list them.  Adding many entries gives every key its last value in the list
(`get?_insertAll`); adding all entries of a table to the empty table gives the table back
(`empty_insertAll_entries`), and entries with distinct keys are as many in the table as in the list
(`size_insertAll_of_nodup`).  So a table of numbered entries (`tabulate`) has as many entries as there are
numbers, if the numbers can be told from the keys.

The entries of a table that binds no variable to itself can be added to any table
(`SelfFree.extend_entries`).
-/

namespace Generics

theorem Ty.key?_eq_some_iff {t : Ty} {k : VarKey} :
    t.key? = some k ↔ ∃ bounds, t = .var k bounds := by
  cases t <;> simp [Ty.key?]

namespace Table

variable {S T : Table} {k : VarKey} {t : Ty}

/-! ## Entries and look-ups -/

theorem nodup_keys (T : Table) : T.keys.Nodup :=
  List.Pairwise.map Prod.fst (fun _ _ h => VarKey.ne_of_lt h) T.ordered

/-- The look-up finds an entry exactly when it is there. -/
theorem get?_eq_some_iff : T.get? k = some t ↔ (k, t) ∈ T.entries := by
  refine ⟨mem_of_get?, fun h => ?_⟩
  obtain ⟨es, fs, heq⟩ := List.append_of_mem h
  have hnot : ∀ e ∈ es, k ≠ e.1 := by
    intro e he hk
    have hord := T.ordered
    rw [heq] at hord
    have hlt : e.1 < k := (List.pairwise_append.mp hord).2.2 e he (k, t) List.mem_cons_self
    exact VarKey.ne_of_lt hlt hk.symm
  refine List.lookup_eq_some_iff.mpr ⟨es, fs, heq, fun e he => ?_⟩
  exact bne_iff_ne.mpr (hnot e he)

theorem contains_iff : T.contains k = true ↔ ∃ t, T.get? k = some t := by
  rw [contains, Option.isSome_iff_exists]

theorem contains_of_get? (h : T.get? k = some t) : T.contains k = true :=
  contains_iff.mpr ⟨t, h⟩

theorem not_contains_iff : ¬ T.contains k = true ↔ T.get? k = none := by
  simp [contains]

theorem mem_keys : k ∈ T.keys ↔ T.contains k = true := by
  rw [contains_iff, keys, List.mem_map]
  constructor
  · rintro ⟨⟨j, t⟩, he, rfl⟩
    exact ⟨t, get?_eq_some_iff.mpr he⟩
  · rintro ⟨t, h⟩
    exact ⟨(k, t), mem_of_get? h, rfl⟩

theorem length_keys (T : Table) : T.keys.length = T.size := List.length_map _

/-- **Tables with the same look-ups are equal.** -/
theorem ext_get? (h : ∀ k, S.get? k = T.get? k) : S = T := by
  have hnd : ∀ U : Table, U.entries.Nodup := fun U =>
    U.ordered.imp fun hef heq => VarKey.ne_of_lt hef (congrArg Prod.fst heq)
  have hmem : ∀ e, e ∈ S.entries ↔ e ∈ T.entries := by
    rintro ⟨j, u⟩
    rw [← get?_eq_some_iff, ← get?_eq_some_iff, h j]
  have hperm : S.entries.Perm T.entries :=
    (List.perm_ext_iff_of_nodup (hnd S) (hnd T)).mpr hmem
  -- entries in strict key order can be permuted in one way only
  have heq : S.entries = T.entries :=
    hperm.eq_of_pairwise
      (fun e f _ _ hef hfe => absurd (VarKey.lt_trans hef hfe) (VarKey.lt_irrefl e.1))
      S.ordered T.ordered
  cases S
  cases T
  simp_all

/-! ## Adding many entries -/

theorem insertAll_cons (T : Table) (e : VarKey × Ty) (es : List (VarKey × Ty)) :
    T.insertAll (e :: es) = (T.insert e.1 e.2).insertAll es := rfl

/-- A key is mapped to its last value among the new entries, or else to what it was mapped to. -/
theorem get?_insertAll (T : Table) (es : List (VarKey × Ty)) (k : VarKey) :
    (T.insertAll es).get? k = (es.reverse.lookup k).or (T.get? k) := by
  induction es generalizing T with
  | nil => rfl
  | cons e es ih =>
    rw [insertAll_cons, ih, get?_insert, List.reverse_cons, List.lookup_append, lookup_cons_ite,
      List.lookup_nil]
    by_cases hk : k = e.1
    · rw [if_pos hk, if_pos hk, Option.or_assoc, Option.some_or]
    · rw [if_neg hk, if_neg hk, Option.or_none]

/-- If every new entry has the value that `f` gives its key, so has the table. -/
theorem get?_insertAll_of_forall {es : List (VarKey × Ty)} {f : VarKey → Ty}
    (h : ∀ e ∈ es, e.2 = f e.1) (T : Table) (k : VarKey) :
    (T.insertAll es).get? k = if k ∈ es.map Prod.fst then some (f k) else T.get? k := by
  induction es generalizing T with
  | nil => rw [List.map_nil, if_neg (List.not_mem_nil)]; rfl
  | cons e es ih =>
    have hhead : e.2 = f e.1 := h e List.mem_cons_self
    rw [insertAll_cons, ih (fun d hd => h d (List.mem_cons_of_mem e hd)), get?_insert]
    by_cases hes : k ∈ es.map Prod.fst
    · rw [if_pos hes, if_pos (by rw [List.map_cons]; exact List.mem_cons_of_mem _ hes)]
    · by_cases hk : k = e.1
      · rw [if_neg hes, if_pos hk, if_pos (by rw [hk, List.map_cons]; exact List.mem_cons_self),
          hhead, hk]
      · rw [if_neg hes, if_neg hk, if_neg]
        rw [List.map_cons, List.mem_cons]
        exact not_or.mpr ⟨hk, hes⟩

/-- A key without new entry keeps its value. -/
theorem get?_insertAll_of_not_mem {es : List (VarKey × Ty)} (h : k ∉ es.map Prod.fst)
    (T : Table) : (T.insertAll es).get? k = T.get? k := by
  have hnone : es.reverse.lookup k = none := by
    rw [List.lookup_eq_none_iff]
    intro d hd
    refine bne_iff_ne.mpr fun hk => h ?_
    exact List.mem_map.mpr ⟨d, List.mem_reverse.mp hd, hk.symm⟩
  rw [get?_insertAll, hnone, Option.none_or]

/-- New entries with distinct keys are all found again. -/
theorem get?_insertAll_of_mem {es : List (VarKey × Ty)} (hnd : (es.map Prod.fst).Nodup)
    (h : (k, t) ∈ es) (T : Table) : (T.insertAll es).get? k = some t := by
  induction es generalizing T with
  | nil => simp at h
  | cons e es ih =>
    rw [List.map_cons, List.nodup_cons] at hnd
    rw [insertAll_cons]
    rcases List.mem_cons.mp h with rfl | h
    · rw [get?_insertAll_of_not_mem hnd.1, get?_insert, if_pos rfl]
    · exact ih hnd.2 h _

/-- A key with a new entry is mapped. -/
theorem exists_get?_insertAll {es : List (VarKey × Ty)} (h : k ∈ es.map Prod.fst) (T : Table) :
    ∃ t, (T.insertAll es).get? k = some t := by
  rw [get?_insertAll]
  cases hl : es.reverse.lookup k with
  | some t => exact ⟨t, Option.some_or⟩
  | none =>
    obtain ⟨e, he, rfl⟩ := List.mem_map.mp h
    have hne := List.lookup_eq_none_iff.mp hl e (List.mem_reverse.mpr he)
    simp at hne

/-- Adding the entries of a table to the empty table gives the table back. -/
@[simp] theorem empty_insertAll_entries (T : Table) : empty.insertAll T.entries = T := by
  refine ext_get? fun k => ?_
  by_cases hk : k ∈ T.entries.map Prod.fst
  · obtain ⟨⟨j, t⟩, he, rfl⟩ := List.mem_map.mp hk
    rw [get?_insertAll_of_mem T.nodup_keys he, get?_eq_some_iff.mpr he]
  · rw [get?_insertAll_of_not_mem hk, get?_empty]
    exact (not_contains_iff.mp fun hc => hk (mem_keys.mpr hc)).symm

/-- An entry of the enlarged table is new or was there. -/
theorem mem_or_get?_of_insertAll {es : List (VarKey × Ty)}
    (h : (T.insertAll es).get? k = some t) : (k, t) ∈ es ∨ T.get? k = some t := by
  rw [get?_insertAll] at h
  cases hl : es.reverse.lookup k with
  | none =>
    rw [hl, Option.none_or] at h
    exact .inr h
  | some u =>
    rw [hl, Option.some_or, Option.some.injEq] at h
    subst h
    obtain ⟨as, bs, heq, -⟩ := List.lookup_eq_some_iff.mp hl
    refine .inl (List.mem_reverse.mp ?_)
    rw [heq]
    exact List.mem_append_right as List.mem_cons_self

theorem keys_insertAll_subset (es : List (VarKey × Ty)) :
    (empty.insertAll es).keys ⊆ es.map Prod.fst := by
  intro k hk
  obtain ⟨t, ht⟩ := contains_iff.mp (mem_keys.mp hk)
  rcases mem_or_get?_of_insertAll ht with h | h
  · exact List.mem_map_of_mem h
  · cases h

/-- A table has at most as many entries as were added to the empty table. -/
theorem size_insertAll_le (es : List (VarKey × Ty)) : (empty.insertAll es).size ≤ es.length := by
  have hle := (nodup_keys _).length_le_of_subset (keys_insertAll_subset es)
  rwa [length_keys, List.length_map] at hle

/-- It has as many if their keys are distinct. -/
theorem size_insertAll_of_nodup {es : List (VarKey × Ty)} (hnd : (es.map Prod.fst).Nodup) :
    (empty.insertAll es).size = es.length := by
  have hsub : es.map Prod.fst ⊆ (empty.insertAll es).keys :=
    fun k hk => mem_keys.mpr (contains_iff.mpr (exists_get?_insertAll hk empty))
  have hle := hnd.length_le_of_subset hsub
  rw [length_keys, List.length_map] at hle
  exact Nat.le_antisymm (size_insertAll_le es) hle

/-- Adding entries goes through exactly if none of them binds a variable to itself. -/
theorem extend_eq_ok_iff {es : List (VarKey × Ty)} :
    T.extend es = .ok S ↔ (∀ e ∈ es, e.2.key? ≠ some e.1) ∧ S = T.insertAll es := by
  have hnone : es.find? (fun e => e.2.hasKey e.1) = none ↔ ∀ e ∈ es, e.2.key? ≠ some e.1 := by
    simp [List.find?_eq_none, Ty.hasKey]
  unfold extend
  cases hf : es.find? (fun e => e.2.hasKey e.1) with
  | none =>
    rw [Except.ok.injEq, eq_comm]
    exact (and_iff_right (hnone.mp hf)).symm
  | some e =>
    refine iff_of_false nofun fun h => ?_
    rw [hnone.mpr h.1] at hf
    cases hf

/-! ## Tables of numbered entries -/

section Tabulate

variable {key : Nat → VarKey} {target : Nat → Ty} {n : Nat}

/-- The table that maps each of the first `n` keys to its target. -/
def tabulate (key : Nat → VarKey) (target : Nat → Ty) (n : Nat) : Table :=
  empty.insertAll ((List.range n).map fun i => (key i, target i))

theorem tabulate_succ (key : Nat → VarKey) (target : Nat → Ty) (n : Nat) :
    tabulate key target (n + 1) = (tabulate key target n).insert (key n) (target n) := by
  rw [tabulate, List.range_succ, List.map_append, insertAll, List.foldl_append]
  rfl

variable (hkey : Function.Injective key)
include hkey

theorem nodup_numbered_keys :
    (((List.range n).map fun i => (key i, target i)).map Prod.fst).Nodup := by
  rw [List.map_map]
  exact List.Pairwise.map _ (fun _ _ hne h => hne (hkey h)) List.nodup_range

theorem size_tabulate : (tabulate key target n).size = n := by
  rw [tabulate, size_insertAll_of_nodup (nodup_numbered_keys hkey), List.length_map,
    List.length_range]

theorem get?_tabulate :
    (tabulate key target n).get? k = some t ↔ ∃ i < n, k = key i ∧ t = target i := by
  constructor
  · intro h
    rcases mem_or_get?_of_insertAll h with hmem | hempty
    · obtain ⟨i, hi, heq⟩ := List.mem_map.mp hmem
      cases heq
      exact ⟨i, List.mem_range.mp hi, rfl, rfl⟩
    · cases hempty
  · rintro ⟨i, hi, rfl, rfl⟩
    exact get?_insertAll_of_mem (nodup_numbered_keys hkey)
      (List.mem_map.mpr ⟨i, List.mem_range.mpr hi, rfl⟩) empty

theorem get?_tabulate_of_lt {i : Nat} (hi : i < n) :
    (tabulate key target n).get? (key i) = some (target i) :=
  (get?_tabulate hkey).mpr ⟨i, hi, rfl, rfl⟩

end Tabulate

/-! ## Tables without self-bindings -/

section SelfFree

variable {es : List (VarKey × Ty)}

/-- No key is mapped to its own variable, whatever the bounds of that variable are. -/
def SelfFree (T : Table) : Prop := ∀ k bounds, T.get? k ≠ some (.var k bounds)

theorem selfFree_iff : T.SelfFree ↔ ∀ e ∈ T.entries, e.2.key? ≠ some e.1 := by
  constructor
  · rintro h ⟨k, t⟩ he (hk : t.key? = some k)
    obtain ⟨bounds, rfl⟩ := Ty.key?_eq_some_iff.mp hk
    exact h k bounds (get?_eq_some_iff.mpr he)
  · intro h k bounds hk
    exact h _ (mem_of_get? hk) rfl

theorem selfFree_empty : empty.SelfFree := by
  intro k bounds hk
  cases hk

theorem SelfFree.insertAll (hT : T.SelfFree) (hes : ∀ e ∈ es, e.2.key? ≠ some e.1) :
    (T.insertAll es).SelfFree := by
  intro k bounds hk
  rcases mem_or_get?_of_insertAll hk with hmem | hget
  · exact hes _ hmem rfl
  · exact hT k bounds hget

theorem SelfFree.extend (hT : T.SelfFree) (h : T.extend es = .ok S) : S.SelfFree := by
  obtain ⟨hes, rfl⟩ := extend_eq_ok_iff.mp h
  exact hT.insertAll hes

/-- **The entries of a table without self-bindings can be added to any table.** -/
theorem SelfFree.extend_entries (hS : S.SelfFree) (T : Table) :
    T.extend S.entries = .ok (T.insertAll S.entries) :=
  extend_eq_ok_iff.mpr ⟨selfFree_iff.mp hS, rfl⟩

end SelfFree

end Table

end Generics
