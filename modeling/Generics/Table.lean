import Generics.Ty.Compare
import Generics.Failure

/-!
# Generics.Table: substitution tables

A `Table` maps finitely many variables to types.  Its entries stand in key order, each key once, so a
table is determined by what it maps: `get?` is its view, and `insert` and `erase` change that view at
one key (`get?_insert`, `get?_erase`).

`extend` adds a list of entries, later ones winning, and refuses an entry that binds a variable to
itself.
-/

namespace Generics

/-- Entries in strictly increasing key order. -/
def Ordered (es : List (VarKey × Ty)) : Prop := es.Pairwise fun e f => e.1 < f.1

/-- A finite map from variables to types, listed in key order. -/
structure Table where
  entries : List (VarKey × Ty)
  ordered : Ordered entries

namespace Table

/-- The table without entries. -/
def empty : Table := ⟨[], List.Pairwise.nil⟩

instance : Inhabited Table := ⟨empty⟩

/-- The number of entries. -/
def size (T : Table) : Nat := T.entries.length

/-- Has the table no entry? -/
def isEmpty (T : Table) : Bool := T.entries.isEmpty

/-- The keys of the table, in order. -/
def keys (T : Table) : List VarKey := T.entries.map Prod.fst

/-- The type that a key is mapped to. -/
def get? (T : Table) (k : VarKey) : Option Ty := T.entries.lookup k

/-- Is the key mapped? -/
def contains (T : Table) (k : VarKey) : Bool := (T.get? k).isSome

/-- Do two tables map the same keys, to types that agree? -/
def agrees (S T : Table) : Bool :=
  decide (S.size = T.size) &&
    (S.entries.zip T.entries).all fun (e, f) => decide (e.1 = f.1) && e.2.agrees f.2

/-! ### Changing one entry -/

/-- Puts an entry at its place among ordered entries, in place of one with the same key. -/
def insertEntry (k : VarKey) (t : Ty) : List (VarKey × Ty) → List (VarKey × Ty)
  | [] => [(k, t)]
  | e :: es =>
    if k < e.1 then (k, t) :: e :: es
    else if k = e.1 then (k, t) :: es
    else e :: insertEntry k t es

theorem mem_insertEntry {k : VarKey} {t : Ty} {es : List (VarKey × Ty)} {e : VarKey × Ty}
    (h : e ∈ insertEntry k t es) : e = (k, t) ∨ e ∈ es := by
  induction es with
  | nil => simpa [insertEntry] using h
  | cons f es ih =>
    unfold insertEntry at h
    by_cases hlt : k < f.1
    · rw [if_pos hlt] at h
      simpa using h
    · rw [if_neg hlt] at h
      by_cases heq : k = f.1
      · rw [if_pos heq] at h
        rcases List.mem_cons.mp h with h | h
        · exact .inl h
        · exact .inr (List.mem_cons_of_mem f h)
      · rw [if_neg heq] at h
        rcases List.mem_cons.mp h with h | h
        · exact .inr (h ▸ List.mem_cons_self)
        · exact (ih h).imp_right (List.mem_cons_of_mem f)

theorem ordered_insertEntry (k : VarKey) (t : Ty) {es : List (VarKey × Ty)} (h : Ordered es) :
    Ordered (insertEntry k t es) := by
  induction es with
  | nil => exact List.pairwise_singleton _ _
  | cons f es ih =>
    obtain ⟨hf, hes⟩ := List.pairwise_cons.mp h
    unfold insertEntry
    by_cases hlt : k < f.1
    · rw [if_pos hlt]
      refine List.pairwise_cons.mpr ⟨fun e he => ?_, h⟩
      rcases List.mem_cons.mp he with rfl | he
      · exact hlt
      · exact VarKey.lt_trans hlt (hf e he)
    · rw [if_neg hlt]
      by_cases heq : k = f.1
      · rw [if_pos heq]
        exact List.pairwise_cons.mpr ⟨fun e he => heq ▸ hf e he, hes⟩
      · rw [if_neg heq]
        refine List.pairwise_cons.mpr ⟨fun e he => ?_, ih hes⟩
        rcases mem_insertEntry he with rfl | he
        · exact VarKey.lt_of_not_lt hlt heq
        · exact hf e he

/-- Maps the key to the type, whatever it was mapped to before. -/
def insert (T : Table) (k : VarKey) (t : Ty) : Table :=
  ⟨insertEntry k t T.entries, ordered_insertEntry k t T.ordered⟩

/-- Leaves the key unmapped. -/
def erase (T : Table) (k : VarKey) : Table :=
  ⟨T.entries.filter fun e => decide (e.1 ≠ k), List.Pairwise.filter _ T.ordered⟩

/-! ### The view -/

theorem mem_of_get? {T : Table} {k : VarKey} {t : Ty} (h : T.get? k = some t) :
    (k, t) ∈ T.entries := by
  obtain ⟨es, fs, heq, -⟩ := List.lookup_eq_some_iff.mp h
  rw [heq]
  exact List.mem_append_right es List.mem_cons_self

@[simp] theorem get?_empty (k : VarKey) : empty.get? k = none := rfl

theorem lookup_cons_ite {α β : Type} [DecidableEq α] (j : α) (e : α × β) (es : List (α × β)) :
    (e :: es).lookup j = if j = e.1 then some e.2 else es.lookup j := by
  rw [List.lookup_cons]
  by_cases hj : j = e.1
  · rw [if_pos hj, beq_iff_eq.mpr hj]
  · rw [if_neg hj, beq_eq_false_iff_ne.mpr hj]

theorem lookup_insertEntry (k j : VarKey) (t : Ty) (es : List (VarKey × Ty)) :
    (insertEntry k t es).lookup j = if j = k then some t else es.lookup j := by
  induction es with
  | nil => rw [insertEntry, lookup_cons_ite]
  | cons e es ih =>
    unfold insertEntry
    by_cases hlt : k < e.1
    · rw [if_pos hlt, lookup_cons_ite]
    · rw [if_neg hlt]
      by_cases heq : k = e.1
      · rw [if_pos heq, lookup_cons_ite, lookup_cons_ite, ← heq]
        by_cases hj : j = k
        · rw [if_pos hj, if_pos hj]
        · rw [if_neg hj, if_neg hj, if_neg hj]
      · rw [if_neg heq, lookup_cons_ite, ih, lookup_cons_ite]
        by_cases hje : j = e.1
        · have hjk : j ≠ k := fun h => heq (h.symm.trans hje)
          rw [if_pos hje, if_neg hjk, if_pos hje]
        · rw [if_neg hje, if_neg hje]

theorem get?_insert (T : Table) (k j : VarKey) (t : Ty) :
    (T.insert k t).get? j = if j = k then some t else T.get? j :=
  lookup_insertEntry k j t T.entries

theorem lookup_filter_ne {α β : Type} [DecidableEq α] (k j : α) (es : List (α × β)) :
    (es.filter fun e => decide (e.1 ≠ k)).lookup j = if j = k then none else es.lookup j := by
  induction es with
  | nil => rw [List.filter_nil, List.lookup_nil, ite_self]
  | cons e es ih =>
    by_cases he : e.1 = k
    · rw [List.filter_cons_of_neg (by simpa using he), ih, lookup_cons_ite, he]
      by_cases hj : j = k
      · rw [if_pos hj, if_pos hj]
      · rw [if_neg hj, if_neg hj, if_neg hj]
    · rw [List.filter_cons_of_pos (by simpa using he), lookup_cons_ite, ih, lookup_cons_ite]
      by_cases hj : j = e.1
      · have hjk : j ≠ k := fun h => he (hj.symm.trans h)
        rw [if_pos hj, if_neg hjk, if_pos hj]
      · rw [if_neg hj, if_neg hj]

theorem get?_erase (T : Table) (k j : VarKey) :
    (T.erase k).get? j = if j = k then none else T.get? j :=
  lookup_filter_ne k j T.entries

/-- Erasing a mapped key makes the table smaller. -/
theorem size_erase_lt {T : Table} {k : VarKey} {t : Ty} (h : T.get? k = some t) :
    (T.erase k).size < T.size := by
  refine List.length_filter_lt_length_iff_exists.mpr ⟨(k, t), mem_of_get? h, ?_⟩
  simp

/-! ### Adding many entries -/

/-- Adds the entries one after the other; of two entries for one key the later wins. -/
def insertAll (T : Table) (es : List (VarKey × Ty)) : Table :=
  es.foldl (fun S e => S.insert e.1 e.2) T

/-- The table with the entries added, or the first entry that binds a variable to itself, be it one
that a later entry would replace. -/
def extend (T : Table) (es : List (VarKey × Ty)) : Except Violation Table :=
  match es.find? fun e => e.2.hasKey e.1 with
  | some e => .error (.selfBinding e.1)
  | none => .ok (T.insertAll es)

/-- The table with one entry added. -/
def bind (T : Table) (k : VarKey) (t : Ty) : Except Violation Table := T.extend [(k, t)]

end Table

end Generics
