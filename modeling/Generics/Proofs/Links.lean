import Generics.Count
import Generics.Proofs.Entries
import Generics.Table.Record
import Mathlib.Logic.Relation

/-!
# Generics.Proofs.Links: chains of variables in a table

A key that is mapped to a variable is *linked* to the key of that variable.  The trail from a key holds
what the links lead to (`mem_trail_iff`).  A table is *unlooped* when following links never comes back
to a key; then following links ends (`Unlooped.wellFounded`).

Recording an argument adds an entry, or drops the links that lead from the argument back to its key
(`record_cases`).  So it brings in no entry but its own (`mem_or_get?_of_recordAll`), and it keeps a table
unlooped (`Unlooped.record`).
-/

namespace Generics

open Relation

namespace Table

variable {T : Table} {a i j k : VarKey} {t : Ty}

/-! ## Links -/

section Defs

variable (T)

/-- The key of the variable that a key is mapped to, if it is mapped to a variable. -/
def follow? (k : VarKey) : Option VarKey := (T.get? k).bind Ty.key?

/-- The key `k` is mapped to the variable of the key `j`. -/
def Links (k j : VarKey) : Prop := T.follow? k = some j

/-- Following variables from a key never comes back to it. -/
def Unlooped : Prop := ∀ k, ¬ TransGen T.Links k k

end Defs

theorem links_iff : T.Links k j ↔ ∃ bounds, T.get? k = some (.var j bounds) := by
  unfold Links follow?
  rw [Option.bind_eq_some_iff]
  constructor
  · rintro ⟨t, ht, hj⟩
    obtain ⟨bounds, rfl⟩ := Ty.key?_eq_some_iff.mp hj
    exact ⟨bounds, ht⟩
  · rintro ⟨bounds, hk⟩
    exact ⟨.var j bounds, hk, rfl⟩

theorem links_of_get? (hk : T.get? k = some t) (hj : t.key? = some j) : T.Links k j := by
  rw [Links, follow?, hk, Option.bind_some, hj]

theorem Links.contains (h : T.Links k j) : T.contains k = true := by
  obtain ⟨bounds, hk⟩ := links_iff.mp h
  exact contains_of_get? hk

theorem follow?_insert (T : Table) (k i : VarKey) (t : Ty) :
    (T.insert k t).follow? i = if i = k then t.key? else T.follow? i := by
  unfold follow?
  rw [get?_insert]
  split <;> rfl

theorem follow?_erase (T : Table) (k i : VarKey) :
    (T.erase k).follow? i = if i = k then none else T.follow? i := by
  unfold follow?
  rw [get?_erase]
  split <;> rfl

theorem Links.of_erase (h : (T.erase k).Links i j) : T.Links i j := by
  unfold Links at h
  rw [follow?_erase] at h
  split at h
  · cases h
  · exact h

theorem Links.of_insert (h : (T.insert k t).Links i j) (hi : i ≠ k) : T.Links i j := by
  unfold Links at h
  rwa [follow?_insert, if_neg hi] at h

theorem Links.erase (h : T.Links i j) (hi : i ≠ k) : (T.erase k).Links i j := by
  unfold Links
  rw [follow?_erase, if_neg hi]
  exact h

/-! ## Trails -/

section Trail

theorem trail_of_links (h : T.Links k j) : T.trail k = k :: (T.erase k).trail j := by
  obtain ⟨bounds, hk⟩ := links_iff.mp h
  rw [trail]
  split
  · next i _ hi =>
    rw [hk] at hi
    cases hi
    rfl
  · next hno => exact absurd hk (hno j bounds)

theorem trail_of_follow?_eq_none (h : T.follow? k = none) : T.trail k = [k] := by
  rw [trail]
  split
  · next i bounds hi =>
    have hlinks : T.follow? k = some i := links_iff.mpr ⟨bounds, hi⟩
    rw [h] at hlinks
    cases hlinks
  · rfl

/-- Induction along a trail. -/
@[elab_as_elim]
theorem trail_induct {P : Table → VarKey → Prop}
    (last : ∀ T k, T.follow? k = none → P T k)
    (link : ∀ T k j, T.Links k j → P (T.erase k) j → P T k) (T : Table) (k : VarKey) : P T k := by
  induction hn : T.size using Nat.strongRecOn generalizing T k with
  | _ n ih =>
    cases hf : T.follow? k with
    | none => exact last T k hf
    | some j =>
      obtain ⟨t, ht, -⟩ := Option.bind_eq_some_iff.mp hf
      have hlt : (T.erase k).size < n := hn ▸ size_erase_lt ht
      exact link T k j hf (ih _ hlt (T.erase k) j rfl)

/-- What can be reached at all can be reached without the link of `k`, from the same key or from what
`k` is linked to: the part of the way after its last link from `k` does without. -/
theorem reach_erase (h : T.Links k j) (hi : ReflTransGen T.Links a i) :
    ReflTransGen (T.erase k).Links a i ∨ ReflTransGen (T.erase k).Links j i := by
  induction hi using ReflTransGen.head_induction_on with
  | refl => exact .inl .refl
  | @head a b hab _ ih =>
    rcases ih with hb | hj
    · by_cases ha : a = k
      · subst ha
        obtain rfl : b = j := Option.some.inj (hab.symm.trans h)
        exact .inr hb
      · exact .inl (.head (hab.erase ha) hb)
    · exact .inr hj

/-- **The trail from a key holds what the links from it lead to.** -/
theorem mem_trail_iff : i ∈ T.trail k ↔ ReflTransGen T.Links k i := by
  induction T, k using trail_induct with
  | last T k hf =>
    rw [trail_of_follow?_eq_none hf, List.mem_singleton]
    constructor
    · rintro rfl
      exact .refl
    · intro hi
      rcases hi.cases_head with rfl | ⟨b, hb, -⟩
      · rfl
      · unfold Links at hb
        rw [hf] at hb
        cases hb
  | link T k j hkj ih =>
    rw [trail_of_links hkj, List.mem_cons, ih]
    constructor
    · rintro (rfl | hi)
      · exact .refl
      · exact .head hkj (ReflTransGen.mono (fun _ _ => Links.of_erase) j i hi)
    · intro hi
      rcases reach_erase hkj hi with hk | hj
      · left
        rcases hk.cases_head with rfl | ⟨b, hb, -⟩
        · rfl
        · unfold Links at hb
          rw [follow?_erase, if_pos rfl] at hb
          cases hb
      · exact .inr hj

end Trail

/-! ## Recording -/

section Recording

theorem get?_foldl_erase (T : Table) (ks : List VarKey) (i : VarKey) :
    (ks.foldl erase T).get? i = if i ∈ ks then none else T.get? i := by
  induction ks generalizing T with
  | nil => rfl
  | cons k ks ih =>
    rw [List.foldl_cons, ih, get?_erase]
    by_cases hi : i ∈ ks
    · rw [if_pos hi, if_pos (List.mem_cons_of_mem k hi)]
    · rw [if_neg hi]
      by_cases hik : i = k
      · rw [if_pos hik, if_pos (List.mem_cons.mpr (.inl hik))]
      · rw [if_neg hik, if_neg fun h => (List.mem_cons.mp h).elim hik hi]

theorem record_of_key? (hj : t.key? = some j) :
    T.record k t =
      if T.contains k then T else if k ∈ T.trail j then (T.trail j).foldl erase T else T.insert k t := by
  rw [record, hj]

/-- **What recording an argument does**: nothing, if its key is mapped.  Otherwise the entry is added,
unless the links from the argument lead to its key; then they are dropped. -/
theorem record_cases (T : Table) (k : VarKey) (t : Ty) :
    (T.contains k = true ∧ T.record k t = T) ∨
      (T.record k t = T.insert k t ∧ ∀ j, t.key? = some j → ¬ ReflTransGen T.Links j k) ∨
      (¬ T.contains k = true ∧ ∃ j, t.key? = some j ∧ ReflTransGen T.Links j k ∧
        T.record k t = (T.trail j).foldl erase T) := by
  by_cases hk : T.contains k = true
  · exact .inl ⟨hk, if_pos hk⟩
  · right
    cases ht : t.key? with
    | none =>
      refine .inl ⟨?_, nofun⟩
      rw [record, if_neg hk, ht]
    | some j =>
      rw [record_of_key? ht, if_neg hk]
      by_cases hj : k ∈ T.trail j
      · exact .inr ⟨hk, j, rfl, mem_trail_iff.mp hj, if_pos hj⟩
      · refine .inl ⟨if_neg hj, fun i hi => ?_⟩
        cases hi
        exact fun hjk => hj (mem_trail_iff.mpr hjk)

theorem recordAll_cons (T : Table) (e : VarKey × Ty) (es : List (VarKey × Ty)) :
    T.recordAll (e :: es) = (T.record e.1 e.2).recordAll es := rfl

/-- An entry of a table in which arguments have been recorded is one of these, or was there. -/
theorem mem_or_get?_of_recordAll {es : List (VarKey × Ty)} (h : (T.recordAll es).get? i = some t) :
    (i, t) ∈ es ∨ T.get? i = some t := by
  induction es generalizing T with
  | nil => exact .inr h
  | cons e es ih =>
    rw [recordAll_cons] at h
    rcases ih h with hmem | hrecord
    · exact .inl (List.mem_cons_of_mem e hmem)
    · obtain ⟨-, heq⟩ | ⟨heq, -⟩ | ⟨-, j, -, -, heq⟩ := T.record_cases e.1 e.2
      · exact .inr (heq ▸ hrecord)
      · rw [heq, get?_insert] at hrecord
        split at hrecord
        · next hi =>
          cases hi
          cases hrecord
          exact .inl List.mem_cons_self
        · exact .inr hrecord
      · rw [heq, get?_foldl_erase] at hrecord
        split at hrecord
        · cases hrecord
        · exact .inr hrecord

end Recording

/-! ## Unlooped tables -/

section Unlooped

theorem unlooped_empty : empty.Unlooped := by
  intro k hk
  obtain ⟨i, hi, -⟩ := TransGen.head'_iff.mp hk
  cases hi

theorem Unlooped.erase (h : T.Unlooped) (k : VarKey) : (T.erase k).Unlooped := by
  intro i hi
  exact h i (TransGen.mono (fun _ _ => Links.of_erase) i i hi)

theorem Unlooped.foldl_erase (h : T.Unlooped) (ks : List VarKey) :
    (ks.foldl Table.erase T).Unlooped := by
  induction ks generalizing T with
  | nil => exact h
  | cons k ks ih => exact ih (h.erase k)

/-- Up to where it first comes to `k`, a way uses old links only. -/
theorem reach_of_insert (h : ReflTransGen (T.insert k t).Links a k) : ReflTransGen T.Links a k := by
  induction h using ReflTransGen.head_induction_on with
  | refl => exact .refl
  | @head a b hab _ ih =>
    by_cases hak : a = k
    · rw [hak]
    · exact .head (hab.of_insert hak) ih

/-- A way that uses the new link goes through `k`. -/
theorem through_of_insert (h : TransGen (T.insert k t).Links a i) :
    TransGen T.Links a i ∨
      (ReflTransGen (T.insert k t).Links a k ∧ TransGen (T.insert k t).Links k i) := by
  induction h with
  | single hab =>
    by_cases hak : a = k
    · subst hak
      exact .inr ⟨.refl, .single hab⟩
    · exact .inl (.single (hab.of_insert hak))
  | @tail b c hab hbc ih =>
    rcases ih with hold | ⟨hak, hkb⟩
    · by_cases hbk : b = k
      · subst hbk
        exact .inr ⟨hab.to_reflTransGen, .single hbc⟩
      · exact .inl (hold.tail (hbc.of_insert hbk))
    · exact .inr ⟨hak, hkb.tail hbc⟩

/-- **An entry can be added** if the links from its argument do not lead to its key. -/
theorem Unlooped.insert (h : T.Unlooped) (ht : ∀ j, t.key? = some j → ¬ ReflTransGen T.Links j k) :
    (T.insert k t).Unlooped := by
  intro i hi
  rcases through_of_insert hi with hi | ⟨hik, hki⟩
  · exact h i hi
  · -- a circle through `k` starts with the new link
    obtain ⟨j, hkj, hjk⟩ := TransGen.head'_iff.mp (hki.trans_left hik)
    unfold Links at hkj
    rw [follow?_insert, if_pos rfl] at hkj
    exact ht j hkj (reach_of_insert hjk)

/-- **Recording an argument keeps a table unlooped.** -/
theorem Unlooped.record (h : T.Unlooped) (k : VarKey) (t : Ty) : (T.record k t).Unlooped := by
  obtain ⟨-, heq⟩ | ⟨heq, hno⟩ | ⟨-, j, -, -, heq⟩ := T.record_cases k t
  · rw [heq]
    exact h
  · rw [heq]
    exact h.insert hno
  · rw [heq]
    exact h.foldl_erase _

theorem Unlooped.recordAll (h : T.Unlooped) (es : List (VarKey × Ty)) :
    (T.recordAll es).Unlooped := by
  induction es generalizing T with
  | nil => exact h
  | cons e es ih => exact ih (h.record e.1 e.2)

/-- A table is unlooped if every link leads to a key of lower rank. -/
theorem unlooped_of_rank (rank : VarKey → Nat) (hr : ∀ k j, T.Links k j → rank j < rank k) :
    T.Unlooped := by
  have hlt : ∀ k j, TransGen T.Links k j → rank j < rank k := by
    intro k j hkj
    induction hkj with
    | single hlink => exact hr _ _ hlink
    | tail _ hlink ih => exact Nat.lt_trans (hr _ _ hlink) ih
  intro k hk
  exact Nat.lt_irrefl _ (hlt k k hk)

/-- A self-binding is the shortest cycle of variables. -/
theorem Unlooped.selfFree (h : T.Unlooped) : T.SelfFree :=
  fun k bounds hk => h k (.single (links_iff.mpr ⟨bounds, hk⟩))

/-- **Following links ends**: each link leaves a key behind that is not met again. -/
theorem Unlooped.wellFounded (h : T.Unlooped) : WellFounded fun j k => T.Links k j := by
  refine Subrelation.wf (fun {j k} hkj => ?_)
    (InvImage.wf (fun k => T.keys.countP fun i => decide (i ∈ T.trail k)) Nat.lt_wfRel.wf)
  refine countP_lt (fun i _ hi => ?_) (mem_keys.mpr hkj.contains) ?_ ?_
  · rw [decide_eq_true_eq, mem_trail_iff] at hi ⊢
    exact .head hkj hi
  · rw [decide_eq_true_eq, mem_trail_iff]
  · rw [decide_eq_true_eq, mem_trail_iff]
    exact fun hjk => h k (TransGen.head' hkj hjk)

end Unlooped

end Table

end Generics
