import Generics.Proofs.Entries
import Generics.Supertypes
import Mathlib.Logic.Relation

/-!
# Generics.Proofs.Walk: the supertype walk step by step

The walk over the supertypes of a context is a transition system: a state holds the types still to be
visited, the types entered so far and what has been found, and a step takes the first pending type,
skips it if an equal one was entered before, and enters it otherwise.  The walk returns a table
exactly if its run comes to an end with that table (`walk_eq_ok_iff`), and fails exactly if its run
comes to a type that cannot be entered (`walk_eq_error_iff`).  What is to be shown of a walk is shown
of one step, and carried along the run.
-/

namespace Generics

open Relation

/-- A walk under way: the types to visit, the types entered so far, the latest first, and what they
say. -/
structure Walk where
  pending : List Ty
  entered : List Ty
  found : Table

/-- Where a step is determined by the state, runs from one state that both have come to an end have
come to the same end. -/
theorem eq_of_final {α : Type} {r : α → α → Prop} (hr : Relator.RightUnique r) {a b c : α}
    (hab : ReflTransGen r a b) (hac : ReflTransGen r a c) (hb : ∀ x, ¬ r b x) (hc : ∀ x, ¬ r c x) :
    b = c := by
  rcases ReflTransGen.total_of_right_unique hr hab hac with hbc | hcb
  · rcases hbc.cases_head with rfl | ⟨x, hx, -⟩
    · rfl
    · exact absurd hx (hb x)
  · rcases hcb.cases_head with rfl | ⟨x, hx, -⟩
    · rfl
    · exact absurd hx (hc x)

namespace Registry

variable {R : Registry}

/-- One step of a walk. -/
inductive Step (R : Registry) : Walk → Walk → Prop where
  | skip {t : Ty} {rest entered : List Ty} {found : Table} (h : t.listed entered = true) :
      Step R ⟨t :: rest, entered, found⟩ ⟨rest, entered, found⟩
  | enter {t : Ty} {rest entered : List Ty} {found found' : Table}
      (h : ¬ t.listed entered = true) (hf : R.enter found t = .ok found') :
      Step R ⟨t :: rest, entered, found⟩ ⟨R.next t ++ rest, t :: entered, found'⟩

/-- Any number of steps. -/
def Runs (R : Registry) : Walk → Walk → Prop := ReflTransGen R.Step

/-- **The walk returns a table exactly if its run ends with that table.** -/
theorem walk_eq_ok_iff {context : Ty} {pending entered : List Ty} {found T : Table}
    {inside : ∀ t ∈ pending, t ∈ R.horizon context} :
    R.walk context pending entered found inside = .ok T ↔
      ∃ seen, R.Runs ⟨pending, entered, found⟩ ⟨[], seen, T⟩ := by
  induction pending, entered, found, inside using walk.induct R context with
  | case1 entered found inside =>
    rw [walk, Except.ok.injEq]
    constructor
    · rintro rfl
      exact ⟨entered, .refl⟩
    · rintro ⟨seen, h⟩
      rcases ReflTransGen.cases_head h with heq | ⟨w, hw, -⟩
      · cases heq
        rfl
      · cases hw
  | case2 entered found t rest inside hv _ ih =>
    rw [walk, dif_pos hv, ih]
    refine exists_congr fun seen => ⟨fun h => h.head (.skip hv), fun h => ?_⟩
    rcases ReflTransGen.cases_head h with heq | ⟨w, hw, hrun⟩
    · cases heq
    · cases hw with
      | skip _ => exact hrun
      | enter hn _ => exact absurd hv hn
  | case3 entered found t rest inside hv v he =>
    rw [walk, dif_neg hv, he]
    refine iff_of_false nofun ?_
    rintro ⟨seen, h⟩
    rcases ReflTransGen.cases_head h with heq | ⟨w, hw, -⟩
    · cases heq
    · cases hw with
      | skip hl => exact hv hl
      | enter _ hf =>
        rw [he] at hf
        cases hf
  | case4 entered found t rest inside hv found' he _ ih =>
    rw [walk, dif_neg hv, he, ih]
    refine exists_congr fun seen => ⟨fun h => h.head (.enter hv he), fun h => ?_⟩
    rcases ReflTransGen.cases_head h with heq | ⟨w, hw, hrun⟩
    · cases heq
    · cases hw with
      | skip hl => exact absurd hl hv
      | enter _ hf =>
        rw [he] at hf
        cases hf
        exact hrun

section Deterministic

theorem rightUnique_step (R : Registry) : Relator.RightUnique R.Step := by
  intro w w₁ w₂ h₁ h₂
  cases h₁ with
  | skip hv =>
    cases h₂ with
    | skip _ => rfl
    | enter hn _ => exact absurd hv hn
  | enter hn hf =>
    cases h₂ with
    | skip hv => exact absurd hv hn
    | enter _ hf' =>
      rw [hf, Except.ok.injEq] at hf'
      rw [hf']

theorem not_step_of_done {entered : List Ty} {found : Table} (w : Walk) :
    ¬ R.Step ⟨[], entered, found⟩ w := nofun

theorem not_step_of_error {t : Ty} {rest entered : List Ty} {found : Table} {v : Violation}
    (hv : ¬ t.listed entered = true) (he : R.enter found t = .error v) (w : Walk) :
    ¬ R.Step ⟨t :: rest, entered, found⟩ w := by
  intro h
  cases h with
  | skip hl => exact hv hl
  | enter _ hf =>
    rw [he] at hf
    cases hf

theorem exists_fault_of_walk {context : Ty} {pending entered : List Ty} {found : Table}
    {v : Violation} {inside : ∀ t ∈ pending, t ∈ R.horizon context}
    (h : R.walk context pending entered found inside = .error v) :
    ∃ t rest seen T, R.Runs ⟨pending, entered, found⟩ ⟨t :: rest, seen, T⟩ ∧
      ¬ t.listed seen = true ∧ R.enter T t = .error v := by
  induction pending, entered, found, inside using walk.induct R context with
  | case1 entered found inside =>
    rw [walk] at h
    cases h
  | case2 entered found t rest inside hv _ ih =>
    rw [walk, dif_pos hv] at h
    obtain ⟨u, us, seen, T, hrun, hfault⟩ := ih h
    exact ⟨u, us, seen, T, hrun.head (.skip hv), hfault⟩
  | case3 entered found t rest inside hv v' he =>
    rw [walk, dif_neg hv, he] at h
    cases h
    exact ⟨t, rest, entered, found, .refl, hv, he⟩
  | case4 entered found t rest inside hv found' he _ ih =>
    rw [walk, dif_neg hv, he] at h
    obtain ⟨u, us, seen, T, hrun, hfault⟩ := ih h
    exact ⟨u, us, seen, T, hrun.head (.enter hv he), hfault⟩

/-- **The walk fails exactly if its run comes to a type that cannot be entered**, and with the
violation met there. -/
theorem walk_eq_error_iff {context : Ty} {pending entered : List Ty} {found : Table}
    {v : Violation} {inside : ∀ t ∈ pending, t ∈ R.horizon context} :
    R.walk context pending entered found inside = .error v ↔
      ∃ t rest seen T, R.Runs ⟨pending, entered, found⟩ ⟨t :: rest, seen, T⟩ ∧
        ¬ t.listed seen = true ∧ R.enter T t = .error v := by
  refine ⟨exists_fault_of_walk, ?_⟩
  rintro ⟨t, rest, seen, T, hrun, hv, he⟩
  -- the walk ends in some way, and its run has only one end
  cases hw : R.walk context pending entered found inside with
  | ok T' =>
    obtain ⟨seen', hrun'⟩ := walk_eq_ok_iff.mp hw
    have hend := eq_of_final R.rightUnique_step hrun hrun' (not_step_of_error hv he) not_step_of_done
    cases hend
  | error v' =>
    obtain ⟨t', rest', seen', T', hrun', hv', he'⟩ := exists_fault_of_walk hw
    have hend := eq_of_final R.rightUnique_step hrun hrun' (not_step_of_error hv he)
      (not_step_of_error hv' he')
    cases hend
    rw [he, Except.error.injEq] at he'
    rw [he']

end Deterministic

theorem survey_eq_ok_iff_runs {context : Ty} {next : Nat} {T : Table} :
    (R.survey context next).1 = .ok T ↔
      ∃ seen, R.Runs ⟨[(context.capture next).1], [], .empty⟩ ⟨[], seen, T⟩ :=
  walk_eq_ok_iff

theorem survey_eq_error_iff_runs {context : Ty} {next : Nat} {v : Violation} :
    (R.survey context next).1 = .error v ↔
      ∃ t rest seen T, R.Runs ⟨[(context.capture next).1], [], .empty⟩ ⟨t :: rest, seen, T⟩ ∧
        ¬ t.listed seen = true ∧ R.enter T t = .error v :=
  walk_eq_error_iff

/-- A context yields the table that the run from the captured context ends with, if no entry of it
binds a variable to itself. -/
theorem contextTable_eq_ok_iff {context : Ty} {next : Nat} {T : Table} :
    (R.contextTable context next).1 = .ok T ↔
      (∀ e ∈ T.entries, e.2.key? ≠ some e.1) ∧
        ∃ seen, R.Runs ⟨[(context.capture next).1], [], .empty⟩ ⟨[], seen, T⟩ := by
  have hwalk : ∀ S, R.parameterTable (context.capture next).1 = .ok S ↔
      ∃ seen, R.Runs ⟨[(context.capture next).1], [], .empty⟩ ⟨[], seen, S⟩ :=
    fun _ => walk_eq_ok_iff
  rw [← hwalk, contextTable, survey]
  cases R.parameterTable (context.capture next).1 with
  | error v => simp [Except.bind]
  | ok S =>
    rw [Except.ok.injEq]
    refine Table.extend_eq_ok_iff.trans ?_
    rw [Table.empty_insertAll_entries]
    constructor
    · rintro ⟨hself, rfl⟩
      exact ⟨hself, rfl⟩
    · rintro ⟨hself, rfl⟩
      exact ⟨hself, rfl⟩

/-! ## Declarations -/

/-- A declaration is found under its name, and nothing else changes. -/
theorem named?_register (R : Registry) (name other : String) (d : Declaration) :
    (R.register name d).named? other = if other = name then some d else R.named? other := by
  show ((name, d) :: R.declarations.filter fun e => decide (e.1 ≠ name)).lookup other = _
  rw [Table.lookup_cons_ite, Table.lookup_filter_ne]
  by_cases h : other = name
  · rw [if_pos h, if_pos h]
  · rw [if_neg h, if_neg h, if_neg h]
    rfl

theorem find?_eq_none_iff {c : Nominal} :
    R.find? c = none ↔ c.isArray = true ∨ R.named? c.name = none := by
  unfold find?
  by_cases hc : c.isArray = true
  · simp [hc]
  · simp [hc]

theorem find?_eq_some_iff {c : Nominal} {d : Declaration} :
    R.find? c = some d ↔ c.isArray = false ∧ R.named? c.name = some d := by
  unfold find?
  by_cases hc : c.isArray = true
  · simp [hc]
  · simp [hc]

theorem mem_supertypes_iff {c : Nominal} {t : Ty} :
    t ∈ R.supertypes c ↔ ∃ d, R.find? c = some d ∧ t ∈ d.supertypes := by
  unfold supertypes
  cases R.find? c with
  | none => simp
  | some d => simp

/-! ## Entering a type -/

/-- The keys of the parameters that a class declares. -/
def paramKeys (R : Registry) (c : Nominal) : List VarKey :=
  match R.find? c with
  | some d => d.params.map Param.key
  | none => []

theorem paramKeys_of_find? {c : Nominal} {d : Declaration} (h : R.find? c = some d) :
    R.paramKeys c = d.params.map Param.key := by
  rw [paramKeys, h]

/-- Entering an applied class records its arguments, one for each declared parameter. -/
theorem of_enter_applied {owner : Option Ty} {raw : Nominal} {args : List Ty}
    {found found' : Table} (h : R.enter found (.applied owner raw args) = .ok found') :
    (R.paramKeys raw).length = args.length ∧
      found' = found.recordAll ((R.paramKeys raw).zip args) := by
  unfold enter at h
  cases hd : R.find? raw with
  | none => simp [hd] at h
  | some d =>
    simp only [hd] at h
    split at h
    · cases h
    · next hl =>
      cases h
      rw [paramKeys_of_find? hd, List.length_map]
      exact ⟨Decidable.not_not.mp hl, rfl⟩

/-- The type applies a class that is not declared, or to another number of arguments than it declares
parameters; the violation says so. -/
inductive Faulty (R : Registry) : Ty → Violation → Prop where
  | undeclared {owner : Option Ty} {raw : Nominal} {args : List Ty}
      (h : raw.isArray = true ∨ R.named? raw.name = none) :
      Faulty R (.applied owner raw args) (.undeclared raw)
  | parameterCount {owner : Option Ty} {raw : Nominal} {args : List Ty} {d : Declaration}
      (ha : raw.isArray = false) (hd : R.named? raw.name = some d)
      (hn : d.params.length ≠ args.length) :
      Faulty R (.applied owner raw args) (.parameterCount raw d.params.length args.length)

/-- A type cannot be entered exactly if it is faulty. -/
theorem enter_eq_error_iff {found : Table} {t : Ty} {v : Violation} :
    R.enter found t = .error v ↔ R.Faulty t v := by
  cases t with
  | applied owner raw args =>
    cases hd : R.find? raw with
    | none =>
      simp only [enter, hd, Except.error.injEq]
      constructor
      · rintro rfl
        exact .undeclared (find?_eq_none_iff.mp hd)
      · intro h
        cases h with
        | undeclared _ => rfl
        | parameterCount ha hd' _ =>
          rw [find?_eq_some_iff.mpr ⟨ha, hd'⟩] at hd
          cases hd
    | some d =>
      obtain ⟨ha, hn⟩ := find?_eq_some_iff.mp hd
      simp only [enter, hd]
      constructor
      · intro h
        split at h
        · next hl =>
          cases h
          exact .parameterCount ha hn hl
        · cases h
      · intro h
        cases h with
        | undeclared hu =>
          rw [find?_eq_none_iff.mpr hu] at hd
          cases hd
        | parameterCount _ hn' hl =>
          rw [hn] at hn'
          cases hn'
          exact if_pos hl
  | _ => exact ⟨nofun, nofun⟩

end Registry

end Generics
