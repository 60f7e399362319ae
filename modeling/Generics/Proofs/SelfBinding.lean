import Generics.Proofs.Rollback
import Generics.Proofs.Survey

/-!
# Generics.Proofs.SelfBinding: no variable is ever bound to itself

Only `Table.extend` looks out for entries that bind a variable to itself.  Unifying types and tabling a
context end with such an extension, and it never fails them: a comparison leaves types that agree alone
before it binds anything (`selfFree_bindings`), and a survey follows the links from an argument
before it records the argument (`Registry.selfFree_survey`).  So both do what they would do without the
check (`Table.unify_eq_map`, `Registry.contextTable_eq_survey`), and the check is there for the entries
that a caller brings along.
-/

namespace Generics

/-! ## Unifying -/

namespace Unifier

variable {u : Unifier}

/-- The table extended with what the unifier has bound. -/
def commit (u : Unifier) (T : Table) : Except Violation Table := T.extend u.bindings.entries

/-- **One comparison binds no variable to itself.** -/
theorem selfFree_unify (hu : u.bindings.SelfFree) (formal actual : Ty) :
    (u.unify formal actual).2.bindings.SelfFree := by
  cases hc : (formal.settle actual).clash? with
  | some c =>
    rw [unify_of_clash hc, bindings_noteAll]
    exact hu
  | none =>
    rw [unify_of_succeeds hc, bindings_rebind]
    exact hu.insertAll fun e he => (Ty.of_mem_bindings_settle he).2

theorem selfFree_unifyAll (hu : u.bindings.SelfFree) (pairs : List (Ty × Ty)) :
    (u.unifyAll pairs).bindings.SelfFree := by
  unfold unifyAll
  induction pairs generalizing u with
  | nil => exact hu
  | cons p ps ih => exact ih (selfFree_unify hu p.1 p.2)

end Unifier

theorem exists_clash_of_unify {formal actual : Ty} {f : Failure}
    (h : unify formal actual = .error f) : ∃ c, f = .clash c := by
  rw [unify_eq] at h
  cases hc : (formal.settle actual).clash? with
  | some c =>
    rw [hc] at h
    cases h
    exact ⟨c, rfl⟩
  | none =>
    rw [hc] at h
    cases h

/-! ## Tabling a context -/

namespace Registry

variable {R : Registry} {context : Ty} {next : Nat}

theorem selfFree_survey {T : Table} (h : (R.survey context next).1 = .ok T) : T.SelfFree := by
  obtain ⟨seen, hrun⟩ := survey_eq_ok_iff_runs.mp h
  exact (moves_of_runs Table.unlooped_empty hrun).2.selfFree

/-- The table of a context is what its survey finds. -/
theorem contextTable_eq_survey (R : Registry) (context : Ty) (next : Nat) :
    R.contextTable context next = R.survey context next := by
  refine Prod.ext ?_ rfl
  show (R.survey context next).1.bind (fun T => Table.empty.extend T.entries) = _
  cases h : (R.survey context next).1 with
  | error v => rfl
  | ok T =>
    refine ((selfFree_survey h).extend_entries .empty).trans ?_
    rw [Table.empty_insertAll_entries]

/-- There are two reasons why a type cannot be entered: the class that it applies is not declared, or
declares another number of parameters. -/
theorem of_enter_eq_error {found : Table} {t : Ty} {v : Violation}
    (h : R.enter found t = .error v) :
    (∃ c, v = .undeclared c) ∨ ∃ c declared supplied, v = .parameterCount c declared supplied := by
  cases enter_eq_error_iff.mp h with
  | undeclared _ => exact .inl ⟨_, rfl⟩
  | parameterCount _ _ _ => exact .inr ⟨_, _, _, rfl⟩

theorem of_survey_eq_error {v : Violation} (h : (R.survey context next).1 = .error v) :
    (∃ c, v = .undeclared c) ∨ ∃ c declared supplied, v = .parameterCount c declared supplied := by
  obtain ⟨t, rest, seen, T, -, -, he⟩ := survey_eq_error_iff_runs.mp h
  exact of_enter_eq_error he

end Registry

/-! ## The main result -/

namespace Table

/-- The tables that can be come by: the empty table, what extending, binding and unifying make of such
a table, the tables of contexts, and such a table with all that a unifier has bound in any number of
comparisons. -/
inductive Obtainable : Table → Prop where
  | empty : Obtainable .empty
  | extend {S T : Table} {es : List (VarKey × Ty)} (hT : Obtainable T)
      (h : T.extend es = .ok S) : Obtainable S
  | bind {S T : Table} {k : VarKey} {t : Ty} (hT : Obtainable T) (h : T.bind k t = .ok S) :
      Obtainable S
  | unify {S : Table} {formal actual : Ty} (h : Generics.unify formal actual = .ok S) :
      Obtainable S
  | unifyInto {S T : Table} {formal actual : Ty} (hT : Obtainable T)
      (h : T.unify formal actual = .ok S) : Obtainable S
  | context {S : Table} {R : Registry} {context : Ty} {next : Nat}
      (h : (R.contextTable context next).1 = .ok S) : Obtainable S
  | commit {S T : Table} {tracing : Tracing} {pairs : List (Ty × Ty)} (hT : Obtainable T)
      (h : (Unifier.unifyAll { tracing } pairs).commit T = .ok S) : Obtainable S

theorem Obtainable.selfFree {T : Table} (h : T.Obtainable) : T.SelfFree := by
  induction h with
  | empty => exact selfFree_empty
  | extend _ h ih => exact ih.extend h
  | bind _ h ih => exact ih.extend h
  | unify h => exact selfFree_of_unify h
  | unifyInto _ h ih =>
    obtain ⟨G, hG, rfl⟩ := unify_eq_ok_iff.mp h
    exact ih.insertAll (selfFree_iff.mp (selfFree_of_unify hG))
  | context h =>
    rw [Registry.contextTable_eq_survey] at h
    exact Registry.selfFree_survey h
  | commit _ h ih => exact ih.extend h

end Table

/-- **No self-binding is ever stored, and nothing trips over the check for one.**  A table that can be
come by maps no key to the variable of that key.  Whatever the inputs are, unifying two types, into a
new table or an old one, fails with nothing but a clash; tabling a context fails with nothing but a class
that is not declared or that declares another number of parameters; and a table can always be extended
with what a unifier has bound. -/
theorem no_selfBinding :
    (∀ T : Table, T.Obtainable → ∀ k bounds, T.get? k ≠ some (.var k bounds)) ∧
      (∀ formal actual f, unify formal actual = .error f → ∃ c, f = .clash c) ∧
      (∀ (T : Table) (formal actual : Ty) f, T.unify formal actual = .error f →
        ∃ c, f = .clash c) ∧
      (∀ (R : Registry) context next v, (R.contextTable context next).1 = .error v →
        (∃ c, v = .undeclared c) ∨
          ∃ c declared supplied, v = .parameterCount c declared supplied) ∧
      ∀ (T : Table) tracing pairs, ∃ S, (Unifier.unifyAll { tracing } pairs).commit T = .ok S := by
  refine ⟨fun T hT => hT.selfFree, fun formal actual f => exists_clash_of_unify, ?_, ?_, ?_⟩
  · intro T formal actual f h
    exact exists_clash_of_unify (Table.unify_eq_error_iff.mp h)
  · intro R context next v h
    rw [Registry.contextTable_eq_survey] at h
    exact Registry.of_survey_eq_error h
  · intro T tracing pairs
    exact ⟨_, (Unifier.selfFree_unifyAll Table.selfFree_empty pairs).extend_entries T⟩

/-- `A` stands for `B`, and `B` for `A`. -/
def swapped : Table :=
  (Table.empty.insert ⟨.type "Pair", "A"⟩ (.ofKey ⟨.type "Pair", "B"⟩)).insert ⟨.type "Pair", "B"⟩
    (.ofKey ⟨.type "Pair", "A"⟩)

/-- A unifier is given `A` and `A extends Number`, which agree, then `Pair<A, B>` and `Pair<B, A>`, and
then two pairs that clash only after `B` has been compared with `B`.  What it has bound can be committed,
a cycle of two variables.  A clash and a class that is not declared are what the other calls report. -/
theorem no_selfBinding_swapped :
    let A : VarKey := ⟨.type "Pair", "A"⟩
    let B : VarKey := ⟨.type "Pair", "B"⟩
    let pair (s t : Ty) : Ty := .applied none (.plain "Pair") [s, t]
    let u := Unifier.unifyAll {}
      [(.ofKey A, .var A [.plain "Number"]),
        (pair (.ofKey A) (.ofKey B), pair (.ofKey B) (.ofKey A)),
        (pair (.ofKey B) (.plain "String"), pair (.ofKey B) (.plain "Integer"))]
    let clash : Failure := .clash ⟨.plain "String", .plain "Integer", .otherType (.plain "String")⟩
    (u.commit .empty = .ok swapped ∧ swapped.Obtainable ∧
        ∀ k bounds, swapped.get? k ≠ some (.var k bounds)) ∧
      (swapped.unify (.plain "String") (.plain "Integer") = .error clash ∧ ∃ c, clash = .clash c) ∧
      ((Registry.ring.contextTable (pair .any .any) 0).1 = .error (.undeclared (.plain "Pair")) ∧
        ((∃ c, Violation.undeclared (.plain "Pair") = .undeclared c) ∨
          ∃ c declared supplied,
            Violation.undeclared (.plain "Pair") = .parameterCount c declared supplied)) := by
  intro A B pair u clash
  obtain ⟨hstored, -, hinto, hcontext, -⟩ := no_selfBinding
  have hbound : u.bindings = swapped := rfl
  have hcommit : u.commit .empty = .ok swapped := by
    rw [Unifier.commit, hbound]
    rfl
  have hT : swapped.Obtainable := .commit .empty hcommit
  have hclash : swapped.unify (.plain "String") (.plain "Integer") = .error clash := rfl
  have hmissing : (Registry.ring.contextTable (pair .any .any) 0).1 =
      .error (.undeclared (.plain "Pair")) := by
    rw [Registry.contextTable_eq_survey]
    exact Registry.survey_eq_error_iff_runs.mpr ⟨_, [], [], .empty, .refl, by decide, rfl⟩
  exact ⟨⟨hcommit, hT, hstored swapped hT⟩, ⟨hclash, hinto swapped _ _ clash hclash⟩, hmissing,
    hcontext _ _ _ _ hmissing⟩

end Generics
