import Generics.Proofs.Chains
import Generics.Proofs.Recording
import Generics.Proofs.SelfBinding
import Generics.Workload

/-!
# Generics.Proofs.NumberedChains: chains of every length resolve to their end

The walk over a chain of interfaces takes two steps for each class: it enters `C<i>` applied, which records its
argument, and then `C<i>` itself, which leads to the next class applied to the parameter of this one.  So the
state after `i` classes is known (`chainWalk`), one class leads from each to the next (`runs_chainWalk_class`), and
the table at the end has an entry for each class.

From any variable of such a table, and of the one that a chain of method variables is put into, the entries lead
to the next variable and the next until they come to `String`; where they do, the variable resolves to `String`
(`Table.resolve_of_links`).
-/

namespace Generics

/-! ## Variables that lead to a class -/

namespace Table

variable {T : Table} {c : Nominal} {m : Nat}

/-- **A variable from which the entries lead to a class resolves to that class.** -/
theorem resolve_of_links (key : Nat → VarKey)
    (hlinks : ∀ i < m, T.get? (key i) = some (.ofKey (key (i + 1))))
    (hend : T.get? (key m) = some (.nominal c)) : T.resolve (.ofKey (key 0)) = .nominal c := by
  have hchain : ∀ i ≤ m, T.chainKey (key 0) i = some (key i) := by
    intro i hi
    induction i with
    | zero => rfl
    | succ i ih =>
      rw [chainKey_succ, ih (by omega), Option.bind_some, follow?, hlinks i hi]
      rfl
  have hlast : T.chain (key 0) (m + 1) = some (.nominal c) := by
    rw [chain_succ, hchain m (Nat.le_refl m), Option.bind_some, hend]
  have hidentical := resolve_identical_of_chain hlast rfl rfl
  cases hr : T.resolve (.ofKey (key 0)) with
  | nominal c' =>
    rw [hr, Ty.identical, decide_eq_true_eq] at hidentical
    rw [hidentical]
  | _ =>
    rw [hr] at hidentical
    cases hidentical

end Table

namespace Workload

/-! ## The declarations -/

/-- The parameter of the class `C<i>`. -/
def chainParam (i : Nat) : VarKey := ⟨.type (chainClass i), "E"⟩

theorem chainParam_injective : Function.Injective chainParam := by
  intro i j h
  have hscope : Scope.type (chainClass i) = .type (chainClass j) := congrArg VarKey.scope h
  rw [Scope.type.injEq] at hscope
  exact chainClass_injective hscope

/-- What the class `C<i>` is applied to: `String` in the context, the parameter of `C<i-1>` where that
implements it. -/
def chainArg : Nat → Ty
  | 0 => .plain "String"
  | i + 1 => .ofKey (chainParam i)

theorem exists_of_mem_vars_chainArg {i : Nat} {k : VarKey} (h : k ∈ (chainArg i).vars) :
    ∃ j < i, k = chainParam j := by
  cases i with
  | zero => cases h
  | succ i =>
    rw [chainArg, Ty.vars_ofKey, List.mem_singleton] at h
    exact ⟨i, Nat.lt_succ_self i, h⟩

theorem named?_interfaces {n i : Nat} (hi : i < n) :
    (interfaces n).1.named? (chainClass i) = some (chainDeclaration n i) := by
  have hfold : ∀ m, i < m →
      ((List.range m).foldl (fun R j => R.register (chainClass j) (chainDeclaration n j))
        Registry.empty).named? (chainClass i) = some (chainDeclaration n i) := by
    intro m him
    induction m with
    | zero => omega
    | succ m ih =>
      rw [List.range_succ, List.foldl_append, List.foldl_cons, List.foldl_nil,
        Registry.named?_register]
      by_cases heq : i = m
      · rw [if_pos (by rw [heq]), heq]
      · rw [if_neg fun h => heq (chainClass_injective h), ih (by omega)]
  exact hfold n hi

theorem find?_interfaces {n i : Nat} (hi : i < n) :
    (interfaces n).1.find? (.plain (chainClass i)) = some (chainDeclaration n i) :=
  Registry.find?_eq_some_iff.mpr ⟨rfl, named?_interfaces hi⟩

theorem params_chainDeclaration (n i : Nat) :
    (chainDeclaration n i).params = [{ key := chainParam i }] := by
  unfold chainDeclaration
  by_cases h : i + 1 < n
  · simp only [if_pos h]
    rfl
  · simp only [if_neg h]
    rfl

/-- All classes but the last lead to the next one. -/
theorem supertypes_interfaces {n i : Nat} (hi : i < n) :
    (interfaces n).1.supertypes (.plain (chainClass i)) =
      if i + 1 < n then [chainType (i + 1) (chainArg (i + 1))] else [] := by
  rw [Registry.supertypes, find?_interfaces hi]
  by_cases h : i + 1 < n
  · simp only [chainDeclaration, if_pos h]
    rfl
  · simp only [chainDeclaration, if_neg h]
    rfl

/-! ## The walk -/

/-- What is entered on the way through the first `i` classes, the latest first. -/
def chainEntered : Nat → List Ty
  | 0 => []
  | i + 1 => .plain (chainClass i) :: chainType i (chainArg i) :: chainEntered i

/-- The walk when it has come to the class `C<i>`. -/
def chainWalk (i : Nat) : Walk :=
  ⟨[chainType i (chainArg i)], chainEntered i, .tabulate chainParam chainArg i⟩

theorem exists_of_mem_chainEntered {i : Nat} {t : Ty} (h : t ∈ chainEntered i) :
    ∃ j < i, t = .plain (chainClass j) ∨ t = chainType j (chainArg j) := by
  induction i with
  | zero => cases h
  | succ i ih =>
    rcases List.mem_cons.mp h with h | h
    · exact ⟨i, Nat.lt_succ_self i, .inl h⟩
    · rcases List.mem_cons.mp h with h | h
      · exact ⟨i, Nat.lt_succ_self i, .inr h⟩
      · obtain ⟨j, hj, ht⟩ := ih h
        exact ⟨j, by omega, ht⟩

/-- No class is met twice. -/
theorem not_listed_chainEntered {i : Nat} {t : Ty}
    (ht : t = .plain (chainClass i) ∨ ∃ a, t = chainType i a) :
    ¬ t.listed (chainEntered i) = true := by
  intro h
  obtain ⟨s, hs, hagrees⟩ := List.any_eq_true.mp h
  obtain ⟨j, hj, heq⟩ := exists_of_mem_chainEntered hs
  have hne : Nominal.plain (chainClass i) ≠ .plain (chainClass j) := by
    intro hname
    have := chainClass_injective (congrArg Nominal.name hname)
    omega
  rcases ht with rfl | ⟨a, rfl⟩ <;> rcases heq with rfl | rfl <;>
    simp [Ty.plain, chainType, Ty.agrees, hne] at hagrees

/-- The parameter of a class is recorded when the class is met: it is not mapped yet, and neither an entry nor
its argument mentions it. -/
theorem record_chainArg (i : Nat) :
    (Table.tabulate chainParam chainArg i).record (chainParam i) (chainArg i) =
      .tabulate chainParam chainArg (i + 1) := by
  have hlater : ∀ j ≤ i, chainParam i ∉ (chainArg j).vars := by
    intro j hj hmem
    obtain ⟨l, hl, heq⟩ := exists_of_mem_vars_chainArg hmem
    have := chainParam_injective heq
    omega
  rw [Table.tabulate_succ]
  refine Table.record_of_fresh ?_ ?_ (hlater i (Nat.le_refl i))
  · intro hc
    obtain ⟨t, ht⟩ := Table.contains_iff.mp hc
    obtain ⟨j, hj, heq, -⟩ := (Table.get?_tabulate chainParam_injective).mp ht
    have := chainParam_injective heq
    omega
  · rintro k ⟨t, ht, hmem⟩
    obtain ⟨j, hj, -, rfl⟩ := (Table.get?_tabulate chainParam_injective).mp ht
    exact hlater j (Nat.le_of_lt hj) (Ty.mem_freeKeys.mp hmem)

theorem enter_chainType {n i : Nat} (hi : i < n) :
    (interfaces n).1.enter (.tabulate chainParam chainArg i) (chainType i (chainArg i)) =
      .ok (.tabulate chainParam chainArg (i + 1)) := by
  simp only [Registry.enter, chainType, find?_interfaces hi, params_chainDeclaration]
  rw [if_neg (by simp), ← record_chainArg]
  rfl

/-- **A class of the chain takes two steps**, which lead to what it implements. -/
theorem runs_chainWalk_class {n i : Nat} (hi : i < n) :
    (interfaces n).1.Runs (chainWalk i)
      ⟨if i + 1 < n then [chainType (i + 1) (chainArg (i + 1))] else [], chainEntered (i + 1),
        .tabulate chainParam chainArg (i + 1)⟩ := by
  let R := (interfaces n).1
  -- the application of the class does not count, since a class agrees with no application
  have hclass : ¬ (Ty.plain (chainClass i)).listed
      (chainType i (chainArg i) :: chainEntered i) = true :=
    not_listed_chainEntered (.inl rfl)
  have happlied : R.Step (chainWalk i)
      ⟨[.plain (chainClass i)], chainType i (chainArg i) :: chainEntered i,
        .tabulate chainParam chainArg (i + 1)⟩ :=
    .enter (not_listed_chainEntered (.inr ⟨_, rfl⟩)) (enter_chainType hi)
  have hplain : R.Step
      ⟨[.plain (chainClass i)], chainType i (chainArg i) :: chainEntered i,
        .tabulate chainParam chainArg (i + 1)⟩
      ⟨R.supertypes (.plain (chainClass i)) ++ [], chainEntered (i + 1),
        .tabulate chainParam chainArg (i + 1)⟩ :=
    .enter hclass rfl
  rw [List.append_nil, supertypes_interfaces hi] at hplain
  exact (Relation.ReflTransGen.single happlied).tail hplain

theorem runs_chainWalk {n i : Nat} (hi : i < n) :
    (interfaces n).1.Runs (chainWalk 0) (chainWalk i) := by
  induction i with
  | zero => exact .refl
  | succ i ih =>
    have hclass := runs_chainWalk_class (Nat.lt_of_succ_lt hi)
    rw [if_pos hi] at hclass
    exact (ih (Nat.lt_of_succ_lt hi)).trans hclass

/-- **A chain of interfaces is surveyed to its end.** -/
theorem survey_interfaces {n : Nat} (hn : 1 ≤ n) (next : Nat) :
    ((interfaces n).1.survey (interfaces n).2 next).1 = .ok (.tabulate chainParam chainArg n) := by
  obtain ⟨m, rfl⟩ : ∃ m, n = m + 1 := ⟨n - 1, by omega⟩
  have hlast := runs_chainWalk_class (Nat.lt_succ_self m)
  rw [if_neg (Nat.lt_irrefl _)] at hlast
  exact Registry.survey_eq_ok_iff_runs.mpr ⟨_, (runs_chainWalk (Nat.lt_succ_self m)).trans hlast⟩

theorem survey_interfaces_zero (next : Nat) :
    ((interfaces 0).1.survey (interfaces 0).2 next).1 = .error (.undeclared (.plain "C0")) :=
  Registry.survey_eq_error_iff_runs.mpr ⟨_, _, _, _, .refl, nofun, rfl⟩

/-! ## The tables -/

theorem resolve_chainParam {n i : Nat} (hi : i < n) :
    (Table.tabulate chainParam chainArg n).resolve (.ofKey (chainParam i)) = .plain "String" := by
  -- from `C<i>` the entries lead down to `C0`
  refine Table.resolve_of_links (fun j => chainParam (i - j)) (m := i) (fun j hj => ?_) ?_
  · obtain ⟨l, hl⟩ : ∃ l, i - j = l + 1 := ⟨i - j - 1, by omega⟩
    have hnext : i - (j + 1) = l := by omega
    rw [hl, hnext]
    exact Table.get?_tabulate_of_lt chainParam_injective (by omega)
  · rw [Nat.sub_self]
    exact Table.get?_tabulate_of_lt chainParam_injective (by omega)

/-- No variable of a method is mapped to itself, so the table can be built. -/
theorem methodVars_eq (n : Nat) :
    methodVars n = .ok (.tabulate chainKey (chainTarget n) n,
      .applied none (.plain "List") [.ofKey (chainKey 0)]) := by
  have hextend : Table.empty.extend ((List.range n).map fun i => (chainKey i, chainTarget n i)) =
      .ok (.tabulate chainKey (chainTarget n) n) := by
    refine Table.extend_eq_ok_iff.mpr ⟨fun e he => ?_, rfl⟩
    obtain ⟨i, -, rfl⟩ := List.mem_map.mp he
    show (chainTarget n i).key? ≠ some (chainKey i)
    unfold chainTarget
    by_cases hi : i + 1 < n
    · rw [if_pos hi]
      intro h
      have := chainKey_injective (Option.some.inj h)
      omega
    · rw [if_neg hi]
      nofun
  rw [methodVars, hextend]
  rfl

theorem resolve_chainKey {n : Nat} (hn : 1 ≤ n) :
    (Table.tabulate chainKey (chainTarget n) n).resolve (.ofKey (chainKey 0)) = .plain "String" := by
  have hget : ∀ j < n,
      (Table.tabulate chainKey (chainTarget n) n).get? (chainKey j) = some (chainTarget n j) :=
    fun j hj => Table.get?_tabulate_of_lt chainKey_injective hj
  refine Table.resolve_of_links chainKey (m := n - 1) (fun j hj => ?_) ?_
  · rw [hget j (by omega), chainTarget, if_pos (by omega)]
  · rw [hget (n - 1) (by omega), chainTarget, if_neg (by omega)]
    rfl

/-! ## The main result -/

/-- **Chains of every length resolve to `String`.**  A context over a chain of `n` interfaces yields a table of
`n` entries: the parameter of `C0` is mapped to `String`, the one of `C<i>` to that of `C<i-1>`, and all of them
resolve to `String`.  If there are no interfaces, not even `C0` is declared.  The table of `n` method variables has
`n` entries as well, each variable being mapped to the next and the last to `String`.  It resolves the type `List<T>`
of the first variable to `List<String>`, and leaves it as it is if there are no variables. -/
theorem resolve_numbered_chains (n next : Nat) :
    let found := ((interfaces n).1.contextTable (interfaces n).2 next).1
    let list (t : Ty) : Ty := .applied none (.plain "List") [t]
    (1 ≤ n → ∃ T, found = .ok T ∧ T.size = n ∧
      T.get? (chainParam 0) = some (.plain "String") ∧
      (∀ i, 0 < i → i < n → T.get? (chainParam i) = some (.ofKey (chainParam (i - 1)))) ∧
      ∀ i < n, T.resolve (.ofKey (chainParam i)) = .plain "String") ∧
    (n = 0 → found = .error (.undeclared (.plain "C0"))) ∧
    ∃ T, methodVars n = .ok (T, list (.ofKey (chainKey 0))) ∧ T.size = n ∧
      (∀ i < n, T.get? (chainKey i) = some (chainTarget n i)) ∧
      (1 ≤ n → T.resolve (list (.ofKey (chainKey 0))) = list (.plain "String")) ∧
      (n = 0 → T.resolve (list (.ofKey (chainKey 0))) = list (.ofKey (chainKey 0))) := by
  intro found list
  have hfound : found = ((interfaces n).1.survey (interfaces n).2 next).1 :=
    congrArg Prod.fst (Registry.contextTable_eq_survey _ _ _)
  have hlist : ∀ (T : Table) (t : Ty), T.resolve (list t) = list (T.resolve t) :=
    fun T t => T.resolve_applied none (.plain "List") [t]
  refine ⟨fun hn => ?_, ?_, ?_⟩
  · refine ⟨_, hfound.trans (survey_interfaces hn next), Table.size_tabulate chainParam_injective,
      Table.get?_tabulate_of_lt chainParam_injective hn, fun i hpos hi => ?_,
      fun i hi => resolve_chainParam hi⟩
    obtain ⟨j, rfl⟩ : ∃ j, i = j + 1 := ⟨i - 1, by omega⟩
    exact Table.get?_tabulate_of_lt chainParam_injective hi
  · rintro rfl
    exact hfound.trans (survey_interfaces_zero next)
  · refine ⟨_, methodVars_eq n, Table.size_tabulate chainKey_injective,
      fun i hi => Table.get?_tabulate_of_lt chainKey_injective hi, fun hn => ?_, ?_⟩
    · rw [hlist, resolve_chainKey hn]
    · rintro rfl
      rw [hlist]
      exact congrArg list (Table.resolveUnder_ofKey_unmapped _ [] rfl)

/-- Chains of eleven, where `C10` comes after `C9` and not after `C1`, and chains of none. -/
theorem resolve_numbered_chains_eleven :
    let C10 : VarKey := ⟨.type "C10", "E"⟩
    let list (t : Ty) : Ty := .applied none (.plain "List") [t]
    let m0 : Ty := .ofKey ⟨.method "Chain" "m0", "T"⟩
    (1 ≤ 11 ∧ ∃ T, ((interfaces 11).1.contextTable (interfaces 11).2 7).1 = .ok T ∧ T.size = 11 ∧
      T.get? C10 = some (.ofKey ⟨.type "C9", "E"⟩) ∧ T.resolve (.ofKey C10) = .plain "String") ∧
    (∃ T, methodVars 11 = .ok (T, list m0) ∧ T.size = 11 ∧ T.resolve (list m0) = list (.plain "String")) ∧
    ((interfaces 0).1.contextTable (interfaces 0).2 7).1 = .error (.undeclared (.plain "C0")) ∧
    ∃ T, methodVars 0 = .ok (T, list m0) ∧ T.resolve (list m0) = list m0 := by
  intro C10 list m0
  obtain ⟨hchain, -, S, hS, hsize', -, hlist, -⟩ := resolve_numbered_chains 11 7
  obtain ⟨T, hT, hsize, -, hget, hresolve⟩ := hchain (by decide)
  obtain ⟨-, hnone, S', hS', -, -, -, hlist'⟩ := resolve_numbered_chains 0 7
  refine ⟨⟨by decide, T, hT, hsize, ?_, ?_⟩, ⟨S, hS, hsize', hlist (by decide)⟩, hnone rfl, S', hS',
    hlist' rfl⟩
  · exact hget 10 (by decide) (by decide)
  · exact hresolve 10 (by decide)

end Workload

end Generics
