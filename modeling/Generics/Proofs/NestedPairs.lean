import Generics.Proofs.Outcomes
import Generics.Proofs.Resolution
import Generics.Workload

/-!
# Generics.Proofs.NestedPairs: unifying nested pairs of every depth

A pair is split, its variable is bound, and what is left is the pair inside, whose variables start one
later.  So the decisions on nested pairs are known beforehand (`settle_pairs`), and with them the bindings
and the trace.  No variable is bound twice, since the variables are numbered.
-/

namespace Generics.Workload

/-! ## The decisions -/

/-- What is decided about `n` nested pairs whose variables start at `A<i>`. -/
def pairDecisions (i : Nat) : Nat → List Decision
  | 0 => [⟨.plain "String", .plain "String", .same⟩]
  | n + 1 =>
    ⟨pairsOfVars i (n + 1), pairsOfIntegers (n + 1), .splitArguments 2⟩ ::
      ⟨.ofKey (pairKey i), .plain "Integer", .bind (pairKey i)⟩ :: pairDecisions (i + 1) n

theorem settle_pairs (i n : Nat) :
    (pairsOfVars i n).settle (pairsOfIntegers n) = ⟨pairDecisions i n, none⟩ := by
  induction n generalizing i with
  | zero => exact Ty.settle_of_agrees (Ty.agrees_refl _)
  | succ n ih =>
    have hvar : (Ty.ofKey (pairKey i)).settle (.plain "Integer") =
        .settled (.ofKey (pairKey i)) (.plain "Integer") (.bind (pairKey i)) :=
      Ty.settle_var (by simp [Ty.agrees, Ty.plain])
    have hargs : Ty.settleEach [.ofKey (pairKey i), pairsOfVars (i + 1) n]
        [.plain "Integer", pairsOfIntegers n] =
          ⟨⟨.ofKey (pairKey i), .plain "Integer", .bind (pairKey i)⟩ :: pairDecisions (i + 1) n, none⟩ := by
      simp only [Ty.settleEach, hvar, ih]
      show (⟨_ :: (pairDecisions (i + 1) n ++ []), none⟩ : Course) = _
      rw [List.append_nil]
    have hne : ¬ (pairsOfVars i (n + 1)).agrees (pairsOfIntegers (n + 1)) = true := by
      simp [pairsOfVars, pairsOfIntegers, pair, Ty.agrees, Ty.agreesEach, Ty.ofKey, Ty.plain]
    rw [pairsOfVars, pairsOfIntegers, pair, pair, Ty.settle_applied hne]
    simp only [hargs, ne_eq, not_true_eq_false, if_false, List.length_cons]
    rfl

/-- One binding for each pair. -/
theorem bindings_pairs (i n : Nat) :
    (pairDecisions i n).filterMap Decision.binding? =
      (List.range' i n).map fun j => (pairKey j, .plain "Integer") := by
  induction n generalizing i with
  | zero => rfl
  | succ n ih =>
    rw [List.range'_succ, List.map_cons, ← ih]
    rfl

theorem actions_pairs (i n : Nat) :
    (pairDecisions i n).map Decision.action =
      (List.replicate n [.decompose, .bind]).flatten ++ [.identity] := by
  induction n generalizing i with
  | zero => rfl
  | succ n ih =>
    rw [List.replicate_succ, List.flatten_cons, List.append_assoc, ← ih (i + 1)]
    rfl

theorem length_pairDecisions (i n : Nat) : (pairDecisions i n).length = 2 * n + 1 := by
  induction n generalizing i with
  | zero => rfl
  | succ n ih =>
    rw [pairDecisions, List.length_cons, List.length_cons, ih]
    omega

/-! ## The table -/

/-- A table that maps the variables of nested pairs to `Integer` resolves the pairs. -/
theorem resolve_pairsOfVars {T : Table} {i n : Nat}
    (h : ∀ j, i ≤ j → j < i + n → T.get? (pairKey j) = some (.plain "Integer")) :
    T.resolve (pairsOfVars i n) = pairsOfIntegers n := by
  induction n generalizing i with
  | zero => exact T.resolve_nominal _
  | succ n ih =>
    have hvar : T.resolve (.ofKey (pairKey i)) = .plain "Integer" := by
      have hget := h i (Nat.le_refl i) (by omega)
      rw [Table.resolve, Ty.ofKey, T.resolveUnder_mapped [] (by simp) hget]
      exact T.resolveUnder_nominal _ _
    have hrest : T.resolve (pairsOfVars (i + 1) n) = pairsOfIntegers n :=
      ih fun j hij hj => h j (by omega) (by omega)
    rw [pairsOfVars, pair, T.resolve_applied, List.map_cons, List.map_cons, hvar, hrest]
    rfl

/-! ## The main result -/

/-- **Nested pairs of every depth are unified.**  A formal type of `n` pairs unifies with its actual type.  The
table has `n` entries, which map `A0` to `A<n-1>` to `Integer`, and resolves the formal type to the actual one.
A new unifier that records `2 * n + 1` steps or more records just so many: each pair is split and its variable
bound, and at the end `String` meets itself. -/
theorem unify_pairs (n : Nat) :
    (∃ T, unify (pairs n).1 (pairs n).2 = .ok T ∧ T.size = n ∧
      (∀ k t, T.get? k = some t ↔ ∃ i < n, k = pairKey i ∧ t = .plain "Integer") ∧
      T.resolve (pairs n).1 = (pairs n).2) ∧
    ∀ limit, 2 * n + 1 ≤ limit →
      let after := Unifier.unify { tracing := ⟨true, limit⟩ } (pairs n).1 (pairs n).2
      after.1 = .ok () ∧ after.2.trace.size = 2 * n + 1 ∧
        after.2.trace.toList.map (fun s => s.decision.action) =
          (List.replicate n [.decompose, .bind]).flatten ++ [.identity] := by
  have hcourse : (pairs n).1.settle (pairs n).2 = ⟨pairDecisions 0 n, none⟩ := settle_pairs 0 n
  have hsucceeds : ((pairs n).1.settle (pairs n).2).Succeeds := by rw [hcourse]; rfl
  constructor
  · let T := Table.tabulate pairKey (fun _ => .plain "Integer") n
    have hget : ∀ k t, T.get? k = some t ↔ ∃ i < n, k = pairKey i ∧ t = .plain "Integer" :=
      fun k t => Table.get?_tabulate pairKey_injective
    refine ⟨T, unify_eq_ok_iff.mpr ⟨hsucceeds, ?_⟩, Table.size_tabulate pairKey_injective, hget, ?_⟩
    · rw [hcourse, Course.bindings, bindings_pairs, ← List.range_eq_range']
      rfl
    · exact resolve_pairsOfVars fun j _ hj => (hget _ _).mpr ⟨j, by omega, rfl, rfl⟩
  · intro limit hlimit after
    let u : Unifier := { tracing := ⟨true, limit⟩ }
    have hroom : u.HasRoom ((pairs n).1.settle (pairs n).2).decisions := by
      refine ⟨rfl, ?_⟩
      rw [hcourse, length_pairDecisions]
      show 0 + (2 * n + 1) ≤ limit
      omega
    obtain ⟨steps, htrace, hsteps⟩ := Unifier.exists_steps_unify hroom
    have hafter : after.2.trace.toList = steps := htrace
    have hdecided : steps.map TraceStep.decision = pairDecisions 0 n := by rw [hsteps, hcourse]
    refine ⟨Unifier.unify_eq_ok_iff.mpr hsucceeds, ?_, ?_⟩
    · rw [← Array.length_toList, hafter, ← length_pairDecisions 0 n, ← hdecided, List.length_map]
    · rw [hafter, ← actions_pairs 0 n, ← hdecided, List.map_map]
      rfl

/-- Twelve pairs, with a trace that has room for the steps they need and no more.  The names `A1` and `A10` are
told apart, and `A12` is no variable of theirs. -/
theorem unify_pairs_twelve :
    2 * 12 + 1 ≤ 25 ∧
      (∃ T, unify (pairs 12).1 (pairs 12).2 = .ok T ∧ T.size = 12 ∧
        T.get? ⟨.type "Pair", "A10"⟩ = some (.plain "Integer") ∧
        (∀ t, T.get? ⟨.type "Pair", "A12"⟩ ≠ some t) ∧ T.resolve (pairs 12).1 = (pairs 12).2) ∧
      (Unifier.unify { tracing := ⟨true, 25⟩ } (pairs 12).1 (pairs 12).2).2.trace.size = 25 := by
  obtain ⟨⟨T, hT, hsize, hget, hresolve⟩, htrace⟩ := unify_pairs 12
  refine ⟨by decide, ⟨T, hT, hsize, ?_, ?_, hresolve⟩, (htrace 25 (by decide)).2.1⟩
  · exact (hget _ _).mpr ⟨10, by decide, by decide, rfl⟩
  · intro t ht
    obtain ⟨i, hi, hkey, -⟩ := (hget _ _).mp ht
    have h12 : 12 = i := pairKey_injective (Eq.trans (by decide) hkey)
    omega

end Generics.Workload
