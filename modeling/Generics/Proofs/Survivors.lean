import Generics.Proofs.Acyclic

/-!
# Generics.Proofs.Survivors: which variables are left after resolution

A variable that resolution leaves in a type was reached from the type.  If the table maps it, a shield
must have kept it, and since the bounds of variables do not count, that was the shield over its own
entry: the entry leads back to it (`mem_vars_resolve`).  So only cycles keep mapped variables, and an
acyclic table leaves a type as it is exactly if it maps none of its variables.
-/

namespace Generics.Table

open Relation

variable {T : Table} {X : Ty}

/-- A type without mapped variables stays as it is. -/
theorem resolve_agrees_of_unmapped (hX : X.Constructed)
    (hfree : ∀ k ∈ X.freeKeys, T.contains k = false) : (T.resolve X).agrees X = true := by
  refine Ty.agrees_iff.mpr (skeleton_resolveUnder_of_unmapped (Ty.normal_skeleton hX.normal) ?_)
  intro k hk
  exact not_contains_iff.mp (by simp [hfree k (Ty.mem_freeKeys.mpr hk)])

/-- An acyclic table leaves no mapped variable over. -/
theorem Acyclic.contains_of_mem_freeKeys {v : VarKey} (hT : T.Acyclic)
    (hv : v ∈ (T.resolve X).freeKeys) : T.contains v = false := by
  refine Bool.eq_false_iff.mpr (not_contains_iff.mpr ?_)
  exact hT.get?_of_mem_vars_resolve (Ty.mem_freeKeys.mp hv)

/-- A type that resolution leaves as it is keeps its variables. -/
theorem freeKeys_eq_of_agrees (h : (T.resolve X).agrees X = true) :
    (T.resolve X).freeKeys = X.freeKeys := by
  rw [Ty.freeKeys, Ty.freeKeys, ← Ty.vars_skeleton, Ty.agrees_iff.mp h, Ty.vars_skeleton]

/-- **Which variables survive resolution.**  On every table, every variable of a resolved type can be
reached from the variables of the type by going from keys to the variables of their entries, and if it
is mapped, it lies on a cycle of that relation; and a type none of whose variables is mapped stays as it
is.  So an acyclic table leaves no mapped variable over, and leaves exactly those types as they are that
have none to begin with. -/
theorem resolve_survivors (T : Table) (hX : X.Constructed) :
    (∀ v ∈ (T.resolve X).freeKeys,
        (∃ k ∈ X.freeKeys, ReflTransGen T.Mentions k v) ∧
          (T.contains v = true → TransGen T.Mentions v v)) ∧
      ((∀ k ∈ X.freeKeys, T.contains k = false) → (T.resolve X).agrees X = true) ∧
      (T.Acyclic →
        (∀ v ∈ (T.resolve X).freeKeys, T.contains v = false) ∧
          ((T.resolve X).agrees X = true ↔ ∀ k ∈ X.freeKeys, T.contains k = false)) := by
  refine ⟨fun v hv => ?_, resolve_agrees_of_unmapped hX, fun hT => ?_⟩
  · obtain ⟨⟨k, hk, hreach⟩, hcycle⟩ := mem_vars_resolve (Ty.mem_freeKeys.mp hv)
    exact ⟨⟨k, Ty.mem_freeKeys.mpr hk, hreach⟩, hcycle⟩
  · refine ⟨fun v hv => hT.contains_of_mem_freeKeys hv, fun hsame k hk => ?_,
      resolve_agrees_of_unmapped hX⟩
    rw [← freeKeys_eq_of_agrees hsame] at hk
    exact hT.contains_of_mem_freeKeys hk

/-- `A` stands for `List<B>`, `B` for `Pair<A, C[]>`, and `C` for `String`. -/
def pairCycle : Table :=
  ((empty.insert ⟨.type "Box", "A"⟩
      (.applied none (.plain "List") [.ofKey ⟨.type "Box", "B"⟩])).insert ⟨.type "Box", "B"⟩
      (.applied none (.plain "Pair")
        [.ofKey ⟨.type "Box", "A"⟩, .array (.ofKey ⟨.type "Box", "C"⟩)])).insert
    ⟨.type "Box", "C"⟩ (.plain "String")

/-- `Map<A, D>` resolves to `Map<List<Pair<A, String[]>>, D>`: of the mapped variables only `A` is left,
which lies on a cycle.  With an acyclic table nothing mapped is left, and what had a mapped variable has
changed. -/
theorem resolve_survivors_pairCycle :
    let A : VarKey := ⟨.type "Box", "A"⟩
    let D : VarKey := ⟨.method "Box" "of", "D"⟩
    let K : VarKey := ⟨.type "Map", "K"⟩
    let map (s t : Ty) : Ty := .applied none (.plain "Map") [s, t]
    let X := map (.ofKey A) (.ofKey D)
    let Y := map (.ofKey K) .any
    X.Constructed ∧ (pairCycle.resolve X).freeKeys = [A, D] ∧
      (∃ k ∈ X.freeKeys, ReflTransGen pairCycle.Mentions k A) ∧ TransGen pairCycle.Mentions A A ∧
      Y.Constructed ∧ arrayChain.Acyclic ∧
      (∀ v ∈ (arrayChain.resolve Y).freeKeys, arrayChain.contains v = false) ∧
      ¬ (arrayChain.resolve Y).agrees Y = true := by
  intro A D K map X Y
  have hX : X.Constructed := by decide
  have hY : Y.Constructed := by decide
  let B : VarKey := ⟨.type "Box", "B"⟩
  let g : Shields := [.entry B, .entry A]
  have hC : pairCycle.resolveUnder g (.array (.ofKey ⟨.type "Box", "C"⟩)) =
      .nominal ⟨"String", 1⟩ := by
    rw [resolveUnder_array, Ty.ofKey, resolveUnder_mapped pairCycle [] (by decide) rfl, Ty.plain,
      resolveUnder_nominal]
    rfl
  have hB : pairCycle.resolveUnder [.entry A] (.ofKey B) =
      .applied none (.plain "Pair") [.ofKey A, .nominal ⟨"String", 1⟩] := by
    have hcovered : pairCycle.resolveUnder g (.ofKey A) = .ofKey A :=
      resolveUnder_covered pairCycle [] (by decide)
    refine (resolveUnder_mapped pairCycle [] (by decide) rfl).trans ?_
    rw [resolveUnder_applied, List.map_cons, List.map_singleton, hC, hcovered, Option.map_none]
  have hD : pairCycle.resolve (.ofKey D) = .ofKey D := resolveUnder_ofKey_unmapped pairCycle [] rfl
  have hA : pairCycle.resolve (.ofKey A) = .applied none (.plain "List")
      [.applied none (.plain "Pair") [.ofKey A, .nominal ⟨"String", 1⟩]] := by
    refine (resolveUnder_mapped pairCycle [] (by decide) rfl).trans ?_
    rw [resolveUnder_applied, List.map_singleton, hB, Option.map_none]
  have hfree : (pairCycle.resolve X).freeKeys = [A, D] := by
    rw [resolve_applied, List.map_cons, List.map_singleton, hA, hD]
    decide
  obtain ⟨hleft, -, -⟩ := resolve_survivors pairCycle hX
  obtain ⟨hreach, hcycle⟩ := hleft A (by rw [hfree]; exact List.mem_cons_self)
  obtain ⟨hnone, hiff⟩ := (resolve_survivors arrayChain hY).2.2 acyclic_arrayChain
  refine ⟨hX, hfree, hreach, hcycle rfl, hY, acyclic_arrayChain, hnone, fun h => ?_⟩
  have hK : arrayChain.contains K = false := hiff.mp h K (by decide)
  cases hK

end Generics.Table
