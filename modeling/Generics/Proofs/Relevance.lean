import Generics.Proofs.Idempotence

/-!
# Generics.Proofs.Relevance: which entries of a table matter

Resolving a type looks up the variables of the type, then those of the entries that it finds, and so on,
inside the bounds of variables too.  `Reachable` says which keys can be come to in this way.  Two tables that
map these keys alike resolve the type alike, the bounds of variables included, whatever the shields and
however the entries lead back to each other (`unsited_resolveUnder_of_sameAt`): both runs go on to the same
types, and whatever one run goes on to can reach no more than the type it started from (`Reachable.of_call`).

Entries are compared as types are, without a look at the sites of their wildcards, so the two runs need not
open the same entries, only identical ones.
-/

namespace Generics.Table

variable {S T : Table} {g h : Shields} {j k : VarKey} {s t X : Ty}

/-! ## Reachable keys -/

section Defs

variable (S T)

/-- The variable of the key occurs in `X`, or in the entry of a key that can be reached; the bounds of
variables count. -/
inductive Reachable (X : Ty) : VarKey → Prop where
  | occurs {k : VarKey} (h : k ∈ X.allVars) : Reachable X k
  | entry {k j : VarKey} (h : Reachable X k) (hkj : S.Touches k j) : Reachable X j

/-- Neither table maps the key, or both do, to identical types. -/
def SameAt (k : VarKey) : Prop :=
  Option.Rel (fun s t => s.identical t = true) (S.get? k) (T.get? k)

end Defs

section Reachable

/-- What can be reached from a type whose variables can all be reached can be reached. -/
theorem Reachable.trans (hk : S.Reachable s k) (hs : ∀ v ∈ s.allVars, S.Reachable X v) :
    S.Reachable X k := by
  induction hk with
  | occurs hv => exact hs _ hv
  | entry _ hkj ih => exact ih.entry hkj

/-- Whatever resolution goes on to, it can reach no more from there. -/
theorem Reachable.of_call (hcall : S.Calls (g, t) (h, s)) (hk : S.Reachable s k) :
    S.Reachable t k := by
  refine hk.trans fun v hv => ?_
  cases hcall with
  | owner => exact .occurs (Ty.mem_allVars_applied.mpr (.inl ⟨s, rfl, hv⟩))
  | arg ha => exact .occurs (Ty.mem_allVars_applied.mpr (.inr ⟨s, ha, hv⟩))
  | component => exact .occurs hv
  | upper hb => exact .occurs (Ty.mem_allVars_wildcard.mpr (.inl ⟨s, hb, hv⟩))
  | lower hb => exact .occurs (Ty.mem_allVars_wildcard.mpr (.inr ⟨s, hb, hv⟩))
  | @entry _ i bounds _ _ hentry =>
    have hvar : S.Reachable (.var i bounds) i := .occurs (Ty.mem_allVars_var.mpr (.inl rfl))
    exact hvar.entry ⟨s, hentry, hv⟩
  | bound _ _ hb => exact .occurs (Ty.mem_allVars_var.mpr (.inr ⟨s, hb, hv⟩))

/-- A list of keys that holds the variables of the type, and with a key those of its entry, holds all keys
that can be reached. -/
theorem Reachable.mem_of_closed {ks : List VarKey} (hX : ∀ v ∈ X.allVars, v ∈ ks)
    (hclosed : ∀ e ∈ S.entries, e.1 ∈ ks → ∀ v ∈ e.2.allVars, v ∈ ks) (hk : S.Reachable X k) :
    k ∈ ks := by
  induction hk with
  | occurs hv => exact hX _ hv
  | entry _ hkj ih =>
    obtain ⟨t, ht, hj⟩ := hkj
    exact hclosed _ (mem_of_get? ht) ih _ hj

end Reachable

/-! ## Two runs -/

section Runs

theorem sameAt_iff : S.SameAt T k ↔ (S.get? k).map Ty.unsited = (T.get? k).map Ty.unsited := by
  unfold SameAt
  cases S.get? k with
  | none => cases T.get? k <;> simp
  | some s => cases T.get? k <;> simp [Ty.identical_iff]

theorem SameAt.get?_eq_none (hk : S.SameAt T k) (hS : S.get? k = none) : T.get? k = none := by
  rw [sameAt_iff, hS] at hk
  simpa using hk.symm

theorem SameAt.exists_get? (hk : S.SameAt T k) (hS : S.get? k = some s) :
    ∃ t, T.get? k = some t ∧ t.unsited = s.unsited := by
  rw [sameAt_iff, hS] at hk
  simpa using hk.symm

/-- Types that are equal up to sites are still so after resolution. -/
theorem unsited_resolveUnder_eq_of_unsited (T : Table) (g : Shields) (hst : s.unsited = t.unsited) :
    (T.resolveUnder g s).unsited = (T.resolveUnder g t).unsited := by
  rw [← unsited_resolveUnder_unsited, hst, unsited_resolveUnder_unsited]

/-- **Tables that map alike what can be reached resolve alike**, up to sites and under any shields.  The
induction is along the first run; where it opens an entry, the second run opens one that differs in sites
at most. -/
theorem unsited_resolveUnder_of_sameAt (c : Shields × Ty)
    (hc : ∀ k, S.Reachable c.2 k → S.SameAt T k) :
    (S.resolveUnder c.1 c.2).unsited = (T.resolveUnder c.1 c.2).unsited := by
  induction c using S.wellFounded_calls.induction with
  | _ c ih =>
    obtain ⟨g, t⟩ := c
    have hcall : ∀ h s, S.Calls (g, t) (h, s) →
        (S.resolveUnder h s).unsited = (T.resolveUnder h s).unsited :=
      fun h s hd => ih (h, s) hd fun k hk => hc k (hk.of_call hd)
    clear ih
    cases t with
    | nominal c => simp only [resolveUnder_nominal]
    | applied owner raw args =>
      simp only [resolveUnder_applied, Ty.unsited_applied, Option.map_map, List.map_map,
        Ty.applied.injEq, true_and]
      refine ⟨Option.map_congr fun o ho => ?_, List.map_congr_left fun a ha => hcall g a (.arg ha)⟩
      obtain rfl : owner = some o := ho
      exact hcall g o .owner
    | array c =>
      simp only [resolveUnder_array, Ty.unsited_arrayOf]
      rw [hcall g c .component]
    | wildcard site upper lower =>
      simp only [resolveUnder_wildcard, Ty.unsited_wildcard, List.map_map, Ty.wildcard.injEq, true_and]
      exact ⟨List.map_congr_left fun b hb => hcall g b (.upper hb),
        List.map_congr_left fun b hb => hcall g b (.lower hb)⟩
    | var k bounds =>
      have hsame : S.SameAt T k := hc k (.occurs (Ty.mem_allVars_var.mpr (.inl rfl)))
      by_cases hg : g.cover k = true
      · simp only [resolveUnder_covered S bounds hg, resolveUnder_covered T bounds hg]
      · cases hk : S.get? k with
        | some u =>
          obtain ⟨u', hk', hu⟩ := hsame.exists_get? hk
          simp only [resolveUnder_mapped S bounds hg hk, resolveUnder_mapped T bounds hg hk']
          rw [hcall (.entry k :: g) u (.entry hg hk)]
          exact unsited_resolveUnder_eq_of_unsited T _ hu.symm
        | none =>
          simp only [unsited_resolveUnder_unmapped bounds hg hk,
            unsited_resolveUnder_unmapped bounds hg (hsame.get?_eq_none hk), List.map_map,
            Ty.var.injEq, true_and]
          exact List.map_congr_left fun b hb => hcall (.bounds k.scope :: g) b (.bound hg hk hb)

end Runs

/-! ## The main result -/

/-- **Resolution depends on nothing but the entries of the keys that can be reached.**  If two tables map
every key alike that can be reached from `X` in the first, they resolve `X` to identical types, the bounds
of variables included.  If a table maps no key at all that can be reached from `X`, and `X` is in array
normal form, then resolving gives a type that is identical to `X`. -/
theorem resolve_depends_on_reachable (S T : Table) (X : Ty) :
    ((∀ k, S.Reachable X k → S.SameAt T k) → (S.resolve X).identical (T.resolve X) = true) ∧
      (X.normal = true → (∀ k, T.Reachable X k → T.contains k = false) →
        (T.resolve X).identical X = true) := by
  refine ⟨fun hsame => ?_, fun hn hnone => ?_⟩
  · exact Ty.identical_iff.mpr (unsited_resolveUnder_of_sameAt ([], X) hsame)
  · have hunmapped : ∀ k ∈ X.allVars, T.get? k = none := by
      intro k hk
      exact not_contains_iff.mp (by rw [hnone k (.occurs hk)]; exact Bool.false_ne_true)
    exact Ty.identical_iff.mpr (unsited_resolveUnder_of_unmapped hn hunmapped [])

/-- `A` stands for `Map<U extends List<? extends B>, A>`, `B` for `A[]`, and `C` for the given type. -/
def knotted (site : Option Nat) (t : Ty) : Table :=
  empty.insertAll
    [(⟨.type "Box", "A"⟩,
      .applied none (.plain "Map")
        [.var ⟨.method "Box" "of", "U"⟩
          [.applied none (.plain "List") [.wildcard site [.ofKey ⟨.type "Cell", "B"⟩] []]],
        .ofKey ⟨.type "Box", "A"⟩]),
      (⟨.type "Cell", "B"⟩, .array (.ofKey ⟨.type "Box", "A"⟩)), (⟨.type "Cell", "C"⟩, t)]

/-- From `A` the keys `A`, `U` and `B` can be reached, the last through the bound of `U`.  Two tables that
differ at `C`, and in a site, resolve `A` alike, the cycle from `A` to itself and the one through `B`
notwithstanding.  Neither of these keys can be reached from `V extends Comparable<V[]>`, which is left alone. -/
theorem resolve_depends_on_reachable_knotted :
    let A : VarKey := ⟨.type "Box", "A"⟩
    let C : VarKey := ⟨.type "Cell", "C"⟩
    let V : VarKey := ⟨.method "Cell" "of", "V"⟩
    let S := knotted none (.plain "String")
    let T := knotted (some 3) (.plain "Integer")
    let X : Ty := .var V [.applied none (.plain "Comparable") [.array (.ofKey V)]]
    (∀ k, S.Reachable (.ofKey A) k → S.SameAt T k) ∧ ¬ S.SameAt T C ∧
      (S.resolve (.ofKey A)).identical (T.resolve (.ofKey A)) = true ∧
      S.resolve (.ofKey A) = .applied none (.plain "Map")
        [.var ⟨.method "Box" "of", "U"⟩
          [.applied none (.plain "List") [.extending (.array (.ofKey A))]], .ofKey A] ∧
      X.normal = true ∧ (∀ k, T.Reachable X k → T.contains k = false) ∧
      (T.resolve X).identical X = true := by
  intro A C V S T X
  let B : VarKey := ⟨.type "Cell", "B"⟩
  let U : VarKey := ⟨.method "Box" "of", "U"⟩
  have hreach : ∀ k, S.Reachable (.ofKey A) k → k ∈ [A, U, B] :=
    fun k hk => hk.mem_of_closed (by decide) (by decide)
  have hsame : ∀ k, S.Reachable (.ofKey A) k → S.SameAt T k := by
    intro k hk
    have hall : ∀ k ∈ [A, U, B], S.SameAt T k :=
      List.forall_mem_cons.mpr ⟨.some rfl, List.forall_mem_cons.mpr ⟨.none,
        List.forall_mem_singleton.mpr (.some rfl)⟩⟩
    exact hall k (hreach k hk)
  have hdiffer : ¬ S.SameAt T C := by
    intro hC
    cases hC with
    | some hidentical => exact absurd hidentical (by decide)
  have hnone : ∀ k, T.Reachable X k → T.contains k = false := by
    intro k hk
    have hV : k ∈ [V] := hk.mem_of_closed (by decide) (by decide)
    rw [List.mem_singleton.mp hV]
    rfl
  -- `A` is shielded while its entry is resolved, and stays so in the entry of `B`
  have hB : S.resolveUnder [.bounds U.scope, .entry A] (.ofKey B) = .array (.ofKey A) := by
    rw [Ty.ofKey, resolveUnder_mapped S [] (by decide) rfl, resolveUnder_array, Ty.ofKey,
      resolveUnder_covered S [] (by decide)]
    rfl
  have hA : S.resolve (.ofKey A) = .applied none (.plain "Map")
      [.var U [.applied none (.plain "List") [.extending (.array (.ofKey A))]], .ofKey A] := by
    rw [resolve, Ty.ofKey, resolveUnder_mapped S [] (by decide) rfl, resolveUnder_applied,
      List.map_cons, List.map_singleton, resolveUnder_unmapped S _ (by decide) rfl,
      List.map_singleton, resolveUnder_applied, List.map_singleton, resolveUnder_wildcard,
      List.map_singleton, hB, Ty.ofKey, resolveUnder_covered S [] (by decide)]
    rfl
  obtain ⟨hresolve, -⟩ := resolve_depends_on_reachable S T (.ofKey A)
  obtain ⟨-, hkeep⟩ := resolve_depends_on_reachable S T X
  exact ⟨hsame, hdiffer, hresolve hsame, hA, by decide, hnone, hkeep (by decide) hnone⟩

end Generics.Table
