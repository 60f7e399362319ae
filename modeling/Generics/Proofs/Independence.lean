import Generics.Proofs.Idempotence
import Generics.Proofs.Tracing

/-!
# Generics.Proofs.Independence: comparisons that do not concern each other

A comparison binds variables of the formal type only (`of_mem_bindings_settle`), and to types whose
variables all come from the actual type (`allVars_of_mem_bindings`): also what is taken out of the bounds
of a variable to serve as the component of an array has no other variables (`allVars_component?`).

So formal types without a common variable are bound apart from each other, and the order in which they
are compared with their actual types does not matter (`overlay_comm`).
-/

namespace Generics

open Relation

namespace Ty

variable {k : VarKey}

/-! ## The variables of what is bound -/

theorem mem_allVars_extending {c : Ty} : k ∈ (extending c).allVars ↔ k ∈ c.allVars := by
  rw [extending, mem_allVars_wildcard]
  simp

theorem mem_allVars_widen {c : Ty} : k ∈ c.widen.allVars ↔ k ∈ c.allVars := by
  unfold widen
  split
  · split
    · exact Iff.rfl
    · exact mem_allVars_extending
  · exact mem_allVars_extending

/-- What an array of a type holds brings in no variable. -/
theorem allVars_component? {t c : Ty} (h : t.component? = some c) (hk : k ∈ c.allVars) :
    k ∈ t.allVars := by
  revert hk
  refine component?_induct ?_ ?_ ?_ ?_ t c h
  · intro n m hk
    exact hk
  · intro c hk
    exact hk
  · intro site upper lower b d hb ih hk
    exact mem_allVars_wildcard.mpr (.inl ⟨b, hb, ih (mem_allVars_widen.mp hk)⟩)
  · intro j bounds b d hb ih hk
    exact mem_allVars_var.mpr (.inr ⟨b, hb, ih (mem_allVars_widen.mp hk)⟩)

/-- What a comparison comes to on the side of the actual type brings in no variable. -/
theorem Meets.mem_allVars {p q : Ty × Ty} (h : Meets p q) (hk : k ∈ q.2.allVars) :
    k ∈ p.2.allVars := by
  cases h with
  | upper hp => exact mem_allVars_wildcard.mpr (.inl ⟨q.2, (List.of_mem_zip hp).2, hk⟩)
  | lower hp => exact mem_allVars_wildcard.mpr (.inr ⟨q.2, (List.of_mem_zip hp).2, hk⟩)
  | owner => exact mem_allVars_applied.mpr (.inl ⟨_, rfl, hk⟩)
  | arg hp => exact mem_allVars_applied.mpr (.inr ⟨q.2, (List.of_mem_zip hp).2, hk⟩)
  | component hd => exact allVars_component? hd hk

theorem allVars_of_mem_bindings {formal actual t : Ty} {j : VarKey}
    (h : (j, t) ∈ (formal.settle actual).bindings) (hk : k ∈ t.allVars) : k ∈ actual.allVars := by
  obtain ⟨bounds, hrun, -⟩ := exists_meets_of_mem_bindings h
  have hback : ∀ p, ReflTransGen Meets p (var j bounds, t) → k ∈ p.2.allVars := by
    intro p hp
    induction hp using ReflTransGen.head_induction_on with
    | refl => exact hk
    | head hstep _ ih => exact hstep.mem_allVars ih
  exact hback _ hrun

end Ty

/-- The entries of a unification: the key is a variable of the formal type, and all variables of the type
that it is mapped to, those inside bounds included, are variables of the actual type. -/
theorem of_get?_unify {formal actual : Ty} {S : Table} (h : unify formal actual = .ok S) {k : VarKey}
    {t : Ty} (hk : S.get? k = some t) : k ∈ formal.vars ∧ ∀ v ∈ t.allVars, v ∈ actual.allVars := by
  obtain ⟨-, rfl⟩ := unify_eq_ok_iff.mp h
  rcases Table.mem_or_get?_of_insertAll hk with hmem | hempty
  · exact ⟨(Ty.of_mem_bindings_settle hmem).1, fun v hv => Ty.allVars_of_mem_bindings hmem hv⟩
  · cases hempty

/-! ## Commuting -/

/-- Tables without a common key can be laid over a table in either order. -/
theorem Table.overlay_comm {S T : Table} (h : ∀ k, S.get? k = none ∨ T.get? k = none) (U : Table) :
    (U.overlay S).overlay T = (U.overlay T).overlay S := by
  refine ext_get? fun k => ?_
  rw [get?_overlay, get?_overlay, get?_overlay, get?_overlay]
  rcases h k with hS | hT
  · rw [hS, Option.none_or, Option.none_or]
  · rw [hT, Option.none_or, Option.none_or]

namespace Unifier

variable {f₁ a₁ f₂ a₂ : Ty}

/-- What a new unifier binds is what unification yields. -/
theorem gain?_eq_some_iff {formal actual : Ty} {S : Table} :
    gain? formal actual = some S ↔ Generics.unify formal actual = .ok S := by
  rw [unify_eq_ok_iff]
  cases hc : (formal.settle actual).clash? with
  | some c =>
    rw [gain?_of_clash hc, Course.Succeeds, hc]
    simp
  | none =>
    rw [gain?_of_succeeds hc, Option.some.injEq, eq_comm]
    exact ⟨fun h => ⟨hc, h⟩, fun h => h.2⟩

/-- **The bindings of formal types without a common variable do not depend on the order**, whichever of
the comparisons fail. -/
theorem gain?_comm (hdisj : ∀ k ∈ f₁.vars, k ∉ f₂.vars) (B : Table) :
    (gain? f₂ a₂).elim ((gain? f₁ a₁).elim B B.overlay) ((gain? f₁ a₁).elim B B.overlay).overlay =
      (gain? f₁ a₁).elim ((gain? f₂ a₂).elim B B.overlay)
        ((gain? f₂ a₂).elim B B.overlay).overlay := by
  cases h₁ : gain? f₁ a₁ with
  | none => rw [Option.elim_none, Option.elim_none]
  | some S =>
    cases h₂ : gain? f₂ a₂ with
    | none => rw [Option.elim_none, Option.elim_none]
    | some T =>
      refine Table.overlay_comm (fun k => ?_) B
      cases hS : S.get? k with
      | none => exact .inl rfl
      | some s =>
        right
        cases hT : T.get? k with
        | none => rfl
        | some t =>
          have hk₁ := (of_get?_unify (gain?_eq_some_iff.mp h₁) hS).1
          have hk₂ := (of_get?_unify (gain?_eq_some_iff.mp h₂) hT).1
          exact absurd hk₂ (hdisj k hk₁)

end Unifier

/-! ## The main result -/

/-- **A comparison binds variables of the formal type only, so independent comparisons commute.**  What a
unification maps are variables of the formal type, and the types that it maps them to have no variables
that do not occur in the actual type, be it inside bounds.  Two pairs whose formal types have no variable
in common can be given to a unifier in either order, whatever it holds: both give the results they would
have given, successes or clashes, and the bindings afterwards are the same. -/
theorem unify_independent :
    (∀ f a S, unify f a = .ok S →
      (∀ k ∈ S.keys, k ∈ f.freeKeys) ∧
        ∀ k t, S.get? k = some t → ∀ v ∈ t.allVars, v ∈ a.allVars) ∧
    ∀ (u : Unifier) (f₁ a₁ f₂ a₂ : Ty), (∀ k ∈ f₁.freeKeys, k ∉ f₂.freeKeys) →
      let first := u.unify f₁ a₁
      let second := first.2.unify f₂ a₂
      let first' := u.unify f₂ a₂
      let second' := first'.2.unify f₁ a₁
      first.1 = second'.1 ∧ second.1 = first'.1 ∧ second.2.bindings = second'.2.bindings := by
  refine ⟨fun f a S hS => ⟨fun k hk => ?_, fun k t hk => (of_get?_unify hS hk).2⟩, ?_⟩
  · obtain ⟨t, ht⟩ := Table.contains_iff.mp (Table.mem_keys.mp hk)
    exact Ty.mem_freeKeys.mpr (of_get?_unify hS ht).1
  · intro u f₁ a₁ f₂ a₂ hdisj first second first' second'
    have hresult : ∀ (v w : Unifier) f a, (v.unify f a).1 = (w.unify f a).1 := fun v w f a =>
      (congrArg Prod.fst (v.outward_unify f a)).trans (congrArg Prod.fst (w.outward_unify f a)).symm
    refine ⟨hresult u _ f₁ a₁, hresult _ u f₂ a₂, ?_⟩
    simp only [Ty.mem_freeKeys] at hdisj
    simp only [second, second', first, first', Unifier.bindings_unify]
    exact Unifier.gain?_comm hdisj u.bindings

/-- `T[]`, and the variable `V extends List<W>[]`. -/
def arrayPair : Ty × Ty :=
  (.array (.ofKey ⟨.type "Box", "T"⟩),
    .var ⟨.method "Box" "of", "V"⟩
      [.array (.applied none (.plain "List") [.ofKey ⟨.method "Box" "of", "W"⟩])])

/-- `Map<K, String>` and `Map<Long, Long>`. -/
def mapPair : Ty × Ty :=
  (.applied none (.plain "Map") [.ofKey ⟨.type "Map", "K"⟩, .plain "String"],
    .applied none (.plain "Map") [.plain "Long", .plain "Long"])

/-- `T` stands for `Integer`. -/
def integerTable : Table := Table.empty.insert ⟨.type "Box", "T"⟩ (.plain "Integer")

/-- `T` stands for `? extends List<W>`. -/
def listTable : Table :=
  Table.empty.insert ⟨.type "Box", "T"⟩
    (.extending (.applied none (.plain "List") [.ofKey ⟨.method "Box" "of", "W"⟩]))

/-- The first pair binds `T` to what the bound of `V` holds.  The second binds `K` and then clashes.  In
either order the one comes out and the other fails, `T` is bound anew, and `K` is not bound. -/
theorem unify_independent_arrayPair :
    let u : Unifier := { bindings := integerTable }
    let first := u.unify arrayPair.1 arrayPair.2
    let second := first.2.unify mapPair.1 mapPair.2
    let first' := u.unify mapPair.1 mapPair.2
    let second' := first'.2.unify arrayPair.1 arrayPair.2
    unify arrayPair.1 arrayPair.2 = .ok listTable ∧
      (∀ k ∈ listTable.keys, k ∈ arrayPair.1.freeKeys) ∧
      (∀ k t, listTable.get? k = some t → ∀ v ∈ t.allVars, v ∈ arrayPair.2.allVars) ∧
      (∀ k ∈ arrayPair.1.freeKeys, k ∉ mapPair.1.freeKeys) ∧
      first.1 = .ok () ∧ second'.1 = .ok () ∧
      first'.1 = .error ⟨.plain "String", .plain "Long", .otherType (.plain "String")⟩ ∧
      second.1 = .error ⟨.plain "String", .plain "Long", .otherType (.plain "String")⟩ ∧
      second.2.bindings = listTable ∧ second'.2.bindings = listTable := by
  intro u first second first' second'
  obtain ⟨hbinds, hcommute⟩ := unify_independent
  have hok : unify arrayPair.1 arrayPair.2 = .ok listTable := rfl
  have hdisj : ∀ k ∈ arrayPair.1.freeKeys, k ∉ mapPair.1.freeKeys := by decide
  obtain ⟨hkeys, hvars⟩ := hbinds _ _ _ hok
  obtain ⟨hresult, hresult', hbindings⟩ :=
    hcommute u arrayPair.1 arrayPair.2 mapPair.1 mapPair.2 hdisj
  have hfirst : first.1 = .ok () := rfl
  have hfirst' : first'.1 = .error ⟨.plain "String", .plain "Long", .otherType (.plain "String")⟩ :=
    rfl
  have hsecond : second.2.bindings = listTable := rfl
  exact ⟨hok, hkeys, hvars, hdisj, hfirst, hresult.symm.trans hfirst, hfirst',
    hresult'.trans hfirst', hsecond, hbindings.symm.trans hsecond⟩

end Generics
