import Generics.Proofs.Acyclic
import Generics.Proofs.Unification

/-!
# Generics.Proofs.OwnResolution: a type unified with its own resolution

A type unifies with its own resolution, whatever the table, unless the table puts a class with as many
dimensions as can be counted inside an array of the type: the array then resolves to a class that is
none (`succeeds_settle_resolve_iff`).  Where the table is acyclic and maps no variable of the type to
a wildcard, each mapped variable is bound to what it resolves to, occurrence by occurrence
(`Acyclic.bindings_settle_resolve`).  So unification finds exactly the part of the table that the type
can see, with the entries resolved; that part is flat and resolves the type as the whole table does
(`unify_resolve_self`).
-/

namespace Generics

namespace Table

variable {T : Table} {k : VarKey}

theorem resolve_var_of_contains (hk : T.contains k = true) (bounds : List Ty) :
    T.resolve (.var k bounds) = T.resolve (.ofKey k) := by
  obtain ⟨t, ht⟩ := contains_iff.mp hk
  have hopen : ¬ Shields.cover [] k = true := by simp
  rw [resolve, resolve, Ty.ofKey, resolveUnder_mapped T bounds hopen ht,
    resolveUnder_mapped T [] hopen ht]

/-! ## Arrays of full classes -/

/-- No array of the type resolves to the array of a full class. -/
def SparesFull (T : Table) (t : Ty) : Prop :=
  ∀ c, .array c ∈ t.nodes → (T.resolve c).isFull = false

theorem sparesFull_nominal (c : Nominal) : T.SparesFull (.nominal c) := by
  intro d hd
  cases Ty.mem_nodes_nominal.mp hd

theorem sparesFull_var (k : VarKey) (bounds : List Ty) : T.SparesFull (.var k bounds) := by
  intro d hd
  cases Ty.mem_nodes_var.mp hd

theorem sparesFull_applied {owner : Option Ty} {raw : Nominal} {args : List Ty} :
    T.SparesFull (.applied owner raw args) ↔
      (∀ o ∈ owner, T.SparesFull o) ∧ ∀ a ∈ args, T.SparesFull a := by
  constructor
  · intro h
    exact ⟨fun o ho d hd => h d (Ty.mem_nodes_applied.mpr (.inr (.inl ⟨o, ho, hd⟩))),
      fun a ha d hd => h d (Ty.mem_nodes_applied.mpr (.inr (.inr ⟨a, ha, hd⟩)))⟩
  · rintro ⟨howner, hargs⟩ d hd
    obtain h | ⟨o, ho, hd⟩ | ⟨a, ha, hd⟩ := Ty.mem_nodes_applied.mp hd
    · cases h
    · exact howner o ho d hd
    · exact hargs a ha d hd

theorem sparesFull_array {c : Ty} :
    T.SparesFull (.array c) ↔ (T.resolve c).isFull = false ∧ T.SparesFull c := by
  constructor
  · intro h
    exact ⟨h c (Ty.self_mem_nodes _), fun d hd => h d (Ty.mem_nodes_array.mpr (.inr hd))⟩
  · rintro ⟨hc, hinner⟩ d hd
    obtain h | hd := Ty.mem_nodes_array.mp hd
    · cases h
      exact hc
    · exact hinner d hd

theorem sparesFull_wildcard {site : Option Nat} {upper lower : List Ty} :
    T.SparesFull (.wildcard site upper lower) ↔
      (∀ b ∈ upper, T.SparesFull b) ∧ ∀ b ∈ lower, T.SparesFull b := by
  constructor
  · intro h
    exact ⟨fun b hb d hd => h d (Ty.mem_nodes_wildcard.mpr (.inr (.inl ⟨b, hb, hd⟩))),
      fun b hb d hd => h d (Ty.mem_nodes_wildcard.mpr (.inr (.inr ⟨b, hb, hd⟩)))⟩
  · rintro ⟨hupper, hlower⟩ d hd
    obtain h | ⟨b, hb, hd⟩ | ⟨b, hb, hd⟩ := Ty.mem_nodes_wildcard.mp hd
    · cases h
    · exact hupper b hb d hd
    · exact hlower b hb d hd

/-- A type that agrees with its own resolution has kept its arrays. -/
theorem sparesFull_of_agrees {t : Ty} (h : t.agrees (T.resolve t) = true) : T.SparesFull t := by
  have heach : ∀ ts : List Ty, ts.map Ty.skeleton = (ts.map T.resolve).map Ty.skeleton →
      ∀ s ∈ ts, s.agrees (T.resolve s) = true := by
    intro ts hts s hs
    rw [List.map_map] at hts
    exact Ty.agrees_iff.mpr (List.map_inj_left.mp hts s hs)
  induction t using Ty.induct with
  | nominal c => exact sparesFull_nominal c
  | applied owner raw args ho ha =>
    rw [resolve_applied, Ty.agrees_iff, Ty.skeleton_applied, Ty.skeleton_applied,
      Ty.applied.injEq] at h
    obtain ⟨howner, -, hargs⟩ := h
    refine sparesFull_applied.mpr
      ⟨fun o hm => ho o hm ?_, fun a hm => ha a hm (heach args hargs a hm)⟩
    cases hm
    exact Ty.agrees_iff.mpr (Option.some.inj howner)
  | array c ih =>
    rw [resolve_array, Ty.agrees_iff, Ty.skeleton_array, Ty.skeleton_arrayOf] at h
    -- the array is still an array node, so what it is over does not fold
    have hfolds : (T.resolve c).skeleton.folds = false := by
      rw [← Ty.folds_arrayOf, ← h]
      rfl
    rw [Ty.arrayOf_of_not_folds hfolds, Ty.array.injEq] at h
    rw [Ty.folds_skeleton] at hfolds
    exact sparesFull_array.mpr ⟨Ty.isFull_of_not_folds hfolds, ih (Ty.agrees_iff.mpr h)⟩
  | wildcard site upper lower hu hl =>
    rw [resolve_wildcard, Ty.agrees_iff, Ty.skeleton_wildcard, Ty.skeleton_wildcard,
      Ty.wildcard.injEq] at h
    obtain ⟨-, hupper, hlower⟩ := h
    exact sparesFull_wildcard.mpr ⟨fun b hb => hu b hb (heach upper hupper b hb),
      fun b hb => hl b hb (heach lower hlower b hb)⟩
  | var k bounds _ => exact sparesFull_var k bounds

end Table

namespace Ty

section Instance

variable {ts : List Ty} {owner : Option Ty} {f : Ty → Ty}

theorem succeeds_settleEach_map :
    (settleEach ts (ts.map f)).Succeeds ↔ ∀ t ∈ ts, (t.settle (f t)).Succeeds := by
  rw [succeeds_settleEach, ← List.map_prod_left_eq_zip, List.forall_mem_map]

theorem bindings_settleEach_map (h : ∀ t ∈ ts, (t.settle (f t)).Succeeds) :
    (settleEach ts (ts.map f)).bindings = ts.flatMap fun t => (t.settle (f t)).bindings := by
  have hparts := succeeds_settleEach.mp (succeeds_settleEach_map.mpr h)
  rw [bindings_settleEach hparts, ← List.map_prod_left_eq_zip, List.flatMap_map]

theorem succeeds_settleOwners_map :
    (settleOwners owner (owner.map f)).Succeeds ↔ ∀ t ∈ owner, (t.settle (f t)).Succeeds := by
  cases owner <;> simp [settleOwners, Course.succeeds_done]

theorem bindings_settleOwners_map :
    (settleOwners owner (owner.map f)).bindings =
      owner.toList.flatMap fun t => (t.settle (f t)).bindings := by
  cases owner <;> simp [settleOwners, Course.bindings_done]

end Instance

/-- A type that is no wildcard unifies with every wildcard. -/
theorem succeeds_settle_of_isWildcard {formal actual : Ty} (hf : formal.isWildcard = false)
    (ha : actual.isWildcard = true) : (formal.settle actual).Succeeds := by
  refine succeeds_settle_of fun h => ?_
  cases formal with
  | var k bounds =>
    rw [settle_var h]
    exact Course.succeeds_settled ..
  | nominal _ | applied _ _ _ | array _ | wildcard _ _ _ =>
    rw [settle_wildcard_satisfied hf rfl ha]
    exact Course.succeeds_settled ..

/-- Resolution turns no wildcard that does not fold into one that does: the bounds are resolved one by
one, so there are as many as before. -/
theorem folds_resolve_of_isWildcard {T : Table} {c : Ty} (hw : c.isWildcard = true) :
    (T.resolve c).folds = c.folds := by
  cases c with
  | wildcard site upper lower =>
    rw [Table.resolve_wildcard, folds_wildcard, folds_wildcard, List.length_map, List.length_map]
  | _ => simp [isWildcard, kind] at hw

/-- The early exit on agreement is taken only where no array was lost. -/
theorem succeeds_settle_resolve_iff_of {T : Table} {t : Ty}
    (h : ¬ t.agrees (T.resolve t) = true →
      ((t.settle (T.resolve t)).Succeeds ↔ T.SparesFull t)) :
    (t.settle (T.resolve t)).Succeeds ↔ T.SparesFull t := by
  by_cases ha : t.agrees (T.resolve t) = true
  · exact iff_of_true (succeeds_settle_of fun hne => absurd ha hne) (Table.sparesFull_of_agrees ha)
  · exact h ha

/-- **A type unifies with its own resolution**, be the table cyclic or not, exactly if no array of it
resolves to the array of a full class. -/
theorem succeeds_settle_resolve_iff {T : Table} {t : Ty} (hn : t.normal = true) :
    (t.settle (T.resolve t)).Succeeds ↔ T.SparesFull t := by
  induction t using induct with
  | nominal c =>
    rw [Table.resolve_nominal, settle_of_agrees (agrees_refl _)]
    exact iff_of_true (Course.succeeds_settled ..) (Table.sparesFull_nominal c)
  | applied owner raw args ho ha =>
    obtain ⟨hno, hna⟩ := normal_applied.mp hn
    refine succeeds_settle_resolve_iff_of fun h => ?_
    rw [Table.resolve_applied] at h ⊢
    rw [succeeds_settle_applied h, succeeds_settleOwners_map, succeeds_settleEach_map,
      Table.sparesFull_applied, List.length_map]
    simp only [true_and]
    exact and_congr (forall₂_congr fun o hm => ho o hm (hno o hm))
      (forall₂_congr fun a hm => ha a hm (hna a hm))
  | array c ih =>
    obtain ⟨hf, hc⟩ := normal_array.mp hn
    refine succeeds_settle_resolve_iff_of fun h => ?_
    rw [Table.resolve_array] at h ⊢
    rw [Table.sparesFull_array, ← ih hc]
    cases hw : (T.resolve c).arrayOf.isWildcard with
    | true =>
      -- the component is no wildcard, but resolves to one over which the array folds
      obtain ⟨hrw, hrf⟩ := Bool.and_eq_true_iff.mp (isWildcard_arrayOf _ ▸ hw)
      have hcw : c.isWildcard = false := by
        rw [← Bool.not_eq_true]
        intro hcw
        rw [folds_resolve_of_isWildcard hcw, hf] at hrf
        cases hrf
      exact iff_of_true (succeeds_settle_of_isWildcard rfl hw)
        ⟨isFull_of_isWildcard hrw, succeeds_settle_of_isWildcard hcw hrw⟩
    | false =>
      cases hfull : (T.resolve c).isFull with
      | true =>
        rw [settle_array_other hw (component?_arrayOf_of_isFull hfull)]
        exact iff_of_false (Course.not_succeeds_clashed _ _ _) nofun
      | false =>
        rw [settle_array h hw (component?_arrayOf hw hfull), Course.succeeds_andThen,
          and_iff_right (Course.succeeds_settled ..), and_iff_right rfl]
  | wildcard site upper lower hu hl =>
    obtain ⟨hnu, hnl⟩ := normal_wildcard.mp hn
    refine succeeds_settle_resolve_iff_of fun h => ?_
    rw [Table.resolve_wildcard] at h ⊢
    rw [settle_wildcards h (List.length_map _).symm (List.length_map _).symm,
      Course.succeeds_andThen, Course.succeeds_andThen, succeeds_settleEach_map,
      succeeds_settleEach_map, Table.sparesFull_wildcard, and_iff_right (Course.succeeds_settled ..)]
    exact and_congr (forall₂_congr fun b hm => hu b hm (hnu b hm))
      (forall₂_congr fun b hm => hl b hm (hnl b hm))
  | var k bounds _ =>
    refine succeeds_settle_resolve_iff_of fun h => ?_
    rw [settle_var h]
    exact iff_of_true (Course.succeeds_settled ..) (Table.sparesFull_var k bounds)

end Ty

namespace Table

variable {T : Table} {t : Ty}

/-- The entry of a mapped variable, resolved. -/
def resolvedBinding? (T : Table) (k : VarKey) : Option (VarKey × Ty) :=
  if T.contains k then some (k, T.resolve (.ofKey k)) else none

/-- No variable of the type that is mapped resolves to a wildcard. -/
def SparesWildcards (T : Table) (t : Ty) : Prop :=
  ∀ k ∈ t.vars, T.contains k = true → (T.resolve (.ofKey k)).isWildcard = false

/-- Then only wildcards resolve to wildcards: no array folds that did not before. -/
theorem SparesWildcards.isWildcard_resolve (h : T.SparesWildcards t) (hn : t.normal = true)
    (hw : t.isWildcard = false) : (T.resolve t).isWildcard = false := by
  induction t using Ty.induct with
  | nominal c => rwa [resolve_nominal]
  | applied owner raw args _ _ => rw [resolve_applied]; rfl
  | array c ih =>
    obtain ⟨hf, hc⟩ := Ty.normal_array.mp hn
    rw [resolve_array, Ty.isWildcard_arrayOf]
    cases hcw : c.isWildcard with
    | true => rw [Ty.folds_resolve_of_isWildcard hcw, hf, Bool.and_false]
    | false =>
      have hvars : T.SparesWildcards c := fun k hk => h k (by rwa [Ty.vars_array])
      have hres : (T.resolve c).isWildcard = false := ih hvars hc hcw
      rw [hres, Bool.false_and]
  | wildcard site upper lower _ _ => simp [Ty.isWildcard, Ty.kind] at hw
  | var k bounds _ =>
    by_cases hk : T.contains k = true
    · rw [resolve_var_of_contains hk]
      exact h k (by simp) hk
    · rw [← Ty.isWildcard_skeleton, skeleton_resolve, Ty.skeleton_var, Ty.subst_ofKey,
        Option.getD_some, image_unmapped (not_contains_iff.mp hk)]
      rfl

theorem flatMap_bindings_settle_resolve {ts : List Ty}
    (h : ∀ t ∈ ts, (t.settle (T.resolve t)).bindings = t.vars.filterMap T.resolvedBinding?) :
    ts.flatMap (fun t => (t.settle (T.resolve t)).bindings) =
      (ts.flatMap Ty.vars).filterMap T.resolvedBinding? := by
  rw [List.filterMap_flatMap, List.flatMap_def, List.flatMap_def, List.map_congr_left h]

section Acyclic

variable (hT : T.Acyclic)
include hT

/-- A type that agrees with its own resolution has no mapped variable. -/
theorem Acyclic.filterMap_resolvedBinding?_eq_nil (h : t.agrees (T.resolve t) = true) :
    t.vars.filterMap T.resolvedBinding? = [] := by
  have hvars : t.vars = (T.resolve t).vars := by
    rw [← Ty.vars_skeleton, Ty.agrees_iff.mp h, Ty.vars_skeleton]
  rw [List.filterMap_eq_nil_iff]
  intro k hk
  rw [hvars] at hk
  have hnone := hT.get?_of_mem_vars_resolve hk
  rw [resolvedBinding?, if_neg (not_contains_iff.mpr hnone)]

/-- Hence the early exit on agreement skips no binding. -/
theorem Acyclic.bindings_settle_resolve_of
    (h : ¬ t.agrees (T.resolve t) = true →
      (t.settle (T.resolve t)).bindings = t.vars.filterMap T.resolvedBinding?) :
    (t.settle (T.resolve t)).bindings = t.vars.filterMap T.resolvedBinding? := by
  by_cases ha : t.agrees (T.resolve t) = true
  · rw [Ty.settle_of_agrees ha, Course.bindings_settled (by simp),
      hT.filterMap_resolvedBinding?_eq_nil ha]
  · exact h ha

/-- **Unified with its own resolution**, a type binds each of its mapped variables, occurrence by
occurrence, to what the variable resolves to. -/
theorem Acyclic.bindings_settle_resolve (hw : T.SparesWildcards t) (hs : T.SparesFull t)
    (hn : t.normal = true) :
    (t.settle (T.resolve t)).bindings = t.vars.filterMap T.resolvedBinding? := by
  induction t using Ty.induct with
  | nominal c =>
    refine hT.bindings_settle_resolve_of fun h => absurd ?_ h
    rw [resolve_nominal, Ty.agrees_refl]
  | applied owner raw args ho ha =>
    obtain ⟨hno, hna⟩ := Ty.normal_applied.mp hn
    obtain ⟨hso, hsa⟩ := sparesFull_applied.mp hs
    refine hT.bindings_settle_resolve_of fun h => ?_
    rw [resolve_applied] at h ⊢
    have howner : (Ty.settleOwners owner (owner.map T.resolve)).Succeeds :=
      Ty.succeeds_settleOwners_map.mpr fun o hm =>
        (Ty.succeeds_settle_resolve_iff (hno o hm)).mpr (hso o hm)
    rw [Ty.bindings_settle_applied h howner (List.length_map _).symm,
      Ty.bindings_settleOwners_map,
      Ty.bindings_settleEach_map fun a hm =>
        (Ty.succeeds_settle_resolve_iff (hna a hm)).mpr (hsa a hm),
      Ty.vars_applied, List.filterMap_append]
    congr 1
    · refine flatMap_bindings_settle_resolve fun o hm => ?_
      have hm := Option.mem_toList.mp hm
      exact ho o hm (fun k hk => hw k (Ty.mem_vars_applied.mpr (.inl ⟨o, hm, hk⟩))) (hso o hm)
        (hno o hm)
    · refine flatMap_bindings_settle_resolve fun a hm => ?_
      exact ha a hm (fun k hk => hw k (Ty.mem_vars_applied.mpr (.inr ⟨a, hm, hk⟩))) (hsa a hm)
        (hna a hm)
  | array c ih =>
    obtain ⟨hfull, hsc⟩ := sparesFull_array.mp hs
    refine hT.bindings_settle_resolve_of fun h => ?_
    have hno : (T.resolve (.array c)).isWildcard = false := hw.isWildcard_resolve hn rfl
    rw [resolve_array] at h hno ⊢
    rw [Ty.settle_array h hno (Ty.component?_arrayOf hno hfull),
      Course.bindings_andThen (Course.succeeds_settled ..), Course.bindings_settled (by simp),
      List.nil_append, Ty.vars_array]
    exact ih (fun k hk => hw k (by rwa [Ty.vars_array])) hsc (Ty.normal_array.mp hn).2
  | wildcard site upper lower hu hl =>
    obtain ⟨hnu, hnl⟩ := Ty.normal_wildcard.mp hn
    obtain ⟨hsu, hsl⟩ := sparesFull_wildcard.mp hs
    refine hT.bindings_settle_resolve_of fun h => ?_
    rw [resolve_wildcard] at h ⊢
    have hu' := fun b hm => (Ty.succeeds_settle_resolve_iff (hnu b hm)).mpr (hsu b hm)
    have hl' := fun b hm => (Ty.succeeds_settle_resolve_iff (hnl b hm)).mpr (hsl b hm)
    rw [Ty.settle_wildcards h (List.length_map _).symm (List.length_map _).symm,
      Course.bindings_andThen (Course.succeeds_settled ..), Course.bindings_settled (by simp),
      List.nil_append, Course.bindings_andThen (Ty.succeeds_settleEach_map.mpr hu'),
      Ty.bindings_settleEach_map hu', Ty.bindings_settleEach_map hl', Ty.vars_wildcard,
      List.filterMap_append]
    congr 1
    · refine flatMap_bindings_settle_resolve fun b hm => ?_
      exact hu b hm (fun k hk => hw k (Ty.mem_vars_wildcard.mpr (.inl ⟨b, hm, hk⟩))) (hsu b hm)
        (hnu b hm)
    · refine flatMap_bindings_settle_resolve fun b hm => ?_
      exact hl b hm (fun k hk => hw k (Ty.mem_vars_wildcard.mpr (.inr ⟨b, hm, hk⟩))) (hsl b hm)
        (hnl b hm)
  | var k bounds _ =>
    refine hT.bindings_settle_resolve_of fun h => ?_
    have hk : T.contains k = true := by
      by_contra hk
      rw [Ty.agrees_iff, skeleton_resolve, Ty.skeleton_var, Ty.subst_ofKey, Option.getD_some,
        image_unmapped (not_contains_iff.mp hk)] at h
      exact h rfl
    rw [Ty.settle_var h, Course.bindings_settled_bind, Ty.vars_var, resolve_var_of_contains hk]
    simp [resolvedBinding?, hk]

/-- The part of the table that the type can see: its mapped variables, resolved. -/
theorem Acyclic.get?_insertAll_bindings (hw : T.SparesWildcards t) (hs : T.SparesFull t)
    (hn : t.normal = true) (k : VarKey) :
    (empty.insertAll (t.settle (T.resolve t)).bindings).get? k =
      if k ∈ t.freeKeys ∧ T.contains k = true then some (T.resolve (.ofKey k)) else none := by
  have hentry : ∀ e : VarKey × Ty, e ∈ t.vars.filterMap T.resolvedBinding? ↔
      (e.1 ∈ t.vars ∧ T.contains e.1 = true) ∧ e.2 = T.resolve (.ofKey e.1) := by
    rintro ⟨j, u⟩
    simp only [List.mem_filterMap, resolvedBinding?, Option.ite_none_right_eq_some,
      Option.some.injEq, Prod.mk.injEq]
    constructor
    · rintro ⟨i, hi, hc, rfl, rfl⟩
      exact ⟨⟨hi, hc⟩, rfl⟩
    · rintro ⟨⟨hj, hc⟩, rfl⟩
      exact ⟨j, hj, hc, rfl, rfl⟩
  have hkeys : k ∈ (t.vars.filterMap T.resolvedBinding?).map Prod.fst ↔
      k ∈ t.freeKeys ∧ T.contains k = true := by
    rw [List.mem_map, Ty.mem_freeKeys]
    constructor
    · rintro ⟨e, he, rfl⟩
      exact ((hentry e).mp he).1
    · intro hk
      exact ⟨(k, T.resolve (.ofKey k)), (hentry _).mpr ⟨hk, rfl⟩, rfl⟩
  rw [hT.bindings_settle_resolve hw hs hn,
    get?_insertAll_of_forall (f := fun j => T.resolve (.ofKey j))
      (fun e he => ((hentry e).mp he).2) empty k, get?_empty]
  simp only [hkeys]

/-- A table of resolved entries is flat, and resolves a type that sees no other entries as the whole
table does. -/
theorem Acyclic.resolve_agrees_of_seen {s : Table}
    (hs : ∀ k, s.get? k =
      if k ∈ t.freeKeys ∧ T.contains k = true then some (T.resolve (.ofKey k)) else none) :
    (s.resolve t).agrees (T.resolve t) = true := by
  have hflat : s.Flat := by
    intro k u hk
    rw [hs, Option.ite_none_right_eq_some] at hk
    obtain ⟨-, hu⟩ := hk
    cases hu
    refine ⟨normal_skeleton_resolve T _, fun j hj => ?_⟩
    have hnone := hT.get?_of_mem_vars_resolve hj
    rw [hs, if_neg fun h => not_contains_iff.mpr hnone h.2]
  rw [Ty.agrees_iff, skeleton_resolve, skeleton_resolve]
  refine Ty.subst_congr fun k hk => ?_
  rw [Ty.vars_skeleton] at hk
  rw [image_of_flat hflat, hs]
  by_cases hc : T.contains k = true
  · rw [if_pos ⟨Ty.mem_freeKeys.mpr hk, hc⟩, Option.getD_some, image]
    rfl
  · rw [if_neg fun h => hc h.2, image_unmapped (not_contains_iff.mp hc), Option.getD_none,
      Ty.skeleton_ofKey]

end Acyclic

end Table

/-- **Unifying a type with its own resolution.**  It succeeds exactly if no array of the type resolves
to the array of a class that has as many dimensions as can be counted.  If moreover the table is
acyclic and maps no variable of the type to a wildcard, the table found holds exactly the mapped
variables of the type, each with what it resolves to, and resolves the type alike. -/
theorem unify_resolve_self (T : Table) {F : Ty} (hF : F.Constructed) :
    ((∃ s, unify F (T.resolve F) = .ok s) ↔
        ∀ c, .array c ∈ F.nodes → (T.resolve c).isFull = false) ∧
      ∀ s, unify F (T.resolve F) = .ok s → T.Acyclic →
        (∀ k ∈ F.freeKeys, T.contains k = true → (T.resolve (.ofKey k)).isWildcard = false) →
        (∀ k, s.get? k =
          if k ∈ F.freeKeys ∧ T.contains k = true then some (T.resolve (.ofKey k)) else none) ∧
        (s.resolve F).agrees (T.resolve F) = true := by
  have hiff := Ty.succeeds_settle_resolve_iff (T := T) hF.normal
  constructor
  · refine Iff.trans ⟨fun ⟨s, hs⟩ => (unify_eq_ok_iff.mp hs).1, fun h => ?_⟩ hiff
    exact ⟨_, unify_eq_ok_iff.mpr ⟨h, rfl⟩⟩
  · intro s hs hT hw
    obtain ⟨hsucceeds, rfl⟩ := unify_eq_ok_iff.mp hs
    have hspares : T.SparesWildcards F := fun k hk => hw k (Ty.mem_freeKeys.mpr hk)
    have hget := hT.get?_insertAll_bindings hspares (hiff.mp hsucceeds) hF.normal
    exact ⟨hget, hT.resolve_agrees_of_seen hget⟩

/-- `Map<K[], V>` sees both entries of `arrayChain`: `String[]` and `String`. -/
theorem unify_resolve_self_arrayChain :
    let F : Ty := .applied none (.plain "Map")
      [.array (.ofKey ⟨.type "Map", "K"⟩), .ofKey ⟨.type "Map", "V"⟩]
    let T := Table.arrayChain
    F.Constructed ∧ T.Acyclic ∧
      (∀ c, .array c ∈ F.nodes → (T.resolve c).isFull = false) ∧
      (∀ k ∈ F.freeKeys, T.contains k = true → (T.resolve (.ofKey k)).isWildcard = false) ∧
      ∃ s, unify F (T.resolve F) = .ok s ∧
        (∀ k, s.get? k =
          if k ∈ F.freeKeys ∧ T.contains k = true then some (T.resolve (.ofKey k)) else none) ∧
        (s.resolve F).agrees (T.resolve F) = true := by
  intro F T
  have hkeys : F.freeKeys = [⟨.type "Map", "K"⟩, ⟨.type "Map", "V"⟩] := rfl
  have hentry : ∀ {k t}, T.get? k = some t →
      (T.resolve (.ofKey k)).skeleton = (T.resolve t).skeleton :=
    fun hk => Table.acyclic_arrayChain.image_eq hk
  have hV : (T.resolve (.ofKey ⟨.type "Map", "V"⟩)).skeleton = .plain "String" := by
    rw [hentry (t := .plain "String") rfl, Ty.plain, Table.resolve_nominal, Ty.skeleton_nominal]
  have hK : (T.resolve (.ofKey ⟨.type "Map", "K"⟩)).skeleton = .nominal ⟨"String", 1⟩ := by
    rw [hentry (t := .array (.ofKey ⟨.type "Map", "V"⟩)) rfl, Table.resolve_array,
      Ty.skeleton_arrayOf, hV]
    rfl
  have hw : ∀ k ∈ F.freeKeys, T.contains k = true →
      (T.resolve (.ofKey k)).isWildcard = false := by
    intro k hk _
    rw [hkeys, List.mem_cons, List.mem_singleton] at hk
    rw [← Ty.isWildcard_skeleton]
    rcases hk with rfl | rfl
    · rw [hK]
      rfl
    · rw [hV]
      rfl
  have hfull : ∀ c, .array c ∈ F.nodes → (T.resolve c).isFull = false := by
    intro c hc
    simp only [F, Ty.nodes, Ty.nodesOwner, Ty.nodesEach, Ty.ofKey, List.mem_cons, List.mem_append,
      List.not_mem_nil, reduceCtorEq, Ty.array.injEq, or_false, false_or] at hc
    rw [← Ty.isFull_skeleton, hc]
    exact congrArg Ty.isFull hK
  have hF : F.Constructed := by decide
  obtain ⟨hsucceeds, hseen⟩ := unify_resolve_self T hF
  obtain ⟨s, hs⟩ := hsucceeds.mpr hfull
  exact ⟨hF, Table.acyclic_arrayChain, hfull, hw, s, hs, hseen s hs Table.acyclic_arrayChain hw⟩

/-- Under `fullBox` the type `T[]` resolves to `String`, and does not unify with it. -/
theorem unify_resolve_self_fullBox :
    let F : Ty := .array (.ofKey ⟨.type "Box", "T"⟩)
    let T := Table.fullBox
    F.Constructed ∧ T.resolve F = .plain "String" ∧
      unify F (T.resolve F) = .error (.clash ⟨F, .plain "String", .notArray⟩) := by
  refine ⟨by decide, Table.resolve_array_fullBox, ?_⟩
  rw [Table.resolve_array_fullBox]
  rfl

end Generics
