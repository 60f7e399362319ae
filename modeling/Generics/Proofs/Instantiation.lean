import Generics.Proofs.Acyclic
import Generics.Proofs.Captures
import Generics.Proofs.Recording
import Generics.Proofs.Walk

/-!
# Generics.Proofs.Instantiation: a context instantiates all its supertypes

In a tidy registry every supertype mentions the parameters of the class that declares it and no other
variables.  The walk enters such a supertype only after those parameters have been mapped, so every
variable of a recorded argument is mapped already or was captured from the context.  This is the
invariant of the walk (`Instantiates`); it is kept by every step (`Instantiates.step`), through
diamonds and cycles of declarations, because the parameters of a class are recorded all at once, the
first time that the class is met applied, and are fresh then (`Instantiates.fresh`).

At the end all parameters of all classes met are mapped, the table is acyclic, and its entries resolve
to types over the captured variables (`contextTable_instantiates`).
-/

namespace Generics

namespace Ty

/-- The class that a type names. -/
def class? : Ty → Option Nominal
  | nominal c => some c
  | applied _ raw _ => some raw
  | _ => none

/-- Is this an application of the class? -/
def applies (c : Nominal) : Ty → Bool
  | applied _ raw _ => decide (raw = c)
  | _ => false

end Ty

namespace Registry

/-- A class without parameters, or an application that stands in no owner. -/
def Instance (R : Registry) : Ty → Prop
  | .nominal c => R.paramKeys c = []
  | .applied owner _ _ => owner = none
  | _ => False

/-- Every class is generic in distinct parameters of its own, and its supertypes are instances that
mention no other variables. -/
structure Tidy (R : Registry) : Prop where
  generic : ∀ name d, R.named? name = some d →
    ∃ ps : List String, ps.Nodup ∧ d.params = (Declaration.generic name ps).params
  shape : ∀ name d, R.named? name = some d → ∀ t ∈ d.supertypes, R.Instance t
  own : ∀ name d, R.named? name = some d → ∀ t ∈ d.supertypes, ∀ k ∈ t.vars,
    k ∈ d.params.map Param.key

section Tidy

variable {R : Registry} {c c' : Nominal} {d : Declaration} {k : VarKey} {t : Ty}

theorem named?_of_find? (h : R.find? c = some d) : c = .plain c.name ∧ R.named? c.name = some d := by
  unfold find? at h
  split at h
  · cases h
  · next hc =>
    have hdims : c.dims = 0 := by
      simpa only [Nominal.isArray, decide_eq_true_eq, UInt32.pos_iff_ne_zero, not_not] using hc
    refine ⟨?_, h⟩
    cases c
    simp_all [Nominal.plain]

variable (hR : R.Tidy)
include hR

/-- The parameters of a class are of its scope, so they tell which class it is. -/
theorem Tidy.scope_of_mem (hk : k ∈ R.paramKeys c) : c = .plain c.name ∧ k.scope = .type c.name := by
  unfold paramKeys at hk
  cases hd : R.find? c with
  | none => simp [hd] at hk
  | some d =>
    obtain ⟨hc, hnamed⟩ := named?_of_find? hd
    obtain ⟨ps, -, hps⟩ := hR.generic c.name d hnamed
    simp only [hd, hps, Declaration.generic, List.map_map, List.mem_map] at hk
    obtain ⟨p, -, rfl⟩ := hk
    exact ⟨hc, rfl⟩

theorem Tidy.eq_of_mem (hk : k ∈ R.paramKeys c) (hk' : k ∈ R.paramKeys c') : c = c' := by
  obtain ⟨hc, hs⟩ := hR.scope_of_mem hk
  obtain ⟨hc', hs'⟩ := hR.scope_of_mem hk'
  rw [hs, Scope.type.injEq] at hs'
  rw [hc, hc', hs']

theorem Tidy.nodup_paramKeys (c : Nominal) : (R.paramKeys c).Nodup := by
  unfold paramKeys
  cases hd : R.find? c with
  | none => exact List.nodup_nil
  | some d =>
    obtain ⟨ps, hnd, hps⟩ := hR.generic c.name d (named?_of_find? hd).2
    simp only [hps, Declaration.generic, List.map_map]
    exact List.Pairwise.map _ (fun p q hne heq => hne (by simpa using heq)) hnd

/-- What a class leads to: instances over its own parameters. -/
theorem Tidy.of_mem_supertypes (ht : t ∈ R.supertypes c) :
    R.Instance t ∧ ∀ k ∈ t.vars, k ∈ R.paramKeys c := by
  obtain ⟨d, hd, ht⟩ := mem_supertypes_iff.mp ht
  have hnamed := (named?_of_find? hd).2
  rw [paramKeys_of_find? hd]
  exact ⟨hR.shape c.name d hnamed t ht, hR.own c.name d hnamed t ht⟩

end Tidy

/-! ## The invariant -/

section Invariant

/-- All parameters of the class are mapped. -/
def Maps (R : Registry) (T : Table) (c : Nominal) : Prop := ∀ k ∈ R.paramKeys c, T.contains k = true

/-- A type that the walk may enter: a class whose parameters are mapped, or an application without
owner whose variables are mapped or among the given ones. -/
def Ready (R : Registry) (ctx : List VarKey) (T : Table) : Ty → Prop
  | .nominal c => R.Maps T c
  | .applied owner raw args =>
    owner = none ∧ ∀ k ∈ (Ty.applied owner raw args).vars, k ∈ ctx ∨ T.contains k = true
  | _ => False

/-- A type that the walk may have entered: a class or an application without owner, whose parameters
are mapped. -/
def Met (R : Registry) (T : Table) : Ty → Prop
  | .nominal c => R.Maps T c
  | .applied owner raw _ => owner = none ∧ R.Maps T raw
  | _ => False

theorem Met.maps {R : Registry} {T : Table} {t : Ty} {c : Nominal} (h : R.Met T t)
    (hc : t.class? = some c) : R.Maps T c := by
  cases t with
  | nominal c' =>
    cases hc
    exact h
  | applied owner raw args =>
    cases hc
    exact h.2
  | _ => cases hc

/-- The invariant of a walk from a context with the variables `ctx`. -/
structure Instantiates (R : Registry) (ctx : List VarKey) (w : Walk) : Prop where
  acyclic : w.found.Acyclic
  -- a parameter not yet in the table is in no entry either, so recording it closes no cycle
  grounded : ∀ i j, w.found.Mentions i j → j ∈ ctx ∨ w.found.contains j = true
  -- only an application of its class brings a parameter into the table
  keys : ∀ k, w.found.contains k = true →
    ∃ t ∈ w.entered, ∃ c, t.applies c = true ∧ k ∈ R.paramKeys c
  pending : ∀ t ∈ w.pending, R.Ready ctx w.found t
  entered : ∀ t ∈ w.entered, R.Met w.found t
  first : ∀ c args, w.entered.reverse.find? (Ty.applies c) = some (.applied none c args) →
    (R.paramKeys c).length = args.length ∧
      ∀ e ∈ (R.paramKeys c).zip args, w.found.get? e.1 = some e.2

variable {R : Registry} {ctx : List VarKey} {T T' : Table} {t : Ty} {c raw : Nominal}
  {args rest entered : List Ty} {found found' : Table}

theorem Maps.mono (h : R.Maps T c) (hsub : ∀ k, T.contains k = true → T'.contains k = true) :
    R.Maps T' c :=
  fun k hk => hsub k (h k hk)

theorem Ready.mono (h : R.Ready ctx T t) (hsub : ∀ k, T.contains k = true → T'.contains k = true) :
    R.Ready ctx T' t := by
  cases t with
  | nominal c => exact Maps.mono h hsub
  | applied owner raw args => exact ⟨h.1, fun k hk => (h.2 k hk).imp_right (hsub k)⟩
  | _ => exact h

theorem Met.mono (h : R.Met T t) (hsub : ∀ k, T.contains k = true → T'.contains k = true) :
    R.Met T' t := by
  cases t with
  | nominal c => exact Maps.mono h hsub
  | applied owner raw args => exact ⟨h.1, h.2.mono hsub⟩
  | _ => exact h

/-- If a class has been met applied, all its parameters are mapped. -/
theorem Instantiates.maps_of_applies {w : Walk} (h : R.Instantiates ctx w) (ht : t ∈ w.entered)
    (hc : t.applies c = true) : R.Maps w.found c := by
  refine (h.entered t ht).maps ?_
  cases t with
  | applied owner raw args => simpa [Ty.applies, Ty.class?] using hc
  | _ => simp [Ty.applies] at hc

theorem Instantiates.skip (h : R.Instantiates ctx ⟨t :: rest, entered, found⟩) :
    R.Instantiates ctx ⟨rest, entered, found⟩ :=
  { h with pending := fun s hs => h.pending s (List.mem_cons_of_mem t hs) }

/-- Entering a class changes no entry, and leads to supertypes over mapped parameters. -/
theorem Instantiates.enter_nominal (hR : R.Tidy)
    (h : R.Instantiates ctx ⟨.nominal c :: rest, entered, found⟩) :
    R.Instantiates ctx ⟨R.supertypes c ++ rest, .nominal c :: entered, found⟩ where
  acyclic := h.acyclic
  grounded := h.grounded
  keys k hk := by
    obtain ⟨t, ht, hc⟩ := h.keys k hk
    exact ⟨t, List.mem_cons_of_mem _ ht, hc⟩
  pending t ht := by
    rcases List.mem_append.mp ht with ht | ht
    · have hmaps : R.Maps found c := h.pending (.nominal c) List.mem_cons_self
      obtain ⟨hinst, hvars⟩ := hR.of_mem_supertypes ht
      cases t with
      | nominal c' =>
        intro k hk
        have hnil : R.paramKeys c' = [] := hinst
        rw [hnil] at hk
        cases hk
      | applied owner raw args => exact ⟨hinst, fun k hk => .inr (hmaps k (hvars k hk))⟩
      | _ => exact hinst
    · exact h.pending t (List.mem_cons_of_mem _ ht)
  entered t ht := by
    rcases List.mem_cons.mp ht with rfl | ht
    · exact h.pending (.nominal c) List.mem_cons_self
    · exact h.entered t ht
  first c' args' hfirst := by
    rw [List.reverse_cons, List.find?_append] at hfirst
    refine h.first c' args' ?_
    simpa [Ty.applies] using hfirst

/-- What entering an application has to establish of the table. -/
theorem Instantiates.enter_applied
    (h : R.Instantiates ctx ⟨.applied none raw args :: rest, entered, found⟩)
    (hlen : (R.paramKeys raw).length = args.length)
    (hsub : ∀ k u, found.get? k = some u → found'.get? k = some u)
    (hacyclic : found'.Acyclic)
    (hgrounded : ∀ i j, found'.Mentions i j → j ∈ ctx ∨ found'.contains j = true)
    (hkeys : ∀ k, found'.contains k = true → found.contains k = true ∨ k ∈ R.paramKeys raw)
    (hmaps : R.Maps found' raw)
    (hfirst : (∀ t ∈ entered, ¬ t.applies raw = true) →
      ∀ e ∈ (R.paramKeys raw).zip args, found'.get? e.1 = some e.2) :
    R.Instantiates ctx ⟨.nominal raw :: rest, .applied none raw args :: entered, found'⟩ := by
  have hcontains : ∀ k, found.contains k = true → found'.contains k = true := by
    intro k hk
    obtain ⟨u, hu⟩ := Table.contains_iff.mp hk
    exact Table.contains_of_get? (hsub k u hu)
  refine ⟨hacyclic, hgrounded, fun k hk => ?_, fun t ht => ?_, fun t ht => ?_, fun c' args' hf => ?_⟩
  · rcases hkeys k hk with hk | hk
    · obtain ⟨t, ht, hc⟩ := h.keys k hk
      exact ⟨t, List.mem_cons_of_mem _ ht, hc⟩
    · exact ⟨_, List.mem_cons_self, raw, by simp [Ty.applies], hk⟩
  · rcases List.mem_cons.mp ht with rfl | ht
    · exact hmaps
    · exact (h.pending t (List.mem_cons_of_mem _ ht)).mono hcontains
  · rcases List.mem_cons.mp ht with rfl | ht
    · exact ⟨rfl, hmaps⟩
    · exact (h.entered t ht).mono hcontains
  · rw [List.reverse_cons, List.find?_append, Option.or_eq_some_iff] at hf
    rcases hf with hf | ⟨hnone, hf⟩
    · obtain ⟨hl, hget⟩ := h.first c' args' hf
      exact ⟨hl, fun e he => hsub e.1 e.2 (hget e he)⟩
    · -- no application of the class was entered before this one
      have heq := List.mem_singleton.mp (List.mem_of_find?_eq_some hf)
      rw [Ty.applied.injEq] at heq
      obtain ⟨-, rfl, rfl⟩ := heq
      refine ⟨hlen, hfirst fun t ht => ?_⟩
      exact List.find?_eq_none.mp hnone t (List.mem_reverse.mpr ht)

section Step

variable (hR : R.Tidy) (hctx : ∀ k ∈ ctx, k.scope = .capture)
include hR hctx

/-- Parameters are not among the variables of the context, so a variable that is mapped or belongs to
the context is no unmapped parameter. -/
theorem Instantiates.ne_param {k j : VarKey} (hk : k ∈ R.paramKeys raw)
    (hun : ¬ found.contains k = true) (hj : j ∈ ctx ∨ found.contains j = true) : k ≠ j := by
  rintro rfl
  rcases hj with hj | hj
  · have hscope := hctx k hj
    rw [(hR.scope_of_mem hk).2] at hscope
    cases hscope
  · exact hun hj

/-- The first time that a class is met applied, its parameters are fresh. -/
theorem Instantiates.fresh
    (h : R.Instantiates ctx ⟨.applied none raw args :: rest, entered, found⟩)
    (hlen : (R.paramKeys raw).length = args.length)
    (hnew : ∀ t ∈ entered, ¬ t.applies raw = true) :
    found.Fresh ((R.paramKeys raw).zip args) := by
  have hready := (h.pending _ List.mem_cons_self).2
  have hun : ∀ k ∈ R.paramKeys raw, ¬ found.contains k = true := by
    intro k hk hc
    obtain ⟨t, ht, c, happ, hkc⟩ := h.keys k hc
    rw [hR.eq_of_mem hkc hk] at happ
    exact hnew t ht happ
  refine ⟨?_, fun e he => ?_, fun e he i hi => ?_, fun e he f hf hmem => ?_⟩
  · rw [List.map_fst_zip (Nat.le_of_eq hlen)]
    exact hR.nodup_paramKeys raw
  · exact hun e.1 (List.of_mem_zip he).1
  · have hk := (List.of_mem_zip he).1
    exact Instantiates.ne_param hR hctx hk (hun e.1 hk) (h.grounded i e.1 hi) rfl
  · have hk := (List.of_mem_zip he).1
    have harg := (List.of_mem_zip hf).2
    have hvar := hready e.1 (Ty.mem_vars_applied.mpr (.inr ⟨f.2, harg, hmem⟩))
    exact Instantiates.ne_param hR hctx hk (hun e.1 hk) hvar rfl

/-- The first time that a class is met applied, its arguments are recorded, and nothing is lost. -/
theorem Instantiates.enter_fresh
    (h : R.Instantiates ctx ⟨.applied none raw args :: rest, entered, found⟩)
    (hlen : (R.paramKeys raw).length = args.length)
    (hnew : ∀ t ∈ entered, ¬ t.applies raw = true) :
    R.Instantiates ctx ⟨.nominal raw :: rest, .applied none raw args :: entered,
      found.recordAll ((R.paramKeys raw).zip args)⟩ := by
  have hfresh := h.fresh hR hctx hlen hnew
  have hready := (h.pending _ List.mem_cons_self).2
  have hget : ∀ e ∈ (R.paramKeys raw).zip args,
      (found.insertAll ((R.paramKeys raw).zip args)).get? e.1 = some e.2 := fun e he =>
    Table.get?_insertAll_of_mem hfresh.nodup he found
  rw [Table.recordAll_of_fresh hfresh]
  refine h.enter_applied hlen (fun _ _ hk => hfresh.get?_insertAll hk)
    (h.acyclic.insertAll hfresh) (fun i j hij => ?_) (fun k hk => ?_) (fun k hk => ?_) fun _ => hget
  · -- a new entry is an argument, whose variables were mapped before or belong to the context
    obtain ⟨u, hu, hj⟩ := hij
    have hbefore : j ∈ ctx ∨ found.contains j = true := by
      rcases Table.mem_or_get?_of_insertAll hu with hmem | hu
      · have harg := (List.of_mem_zip hmem).2
        exact hready j (Ty.mem_vars_applied.mpr (.inr ⟨u, harg, Ty.mem_freeKeys.mp hj⟩))
      · exact h.grounded i j ⟨u, hu, hj⟩
    refine hbefore.imp_right fun hc => ?_
    obtain ⟨v, hv⟩ := Table.contains_iff.mp hc
    exact Table.contains_of_get? (hfresh.get?_insertAll hv)
  · obtain ⟨u, hu⟩ := Table.contains_iff.mp hk
    rcases Table.mem_or_get?_of_insertAll hu with hmem | hu
    · exact .inr (List.of_mem_zip hmem).1
    · exact .inl (Table.contains_of_get? hu)
  · rw [← List.map_fst_zip (Nat.le_of_eq hlen), List.mem_map] at hk
    obtain ⟨e, he, rfl⟩ := hk
    exact Table.contains_of_get? (hget e he)

/-- **Every step keeps the invariant.** -/
theorem Instantiates.step {w w' : Walk} (h : R.Instantiates ctx w) (hs : R.Step w w') :
    R.Instantiates ctx w' := by
  cases hs with
  | skip _ => exact h.skip
  | @enter t rest entered found found' _ hf =>
    cases t with
    | nominal c =>
      have heq : found = found' := Except.ok.inj hf
      exact heq ▸ h.enter_nominal hR
    | applied owner raw args =>
      obtain rfl : owner = none := (h.pending _ List.mem_cons_self).1
      obtain ⟨hlen, rfl⟩ := of_enter_applied hf
      by_cases hold : ∃ t ∈ entered, t.applies raw = true
      · -- the class has been met applied before: its parameters are mapped, and stay as they are
        obtain ⟨t, ht, happ⟩ := hold
        have hmaps : R.Maps found raw := h.maps_of_applies ht happ
        rw [Table.recordAll_of_contains fun e he => hmaps e.1 (List.of_mem_zip he).1]
        exact h.enter_applied hlen (fun _ _ hk => hk) h.acyclic h.grounded (fun _ hk => .inl hk)
          hmaps fun hnew => absurd happ (hnew t ht)
      · have hnew : ∀ t ∈ entered, ¬ t.applies raw = true := fun t ht happ => hold ⟨t, ht, happ⟩
        exact h.enter_fresh hR hctx hlen hnew
    | array c => exact (h.pending _ List.mem_cons_self).elim
    | wildcard site upper lower => exact (h.pending _ List.mem_cons_self).elim
    | var k bounds => exact (h.pending _ List.mem_cons_self).elim

theorem Instantiates.run {w w' : Walk} (h : R.Instantiates ctx w) (hs : R.Runs w w') :
    R.Instantiates ctx w' := by
  induction hs with
  | refl => exact h
  | tail _ hstep ih => exact ih.step hR hctx hstep

end Step

/-- The walk starts with nothing found, and a context that is ready. -/
theorem instantiates_start {context : Ty} (hc : R.Instance context) (next : Nat) :
    R.Instantiates (context.capture next).1.vars ⟨[(context.capture next).1], [], .empty⟩ where
  acyclic := Table.acyclic_empty
  grounded i j := by
    rintro ⟨u, hu, -⟩
    simp at hu
  keys k hk := by simp [Table.contains] at hk
  pending t ht := by
    obtain rfl := List.mem_singleton.mp ht
    cases context with
    | nominal c =>
      intro k hk
      have hnil : R.paramKeys c = [] := hc
      rw [hnil] at hk
      cases hk
    | applied owner raw args =>
      obtain rfl : owner = none := hc
      exact ⟨rfl, fun k hk => .inl hk⟩
    | _ => exact hc.elim
  entered t ht := by cases ht
  first c args hf := by simp at hf

/-! ## At the end of the walk -/

section End

variable {seen : List Ty} (h : R.Instantiates ctx ⟨[], seen, T⟩)
include h

/-- What a mapped variable resolves to has variables of the context only. -/
theorem Instantiates.mem_ctx_of_mem_vars_resolve {k v : VarKey} (hk : T.contains k = true)
    {bounds : List Ty} (hv : v ∈ (T.resolve (.var k bounds)).vars) : v ∈ ctx := by
  have hnone : T.get? v = none := h.acyclic.get?_of_mem_vars_resolve hv
  rw [← Ty.vars_skeleton, Table.skeleton_resolve, Ty.skeleton_var, Ty.subst_ofKey,
    Option.getD_some] at hv
  have hreach := (Table.mem_vars_image hv).1
  cases hreach with
  | refl => exact absurd hk (Table.not_contains_iff.mpr hnone)
  | tail _ hlast =>
    exact (h.grounded _ v hlast).resolve_right (Table.not_contains_iff.mpr hnone)

/-- A class that is met and has parameters is met applied; what its parameters stand for are the
arguments of the first application. -/
theorem Instantiates.exists_first (hR : R.Tidy) {k : VarKey} (hk : k ∈ R.paramKeys c)
    (hc : T.contains k = true) :
    ∃ args, seen.reverse.find? (Ty.applies c) = some (.applied none c args) := by
  obtain ⟨t, ht, c', happ, hk'⟩ := h.keys k hc
  obtain rfl := hR.eq_of_mem hk' hk
  cases hfind : seen.reverse.find? (Ty.applies c') with
  | none =>
    exact absurd happ (List.find?_eq_none.mp hfind t (List.mem_reverse.mpr ht))
  | some u =>
    have hmet := h.entered u (List.mem_reverse.mp (List.mem_of_find?_eq_some hfind))
    have hu := List.find?_some hfind
    cases u with
    | applied owner raw args =>
      obtain rfl : raw = c' := by simpa [Ty.applies] using hu
      obtain rfl : owner = none := hmet.1
      exact ⟨args, rfl⟩
    | _ => simp [Ty.applies] at hu

/-- The class applied to its own parameters resolves as its first application does. -/
theorem Instantiates.resolve_agrees {d : Declaration} (hd : R.find? c = some d)
    (hf : seen.reverse.find? (Ty.applies c) = some (.applied none c args)) :
    (T.resolve (.applied none c d.paramTypes)).agrees (T.resolve (.applied none c args)) = true := by
  obtain ⟨hlen, hget⟩ := h.first c args hf
  rw [paramKeys_of_find? hd] at hlen hget
  have hparams : (d.paramTypes.map T.resolve).map Ty.skeleton =
      (d.params.map Param.key).map (T.image []) := by
    simp only [Declaration.paramTypes, List.map_map]
    refine List.map_congr_left fun p _ => ?_
    exact Table.skeleton_resolveUnder_var p.key p.bounds
  have hargs : (d.params.map Param.key).map (T.image []) =
      (args.map T.resolve).map Ty.skeleton := by
    generalize d.params.map Param.key = keys at hlen hget ⊢
    calc keys.map (T.image [])
      _ = ((keys.zip args).map Prod.fst).map (T.image []) := by
        rw [List.map_fst_zip (Nat.le_of_eq hlen)]
      _ = ((keys.zip args).map Prod.snd).map fun a => (T.resolve a).skeleton := by
        simp only [List.map_map]
        exact List.map_congr_left fun e he => h.acyclic.image_eq (hget e he)
      _ = (args.map T.resolve).map Ty.skeleton := by
        rw [List.map_snd_zip (Nat.le_of_eq hlen.symm), List.map_map]
        rfl
  rw [Ty.agrees_iff, Table.resolve_applied, Table.resolve_applied, Ty.skeleton_applied,
    Ty.skeleton_applied, hparams, hargs]

end End

end Invariant

/-! ## The main result -/

/-- The table says of a declared class what its parameters stand for.  Here `captured` is the context
of the walk and `seen` lists the types entered, the latest first. -/
structure InstantiatesClass (R : Registry) (captured : Ty) (seen : List Ty) (T : Table)
    (c : Nominal) (d : Declaration) : Prop where
  /-- Every parameter is mapped. -/
  mapped : ∀ p ∈ d.params, T.contains p.key = true
  /-- No parameter resolves to a type with other variables than the captured ones; in particular there
  is none with parameters of declared classes. -/
  ground : ∀ p ∈ d.params, ∀ k ∈ (T.resolve p.ty).freeKeys,
    k ∈ captured.freeKeys ∧ k.scope = .capture ∧ ∀ c', k ∉ R.paramKeys c'
  /-- The class applied to its parameters resolves as the first application of it that was met. -/
  first : d.params ≠ [] →
    ∃ args, seen.reverse.find? (Ty.applies c) = some (.applied none c args) ∧
      (T.resolve (.applied none c d.paramTypes)).agrees (T.resolve (.applied none c args)) = true

/-- **A context instantiates all its supertypes.**  If the walk from a context without variables
through a tidy registry yields a table, the table is acyclic and instantiates every class that was
met on the way. -/
theorem contextTable_instantiates {R : Registry} (hR : R.Tidy) {context : Ty}
    (hc : R.Instance context) (hv : context.vars = []) {next : Nat} {T : Table}
    (h : (R.contextTable context next).1 = .ok T) :
    ∃ seen, R.Runs ⟨[(context.capture next).1], [], .empty⟩ ⟨[], seen, T⟩ ∧ T.Acyclic ∧
      ∀ c d, (∃ t ∈ seen, t.class? = some c) → R.find? c = some d →
        R.InstantiatesClass (context.capture next).1 seen T c d := by
  have hctx : ∀ k ∈ (context.capture next).1.vars, k.scope = .capture := by
    intro k hk
    refine (Ty.mem_vars_capture hk).resolve_left fun hmem => ?_
    rw [hv] at hmem
    cases hmem
  obtain ⟨-, seen, hrun⟩ := contextTable_eq_ok_iff.mp h
  have hinv := (instantiates_start hc next).run hR hctx hrun
  refine ⟨seen, hrun, hinv.acyclic, fun c d ⟨t, ht, hclass⟩ hd => ?_⟩
  have hparam : ∀ p ∈ d.params, p.key ∈ R.paramKeys c := by
    intro p hp
    rw [paramKeys_of_find? hd]
    exact List.mem_map_of_mem hp
  have hmapped : ∀ p ∈ d.params, T.contains p.key = true := fun p hp =>
    (hinv.entered t ht).maps hclass p.key (hparam p hp)
  refine ⟨hmapped, fun p hp k hk => ?_, fun hne => ?_⟩
  · have hmem := hinv.mem_ctx_of_mem_vars_resolve (hmapped p hp) (Ty.mem_freeKeys.mp hk)
    have hscope := hctx k hmem
    refine ⟨Ty.mem_freeKeys.mpr hmem, hscope, fun c' hk' => ?_⟩
    rw [(hR.scope_of_mem hk').2] at hscope
    cases hscope
  · obtain ⟨p, hp⟩ := List.exists_mem_of_ne_nil d.params hne
    obtain ⟨args, hf⟩ := hinv.exists_first hR (hparam p hp) (hmapped p hp)
    exact ⟨args, hf, hinv.resolve_agrees hd hf⟩

/-- `List<E>` extends `Iterable<E[]>`, and `Iterable<T>` extends `List<Box<T>>`. -/
def looped : Registry :=
  ⟨[("List", { Declaration.generic "List" ["E"] with
      interfaces := [.applied none (.plain "Iterable") [.array (.ofKey ⟨.type "List", "E"⟩)]] }),
    ("Iterable", { Declaration.generic "Iterable" ["T"] with
      interfaces := [.applied none (.plain "List")
        [.applied none (.plain "Box") [.ofKey ⟨.type "Iterable", "T"⟩]]] })]⟩

theorem tidy_looped : looped.Tidy := by
  have hcases : ∀ name d, looped.named? name = some d → (name, d) ∈ looped.declarations := by
    intro name d h
    obtain ⟨es, fs, heq, -⟩ := List.lookup_eq_some_iff.mp h
    rw [heq]
    exact List.mem_append_right es List.mem_cons_self
  simp only [looped, List.mem_cons, Prod.mk.injEq, List.not_mem_nil, or_false] at hcases
  refine ⟨fun name d h => ?_, fun name d h t ht => ?_, fun name d h t ht k hk => ?_⟩
  · rcases hcases name d h with ⟨rfl, rfl⟩ | ⟨rfl, rfl⟩
    · exact ⟨["E"], by decide, rfl⟩
    · exact ⟨["T"], by decide, rfl⟩
  · rcases hcases name d h with ⟨rfl, rfl⟩ | ⟨rfl, rfl⟩ <;>
      obtain rfl := List.mem_singleton.mp ht <;> rfl
  · rcases hcases name d h with ⟨rfl, rfl⟩ | ⟨rfl, rfl⟩ <;>
      obtain rfl := List.mem_singleton.mp ht <;> exact hk

/-- What `List<Box<? extends Number>>` says in that registry: `E` stands for the box, and `T` for
`E[]`. -/
def boxTable : Table :=
  (Table.empty.insert ⟨.type "List", "E"⟩ (.applied none (.plain "Box")
    [.var (captureKey 0 [.plain "Number"]) [.plain "Number"]])).insert
      ⟨.type "Iterable", "T"⟩ (.array (.ofKey ⟨.type "List", "E"⟩))

/-- A hierarchy that runs in a circle, and a context with a wildcard to capture. -/
theorem contextTable_instantiates_looped :
    let context : Ty := .applied none (.plain "List")
      [.applied none (.plain "Box") [.extending (.plain "Number")]]
    looped.Tidy ∧ looped.Instance context ∧ context.vars = [] ∧
      (looped.contextTable context 0).1 = .ok boxTable ∧
      ∃ seen, looped.Runs ⟨[(context.capture 0).1], [], .empty⟩ ⟨[], seen, boxTable⟩ ∧
        boxTable.Acyclic ∧
        ∀ c d, (∃ t ∈ seen, t.class? = some c) → looped.find? c = some d →
          looped.InstantiatesClass (context.capture 0).1 seen boxTable c d := by
  intro context
  have hc : looped.Instance context := rfl
  have hv : context.vars = [] := by decide
  have h : (looped.contextTable context 0).1 = .ok boxTable := by
    refine contextTable_eq_ok_iff.mpr ⟨by decide, ?_⟩
    -- the list, its class, the iterable, its class, the list of boxes, and the class again
    exact ⟨_, .head (.enter (by decide) rfl) <| .head (.enter (by decide) rfl) <|
      .head (.enter (by decide) rfl) <| .head (.enter (by decide) rfl) <|
      .head (.enter (by decide) rfl) <| .head (.skip (by decide)) .refl⟩
  exact ⟨tidy_looped, hc, hv, h, contextTable_instantiates tidy_looped hc hv h⟩

end Registry

end Generics
