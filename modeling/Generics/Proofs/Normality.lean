import Generics.Proofs.Descent
import Generics.Proofs.Links
import Generics.Proofs.Release
import Generics.Proofs.Rollback
import Generics.Proofs.Walk

/-!
# Generics.Proofs.Normality: the normal form of arrays is never lost

Whatever is done with types in array normal form gives types in array normal form again, down to the
bounds of variables: building types, taking components, resolving, capturing, unifying and surveying a
context (`normal_preserved`).

Resolution keeps the normal form because everything that it goes on to is a part of the type, an entry
of the table or a bound; unification because the types that it binds are parts of the actual type; and
the walk over supertypes because one step of it does (`Walk.Normal.step`).
-/

namespace Generics

open Relation

/-! ## Building types and taking them apart -/

namespace Ty

variable {t c : Ty}

/-- The type can be built from the given types by the constructors, with `arrayOf` as the only way to
build an array. -/
inductive Built (given : Ty → Prop) : Ty → Prop where
  | given {t : Ty} (h : given t) : Built given t
  | nominal (c : Nominal) : Built given (nominal c)
  | applied {owner : Option Ty} (raw : Nominal) {args : List Ty}
      (ho : ∀ o ∈ owner, Built given o) (ha : ∀ a ∈ args, Built given a) :
      Built given (applied owner raw args)
  | arrayOf {c : Ty} (h : Built given c) : Built given c.arrayOf
  | wildcard (site : Option Nat) {upper lower : List Ty}
      (hu : ∀ b ∈ upper, Built given b) (hl : ∀ b ∈ lower, Built given b) :
      Built given (wildcard site upper lower)
  | var (k : VarKey) {bounds : List Ty} (hb : ∀ b ∈ bounds, Built given b) :
      Built given (var k bounds)

theorem Built.normal {given : Ty → Prop} (hgiven : ∀ s, given s → s.normal = true)
    (h : Built given t) : t.normal = true := by
  induction h with
  | given h => exact hgiven _ h
  | nominal c => exact normal_nominal c
  | applied raw _ _ iho iha => exact normal_applied.mpr ⟨iho, iha⟩
  | arrayOf _ ih => exact normal_arrayOf ih
  | wildcard site _ _ ihu ihl => exact normal_wildcard.mpr ⟨ihu, ihl⟩
  | var k _ ihb => exact normal_var.mpr ihb

theorem normal_extending (h : t.normal = true) : (extending t).normal = true := by
  rw [extending, normal_wildcard]
  simp [h]

theorem normal_widen (h : t.normal = true) : t.widen.normal = true := by
  unfold widen
  split
  · split
    · exact normal_nominal _
    · exact normal_extending h
  · exact normal_extending h

/-- What an array of a normal type holds is normal. -/
theorem normal_component? (hn : t.normal = true) (h : t.component? = some c) :
    c.normal = true := by
  revert hn
  refine component?_induct ?_ ?_ ?_ ?_ t c h
  · intro n m _
    exact normal_nominal m
  · intro c hn
    exact (normal_array.mp hn).2
  · intro site upper lower b d hb ih hn
    exact normal_widen (ih ((normal_wildcard.mp hn).1 b hb))
  · intro k bounds b d hb ih hn
    exact normal_widen (ih (normal_var.mp hn b hb))

/-- The types that a comparison comes to on the side of the actual type are normal. -/
theorem Meets.normal {p q : Ty × Ty} (h : Meets p q) (hp : p.2.normal = true) :
    q.2.normal = true := by
  cases h with
  | upper hm => exact (normal_wildcard.mp hp).1 q.2 (List.of_mem_zip hm).2
  | lower hm => exact (normal_wildcard.mp hp).2 q.2 (List.of_mem_zip hm).2
  | owner => exact (normal_applied.mp hp).1 _ rfl
  | arg hm => exact (normal_applied.mp hp).2 q.2 (List.of_mem_zip hm).2
  | component hd => exact normal_component? hp hd

/-- A comparison binds variables to normal types, if the actual type is normal. -/
theorem normal_of_mem_bindings {formal actual : Ty} {k : VarKey} (hn : actual.normal = true)
    (h : (k, t) ∈ (formal.settle actual).bindings) : t.normal = true := by
  obtain ⟨bounds, hrun, -⟩ := exists_meets_of_mem_bindings h
  have hcarried : ∀ q, ReflTransGen Meets (formal, actual) q → q.2.normal = true := by
    intro q hq
    induction hq with
    | refl => exact hn
    | tail _ hstep ih => exact hstep.normal ih
  exact hcarried _ hrun

end Ty

/-! ## Tables -/

/-- The entries of the table are normal. -/
def Table.Normal (T : Table) : Prop := ∀ k t, T.get? k = some t → t.normal = true

namespace Table

variable {T : Table} {k : VarKey} {t : Ty}

theorem normal_iff : T.Normal ↔ ∀ e ∈ T.entries, e.2.normal = true := by
  constructor
  · intro h e he
    exact h e.1 e.2 (get?_eq_some_iff.mpr he)
  · intro h k t hk
    exact h (k, t) (get?_eq_some_iff.mp hk)

instance : DecidablePred Normal := fun _ => decidable_of_iff _ normal_iff.symm

theorem normal_empty : empty.Normal := by
  intro k t h
  rw [get?_empty] at h
  cases h

theorem Normal.insertAll (hT : T.Normal) {es : List (VarKey × Ty)}
    (hes : ∀ e ∈ es, e.2.normal = true) : (T.insertAll es).Normal := by
  intro k t h
  rcases mem_or_get?_of_insertAll h with h | h
  · exact hes (k, t) h
  · exact hT k t h

theorem Normal.recordAll (hT : T.Normal) {es : List (VarKey × Ty)}
    (hes : ∀ e ∈ es, e.2.normal = true) : (T.recordAll es).Normal := by
  intro k t h
  rcases mem_or_get?_of_recordAll h with h | h
  · exact hes (k, t) h
  · exact hT k t h

/-! ## Resolution -/

/-- What resolving a normal type goes on to is normal. -/
theorem Calls.normal {c d : Shields × Ty} (hT : T.Normal) (h : T.Calls c d)
    (hc : c.2.normal = true) : d.2.normal = true := by
  cases h with
  | owner => exact (Ty.normal_applied.mp hc).1 _ rfl
  | arg ha => exact (Ty.normal_applied.mp hc).2 _ ha
  | component => exact (Ty.normal_array.mp hc).2
  | upper hb => exact (Ty.normal_wildcard.mp hc).1 _ hb
  | lower hb => exact (Ty.normal_wildcard.mp hc).2 _ hb
  | entry _ hk => exact hT _ _ hk
  | bound _ _ hb => exact Ty.normal_var.mp hc _ hb

theorem normal_resolveUnder (hT : T.Normal) (c : Shields × Ty) (hc : c.2.normal = true) :
    (T.resolveUnder c.1 c.2).normal = true := by
  induction c using T.wellFounded_calls.induction with
  | _ c ih =>
    obtain ⟨g, t⟩ := c
    have hcall : ∀ h s, T.Calls (g, t) (h, s) → (T.resolveUnder h s).normal = true :=
      fun h s hd => ih (h, s) hd (hd.normal hT hc)
    cases t with
    | nominal c => simp only [resolveUnder_nominal, Ty.normal_nominal]
    | applied owner raw args =>
      simp only [resolveUnder_applied, Ty.normal_applied]
      refine ⟨fun o' ho' => ?_, fun a' ha' => ?_⟩
      · obtain ⟨o, rfl, rfl⟩ := Option.map_eq_some_iff.mp ho'
        exact hcall g o .owner
      · obtain ⟨a, ha, rfl⟩ := List.mem_map.mp ha'
        exact hcall g a (.arg ha)
    | array c =>
      simp only [resolveUnder_array]
      exact Ty.normal_arrayOf (hcall g c .component)
    | wildcard site upper lower =>
      simp only [resolveUnder_wildcard, Ty.normal_wildcard]
      refine ⟨List.forall_mem_map.mpr fun b hb => ?_, List.forall_mem_map.mpr fun b hb => ?_⟩
      · exact hcall g b (.upper hb)
      · exact hcall g b (.lower hb)
    | var k bounds =>
      by_cases hg : g.cover k = true
      · simp only [resolveUnder_covered T bounds hg]
        exact hc
      · cases hk : T.get? k with
        | some u =>
          simp only [resolveUnder_mapped T bounds hg hk]
          exact hcall (.entry k :: g) u (.entry hg hk)
        | none =>
          simp only [resolveUnder_unmapped T bounds hg hk]
          split
          · exact hc
          · rw [Ty.normal_var]
            refine List.forall_mem_map.mpr fun b hb => ?_
            exact hcall (.bounds k.scope :: g) b (.bound hg hk hb)

end Table

/-! ## Unification -/

/-- A unifier takes over normal bindings only. -/
theorem Unifier.normal_unify {u : Unifier} {actual : Ty} (hu : u.bindings.Normal)
    (hn : actual.normal = true) (formal : Ty) : (u.unify formal actual).2.bindings.Normal := by
  cases hc : (formal.settle actual).clash? with
  | some c =>
    rw [unify_of_clash hc, bindings_noteAll]
    exact hu
  | none =>
    rw [unify_of_succeeds hc, bindings_rebind]
    exact hu.insertAll fun e he => Ty.normal_of_mem_bindings hn he

/-- A normal table is extended by normal entries. -/
theorem Table.Normal.unify {S T : Table} {formal actual : Ty} (hT : T.Normal)
    (hn : actual.normal = true) (h : T.unify formal actual = .ok S) : S.Normal := by
  obtain ⟨G, hG, rfl⟩ := Table.unify_eq_ok_iff.mp h
  obtain ⟨-, rfl⟩ := Generics.unify_eq_ok_iff.mp hG
  have hgained : (Table.empty.insertAll (formal.settle actual).bindings).Normal :=
    Table.normal_empty.insertAll fun e he => Ty.normal_of_mem_bindings hn he
  exact hT.insertAll (Table.normal_iff.mp hgained)

/-! ## The walk over supertypes -/

/-- The declared supertypes are normal. -/
def Registry.Normal (R : Registry) : Prop := ∀ t ∈ R.allSupertypes, t.normal = true

instance : DecidablePred Registry.Normal := fun _ => inferInstanceAs (Decidable (∀ _ ∈ _, _))

/-- The types to visit and what has been found are normal. -/
structure Walk.Normal (w : Walk) : Prop where
  pending : ∀ t ∈ w.pending, t.normal = true
  found : w.found.Normal

section Walk

variable {R : Registry}

theorem Registry.Normal.next {s t : Ty} (hR : R.Normal) (ht : t.normal = true)
    (hs : s ∈ R.next t) : s.normal = true := by
  cases t with
  | nominal c => exact hR s (Registry.mem_allSupertypes hs)
  | applied owner raw args =>
    rcases List.mem_cons.mp hs with rfl | hs
    · exact Ty.normal_nominal raw
    · exact (Ty.normal_applied.mp ht).1 s (Option.mem_toList.mp hs)
  | array c => cases hs
  | wildcard site upper lower => exact (Ty.normal_wildcard.mp ht).1 s hs
  | var k bounds => exact Ty.normal_var.mp ht s hs

theorem Table.Normal.enter {found found' : Table} {t : Ty} (hT : found.Normal)
    (ht : t.normal = true) (h : R.enter found t = .ok found') : found'.Normal := by
  cases t with
  | applied owner raw args =>
    obtain ⟨-, rfl⟩ := Registry.of_enter_applied h
    refine hT.recordAll fun e he => ?_
    exact (Ty.normal_applied.mp ht).2 e.2 (List.of_mem_zip he).2
  | _ =>
    cases h
    exact hT

/-- **One step of a walk keeps the normal form.** -/
theorem Walk.Normal.step {w w' : Walk} (hR : R.Normal) (hw : w.Normal) (h : R.Step w w') :
    w'.Normal := by
  cases h with
  | skip _ => exact ⟨fun t ht => hw.pending t (List.mem_cons_of_mem _ ht), hw.found⟩
  | @enter t rest entered found found' _ hf =>
    have ht : t.normal = true := hw.pending t List.mem_cons_self
    refine ⟨fun s hs => ?_, hw.found.enter ht hf⟩
    rcases List.mem_append.mp hs with hs | hs
    · exact hR.next ht hs
    · exact hw.pending s (List.mem_cons_of_mem t hs)

theorem Walk.Normal.run {w w' : Walk} (hR : R.Normal) (hw : w.Normal) (h : R.Runs w w') :
    w'.Normal := by
  induction h with
  | refl => exact hw
  | tail _ hstep ih => exact ih.step hR hstep

/-- The walk from a captured context starts with normal types. -/
theorem Walk.normal_start {context : Ty} (hn : context.normal = true) (next : Nat) :
    Walk.Normal ⟨[(context.capture next).1], [], .empty⟩ where
  pending := List.forall_mem_singleton.mpr (Ty.normal_capture hn next)
  found := Table.normal_empty

end Walk

/-- **The normal form of arrays is an invariant of the whole engine.**  Take a registry whose declared
supertypes are normal, a table and a unifier with normal entries, and a normal type.  All types built
from normal ones are normal; so are the array of the type, what an array of that type holds, the type
resolved with the table, the type captured, all entries of a table or a unifier after some formal
type has been unified with the type, and all that a survey of the type finds. -/
theorem normal_preserved (R : Registry) (T : Table) (u : Unifier) (t : Ty) (next : Nat)
    (hR : R.Normal) (hT : T.Normal) (hu : u.bindings.Normal) (ht : t.normal = true) :
    (∀ s, Ty.Built (fun r => r.normal = true) s → s.normal = true) ∧
      t.arrayOf.normal = true ∧
      (∀ c, t.component? = some c → c.normal = true) ∧
      (T.resolve t).normal = true ∧
      (t.capture next).1.normal = true ∧
      (∀ formal, (u.unify formal t).2.bindings.Normal) ∧
      (∀ formal S, T.unify formal t = .ok S → S.Normal) ∧
      (∀ S, (R.survey t next).1 = .ok S → S.Normal) ∧
      ∀ S, (R.contextTable t next).1 = .ok S → S.Normal := by
  have hrun : ∀ S seen, R.Runs ⟨[(t.capture next).1], [], .empty⟩ ⟨[], seen, S⟩ → S.Normal :=
    fun S seen h => ((Walk.normal_start ht next).run hR h).found
  refine ⟨fun s hs => hs.normal fun r hr => hr, Ty.normal_arrayOf ht,
    fun c hc => Ty.normal_component? ht hc, Table.normal_resolveUnder hT ([], t) ht,
    Ty.normal_capture ht next, fun formal => Unifier.normal_unify hu ht formal,
    fun formal S hS => hT.unify ht hS, fun S hS => ?_, fun S hS => ?_⟩
  · obtain ⟨seen, h⟩ := Registry.survey_eq_ok_iff_runs.mp hS
    exact hrun S seen h
  · obtain ⟨-, seen, h⟩ := Registry.contextTable_eq_ok_iff.mp hS
    exact hrun S seen h

/-- `Row<E>` extends `Seq<E[]>`. -/
def rows : Registry :=
  ⟨[("Row", { Declaration.generic "Row" ["E"] with
      superclass := some (.applied none (.plain "Seq") [.array (.ofKey ⟨.type "Row", "E"⟩)]) }),
    ("Seq", Declaration.generic "Seq" ["T"])]⟩

/-- `K` stands for `String[]`. -/
def names : Table := Table.empty.insert ⟨.type "Name", "K"⟩ (.nominal ⟨"String", 1⟩)

/-- `Row<(? extends K[] & Number)[]>`: resolving turns `K[]` into a class, capturing puts a variable into
the array, and both the comparison with `Row<P>` and the survey find arrays. -/
theorem normal_preserved_rows :
    let E : VarKey := ⟨.type "Row", "E"⟩
    let P : VarKey := ⟨.method "Row" "of", "P"⟩
    let bounds : List Ty := [.array (.ofKey ⟨.type "Name", "K"⟩), .plain "Number"]
    let row (s : Ty) : Ty := .applied none (.plain "Row") [s]
    let t : Ty := row (.array (.wildcard none bounds []))
    let bound := names.insert P (.array (.wildcard none bounds []))
    let found := (Table.empty.insert E (.array (.var (captureKey 0 bounds) bounds))).insert
      ⟨.type "Seq", "T"⟩ (.array (.ofKey E))
    rows.Normal ∧ names.Normal ∧ t.normal = true ∧ (names.resolve t).normal = true ∧
      (t.capture 0).1.normal = true ∧ names.unify (row (.ofKey P)) t = .ok bound ∧ bound.Normal ∧
      (rows.survey t 0).1 = .ok found ∧ found.Normal := by
  intro E P bounds row t bound found
  have hR : rows.Normal := by decide
  have hT : names.Normal := by decide
  have ht : t.normal = true := by decide
  obtain ⟨-, -, -, hresolve, hcapture, -, hunify, hsurvey, -⟩ :=
    normal_preserved rows names { bindings := names } t 0 hR hT hT ht
  have hbound : names.unify (row (.ofKey P)) t = .ok bound := rfl
  have hfound : (rows.survey t 0).1 = .ok found := by
    -- the row, its class, the sequence and its class
    exact Registry.survey_eq_ok_iff_runs.mpr ⟨_, .head (.enter (by decide) rfl) <|
      .head (.enter (by decide) rfl) <| .head (.enter (by decide) rfl) <|
      .head (.enter (by decide) rfl) .refl⟩
  exact ⟨hR, hT, ht, hresolve, hcapture, hbound, hunify _ _ hbound, hfound, hsurvey _ hfound⟩

end Generics
