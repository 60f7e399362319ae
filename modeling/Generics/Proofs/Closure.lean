import Generics.Proofs.Identity
import Generics.Proofs.Links
import Generics.Proofs.Walk

/-!
# Generics.Proofs.Closure: a survey accounts for all supertypes

The closure of a context holds all that the context leads to: the supertypes of classes, the classes and
owners of applied types, and the bounds of variables and wildcards.  A survey goes through the closure and
skips types that agree with one entered before.  If types of the closure that agree are identical, nothing
is missed in this way (`Covers.exists_identical`): what a skipped type leads to is identical to what the
entered one leads to.

Arguments are recorded for the first type that supplies them, and entries are dropped again where they
would close a cycle of variables.  The entries that are dropped lie on that cycle, and so does the key for
which nothing is recorded (`passed_cycle`), so every parameter is mapped in the end or lies on a cycle of
the pairs that the closure supplies (`Accounted`).
-/

namespace Generics

open Relation

/-! ## Keys that stay mapped -/

section Accounted

variable {S : VarKey → Ty → Prop} {T : Table} {i j k : VarKey} {t : Ty} {es : List (VarKey × Ty)}

/-- Among the pairs of keys and arguments, the key `k` has the variable of the key `j` for an argument. -/
def Passed (S : VarKey → Ty → Prop) (k j : VarKey) : Prop := ∃ bounds, S k (.var j bounds)

/-- The entries of the table are among the pairs. -/
def Table.DrawnFrom (T : Table) (S : VarKey → Ty → Prop) : Prop := ∀ k t, T.get? k = some t → S k t

/-- The key is mapped, or lies on a cycle of keys that have each other for arguments. -/
def Accounted (S : VarKey → Ty → Prop) (T : Table) (k : VarKey) : Prop :=
  T.contains k = true ∨ TransGen (Passed S) k k

theorem Table.DrawnFrom.recordAll (hT : T.DrawnFrom S) (hes : ∀ e ∈ es, S e.1 e.2) :
    (T.recordAll es).DrawnFrom S := by
  intro k t h
  rcases mem_or_get?_of_recordAll h with h | h
  · exact hes (k, t) h
  · exact hT k t h

theorem Table.DrawnFrom.record (hT : T.DrawnFrom S) (hkt : S k t) : (T.record k t).DrawnFrom S := by
  show (T.recordAll [(k, t)]).DrawnFrom S
  exact hT.recordAll (List.forall_mem_singleton.mpr hkt)

theorem Table.DrawnFrom.passed (hT : T.DrawnFrom S) (h : T.Links i j) : Passed S i j := by
  obtain ⟨bounds, hi⟩ := links_iff.mp h
  exact ⟨bounds, hT _ _ hi⟩

theorem rightUnique_links (T : Table) : Relator.RightUnique T.Links := by
  intro i j j' hj hj'
  exact Option.some.inj (hj.symm.trans hj')

/-- **What is dropped lies on a cycle**: if the links from the argument of `k` lead to `k`, then all keys
on this way do, and `k` itself. -/
theorem passed_cycle (hT : T.DrawnFrom S) (hkt : S k t) (hk : ¬ T.contains k = true)
    (hj : t.key? = some j) (hjk : ReflTransGen T.Links j k) (hji : ReflTransGen T.Links j i) :
    TransGen (Passed S) i i := by
  have hpassed : ∀ {a b}, ReflTransGen T.Links a b → ReflTransGen (Passed S) a b := fun h =>
    ReflTransGen.mono (fun _ _ => hT.passed) _ _ h
  have hkj : Passed S k j := by
    obtain ⟨bounds, rfl⟩ := Ty.key?_eq_some_iff.mp hj
    exact ⟨bounds, hkt⟩
  -- no link starts from `k`, so the way through `i` goes on to `k`
  have hik : ReflTransGen T.Links i k := by
    rcases ReflTransGen.total_of_right_unique (rightUnique_links T) hji hjk with hik | hki
    · exact hik
    · rcases hki.cases_head with rfl | ⟨m, hm, -⟩
      · exact .refl
      · exact absurd hm.contains hk
  exact TransGen.trans_right (hpassed hik) (TransGen.head' hkj (hpassed hji))

/-- A key that is accounted for stays so when another argument is recorded. -/
theorem Accounted.record (hT : T.DrawnFrom S) (hkt : S k t) (hi : Accounted S T i) :
    Accounted S (T.record k t) i := by
  rcases hi with hi | hi
  · obtain ⟨-, heq⟩ | ⟨heq, -⟩ | ⟨hk, j, hj, hjk, heq⟩ := T.record_cases k t
    · rw [heq]
      exact .inl hi
    · left
      obtain ⟨s, hs⟩ := Table.contains_iff.mp hi
      rw [heq, Table.contains, Table.get?_insert]
      split
      · rfl
      · rw [hs, Option.isSome_some]
    · by_cases hji : i ∈ T.trail j
      · exact .inr (passed_cycle hT hkt hk hj hjk (Table.mem_trail_iff.mp hji))
      · left
        rw [heq, Table.contains, Table.get?_foldl_erase, if_neg hji]
        exact hi
  · exact .inr hi

/-- The key for which an argument is recorded is accounted for. -/
theorem accounted_record (hT : T.DrawnFrom S) (hkt : S k t) : Accounted S (T.record k t) k := by
  obtain ⟨hk, heq⟩ | ⟨heq, -⟩ | ⟨hk, j, hj, hjk, -⟩ := T.record_cases k t
  · rw [heq]
    exact .inl hk
  · left
    rw [heq, Table.contains, Table.get?_insert, if_pos rfl, Option.isSome_some]
  · exact .inr (passed_cycle hT hkt hk hj hjk hjk)

theorem Accounted.recordAll (hT : T.DrawnFrom S) (hes : ∀ e ∈ es, S e.1 e.2)
    (hi : Accounted S T i) : Accounted S (T.recordAll es) i := by
  induction es generalizing T with
  | nil => exact hi
  | cons e es ih =>
    rw [List.forall_mem_cons] at hes
    rw [Table.recordAll_cons]
    exact ih (hT.record hes.1) hes.2 (hi.record hT hes.1)

/-- **All keys for which arguments are recorded are accounted for.** -/
theorem accounted_recordAll (hT : T.DrawnFrom S) (hes : ∀ e ∈ es, S e.1 e.2)
    (hk : k ∈ es.map Prod.fst) : Accounted S (T.recordAll es) k := by
  induction es generalizing T with
  | nil => cases hk
  | cons e es ih =>
    rw [List.forall_mem_cons] at hes
    rw [Table.recordAll_cons]
    rcases List.mem_cons.mp hk with rfl | hk
    · exact (accounted_record hT hes.1).recordAll (hT.record hes.1) hes.2
    · exact ih (hT.record hes.1) hes.2 hk

end Accounted

/-- The type agrees with one that has been entered, or is still to be visited. -/
def Walk.Awaits (w : Walk) (t : Ty) : Prop := t.listed w.entered = true ∨ t ∈ w.pending

/-! ## The closure of a context -/

namespace Registry

variable {R : Registry} {context captured t u : Ty} {w w' : Walk}

section Defs

variable (R)

/-- The types that a context leads to: the context, the declared supertypes of classes, the classes and
owners of applied types, the bounds of variables and the upper bounds of wildcards. -/
inductive Closure (context : Ty) : Ty → Prop where
  | context : Closure context context
  | supertype {c : Nominal} {d : Declaration} {t : Ty} (h : Closure context (.nominal c))
      (hd : R.find? c = some d) (ht : t ∈ d.supertypes) : Closure context t
  | raw {owner : Option Ty} {raw : Nominal} {args : List Ty}
      (h : Closure context (.applied owner raw args)) : Closure context (.nominal raw)
  | owner {o : Ty} {raw : Nominal} {args : List Ty}
      (h : Closure context (.applied (some o) raw args)) : Closure context o
  | bound {k : VarKey} {bounds : List Ty} {b : Ty} (h : Closure context (.var k bounds))
      (hb : b ∈ bounds) : Closure context b
  | upper {site : Option Nat} {upper lower : List Ty} {b : Ty}
      (h : Closure context (.wildcard site upper lower)) (hb : b ∈ upper) : Closure context b

/-- Types of the closure that agree have the same bounds on their variables. -/
def Unambiguous (context : Ty) : Prop :=
  ∀ t u, R.Closure context t → R.Closure context u → t.agrees u = true → t.identical u = true

/-- The type gives the argument `a` to the declared parameter `k`: they stand at the same position. -/
inductive Supplies : Ty → VarKey → Ty → Prop where
  | mk {owner : Option Ty} {raw : Nominal} {args : List Ty} {i : Nat} {k : VarKey} {a : Ty}
      (hk : (R.paramKeys raw)[i]? = some k) (ha : args[i]? = some a) :
      Supplies (.applied owner raw args) k a

/-- Some type of the closure gives the argument `a` to the parameter `k`. -/
def Offers (context : Ty) (k : VarKey) (a : Ty) : Prop := ∃ t, R.Closure context t ∧ R.Supplies t k a

end Defs

/-- A walk goes on from a type to types of the closure. -/
theorem Closure.next (h : R.Closure context t) (hu : u ∈ R.next t) : R.Closure context u := by
  cases t with
  | nominal c =>
    obtain ⟨d, hd, hu⟩ := mem_supertypes_iff.mp hu
    exact .supertype h hd hu
  | applied owner raw args =>
    rcases List.mem_cons.mp hu with rfl | hu
    · exact .raw h
    · cases owner with
      | none => cases hu
      | some o =>
        obtain rfl : u = o := List.mem_singleton.mp hu
        exact .owner h
  | array c => cases hu
  | wildcard site upper lower => exact .upper h hu
  | var k bounds => exact .bound h hu

/-- Induction on the closure along the ways that a walk goes. -/
@[elab_as_elim]
theorem closure_induct {P : Ty → Prop} (start : P context)
    (onward : ∀ t u, R.Closure context t → P t → u ∈ R.next t → P u)
    (t : Ty) (h : R.Closure context t) : P t := by
  induction h with
  | context => exact start
  | supertype h hd ht ih => exact onward _ _ h ih (mem_supertypes_iff.mpr ⟨_, hd, ht⟩)
  | raw h ih => exact onward _ _ h ih List.mem_cons_self
  | owner h ih => exact onward _ _ h ih (List.mem_cons_of_mem _ List.mem_cons_self)
  | bound h hb ih => exact onward _ _ h ih hb
  | upper h hb ih => exact onward _ _ h ih hb

/-- The closure lies within the horizon of the walk, so the condition can be checked there. -/
theorem unambiguous_of_horizon
    (h : ∀ t ∈ R.horizon context, ∀ u ∈ R.horizon context, t.agrees u = true → t.identical u = true) :
    R.Unambiguous context := by
  have hmem : ∀ {t : Ty}, R.Closure context t → t ∈ R.horizon context := by
    intro t ht
    refine closure_induct ?_ (fun s u _ hs hu => R.next_mem_horizon hs hu) t ht
    exact Ty.mem_withinEach.mpr ⟨context, List.mem_cons_self, context.self_mem_within⟩
  intro t u ht hu
  exact h t (hmem ht) u (hmem hu)

/-! ## Types up to sites -/

section Sites

/-- Identical types lead to identical types. -/
theorem map_unsited_next (R : Registry) (t : Ty) :
    (R.next t).map Ty.unsited = (R.next t.unsited).map Ty.unsited := by
  cases t with
  | nominal c => rfl
  | applied owner raw args => cases owner <;> simp [next]
  | array c => rfl
  | wildcard site upper lower => simp [next]
  | var k bounds => simp [next]

theorem exists_next_of_unsited {s : Ty} (h : t.unsited = u.unsited) (hs : s ∈ R.next t) :
    ∃ s' ∈ R.next u, s'.unsited = s.unsited := by
  have hmem : s.unsited ∈ (R.next t).map Ty.unsited := List.mem_map_of_mem hs
  rw [map_unsited_next, h, ← map_unsited_next] at hmem
  exact List.mem_map.mp hmem

/-- What is identical to an applied class applies that class to as many arguments. -/
theorem exists_applied_of_unsited {owner : Option Ty} {raw : Nominal} {args : List Ty}
    (h : t.unsited = (Ty.applied owner raw args).unsited) :
    ∃ owner' args', t = .applied owner' raw args' ∧ args'.length = args.length := by
  cases t with
  | applied owner' raw' args' =>
    simp only [Ty.unsited_applied, Ty.applied.injEq] at h
    obtain ⟨-, rfl, hargs⟩ := h
    exact ⟨owner', args', rfl, by simpa using congrArg List.length hargs⟩
  | _ => simp at h

theorem Faulty.of_unsited {v : Violation} (h : R.Faulty t v) (hu : u.unsited = t.unsited) :
    R.Faulty u v := by
  cases h with
  | undeclared hd =>
    obtain ⟨owner, args, rfl, -⟩ := exists_applied_of_unsited hu
    exact .undeclared hd
  | parameterCount ha hd hn =>
    obtain ⟨owner, args, rfl, hlen⟩ := exists_applied_of_unsited hu
    rw [← hlen] at hn ⊢
    exact .parameterCount ha hd hn

end Sites

/-! ## Entering a type -/

section Enter

variable {found found' : Table}

/-- Entering a type records arguments that the type supplies, and one for each parameter of the class that
it applies. -/
theorem exists_of_enter (h : R.enter found t = .ok found') :
    ∃ es, found' = found.recordAll es ∧ (∀ e ∈ es, R.Supplies t e.1 e.2) ∧
      ∀ owner raw args, t = .applied owner raw args → ∀ k ∈ R.paramKeys raw, k ∈ es.map Prod.fst := by
  cases t with
  | applied owner raw args =>
    obtain ⟨hlen, rfl⟩ := of_enter_applied h
    refine ⟨(R.paramKeys raw).zip args, rfl, fun e he => ?_, fun owner' raw' args' heq k hk => ?_⟩
    · obtain ⟨i, hi⟩ := List.mem_iff_getElem?.mp he
      obtain ⟨hk, ha⟩ := List.getElem?_zip_eq_some.mp hi
      exact .mk hk ha
    · cases heq
      rw [List.map_fst_zip (by omega)]
      exact hk
  | _ =>
    cases h
    exact ⟨[], rfl, nofun, nofun⟩

end Enter

/-! ## Walks through the closure -/

section Covers

/-- What a walk from a captured context has done so far: it has kept to the closure, what the types it has
entered lead to is entered or still to be visited, none of these types is faulty, and what they supply is
accounted for. -/
structure Covers (R : Registry) (captured : Ty) (w : Walk) : Prop where
  pending : ∀ t ∈ w.pending, R.Closure captured t
  entered : ∀ t ∈ w.entered, R.Closure captured t
  start : w.Awaits captured
  onward : ∀ t ∈ w.entered, ∀ u ∈ R.next t, w.Awaits u
  sane : ∀ t ∈ w.entered, ∀ v, ¬ R.Faulty t v
  drawn : w.found.DrawnFrom (R.Offers captured)
  accounted : ∀ owner raw args, Ty.applied owner raw args ∈ w.entered →
    ∀ k ∈ R.paramKeys raw, Accounted (R.Offers captured) w.found k

theorem covers_start (R : Registry) (captured : Ty) : R.Covers captured ⟨[captured], [], .empty⟩ where
  pending t ht := by
    rw [List.mem_singleton.mp ht]
    exact .context
  entered := nofun
  start := .inr List.mem_cons_self
  onward := nofun
  sane := nofun
  drawn := nofun
  accounted := nofun

theorem Covers.skip {rest entered : List Ty} {found : Table}
    (h : R.Covers captured ⟨t :: rest, entered, found⟩) (hv : t.listed entered = true) :
    R.Covers captured ⟨rest, entered, found⟩ := by
  -- the type that is skipped is listed already
  have hstill : ∀ {u : Ty}, Walk.Awaits ⟨t :: rest, entered, found⟩ u →
      Walk.Awaits ⟨rest, entered, found⟩ u := by
    rintro u (hu | hu)
    · exact .inl hu
    · rcases List.mem_cons.mp hu with rfl | hu
      · exact .inl hv
      · exact .inr hu
  exact
    { pending := fun u hu => h.pending u (List.mem_cons_of_mem t hu)
      entered := h.entered
      start := hstill h.start
      onward := fun s hs u hu => hstill (h.onward s hs u hu)
      sane := h.sane
      drawn := h.drawn
      accounted := h.accounted }

theorem Covers.enter {rest entered : List Ty} {found found' : Table}
    (h : R.Covers captured ⟨t :: rest, entered, found⟩) (hf : R.enter found t = .ok found') :
    R.Covers captured ⟨R.next t ++ rest, t :: entered, found'⟩ := by
  have ht : R.Closure captured t := h.pending t List.mem_cons_self
  have hstill : ∀ {u : Ty}, Walk.Awaits ⟨t :: rest, entered, found⟩ u →
      Walk.Awaits ⟨R.next t ++ rest, t :: entered, found'⟩ u := by
    rintro u (hu | hu)
    · left
      rw [Ty.listed, List.any_cons, Bool.or_eq_true]
      exact .inr hu
    · rcases List.mem_cons.mp hu with rfl | hu
      · left
        rw [Ty.listed, List.any_cons, Ty.agrees_refl, Bool.true_or]
      · exact .inr (List.mem_append_right _ hu)
  obtain ⟨es, rfl, hes, hkeys⟩ := exists_of_enter hf
  have hoffers : ∀ e ∈ es, R.Offers captured e.1 e.2 := fun e he => ⟨t, ht, hes e he⟩
  refine ⟨fun u hu => ?_, fun u hu => ?_, hstill h.start, fun s hs u hu => ?_, fun s hs v hv => ?_,
    h.drawn.recordAll hoffers, fun owner raw args hs k hk => ?_⟩
  · rcases List.mem_append.mp hu with hu | hu
    · exact ht.next hu
    · exact h.pending u (List.mem_cons_of_mem t hu)
  · rcases List.mem_cons.mp hu with rfl | hu
    · exact ht
    · exact h.entered u hu
  · rcases List.mem_cons.mp hs with rfl | hs
    · exact .inr (List.mem_append_left rest hu)
    · exact hstill (h.onward s hs u hu)
  · rcases List.mem_cons.mp hs with rfl | hs
    · rw [enter_eq_error_iff.mpr hv] at hf
      cases hf
    · exact h.sane s hs v hv
  · rcases List.mem_cons.mp hs with heq | hs
    · exact accounted_recordAll h.drawn hoffers (hkeys owner raw args heq.symm k hk)
    · exact (h.accounted owner raw args hs k hk).recordAll h.drawn hoffers

/-- **A step of the walk covers what it comes to.** -/
theorem Covers.step (h : R.Covers captured w) (hs : R.Step w w') : R.Covers captured w' := by
  cases hs with
  | skip hv => exact h.skip hv
  | enter _ hf => exact h.enter hf

theorem Covers.run (h : R.Covers captured w) (hr : R.Runs w w') : R.Covers captured w' := by
  induction hr with
  | refl => exact h
  | tail _ hlast ih => exact ih.step hlast

/-- **When nothing is left to visit, nothing has been missed**: every type of the closure is identical to
one that has been entered. -/
theorem Covers.exists_identical {seen : List Ty} {T : Table} (h : R.Covers captured ⟨[], seen, T⟩)
    (hun : R.Unambiguous captured) (ht : R.Closure captured t) :
    ∃ s ∈ seen, t.unsited = s.unsited := by
  have hlisted : ∀ {u : Ty}, R.Closure captured u → u.listed seen = true →
      ∃ s ∈ seen, u.unsited = s.unsited := by
    intro u hu hl
    obtain ⟨s, hs, hus⟩ := List.any_eq_true.mp hl
    exact ⟨s, hs, Ty.identical_iff.mp (hun u s hu (h.entered s hs) hus)⟩
  have hdone : ∀ {u : Ty}, Walk.Awaits ⟨[], seen, T⟩ u → u.listed seen = true := by
    rintro u (hu | hu)
    · exact hu
    · cases hu
  refine closure_induct (hlisted .context (hdone h.start)) (fun t u ht ih hu => ?_) t ht
  -- the entered type that is identical to `t` leads to one that is identical to `u`
  obtain ⟨s, hs, hts⟩ := ih
  obtain ⟨u', hu', huu'⟩ := exists_next_of_unsited hts hu
  obtain ⟨r, hr, hur⟩ := hlisted ((h.entered s hs).next hu') (hdone (h.onward s hs u' hu'))
  exact ⟨r, hr, huu'.symm.trans hur⟩

end Covers

/-! ## The main result -/

/-- **A survey accounts for the whole closure of its context**, if types of the closure that agree have the
same bounds on their variables.  It fails exactly if a type of the closure applies a class that is not
declared, or to another number of arguments than it declares parameters, and the violation describes such a
type.  If it returns a table, every entry is a declared parameter and the argument that some type of the
closure has for it, and every parameter of a class that is applied in the closure is mapped, unless it lies
on a cycle of parameters that have each other for arguments in the closure. -/
theorem survey_accounts (R : Registry) (context : Ty) (next : Nat)
    (hun : R.Unambiguous (context.capture next).1) :
    let captured := (context.capture next).1
    ((∃ v, (R.survey context next).1 = .error v) ↔ ∃ t v, R.Closure captured t ∧ R.Faulty t v) ∧
      (∀ v, (R.survey context next).1 = .error v → ∃ t, R.Closure captured t ∧ R.Faulty t v) ∧
      ∀ T, (R.survey context next).1 = .ok T →
        (∀ k a, T.get? k = some a → ∃ t, R.Closure captured t ∧ R.Supplies t k a) ∧
          ∀ owner raw args, R.Closure captured (.applied owner raw args) → ∀ k ∈ R.paramKeys raw,
            T.contains k = true ∨ TransGen (Passed (R.Offers captured)) k k := by
  intro captured
  have hcovers : ∀ {w : Walk}, R.Runs ⟨[captured], [], .empty⟩ w → R.Covers captured w :=
    fun hrun => (R.covers_start captured).run hrun
  have hdescribes : ∀ v, (R.survey context next).1 = .error v →
      ∃ t, R.Closure captured t ∧ R.Faulty t v := by
    intro v hv
    obtain ⟨t, rest, seen, T, hrun, -, he⟩ := survey_eq_error_iff_runs.mp hv
    exact ⟨t, (hcovers hrun).pending t List.mem_cons_self, enter_eq_error_iff.mp he⟩
  refine ⟨⟨?_, ?_⟩, hdescribes, fun T hT => ?_⟩
  · rintro ⟨v, hv⟩
    obtain ⟨t, ht, hfault⟩ := hdescribes v hv
    exact ⟨t, v, ht, hfault⟩
  · rintro ⟨t, v, ht, hfault⟩
    cases hs : (R.survey context next).1 with
    | error v' => exact ⟨v', rfl⟩
    | ok T =>
      obtain ⟨seen, hrun⟩ := survey_eq_ok_iff_runs.mp hs
      obtain ⟨s, hseen, hts⟩ := (hcovers hrun).exists_identical hun ht
      exact absurd (hfault.of_unsited hts.symm) ((hcovers hrun).sane s hseen v)
  · obtain ⟨seen, hrun⟩ := survey_eq_ok_iff_runs.mp hT
    refine ⟨(hcovers hrun).drawn, fun owner raw args ht k hk => ?_⟩
    obtain ⟨s, hseen, hts⟩ := (hcovers hrun).exists_identical hun ht
    obtain ⟨owner', args', rfl, -⟩ := exists_applied_of_unsited hts.symm
    exact (hcovers hrun).accounted owner' raw args' hseen k hk

/-- `Tree<E>` extends `Box<E>` and implements `Node<T>`, where `Node<T>` extends `Link<T>` and `Link<U>`
extends `Node<U>`. -/
def forest : Registry :=
  ⟨[("Box", Declaration.generic "Box" ["B"]),
    ("Tree", { Declaration.generic "Tree" ["E"] with
      superclass := some (.applied none (.plain "Box") [.ofKey ⟨.type "Tree", "E"⟩])
      interfaces := [.applied none (.plain "Node") [.ofKey ⟨.type "Node", "T"⟩]] }),
    ("Node", { Declaration.generic "Node" ["T"] with
      superclass := some (.applied none (.plain "Link") [.ofKey ⟨.type "Node", "T"⟩]) }),
    ("Link", { Declaration.generic "Link" ["U"] with
      superclass := some (.applied none (.plain "Node") [.ofKey ⟨.type "Link", "U"⟩]) })]⟩

/-- The survey of `Tree<String>` in that registry maps `E` to `String` and `B` to `E`; `T` and `U` have
each other for arguments and stay out.  The survey of `Ghost<String>.Tree<String>` fails, because the
owner applies a class that is not declared. -/
theorem survey_accounts_forest :
    let E : VarKey := ⟨.type "Tree", "E"⟩
    let B : VarKey := ⟨.type "Box", "B"⟩
    let T : VarKey := ⟨.type "Node", "T"⟩
    let U : VarKey := ⟨.type "Link", "U"⟩
    let tree (owner : Option Ty) : Ty := .applied owner (.plain "Tree") [.plain "String"]
    let ghost : Ty := .applied none (.plain "Ghost") [.plain "String"]
    let table := (Table.empty.insert E (.plain "String")).insert B (.ofKey E)
    let captured := ((tree none).capture 0).1
    (forest.Unambiguous captured ∧ (forest.survey (tree none) 0).1 = .ok table ∧
      (∀ k a, table.get? k = some a → ∃ t, forest.Closure captured t ∧ forest.Supplies t k a) ∧
      TransGen (Passed (forest.Offers captured)) T T ∧
      TransGen (Passed (forest.Offers captured)) U U) ∧
      forest.Unambiguous ((tree (some ghost)).capture 0).1 ∧
      ∃ v, (forest.survey (tree (some ghost)) 0).1 = .error v := by
  intro E B T U tree ghost table captured
  have hun : forest.Unambiguous captured := unambiguous_of_horizon (by decide)
  have hghost : forest.Unambiguous ((tree (some ghost)).capture 0).1 :=
    unambiguous_of_horizon (by decide)
  have hB : (Table.empty.insert E (.plain "String")).record B (.ofKey E) = table := by
    rw [Table.record_of_key? rfl, Table.trail_of_follow?_eq_none rfl]
    rfl
  -- `T` is given itself, then `U` is given `T`, then `T` is given `U`
  have hT : table.record T (.ofKey T) = table := by
    rw [Table.record_of_key? rfl, Table.trail_of_follow?_eq_none rfl]
    rfl
  have hU : table.record U (.ofKey T) = table.insert U (.ofKey T) := by
    rw [Table.record_of_key? rfl, Table.trail_of_follow?_eq_none rfl]
    rfl
  have hdrop : (table.insert U (.ofKey T)).record T (.ofKey U) = table := by
    have hUT : (table.insert U (.ofKey T)).Links U T := rfl
    rw [Table.record_of_key? rfl, Table.trail_of_links hUT, Table.trail_of_follow?_eq_none rfl]
    rfl
  have hok : (forest.survey (tree none) 0).1 = .ok table := by
    rw [← hdrop, ← hU, ← hT, ← hB]
    exact survey_eq_ok_iff_runs.mpr ⟨_, .head (.enter (by decide) rfl) <|
      .head (.enter (by decide) rfl) <| .head (.enter (by decide) rfl) <|
      .head (.enter (by decide) rfl) <| .head (.enter (by decide) rfl) <|
      .head (.enter (by decide) rfl) <| .head (.enter (by decide) rfl) <|
      .head (.enter (by decide) rfl) <| .head (.enter (by decide) rfl) <|
      .head (.skip (by decide)) .refl⟩
  obtain ⟨-, -, hreturns⟩ := survey_accounts forest (tree none) 0 hun
  obtain ⟨hdrawn, haccounted⟩ := hreturns table hok
  have hnode : forest.Closure captured (.applied none (.plain "Node") [.ofKey T]) :=
    .supertype (.raw .context) rfl (List.mem_cons_of_mem _ List.mem_cons_self)
  have hlink : forest.Closure captured (.applied none (.plain "Link") [.ofKey T]) :=
    .supertype (.raw hnode) rfl List.mem_cons_self
  refine ⟨⟨hun, hok, hdrawn, ?_, ?_⟩, hghost, ?_⟩
  · exact (haccounted _ _ _ hnode T List.mem_cons_self).resolve_left (by decide)
  · exact (haccounted _ _ _ hlink U List.mem_cons_self).resolve_left (by decide)
  · exact (survey_accounts forest (tree (some ghost)) 0 hghost).1.mpr
      ⟨ghost, _, .owner .context, .undeclared (.inr rfl)⟩

end Registry

end Generics
