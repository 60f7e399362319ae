import Generics.Proofs.Rollback
import Generics.Report

/-!
# Generics.Proofs.Outcomes: what a trace tells about the outcome

A comparison that fails does so at one pair of types, however deep inside owners, arguments, components and
bounds, and nothing is decided after that.  So the decisions of a course are none of them errors, but for
one at its end if a clash has ended it (`Course.Faithful`).  This holds of single decisions and is kept by
doing one course after the other (`Course.Faithful.andThen`), hence it holds of every comparison
(`faithful_settle`).  A trace that is not cut off holds these decisions, so the outcome can be read off it.

The variables that a comparison binds are met in the order in which they stand in the formal type, each
occurrence at most once (`boundKeys_settle_sublist`).  So there are as many bindings as steps that bind,
unless a variable is bound again.

A measurement counts the steps of a trace by their kinds, and leaves out the kinds that do not occur; no step
is lost in this way (`total_tally`).
-/

namespace Generics

/-! ## Along the variables of the formal type -/

namespace Ty

section Along

variable {P : List VarKey → Course → Prop} (idle : ∀ ks, P ks .done)

include idle

theorem settleOwners_along {owner owner' : Option Ty}
    (h : ∀ f ∈ owner, ∀ a ∈ owner', P f.vars (f.settle a)) :
    P (owner.toList.flatMap vars) (settleOwners owner owner') := by
  cases owner with
  | none => exact idle _
  | some f =>
    cases owner' with
    | none => exact idle _
    | some a =>
      rw [Option.toList_some, List.flatMap_singleton, settleOwners]
      exact h f rfl a rfl

variable (andThen : ∀ ks ks' c next, P ks c → P ks' (next ()) → P (ks ++ ks') (Course.andThen c next))

include andThen

theorem settleEach_along {formals actuals : List Ty}
    (h : ∀ p ∈ formals.zip actuals, P p.1.vars (p.1.settle p.2)) :
    P (formals.flatMap vars) (settleEach formals actuals) := by
  induction formals generalizing actuals with
  | nil => exact idle _
  | cons f fs ih =>
    cases actuals with
    | nil => exact idle _
    | cons a as =>
      rw [List.zip_cons_cons, List.forall_mem_cons] at h
      rw [List.flatMap_cons, settleEach]
      exact andThen _ _ _ _ h.1 (ih h.2)

/-- **Induction along the variables of the formal type.**  What holds of single decisions, and is kept by
doing one course after the other while the variables are listed one after the other, holds of every
comparison and the variables of its formal type. -/
theorem settle_along
    (settled : ∀ ks formal actual verdict, verdict.action ≠ .bind → verdict.action ≠ .error →
      P ks (Course.settled formal actual verdict))
    (binds : ∀ k formal actual, P [k] (Course.settled formal actual (.bind k)))
    (clashed : ∀ ks formal actual reason, P ks (Course.clashed formal actual reason))
    (formal actual : Ty) : P formal.vars (formal.settle actual) := by
  -- a decision to go on to the parts comes before all variables
  have parts : ∀ ks formal actual verdict next, verdict.action = .decompose → P ks (next ()) →
      P ks ((Course.settled formal actual verdict).andThen next) := by
    intro ks formal actual verdict next hv hnext
    have hdecision : P [] (Course.settled formal actual verdict) :=
      settled _ _ _ _ (by rw [hv]; decide) (by rw [hv]; decide)
    exact andThen [] ks _ _ hdecision hnext
  induction formal, actual using settle_induct with
  | same formal actual ha =>
    rw [settle_of_agrees ha]
    exact settled _ _ _ _ (by decide) (by decide)
  | binds k bounds actual ha =>
    rw [settle_var ha]
    exact binds k _ _
  | wildcards site upper lower site' upper' lower' ha hu hl =>
    by_cases hn : upper.length = upper'.length ∧ lower.length = lower'.length
    · rw [settle_wildcards ha hn.1 hn.2, vars_wildcard]
      refine parts _ _ _ _ _ rfl (andThen _ _ _ _ ?_ ?_)
      · exact settleEach_along idle andThen hu
      · exact settleEach_along idle andThen hl
    · rw [settle_wildcards_count (by omega)]
      exact clashed ..
  | takes site upper lower actual hw =>
    rw [settle_wildcard_takes hw]
    exact settled _ _ _ _ (by decide) (by decide)
  | satisfied formal actual hf hk ha =>
    rw [settle_wildcard_satisfied hf hk ha]
    exact settled _ _ _ _ (by decide) (by decide)
  | application owner raw args owner' raw' args' ha ho has =>
    rw [settle_applied ha, vars_applied]
    refine andThen _ _ _ _ (settleOwners_along idle ho) ?_
    split
    · exact clashed ..
    · split
      · exact clashed ..
      · exact parts _ _ _ _ _ rfl (settleEach_along idle andThen has)
  | notApplied owner raw args actual hw ha =>
    rw [settle_applied_other hw ha]
    exact clashed ..
  | arrays c actual d ha hw hd ih =>
    rw [settle_array ha hw hd, vars_array]
    exact parts _ _ _ _ _ rfl ih
  | notArray c actual hw hd =>
    rw [settle_array_other hw hd]
    exact clashed ..
  | otherType c actual ha hw =>
    rw [settle_nominal ha hw]
    exact clashed ..

end Along

end Ty

/-! ## Errors end a course -/

/-- The decision that a clash is noted by. -/
def Clash.decision (c : Clash) : Decision := ⟨c.formal, c.actual, .clash c.reason⟩

/-- The step is an error and tells the message of the clash and the texts of its two types. -/
structure TraceStep.Reports (s : TraceStep) (c : Clash) : Prop where
  error : s.decision.action = .error
  detail : s.decision.detail = c.message
  formal : s.decision.formal.render = c.formal.render
  actual : s.decision.actual.render = c.actual.render

theorem TraceStep.Reports.of_decision {s : TraceStep} {c : Clash} (h : s.decision = c.decision) :
    s.Reports c := by
  refine ⟨?_, ?_, ?_, ?_⟩ <;> rw [h] <;> rfl

namespace Course

variable {c : Course} {next : Unit → Course}

/-- No decision of the course is an error, but for the last one if a clash has ended the course. -/
def Faithful (c : Course) : Prop :=
  ∃ before : List Decision, (∀ d ∈ before, d.action ≠ .error) ∧
    c.decisions = before ++ c.clash?.toList.map Clash.decision

/-- **One course after the other**: if the first ends in a clash, that is the end, and if not, it holds no
error. -/
theorem Faithful.andThen (hc : c.Faithful) (hnext : (next ()).Faithful) :
    (c.andThen next).Faithful := by
  cases hclash : c.clash? with
  | some e =>
    have hfirst : c.andThen next = c := by rw [Course.andThen, hclash]
    rwa [hfirst]
  | none =>
    obtain ⟨before, hbefore, hds⟩ := hc
    obtain ⟨before', hbefore', hds'⟩ := hnext
    rw [hclash, Option.toList_none, List.map_nil, List.append_nil] at hds
    rw [andThen_of_succeeds hclash]
    refine ⟨before ++ before', fun d hd => ?_, ?_⟩
    · exact (List.mem_append.mp hd).elim (hbefore d) (hbefore' d)
    · rw [hds, hds', List.append_assoc]

/-- **A comparison decides on an error only to end with it.** -/
theorem faithful_settle (formal actual : Ty) : (formal.settle actual).Faithful := by
  refine Ty.settle_along (P := fun _ c => c.Faithful) ?_ ?_ ?_ ?_ ?_ formal actual
  · exact fun _ => ⟨[], by simp, rfl⟩
  · exact fun _ _ _ _ hc hnext => hc.andThen hnext
  · exact fun _ f a v _ hv => ⟨[⟨f, a, v⟩], List.forall_mem_singleton.mpr hv, rfl⟩
  · exact fun k f a => ⟨[⟨f, a, .bind k⟩], List.forall_mem_singleton.mpr nofun, rfl⟩
  · exact fun _ _ _ _ => ⟨[], by simp, rfl⟩

/-- There is an error among the decisions exactly if a clash has ended the course. -/
theorem Faithful.exists_error_iff (hc : c.Faithful) :
    (∃ d ∈ c.decisions, d.action = .error) ↔ ∃ e, c.clash? = some e := by
  obtain ⟨before, hbefore, hds⟩ := hc
  rw [hds]
  cases c.clash? with
  | none =>
    refine iff_of_false ?_ nofun
    rintro ⟨d, hd, herror⟩
    rw [Option.toList_none, List.map_nil, List.append_nil] at hd
    exact hbefore d hd herror
  | some e =>
    refine iff_of_true ⟨e.decision, ?_, rfl⟩ ⟨e, rfl⟩
    exact List.mem_append_right before List.mem_cons_self

/-! ## Variables that are bound -/

/-- The variables that the course binds, in order. -/
def boundKeys (c : Course) : List VarKey := c.bindings.map Prod.fst

theorem boundKeys_andThen_sublist {ks ks' : List VarKey} (hc : c.boundKeys.Sublist ks)
    (hnext : (next ()).boundKeys.Sublist ks') : (c.andThen next).boundKeys.Sublist (ks ++ ks') := by
  cases hclash : c.clash? with
  | some e =>
    have hfirst : c.andThen next = c := by rw [andThen, hclash]
    rw [hfirst]
    exact hc.trans (List.sublist_append_left ks ks')
  | none =>
    rw [boundKeys, bindings_andThen hclash, List.map_append]
    exact hc.append hnext

/-- **Every occurrence of a variable in the formal type is bound at most once**, and in its turn. -/
theorem boundKeys_settle_sublist (formal actual : Ty) :
    (formal.settle actual).boundKeys.Sublist formal.vars := by
  refine Ty.settle_along (P := fun ks c => c.boundKeys.Sublist ks) ?_ ?_ ?_ ?_ ?_ formal actual
  · exact fun ks => List.nil_sublist ks
  · exact fun _ _ _ _ hc hnext => boundKeys_andThen_sublist hc hnext
  · intro ks f a v hv _
    rw [boundKeys, bindings_settled fun k hk => hv (by rw [hk]; rfl)]
    exact List.nil_sublist ks
  · exact fun k _ _ => List.Sublist.refl [k]
  · exact fun ks _ _ _ => List.nil_sublist ks

/-- There are as many bindings as decisions that bind. -/
theorem length_bindings (c : Course) :
    c.bindings.length = c.decisions.countP fun d => decide (d.action = .bind) := by
  have hbinds : ∀ d : Decision, d.binding?.isSome = decide (d.action = .bind) := by
    rintro ⟨formal, actual, verdict⟩
    cases verdict <;> rfl
  rw [bindings, List.length_filterMap_eq_countP]
  simp only [hbinds]

end Course

/-! ## Traces that are not cut off -/

namespace Unifier

variable {u : Unifier} {ds : List Decision}

/-- The unifier records, and its limit leaves room for the decisions. -/
structure HasRoom (u : Unifier) (ds : List Decision) : Prop where
  records : u.tracing.record = true
  room : u.trace.size + ds.length ≤ u.tracing.limit

theorem note_of_hasRoom {d : Decision} (h : u.HasRoom (d :: ds)) :
    u.note d = { u with trace := u.trace.push ⟨u.trace.size + 1, d⟩ } := by
  have hroom := h.room
  rw [List.length_cons] at hroom
  exact if_pos ⟨h.records, by omega⟩

theorem HasRoom.note {d : Decision} (h : u.HasRoom (d :: ds)) : (u.note d).HasRoom ds := by
  have hroom := h.room
  rw [List.length_cons] at hroom
  rw [note_of_hasRoom h]
  refine ⟨h.records, ?_⟩
  show (u.trace.push _).size + ds.length ≤ u.tracing.limit
  rw [Array.size_push]
  omega

theorem exists_steps_noteAll (h : u.HasRoom ds) :
    ∃ steps, (u.noteAll ds).trace.toList = u.trace.toList ++ steps ∧
      steps.map TraceStep.decision = ds := by
  induction ds generalizing u with
  | nil => exact ⟨[], (List.append_nil _).symm, rfl⟩
  | cons d ds ih =>
    obtain ⟨steps, htrace, hds⟩ := ih h.note
    refine ⟨⟨u.trace.size + 1, d⟩ :: steps, ?_, by rw [List.map_cons, hds]⟩
    show ((u.note d).noteAll ds).trace.toList = _
    rw [htrace, note_of_hasRoom h, Array.toList_push, List.append_assoc, List.singleton_append]

theorem trace_unify (u : Unifier) (formal actual : Ty) :
    (u.unify formal actual).2.trace = (u.noteAll (formal.settle actual).decisions).trace := by
  cases hc : (formal.settle actual).clash? with
  | some c => rw [unify_of_clash hc]
  | none => rw [unify_of_succeeds hc]; rfl

/-- **The steps that a comparison adds to a trace with room for them are its decisions.** -/
theorem exists_steps_unify {formal actual : Ty} (h : u.HasRoom (formal.settle actual).decisions) :
    ∃ steps, (u.unify formal actual).2.trace.toList = u.trace.toList ++ steps ∧
      steps.map TraceStep.decision = (formal.settle actual).decisions := by
  rw [trace_unify]
  exact exists_steps_noteAll h

theorem unify_eq_error_iff {formal actual : Ty} {c : Clash} :
    (u.unify formal actual).1 = .error c ↔ (formal.settle actual).clash? = some c := by
  cases hc : (formal.settle actual).clash? with
  | some c' => rw [unify_of_clash hc, Except.error.injEq, Option.some.injEq]
  | none => rw [unify_of_succeeds hc]; exact ⟨nofun, nofun⟩

theorem unify_eq_ok_iff {formal actual : Ty} :
    (u.unify formal actual).1 = .ok () ↔ (formal.settle actual).Succeeds := by
  unfold Course.Succeeds
  cases hc : (formal.settle actual).clash? with
  | some c => rw [unify_of_clash hc]; exact ⟨nofun, nofun⟩
  | none => rw [unify_of_succeeds hc]; exact ⟨fun _ => rfl, fun _ => rfl⟩

end Unifier

/-! ## Measurements -/

namespace Measurement

/-- How often the measurement says that the action occurs. -/
def count (m : Measurement) (a : Action) : Nat := (m.actions.lookup a).getD 0

/-- The sum of the numbers of an account. -/
def total (es : List (Action × Nat)) : Nat := es.foldr (fun e n => e.2 + n) 0

/-- The measurement is about the steps of the trace: it says how many they are, how many there are of each
kind, and how many bind a variable, and the numbers of all kinds sum up to the number of the steps. -/
structure Measures (m : Measurement) (trace : List TraceStep) : Prop where
  steps : m.steps = trace.length
  count : ∀ a, m.count a = trace.countP fun s => decide (s.decision.action = a)
  total : total m.actions = m.steps
  bindings : m.count .bind = m.bindings

section Tally

variable {a : Action} {actions : List Action}

/-- Where nothing is counted, an entry may as well be left out. -/
theorem total_filter (es : List (Action × Nat)) :
    total (es.filter fun e => decide (0 < e.2)) = total es := by
  induction es with
  | nil => rfl
  | cons e es ih =>
    show _ = e.2 + total es
    by_cases he : 0 < e.2
    · rw [List.filter_cons_of_pos (by simpa using he)]
      show e.2 + total _ = _
      rw [ih]
    · rw [List.filter_cons_of_neg (by simpa using he), ih]
      omega

/-- Every action is counted rightly, also where it is left out. -/
theorem getD_lookup_tally (actions : List Action) (a : Action) :
    ((tally actions).lookup a).getD 0 = actions.count a := by
  cases hl : (tally actions).lookup a with
  | some n =>
    obtain ⟨es, fs, heq, -⟩ := List.lookup_eq_some_iff.mp hl
    have hmem : (a, n) ∈ tally actions := by
      rw [heq]
      exact List.mem_append_right es List.mem_cons_self
    obtain ⟨b, -, hb⟩ := List.mem_map.mp (List.mem_filter.mp hmem).1
    cases hb
    rfl
  | none =>
    have hzero : ¬ 0 < actions.count a := by
      intro hpos
      have hall : a ∈ Action.all := by cases a <;> decide
      have hmem : (a, actions.count a) ∈ tally actions :=
        List.mem_filter.mpr ⟨List.mem_map_of_mem hall, decide_eq_true hpos⟩
      simpa using List.lookup_eq_none_iff.mp hl _ hmem
    exact (Nat.eq_zero_of_not_pos hzero).symm

/-- **Every action is counted once.** -/
theorem total_tally (actions : List Action) : total (tally actions) = actions.length := by
  have hall : ∀ as : List Action, total (Action.all.map fun a => (a, as.count a)) = as.length := by
    intro as
    induction as with
    | nil => rfl
    | cons a as ih =>
      simp only [total, Action.all, List.map_cons, List.map_nil, List.foldr_cons, List.foldr_nil,
        List.count_cons, List.length_cons] at ih ⊢
      cases a <;> simp <;> omega
  rw [tally, total_filter, hall]

end Tally

/-- **A kernel whose types fit together is measured by the trace of a new unifier.** -/
theorem exists_measures {name : String} {formal actual : Ty}
    (h : (formal.settle actual).Succeeds) :
    ∃ m, ofKernel name formal actual = .ok m ∧
      m.Measures (Unifier.unify { tracing } formal actual).2.trace.toList := by
  let steps := (Unifier.unify { tracing } formal actual).2.trace.toList
  let actions := steps.map fun s => s.decision.action
  have hok : (Unifier.unify { tracing } formal actual).1 = .ok () := Unifier.unify_eq_ok_iff.mpr h
  have hcount : ∀ a, actions.count a = steps.countP fun s => decide (s.decision.action = a) := by
    intro a
    rw [List.count, List.countP_map]
    rfl
  refine ⟨{ name, steps := steps.length, bindings := actions.count .bind, actions := tally actions },
    ?_, ⟨rfl, fun a => ?_, ?_, ?_⟩⟩
  · unfold ofKernel
    rw [show Unifier.unify { tracing } formal actual =
      (.ok (), (Unifier.unify { tracing } formal actual).2) from Prod.ext hok rfl]
    rfl
  · exact (getD_lookup_tally actions a).trans (hcount a)
  · exact (total_tally actions).trans (List.length_map _)
  · exact getD_lookup_tally actions .bind

end Measurement

/-! ## The main result -/

/-- **The trace tells the outcome.**  Let a unifier record and its limit leave room for all decisions on two
types.  The steps that comparing the types adds to its trace hold an error exactly if the comparison fails.
Then it is the last step, and the only error among them; it tells the message of the clash that is returned,
and the texts of the two types that the clash names.  If the comparison succeeds and the unifier held no
bindings, it holds at most as many afterwards as there are steps that bind, and just as many if no variable
occurs twice in the formal type.  A measurement of the two types then counts the steps of the trace. -/
theorem trace_tells_outcome (u : Unifier) (formal actual : Ty) (name : String)
    (hroom : u.HasRoom (formal.settle actual).decisions) :
    let after := u.unify formal actual
    ∃ steps, after.2.trace.toList = u.trace.toList ++ steps ∧
      ((∃ s ∈ steps, s.decision.action = .error) ↔ ∃ c, after.1 = .error c) ∧
      (∀ c, after.1 = .error c → ∃ before last, steps = before ++ [last] ∧
        (∀ s ∈ before, s.decision.action ≠ .error) ∧ last.Reports c) ∧
      (after.1 = .ok () → u.bindings = .empty →
        after.2.bindings.size ≤ steps.countP (fun s => decide (s.decision.action = .bind)) ∧
        (formal.vars.Nodup →
          after.2.bindings.size = steps.countP fun s => decide (s.decision.action = .bind))) ∧
      (after.1 = .ok () → ∃ m, Measurement.ofKernel name formal actual = .ok m ∧
        m.Measures (Unifier.unify { tracing := Measurement.tracing } formal actual).2.trace.toList) := by
  intro after
  have hfaithful : (formal.settle actual).Faithful := Course.faithful_settle formal actual
  obtain ⟨steps, htrace, hsteps⟩ := Unifier.exists_steps_unify hroom
  refine ⟨steps, htrace, ?_, fun c hc => ?_, fun hok hempty => ?_, fun hok => ?_⟩
  · have herror := hfaithful.exists_error_iff
    rw [← hsteps] at herror
    simp only [after, Unifier.unify_eq_error_iff, ← herror, List.mem_map]
    constructor
    · rintro ⟨s, hs, hs'⟩
      exact ⟨s.decision, ⟨s, hs, rfl⟩, hs'⟩
    · rintro ⟨_, ⟨s, hs, rfl⟩, hs'⟩
      exact ⟨s, hs, hs'⟩
  · obtain ⟨before, hbefore, hds⟩ := hfaithful
    rw [Unifier.unify_eq_error_iff.mp hc, ← hsteps] at hds
    obtain ⟨first, rest, rfl, hfirst, hrest⟩ := List.map_eq_append_iff.mp hds
    obtain ⟨last, rfl, hlast⟩ := List.map_eq_singleton_iff.mp hrest
    refine ⟨first, last, rfl, ?_, ?_⟩
    · rw [← hfirst] at hbefore
      exact fun s hs => hbefore s.decision (List.mem_map_of_mem hs)
    · exact .of_decision hlast
  · have hsucceeds := Unifier.unify_eq_ok_iff.mp hok
    have hcount : (formal.settle actual).bindings.length =
        steps.countP fun s => decide (s.decision.action = .bind) := by
      rw [Course.length_bindings, ← hsteps, List.countP_map]
      rfl
    have hbindings : after.2.bindings = Table.empty.insertAll (formal.settle actual).bindings := by
      simp only [after, Unifier.unify_of_succeeds hsucceeds, Unifier.bindings_rebind, hempty]
    rw [hbindings, ← hcount]
    refine ⟨Table.size_insertAll_le _, fun hnd => Table.size_insertAll_of_nodup ?_⟩
    exact (Course.boundKeys_settle_sublist formal actual).nodup hnd
  · exact Measurement.exists_measures (Unifier.unify_eq_ok_iff.mp hok)

/-- Whoever has compared `Map<K, V>` with `Map<String, Float>`, recording up to sixteen steps. -/
def compared : Unifier :=
  let map (s t : Ty) : Ty := .applied none (.plain "Map") [s, t]
  (Unifier.unify { tracing := ⟨true, 16⟩ } (map (.ofKey ⟨.type "Map", "K"⟩) (.ofKey ⟨.type "Map", "V"⟩))
    (map (.plain "String") (.plain "Float"))).2

/-- `Map<K, List<K>>` against `Map<Short, Set<Short>>` adds three steps to a trace of three: the pair is taken
apart, `K` is bound, and the lists clash.  `Map<K, Map<K, V>>` binds `K` twice, so a new unifier has three steps
that bind and two bindings; with `Map<K, V>` it has two of both. -/
theorem trace_tells_outcome_compared :
    let K : Ty := .ofKey ⟨.type "Map", "K"⟩
    let V : Ty := .ofKey ⟨.type "Map", "V"⟩
    let short : Ty := .plain "Short"
    let map (s t : Ty) : Ty := .applied none (.plain "Map") [s, t]
    let list (t : Ty) : Ty := .applied none (.plain "List") [t]
    let set (t : Ty) : Ty := .applied none (.plain "Set") [t]
    let c : Clash := ⟨list K, set short, .differentClass (.plain "List") (.plain "Set")⟩
    let fails := compared.unify (map K (list K)) (map short (set short))
    let new : Unifier := { tracing := ⟨true, 5⟩ }
    let nested := map short (map (.plain "Integer") short)
    let again := new.unify (map K (map K V)) nested
    let once := new.unify (map K V) (map short short)
    let binds (u : Unifier) := u.trace.toList.countP fun s => decide (s.decision.action = .bind)
    (compared.HasRoom ((map K (list K)).settle (map short (set short))).decisions ∧
      fails.1 = .error c ∧ ∃ before last,
        fails.2.trace.toList = compared.trace.toList ++ (before ++ [last]) ∧
        (∀ s ∈ before, s.decision.action ≠ .error) ∧ last.Reports c) ∧
      (new.HasRoom ((map K (map K V)).settle nested).decisions ∧ again.1 = .ok () ∧
        again.2.bindings.size = 2 ∧ binds again.2 = 3 ∧ again.2.bindings.size ≤ binds again.2) ∧
      (new.HasRoom ((map K V).settle (map short short)).decisions ∧ once.1 = .ok () ∧
        (map K V).vars.Nodup ∧ once.2.bindings.size = binds once.2 ∧
        ∃ m, Measurement.ofKernel "map" (map K V) (map short short) = .ok m ∧
          Measurement.total m.actions = m.steps ∧ m.count .bind = m.bindings) := by
  intro K V short map list set c fails new nested again once binds
  have hroom : compared.HasRoom ((map K (list K)).settle (map short (set short))).decisions :=
    ⟨rfl, by decide⟩
  have hroom' : new.HasRoom ((map K (map K V)).settle nested).decisions := ⟨rfl, by decide⟩
  have hroom'' : new.HasRoom ((map K V).settle (map short short)).decisions := ⟨rfl, by decide⟩
  have hfails : fails.1 = .error c := Unifier.unify_eq_error_iff.mpr rfl
  have hagain : again.1 = .ok () := Unifier.unify_eq_ok_iff.mpr rfl
  have honce : once.1 = .ok () := Unifier.unify_eq_ok_iff.mpr rfl
  obtain ⟨steps, htrace, -, herror, -, -⟩ := trace_tells_outcome compared _ _ "lists" hroom
  obtain ⟨before, last, rfl, hbefore, hlast⟩ := herror c hfails
  obtain ⟨steps', htrace', -, -, hsize, -⟩ := trace_tells_outcome new _ _ "maps" hroom'
  obtain ⟨steps'', htrace'', -, -, hsize', hmeasured⟩ := trace_tells_outcome new _ _ "map" hroom''
  obtain ⟨m, hm, hmeasures⟩ := hmeasured honce
  have hnodup : (map K V).vars.Nodup := by decide
  have hle := (hsize hagain rfl).1
  have heq := (hsize' honce rfl).2 hnodup
  rw [← List.nil_append steps', ← htrace'] at hle
  rw [← List.nil_append steps'', ← htrace''] at heq
  refine ⟨⟨hroom, hfails, before, last, htrace, hbefore, hlast⟩,
    ⟨hroom', hagain, by decide, by decide, hle⟩, ?_⟩
  exact ⟨hroom'', honce, hnodup, heq, m, hm, hmeasures.total, hmeasures.bindings⟩

end Generics
