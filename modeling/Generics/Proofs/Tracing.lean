import Generics.Proofs.Rollback
import Mathlib.Data.List.Infix

/-!
# Generics.Proofs.Tracing: a trace changes nothing and shows the beginning of everything

Two unifiers that hold the same bindings give the same results and go on holding the same bindings,
whatever they record (`map_outward_history`).

What a unifier records is told by an invariant: its trace holds the decisions of all comparisons so far,
those of failed ones too, numbered from one and cut off at the limit (`Traces`).  Noting one decision
keeps the invariant (`Traces.note`), and so do a comparison and a run of comparisons.  A step takes its
number from the length of the trace that has been cut off; that this is the number of the decision is
part of the step lemma: where there is room, nothing has been cut off.
-/

namespace Generics

/-- Decisions as the steps of a trace, numbered from one. -/
def numbered (ds : List Decision) : List TraceStep := ds.mapIdx fun i d => ⟨i + 1, d⟩

section Numbered

variable (ds : List Decision)

@[simp] theorem length_numbered : (numbered ds).length = ds.length := List.length_mapIdx

theorem numbered_concat (d : Decision) :
    numbered (ds ++ [d]) = numbered ds ++ [⟨ds.length + 1, d⟩] := List.mapIdx_concat

/-- The steps of a trace that is cut off are numbered from one without gaps. -/
theorem map_number_take_numbered (n : Nat) :
    ((numbered ds).take n).map TraceStep.number = List.range' 1 ((numbered ds).take n).length := by
  refine List.ext_getElem (by simp) fun i _ _ => ?_
  simp [numbered, Nat.add_comm]

end Numbered

/-- All decisions on the pairs, in order. -/
def decisionsOn (pairs : List (Ty × Ty)) : List Decision :=
  pairs.flatMap fun p => (p.1.settle p.2).decisions

/-- The trace of comparing the pairs one after the other, were there no limit to it. -/
def fullTrace (pairs : List (Ty × Ty)) : List TraceStep := numbered (decisionsOn pairs)

namespace Unifier

variable {u v : Unifier} {ds : List Decision}

/-! ## Runs -/

/-- The results of comparing pairs one after the other, each with the unifier that it leaves. -/
def history (u : Unifier) : List (Ty × Ty) → List (Except Clash Unit × Unifier)
  | [] => []
  | p :: ps => u.unify p.1 p.2 :: history (u.unify p.1 p.2).2 ps

/-- What is to be seen of a comparison without a look at the trace: the result and the bindings. -/
def outward (reply : Except Clash Unit × Unifier) : Except Clash Unit × Table :=
  (reply.1, reply.2.bindings)

/-- After each pair the unifier is the one that comparing the pairs up to there leaves. -/
theorem map_snd_history (u : Unifier) (pairs : List (Ty × Ty)) :
    (u.history pairs).map Prod.snd = pairs.inits.tail.map u.unifyAll := by
  induction pairs generalizing u with
  | nil => rfl
  | cons p ps ih =>
    have hinits : ps.inits = [] :: ps.inits.tail := by cases ps <;> rfl
    rw [history, List.map_cons, ih, List.inits_cons, List.tail_cons, hinits, List.map_map,
      List.map_cons, List.tail_cons]
    rfl

theorem exists_of_mem_history {pairs : List (Ty × Ty)} {r : Except Clash Unit × Unifier}
    (h : r ∈ u.history pairs) : ∃ done, r.2 = u.unifyAll done := by
  have hmem : r.2 ∈ (u.history pairs).map Prod.snd := List.mem_map_of_mem h
  rw [map_snd_history] at hmem
  obtain ⟨done, -, hdone⟩ := List.mem_map.mp hmem
  exact ⟨done, hdone.symm⟩

/-! ## Results and bindings -/

/-- Result and bindings do not depend on anything but the two types and the bindings before. -/
theorem outward_unify (u : Unifier) (formal actual : Ty) :
    outward (u.unify formal actual) =
      ((formal.settle actual).outcome, (gain? formal actual).elim u.bindings u.bindings.overlay) := by
  refine Prod.ext ?_ (bindings_unify u formal actual)
  show (u.unify formal actual).1 = (formal.settle actual).outcome
  cases hc : (formal.settle actual).clash? with
  | some c => rw [unify_of_clash hc, Course.outcome, hc]
  | none => rw [unify_of_succeeds hc, Course.outcome, hc]

/-- **Unifiers with the same bindings cannot be told apart** by results and bindings. -/
theorem map_outward_history (h : u.bindings = v.bindings) (pairs : List (Ty × Ty)) :
    (u.history pairs).map outward = (v.history pairs).map outward := by
  induction pairs generalizing u v with
  | nil => rfl
  | cons p ps ih =>
    have hreply : outward (u.unify p.1 p.2) = outward (v.unify p.1 p.2) := by
      rw [outward_unify, outward_unify, h]
    rw [history, history, List.map_cons, List.map_cons, hreply, ih (congrArg Prod.snd hreply)]

/-! ## Traces -/

/-- The unifier records as told by `o`, and its trace holds the decisions `ds`, numbered from one and cut
off at the limit, if it is to hold any. -/
structure Traces (o : Tracing) (u : Unifier) (ds : List Decision) : Prop where
  tracing : u.tracing = o
  steps : u.trace.toList = if o.record then (numbered ds).take o.limit else []

section Traces

variable {o : Tracing}

theorem traces_new (o : Tracing) : Traces o { tracing := o } [] where
  tracing := rfl
  steps := by
    rw [numbered, List.mapIdx_nil, List.take_nil, ite_self]

/-- **Noting a decision** appends it to the trace where there is room, and else leaves the trace. -/
theorem Traces.note (h : Traces o u ds) (d : Decision) : Traces o (u.note d) (ds ++ [d]) := by
  obtain ⟨rfl, hsteps⟩ := h
  cases hr : u.tracing.record with
  | false =>
    have hsame : u.note d = u := if_neg fun hn => by simp [hr] at hn
    rw [hr] at hsteps
    exact ⟨by rw [hsame], by rw [hsame, hr]; exact hsteps⟩
  | true =>
    rw [hr, if_pos rfl] at hsteps
    have hsize : u.trace.size = min u.tracing.limit ds.length := by
      rw [← Array.length_toList, hsteps, List.length_take, length_numbered]
    by_cases hroom : u.trace.size < u.tracing.limit
    · have hnoted : u.note d = { u with trace := u.trace.push ⟨u.trace.size + 1, d⟩ } :=
        if_pos ⟨hr, hroom⟩
      -- nothing has been cut off, so the length of the trace counts all decisions
      have hcount : u.trace.size = ds.length := by omega
      have hall : (numbered ds).take u.tracing.limit = numbered ds :=
        List.take_of_length_le (by rw [length_numbered]; omega)
      refine ⟨by rw [hnoted], ?_⟩
      rw [hnoted, hr, if_pos rfl, Array.toList_push, hsteps, hall, hcount, numbered_concat,
        List.take_of_length_le (by simp; omega)]
    · have hsame : u.note d = u := if_neg fun hn => hroom hn.2
      refine ⟨by rw [hsame], ?_⟩
      rw [hsame, hr, if_pos rfl, hsteps, numbered_concat,
        List.take_append_of_le_length (by rw [length_numbered]; omega)]

theorem Traces.noteAll (h : Traces o u ds) (ds' : List Decision) :
    Traces o (u.noteAll ds') (ds ++ ds') := by
  induction ds' generalizing u ds with
  | nil => rwa [List.append_nil]
  | cons d ds' ih =>
    rw [← List.singleton_append, ← List.append_assoc]
    exact ih (h.note d)

/-- A comparison adds its decisions, whether it clashes or not. -/
theorem Traces.unify (h : Traces o u ds) (formal actual : Ty) :
    Traces o (u.unify formal actual).2 (ds ++ (formal.settle actual).decisions) := by
  have hnoted := h.noteAll (formal.settle actual).decisions
  cases hc : (formal.settle actual).clash? with
  | some c =>
    rw [unify_of_clash hc]
    exact hnoted
  | none =>
    rw [unify_of_succeeds hc]
    exact ⟨hnoted.tracing, hnoted.steps⟩

theorem Traces.unifyAll (h : Traces o u ds) (pairs : List (Ty × Ty)) :
    Traces o (u.unifyAll pairs) (ds ++ decisionsOn pairs) := by
  induction pairs generalizing u ds with
  | nil => rwa [decisionsOn, List.flatMap_nil, List.append_nil]
  | cons p ps ih =>
    rw [decisionsOn, List.flatMap_cons, ← List.append_assoc]
    exact ih (h.unify p.1 p.2)

/-- **What a new unifier has recorded after a run of comparisons.** -/
theorem toList_trace_unifyAll (o : Tracing) (pairs : List (Ty × Ty)) :
    (unifyAll { tracing := o } pairs).trace.toList =
      if o.record then (fullTrace pairs).take o.limit else [] :=
  ((traces_new o).unifyAll pairs).steps

end Traces

end Unifier

/-! ## The main result -/

open Unifier in
/-- **Tracing does not interfere, and a trace that is cut off is a beginning of the whole one.**  Compare
any pairs of types one after the other, be it with decisions noted and bindings made on the way and the
bindings put back after a clash.  Unifiers that differ in nothing but what they record give the same
results and hold the same bindings after each pair.  A unifier that is not to record anything has an
empty trace throughout.  One that records has after each pair the first `limit` steps of the trace of all
pairs so far, the clashing ones included, and its steps are numbered one, two, three and so on.  Where the
limit is high enough, it has recorded that trace in full. -/
theorem tracing_noninterfering (u : Unifier) (o : Tracing) (limit : Nat) (pairs : List (Ty × Ty)) :
    (∀ (v : Unifier) formal actual, v.attempt formal actual = v.unify formal actual) ∧
      (history { u with tracing := o } pairs).map outward = (u.history pairs).map outward ∧
      (∀ r ∈ history { tracing := ⟨false, limit⟩ } pairs, r.2.trace = #[]) ∧
      (history { tracing := ⟨true, limit⟩ } pairs).map (fun r => r.2.trace.toList) =
        pairs.inits.tail.map (fun done => (fullTrace done).take limit) ∧
      (∀ r ∈ history { tracing := ⟨true, limit⟩ } pairs,
        r.2.trace.toList.map TraceStep.number = List.range' 1 r.2.trace.size) ∧
      ((fullTrace pairs).length ≤ limit →
        (unifyAll { tracing := ⟨true, limit⟩ } pairs).trace.toList = fullTrace pairs) := by
  have hbindings : ({ u with tracing := o } : Unifier).bindings = u.bindings := rfl
  refine ⟨attempt_eq_unify, map_outward_history hbindings pairs, fun r hr => ?_, ?_, fun r hr => ?_,
    fun hle => ?_⟩
  · obtain ⟨done, hdone⟩ := exists_of_mem_history hr
    rw [hdone, ← Array.toList_eq_nil_iff, toList_trace_unifyAll]
    rfl
  · have hstates := congrArg (List.map fun v => v.trace.toList)
      (map_snd_history { tracing := ⟨true, limit⟩ } pairs)
    rw [List.map_map, List.map_map] at hstates
    refine hstates.trans (List.map_congr_left fun done _ => ?_)
    exact toList_trace_unifyAll ⟨true, limit⟩ done
  · obtain ⟨done, hdone⟩ := exists_of_mem_history hr
    rw [hdone, ← Array.length_toList, toList_trace_unifyAll]
    exact map_number_take_numbered (decisionsOn done) limit
  · rw [toList_trace_unifyAll]
    exact List.take_of_length_le hle

/-- `Pair<A, String>` with `Pair<Integer, String>`, then with `Pair<A, Integer>`, and `A` with `Float`. -/
def threePairs : List (Ty × Ty) :=
  let A : Ty := .ofKey ⟨.type "Pair", "A"⟩
  let pair (s t : Ty) : Ty := .applied none (.plain "Pair") [s, t]
  [(pair A (.plain "String"), pair (.plain "Integer") (.plain "String")),
    (pair A (.plain "String"), pair A (.plain "Integer")), (A, .plain "Float")]

open Unifier in
/-- The three comparisons take seven steps, and the second of them clashes at its end.  With a limit of
four it fills the trace; with a limit of seven all is recorded, the clash in the middle. -/
theorem tracing_noninterfering_threePairs :
    let untraced := history { tracing := ⟨false, 4⟩ } threePairs
    let traced := history { tracing := ⟨true, 4⟩ } threePairs
    untraced.map outward = traced.map outward ∧ (∀ r ∈ untraced, r.2.trace = #[]) ∧
      traced.map (fun r => r.2.trace.size) = [3, 4, 4] ∧
      traced.map (fun r => r.2.trace.toList) =
        threePairs.inits.tail.map (fun done => (fullTrace done).take 4) ∧
      (fullTrace threePairs).map (fun s => s.decision.action) =
        [.decompose, .bind, .identity, .decompose, .identity, .error, .bind] ∧
      (unifyAll { tracing := ⟨true, 7⟩ } threePairs).trace.toList = fullTrace threePairs := by
  intro untraced traced
  obtain ⟨-, hsame, hnone, hcut, -, -⟩ :=
    tracing_noninterfering { tracing := ⟨true, 4⟩ } ⟨false, 4⟩ 4 threePairs
  obtain ⟨-, -, -, -, -, hall⟩ := tracing_noninterfering {} {} 7 threePairs
  exact ⟨hsame, hnone, by decide, hcut, by decide, hall (by decide)⟩

end Generics
