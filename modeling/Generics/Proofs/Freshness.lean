import Generics.Proofs.Closure
import Generics.Proofs.Idempotence
import Generics.Proofs.Numbering

/-!
# Generics.Proofs.Freshness: variables of different calls

Capturing, surveying a context and tabling a context all start by capturing a type, and take the numbers
for its variables from one counter.  In a run of such calls every call uses up as many numbers as its
type has different open wildcards, whether it then fails or not (`CaptureCall.after_eq`), and the
intervals of numbers follow one another (`le_of_mem_turns`).  So a variable is never handed out twice
(`capture_fresh`): the keys differ in their numbers, even if the bounds read the same.

What a call returns comes of the captured type (`CaptureCall.yields_captured`).  The variables in it are
those that the call has put in the place of wildcards, and those that it was given with its type and
with the declarations (`CaptureCall.mem_returned`).
-/

namespace Generics

/-! ## Variables that are given and variables that are put in -/

namespace Ty

variable {t c u : Ty} {k : VarKey}

/-- Building an array adds no variables. -/
theorem mem_allVars_of_arrayOf (hk : k ∈ t.arrayOf.allVars) : k ∈ t.allVars := by
  induction t using arrayOf_induct with
  | nominal c => exact hk
  | lower site upper lower ih =>
    rcases mem_allVars_wildcard.mp hk with ⟨b, hb, hk⟩ | ⟨b, hb, hk⟩
    · rw [List.mem_singleton.mp hb] at hk
      cases hk
    · rw [List.mem_singleton.mp hb] at hk
      exact mem_allVars_wildcard.mpr (.inr ⟨lower, List.mem_cons_self, ih hk⟩)
  | upper site upper ih =>
    rcases mem_allVars_wildcard.mp hk with ⟨b, hb, hk⟩ | ⟨b, hb, hk⟩
    · rw [List.mem_singleton.mp hb] at hk
      exact mem_allVars_wildcard.mpr (.inl ⟨upper, List.mem_cons_self, ih hk⟩)
    · cases hb
  | other t hf => rwa [arrayOf_of_not_folds hf] at hk

/-- The variables in the bounds of an open wildcard are variables of the type. -/
theorem mem_allVars_of_opening {o : Opening} (ho : o ∈ t.openings) (hu : u ∈ o.upper)
    (hk : k ∈ u.allVars) : k ∈ t.allVars := by
  induction t using induct with
  | nominal c => cases ho
  | applied owner raw args iho iha =>
    rw [mem_allVars_applied]
    rcases mem_openings_applied.mp ho with ⟨s, hs, ho⟩ | ⟨s, hs, ho⟩
    · exact .inl ⟨s, hs, iho s hs ho⟩
    · exact .inr ⟨s, hs, iha s hs ho⟩
  | array c ih => exact ih ho
  | wildcard site upper lower _ _ =>
    by_cases hopen : opens upper lower = true
    · rw [openings_wildcard site hopen, List.mem_singleton] at ho
      subst ho
      exact mem_allVars_wildcard.mpr (.inl ⟨u, hu, hk⟩)
    · rw [openings_kept site hopen] at ho
      cases ho
  | var j bounds _ => cases ho

/-- A variable of the type after the exchange was there before, or comes with what was put in. -/
theorem Exchanged.mem_allVars (h : Exchanged t c) (hk : k ∈ c.allVars) :
    k ∈ t.allVars ∨ ∃ e ∈ exchanges t c, k ∈ e.2.allVars := by
  induction h with
  | nominal _ => exact .inl hk
  | @applied os raw ps _ _ iho iha =>
    rcases mem_allVars_applied.mp hk with ⟨s, hs, hk⟩ | ⟨s, hs, hk⟩
    · obtain ⟨p, hp, rfl⟩ := Option.map_eq_some_iff.mp hs
      refine (iho p hp hk).imp (fun hk => ?_) fun ⟨e, he, hk⟩ => ?_
      · exact mem_allVars_applied.mpr (.inl ⟨p.1, Option.map_eq_some_iff.mpr ⟨p, hp, rfl⟩, hk⟩)
      · exact ⟨e, mem_exchanges_applied.mpr (.inl ⟨p, hp, he⟩), hk⟩
    · obtain ⟨p, hp, rfl⟩ := List.mem_map.mp hs
      refine (iha p hp hk).imp (fun hk => ?_) fun ⟨e, he, hk⟩ => ?_
      · exact mem_allVars_applied.mpr (.inr ⟨p.1, List.mem_map_of_mem hp, hk⟩)
      · exact ⟨e, mem_exchanges_applied.mpr (.inr ⟨p, hp, he⟩), hk⟩
  | array h ih =>
    rw [h.exchanges_arrayOf]
    exact ih (mem_allVars_of_arrayOf hk)
  | opened site h j bounds =>
    rw [exchanges_wildcard site h]
    exact .inr ⟨_, List.mem_cons_self, hk⟩
  | kept _ _ => exact .inl hk
  | var _ _ => exact .inl hk

/-- **The variables of a captured type** are those of the type and those in the place of its open
wildcards. -/
theorem mem_allVars_capture {next : Nat} (hk : k ∈ (t.capture next).1.allVars) :
    k ∈ t.allVars ∨ ∃ e ∈ exchanges t (t.capture next).1, e.2.key? = some k := by
  rcases (exchanged_capture t next).mem_allVars hk with hk | ⟨e, he, hk⟩
  · exact .inl hk
  · obtain ⟨c, hc, hstand, -⟩ := standIn_capture he
    rw [hstand] at hk
    rcases mem_allVars_var.mp hk with rfl | ⟨u, hu, hk⟩
    · exact .inr ⟨e, he, by rw [hstand]; rfl⟩
    · -- the bounds of the variable are those of an open wildcard of the type
      exact .inl (mem_allVars_of_opening (opening_mem_openings hc) hu hk)

end Ty

/-- The variables in the entries of a table, keys and values. -/
def Table.allVars (T : Table) : List VarKey := T.entries.flatMap fun e => e.1 :: e.2.allVars

namespace Registry

variable {R : Registry} {c t : Ty} {k : VarKey}

section Defs

variable (R)

/-- The variables in the declarations: the parameters, and the variables of the supertypes. -/
def allVars : List VarKey :=
  R.declarations.flatMap fun e => e.2.params.map Param.key ++ Ty.allVarsEach e.2.supertypes

/-- How the walk from a captured context ends: with a table when nothing is left to visit, or with the
violation of the first type that cannot be entered. -/
def Ends (c : Ty) : Except Violation Table → Prop
  | .ok T => ∃ seen, R.Runs ⟨[c], [], .empty⟩ ⟨[], seen, T⟩
  | .error v => ∃ t rest seen T, R.Runs ⟨[c], [], .empty⟩ ⟨t :: rest, seen, T⟩ ∧
      ¬ t.listed seen = true ∧ R.enter T t = .error v

end Defs

/-- The walk from a captured context ends in exactly one way. -/
theorem parameterTable_eq_iff {r : Except Violation Table} :
    R.parameterTable c = r ↔ R.Ends c r := by
  cases r with
  | ok T => exact walk_eq_ok_iff
  | error v => exact walk_eq_error_iff

theorem mem_declarations_of_find? {n : Nominal} {d : Declaration} (h : R.find? n = some d) :
    (n.name, d) ∈ R.declarations := by
  obtain ⟨es, fs, heq, -⟩ := List.lookup_eq_some_iff.mp (find?_eq_some_iff.mp h).2
  rw [heq]
  exact List.mem_append_right es List.mem_cons_self

theorem mem_allVars_of_paramKeys {n : Nominal} (hk : k ∈ R.paramKeys n) : k ∈ R.allVars := by
  unfold paramKeys at hk
  cases hd : R.find? n with
  | none =>
    rw [hd] at hk
    cases hk
  | some d =>
    rw [hd] at hk
    exact List.mem_flatMap.mpr ⟨_, mem_declarations_of_find? hd, List.mem_append_left _ hk⟩

theorem mem_allVars_of_supertypes {n : Nominal} (ht : t ∈ R.supertypes n) (hk : k ∈ t.allVars) :
    k ∈ R.allVars := by
  obtain ⟨d, hd, ht⟩ := mem_supertypes_iff.mp ht
  refine List.mem_flatMap.mpr ⟨_, mem_declarations_of_find? hd, List.mem_append_right _ ?_⟩
  exact Ty.mem_allVarsEach.mpr ⟨t, ht, hk⟩

/-- The types that a context leads to have no variables but those of the context and of the
declarations. -/
theorem Closure.mem_allVars (h : R.Closure c t) (hk : k ∈ t.allVars) :
    k ∈ c.allVars ∨ k ∈ R.allVars := by
  refine closure_induct (P := fun t => k ∈ t.allVars → k ∈ c.allVars ∨ k ∈ R.allVars) .inl
    (fun t u _ ih hu hk => ?_) t h hk
  cases t with
  | nominal n => exact .inr (mem_allVars_of_supertypes hu hk)
  | applied owner raw args =>
    rcases List.mem_cons.mp hu with rfl | hu
    · cases hk
    · exact ih (Ty.mem_allVars_applied.mpr (.inl ⟨u, Option.mem_toList.mp hu, hk⟩))
  | array d => cases hu
  | wildcard site upper lower => exact ih (Ty.mem_allVars_wildcard.mpr (.inl ⟨u, hu, hk⟩))
  | var j bounds => exact ih (Ty.mem_allVars_var.mpr (.inr ⟨u, hu, hk⟩))

/-- **The variables of a table that a walk ends with** are those of the captured context and of the
declarations: its entries give arguments of the closure to declared parameters. -/
theorem Ends.mem_allVars {T : Table} (h : R.Ends c (.ok T)) (hk : k ∈ T.allVars) :
    k ∈ c.allVars ∨ k ∈ R.allVars := by
  obtain ⟨seen, hrun⟩ := h
  obtain ⟨⟨j, a⟩, he, hk⟩ := List.mem_flatMap.mp hk
  obtain ⟨t, ht, hsupplies⟩ :=
    ((covers_start R c).run hrun).drawn j a (Table.get?_eq_some_iff.mpr he)
  cases hsupplies with
  | mk hj ha =>
    rcases List.mem_cons.mp hk with rfl | hk
    · exact .inr (mem_allVars_of_paramKeys (List.mem_of_getElem? hj))
    · exact ht.mem_allVars (Ty.mem_allVars_applied.mpr (.inr ⟨a, List.mem_of_getElem? ha, hk⟩))

end Registry

/-! ## Calls -/

/-- A call that captures a type. -/
inductive CaptureCall where
  | capture (t : Ty)
  | survey (R : Registry) (context : Ty)
  | contextTable (R : Registry) (context : Ty)

namespace CaptureCall

/-- The type that is captured. -/
def subject : CaptureCall → Ty
  | capture t => t
  | survey _ context => context
  | contextTable _ context => context

/-- The next free number after the call. -/
def after (next : Nat) : CaptureCall → Nat
  | capture t => (t.capture next).2
  | survey R context => (R.survey context next).2
  | contextTable R context => (R.contextTable context next).2

/-- The type with its open wildcards captured. -/
def captured (next : Nat) (call : CaptureCall) : Ty := (call.subject.capture next).1

/-- The open wildcards of the type, each with the variable in its place. -/
def exchanges (next : Nat) (call : CaptureCall) : List (Opening × Ty) :=
  call.subject.exchanges (call.captured next)

/-- The different open wildcards of the type. -/
def distinct (call : CaptureCall) : List Opening := call.subject.openings.eraseDupsBy Opening.same

/-- The call returns what comes of the type `c`: the type itself, or what the walk from it ends with,
which for a table is checked for variables bound to themselves. -/
def Yields (next : Nat) (c : Ty) : CaptureCall → Prop
  | capture t => (t.capture next).1 = c
  | survey R context => ∀ r, (R.survey context next).1 = r ↔ R.Ends c r
  | contextTable R context => ∃ r, R.Ends c r ∧
      (R.contextTable context next).1 = r.bind fun T => Table.empty.extend T.entries

/-- The variables in a table, if there is one. -/
def foundVars : Except Violation Table → List VarKey
  | .ok T => T.allVars
  | .error _ => []

/-- The variables in the type or the table that a call returns. -/
def returned (next : Nat) : CaptureCall → List VarKey
  | capture t => (t.capture next).1.allVars
  | survey R context => foundVars (R.survey context next).1
  | contextTable R context => foundVars (R.contextTable context next).1

/-- The variables in what a call is given. -/
def given : CaptureCall → List VarKey
  | capture t => t.allVars
  | survey R context => context.allVars ++ R.allVars
  | contextTable R context => context.allVars ++ R.allVars

/-! ## One call -/

variable {next : Nat} {call : CaptureCall} {k : VarKey}

/-- A call uses up one number for each of the different open wildcards of its type. -/
theorem after_eq (next : Nat) (call : CaptureCall) :
    call.after next = next + call.distinct.length := by
  have hcapture : call.after next = (call.subject.capture next).2 := by
    cases call <;> rfl
  rw [hcapture, Ty.next_capture, distinct]

/-- The variables put in have the numbers that the call uses up, and the bounds of the wildcards. -/
theorem exists_number {e : Opening × Ty} (he : e ∈ call.exchanges next) :
    ∃ n bounds, next ≤ n ∧ n < call.after next ∧ e.2 = .var (captureKey n bounds) bounds ∧
      Ty.identicalEach bounds e.1.upper = true := by
  obtain ⟨c, hc, hstand, hbounds⟩ := Ty.standIn_capture he
  obtain ⟨n, hle, hlt, hkey⟩ := (Ty.orderly_capture call.subject next).numbered c hc
  refine ⟨n, c.upper, hle, ?_, ?_, Ty.identicalEach_iff.mpr hbounds⟩
  · rw [after_eq, distinct, ← Ty.next_capture]
    exact hlt
  · rw [hstand, Captured.standIn, hkey]

/-- **A call works with the captured type**, and with nothing else of its type. -/
theorem yields_captured (next : Nat) (call : CaptureCall) :
    call.Yields next (call.captured next) := by
  cases call with
  | capture t => rfl
  | survey R context => exact fun r => Registry.parameterTable_eq_iff
  | contextTable R context => exact ⟨_, Registry.parameterTable_eq_iff.mp rfl, rfl⟩

theorem mem_foundVars {r : Except Violation Table} :
    k ∈ foundVars r ↔ ∃ T, r = .ok T ∧ k ∈ T.allVars := by
  cases r <;> simp [foundVars]

/-- The variables of a table that a walk ends with are given, declared or put in. -/
theorem mem_table {R : Registry} {context : Ty} {T : Table}
    (h : (R.survey context next).1 = .ok T) (hk : k ∈ T.allVars) :
    k ∈ context.allVars ++ R.allVars ∨
      ∃ e ∈ (survey R context).exchanges next, e.2.key? = some k := by
  have hends : R.Ends ((survey R context).captured next) (.ok T) :=
    (yields_captured next (survey R context) _).mp h
  rcases hends.mem_allVars hk with hk | hk
  · exact (Ty.mem_allVars_capture hk).imp_left (List.mem_append_left _)
  · exact .inl (List.mem_append_right _ hk)

/-- **The variables that a call returns** are those that it was given and those that it has put in the
place of wildcards. -/
theorem mem_returned (hk : k ∈ call.returned next) :
    k ∈ call.given ∨ ∃ e ∈ call.exchanges next, e.2.key? = some k := by
  cases call with
  | capture t => exact Ty.mem_allVars_capture hk
  | survey R context =>
    obtain ⟨T, hr, hk⟩ := mem_foundVars.mp hk
    exact mem_table hr hk
  | contextTable R context =>
    obtain ⟨T, hr, hk⟩ := mem_foundVars.mp hk
    -- a table that passes the check is the one that was found
    obtain ⟨-, hrun⟩ := Registry.contextTable_eq_ok_iff.mp hr
    exact mem_table (Registry.survey_eq_ok_iff_runs.mpr hrun) hk

/-! ## A run of calls -/

/-- The calls of a run, each with the number it starts with. -/
def turns : List CaptureCall → Nat → List (CaptureCall × Nat)
  | [], _ => []
  | call :: calls, next => (call, next) :: turns calls (call.after next)

/-- The next free number after a run. -/
def afterAll (calls : List CaptureCall) (next : Nat) : Nat :=
  calls.foldl (fun n call => call.after n) next

theorem afterAll_eq (calls : List CaptureCall) (next : Nat) :
    afterAll calls next = next + (calls.flatMap distinct).length := by
  induction calls generalizing next with
  | nil => rfl
  | cons call calls ih =>
    show afterAll calls (call.after next) = _
    rw [ih, after_eq, List.flatMap_cons, List.length_append, Nat.add_assoc]

/-- No call of a run starts below the number that the run starts with. -/
theorem le_of_mem_turns {calls : List CaptureCall} {turn : CaptureCall × Nat}
    (h : turn ∈ turns calls next) : next ≤ turn.2 := by
  induction calls generalizing next with
  | nil => exact absurd h List.not_mem_nil
  | cons call calls ih =>
    rcases List.mem_cons.mp h with rfl | h
    · exact Nat.le_refl _
    · have hstep : call.after next ≤ turn.2 := ih h
      rw [after_eq] at hstep
      omega

/-- The numbers of an earlier call are below those of a later one. -/
theorem pairwise_turns (calls : List CaptureCall) (next : Nat) :
    (turns calls next).Pairwise fun earlier later => earlier.1.after earlier.2 ≤ later.2 := by
  induction calls generalizing next with
  | nil => exact .nil
  | cons call calls ih => exact .cons (fun later h => le_of_mem_turns h) (ih (call.after next))

/-- The variables that an earlier call puts in are none that a later call puts in. -/
theorem pairwise_exchanges (calls : List CaptureCall) (next : Nat) :
    (turns calls next).Pairwise fun earlier later =>
      ∀ e ∈ earlier.1.exchanges earlier.2, ∀ e' ∈ later.1.exchanges later.2,
        e.2.key? ≠ e'.2.key? := by
  refine (pairwise_turns calls next).imp fun {earlier later} hle e he e' he' hkey => ?_
  obtain ⟨n, bounds, -, hlt, hvar, -⟩ := exists_number he
  obtain ⟨m, bounds', hge, -, hvar', -⟩ := exists_number he'
  rw [hvar, hvar'] at hkey
  have hnum : n = m := captureKey_inj (Option.some.inj hkey)
  omega

end CaptureCall

open CaptureCall

/-- **Captured variables are fresh and follow the identity of wildcards.**  In every run of calls, each
call puts a variable in the place of each open wildcard of its type, changes nothing else, and returns
what comes of the type so captured.  The variable has the bounds of the wildcard and a number that the
call uses up; two of them are the same if and only if the wildcards are; the variables that the call
returns are these and those it was given; and the call uses up as many numbers as there are different
wildcards, whatever becomes of it.  Variables put in by different calls have different keys, and two
calls return no variable in common unless one of them was given it.  The whole run uses up the numbers
from `start` on, one for each different wildcard of each call. -/
theorem capture_fresh (calls : List CaptureCall) (start : Nat) :
    (∀ turn ∈ turns calls start,
      Ty.Exchanged turn.1.subject (turn.1.captured turn.2) ∧
      turn.1.Yields turn.2 (turn.1.captured turn.2) ∧
      (turn.1.exchanges turn.2).map Prod.fst = turn.1.subject.openings ∧
      (∀ e ∈ turn.1.exchanges turn.2, ∃ n bounds, turn.2 ≤ n ∧ n < turn.1.after turn.2 ∧
        e.2 = .var (captureKey n bounds) bounds ∧ Ty.identicalEach bounds e.1.upper = true) ∧
      ((turn.1.exchanges turn.2).Pairwise fun e e' =>
        e.2.key? = e'.2.key? ↔ e.1.same e'.1 = true) ∧
      (∀ k ∈ turn.1.returned turn.2,
        k ∈ turn.1.given ∨ ∃ e ∈ turn.1.exchanges turn.2, e.2.key? = some k) ∧
      turn.1.after turn.2 = turn.2 + turn.1.distinct.length) ∧
    ((turns calls start).Pairwise fun earlier later =>
      (∀ e ∈ earlier.1.exchanges earlier.2, ∀ e' ∈ later.1.exchanges later.2,
        e.2.key? ≠ e'.2.key?) ∧
      ∀ k ∈ earlier.1.returned earlier.2, k ∈ later.1.returned later.2 →
        k ∈ earlier.1.given ∨ k ∈ later.1.given) ∧
    afterAll calls start = start + (calls.flatMap distinct).length := by
  refine ⟨fun turn _ => ⟨Ty.exchanged_capture _ _, yields_captured _ _, ?_,
    fun e he => exists_number he, Ty.pairwise_capture _ _, fun k hk => mem_returned hk,
    after_eq _ _⟩, ?_, afterAll_eq calls start⟩
  · exact (Ty.exchanged_capture _ _).map_fst_exchanges
  · refine (pairwise_exchanges calls start).imp fun {earlier later} hne => ⟨hne, fun k hk hk' => ?_⟩
    rcases mem_returned hk with hk | ⟨e, he, hkey⟩
    · exact .inl hk
    · rcases mem_returned hk' with hk' | ⟨e', he', hkey'⟩
      · exact .inr hk'
      · exact absurd (hkey.trans hkey'.symm) (hne e he e' he')

end Generics
