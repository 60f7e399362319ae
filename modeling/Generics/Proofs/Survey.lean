import Generics.Proofs.Links
import Generics.Proofs.Walk

/-!
# Generics.Proofs.Survey: a survey never holds a cycle of variables

Recording an argument is a loop inside a loop: first the links from the argument are followed, to see
whether they lead to the parameter, and if they do, they are followed a second time to drop them.
Neither loop looks out for a cycle.  `Recorder` is a recording under way, with one step for each round
of a loop.

The table found so far is unlooped at every step (`Recorder.Sound.step`), so both loops end, and with
the table that `Table.record` gives (`Recorder.runs_record`).  This carries over to the whole survey of
a context, whose runs are the runs of the walk with the recording of arguments written out
(`survey_eq_ok_iff`).
-/

namespace Generics

open Relation

/-! ## Recording, loop by loop -/

/-- What the recording of arguments is busy with. -/
inductive Task where
  /-- Nothing: the next argument can be taken up. -/
  | idle
  /-- The first loop: it follows links from the argument `t` of `k`, and has come to `link`, or to the
  end if there is none. -/
  | chase (k : VarKey) (t : Ty) (link : Option Ty)
  /-- The second loop: it drops the entry of `stale`, or ends if there is none. -/
  | drop (stale : Option VarKey)

/-- A recording of arguments under way: the table so far, and the arguments still to record. -/
structure Recorder where
  found : Table
  args : List (VarKey × Ty)
  task : Task

namespace Recorder

variable {T : Table} {es : List (VarKey × Ty)} {k i j : VarKey} {t u : Ty} {r r' : Recorder}

/-- One step of a recording. -/
inductive Step : Recorder → Recorder → Prop where
  | mapped {T : Table} {k : VarKey} {t : Ty} {es : List (VarKey × Ty)}
      (h : T.contains k = true) : Step ⟨T, (k, t) :: es, .idle⟩ ⟨T, es, .idle⟩
  | start {T : Table} {k : VarKey} {t : Ty} {es : List (VarKey × Ty)}
      (h : ¬ T.contains k = true) : Step ⟨T, (k, t) :: es, .idle⟩ ⟨T, es, .chase k t (some t)⟩
  | follow {T : Table} {k : VarKey} {t u : Ty} {es : List (VarKey × Ty)}
      (h : ¬ u.hasKey k = true) :
      Step ⟨T, es, .chase k t (some u)⟩ ⟨T, es, .chase k t (u.key?.bind T.get?)⟩
  | insert {T : Table} {k : VarKey} {t : Ty} {es : List (VarKey × Ty)} :
      Step ⟨T, es, .chase k t none⟩ ⟨T.insert k t, es, .idle⟩
  | cycle {T : Table} {k : VarKey} {t u : Ty} {es : List (VarKey × Ty)}
      (h : u.hasKey k = true) : Step ⟨T, es, .chase k t (some u)⟩ ⟨T, es, .drop t.key?⟩
  | remove {T : Table} {j : VarKey} {es : List (VarKey × Ty)} :
      Step ⟨T, es, .drop (some j)⟩ ⟨T.erase j, es, .drop (T.follow? j)⟩
  | dropped {T : Table} {es : List (VarKey × Ty)} : Step ⟨T, es, .drop none⟩ ⟨T, es, .idle⟩

/-- Any number of steps. -/
def Runs : Recorder → Recorder → Prop := ReflTransGen Step

theorem rightUnique_step : Relator.RightUnique Step := by
  intro r r₁ r₂ h₁ h₂
  cases h₁ <;> cases h₂ <;> first | rfl | contradiction

theorem not_step_of_done (r : Recorder) : ¬ Step ⟨T, [], .idle⟩ r := nofun

/-! ## The table stays unlooped -/

section Sound

/-- Following links from the type leads to the variable. -/
def Leads (T : Table) (k : VarKey) (t : Ty) : Prop := ∃ j, t.key? = some j ∧ ReflTransGen T.Links j k

/-- The table is unlooped; and while links are followed, the argument leads to the parameter only if
what has been come to does. -/
structure Sound (r : Recorder) : Prop where
  unlooped : r.found.Unlooped
  chasing : ∀ k t link, r.task = .chase k t link → Leads r.found k t →
    ∃ u ∈ link, Leads r.found k u

theorem Leads.next (h : Leads T k u) (hu : ¬ u.hasKey k = true) :
    ∃ w ∈ u.key?.bind T.get?, Leads T k w := by
  obtain ⟨j, hj, hjk⟩ := h
  rcases hjk.cases_head with rfl | ⟨i, hji, hik⟩
  · exact absurd (decide_eq_true hj) hu
  · obtain ⟨bounds, hget⟩ := Table.links_iff.mp hji
    refine ⟨.var i bounds, ?_, i, rfl, hik⟩
    rw [hj, Option.bind_some, hget, Option.mem_some_iff]

/-- **One step keeps the table unlooped.** -/
theorem Sound.step (hr : r.Sound) (h : Step r r') : r'.Sound := by
  cases h with
  | mapped _ => exact ⟨hr.unlooped, nofun⟩
  | start _ =>
    refine ⟨hr.unlooped, ?_⟩
    rintro k t link heq hleads
    cases heq
    exact ⟨_, rfl, hleads⟩
  | follow hu =>
    refine ⟨hr.unlooped, ?_⟩
    rintro k t link heq hleads
    cases heq
    obtain ⟨u, hmem, hlead⟩ := hr.chasing _ _ _ rfl hleads
    cases hmem
    exact hlead.next hu
  | insert =>
    refine ⟨hr.unlooped.insert fun j hj hjk => ?_, nofun⟩
    obtain ⟨u, hmem, -⟩ := hr.chasing _ _ _ rfl ⟨j, hj, hjk⟩
    cases hmem
  | cycle _ => exact ⟨hr.unlooped, nofun⟩
  | remove => exact ⟨hr.unlooped.erase _, nofun⟩
  | dropped => exact ⟨hr.unlooped, nofun⟩

end Sound

/-! ## Both loops end -/

section Ends

/-- Where links lead to the parameter, the first loop finds that out. -/
theorem runs_chase_of_reach (hu : u.key? = some i) (hik : ReflTransGen T.Links i k) :
    Runs ⟨T, es, .chase k t (some u)⟩ ⟨T, es, .drop t.key?⟩ := by
  induction hik using ReflTransGen.head_induction_on generalizing u with
  | refl => exact .single (.cycle (decide_eq_true hu))
  | @head i j hij _ ih =>
    by_cases hk : u.hasKey k = true
    · exact .single (.cycle hk)
    · obtain ⟨bounds, hget⟩ := Table.links_iff.mp hij
      have hlink : u.key?.bind T.get? = some (.var j bounds) := by
        rw [hu, Option.bind_some, hget]
      refine .head (.follow hk) ?_
      rw [hlink]
      exact ih rfl

/-- A type that is no variable ends the first loop. -/
theorem runs_chase_of_other (hu : u.key? = none) :
    Runs ⟨T, es, .chase k t (some u)⟩ ⟨T.insert k t, es, .idle⟩ := by
  have hk : ¬ u.hasKey k = true := by simp [Ty.hasKey, hu]
  refine .head (.follow hk) ?_
  rw [hu, Option.bind_none]
  exact .single .insert

/-- Where links do not lead to the parameter, the first loop comes to their end: they cannot run in a
circle. -/
theorem runs_chase_of_not_reach (hT : T.Unlooped) (hu : u.key? = some i)
    (hik : ¬ ReflTransGen T.Links i k) :
    Runs ⟨T, es, .chase k t (some u)⟩ ⟨T.insert k t, es, .idle⟩ := by
  induction i using hT.wellFounded.induction generalizing u with
  | _ i ih =>
    have hk : ¬ u.hasKey k = true := by
      intro hk
      obtain rfl : i = k := Option.some.inj (hu.symm.trans (of_decide_eq_true hk))
      exact hik .refl
    refine .head (.follow hk) ?_
    rw [hu, Option.bind_some]
    cases hget : T.get? i with
    | none => exact .single .insert
    | some w =>
      cases hw : w.key? with
      | none => exact runs_chase_of_other hw
      | some j =>
        have hij : T.Links i j := Table.links_of_get? hget hw
        exact ih j hij hw fun hjk => hik (.head hij hjk)

/-- The second loop drops the trail. -/
theorem runs_drop (T : Table) (es : List (VarKey × Ty)) (j : VarKey) :
    Runs ⟨T, es, .drop (some j)⟩ ⟨(T.trail j).foldl Table.erase T, es, .idle⟩ := by
  induction T, j using Table.trail_induct with
  | last T j hf =>
    rw [Table.trail_of_follow?_eq_none hf]
    refine .head .remove ?_
    rw [hf]
    exact .single .dropped
  | link T j i hji ih =>
    rw [Table.trail_of_links hji]
    refine .head .remove ?_
    rw [show T.follow? j = some i from hji]
    exact ih

/-- **The loops record what `Table.record` does.** -/
theorem runs_record (hT : T.Unlooped) (k : VarKey) (t : Ty) (es : List (VarKey × Ty)) :
    Runs ⟨T, (k, t) :: es, .idle⟩ ⟨T.record k t, es, .idle⟩ := by
  unfold Table.record
  by_cases hc : T.contains k = true
  · rw [if_pos hc]
    exact .single (.mapped hc)
  · rw [if_neg hc]
    refine .head (.start hc) ?_
    cases ht : t.key? with
    | none => exact runs_chase_of_other ht
    | some j =>
      by_cases hk : k ∈ T.trail j
      · simp only [if_pos hk]
        have hdrop := runs_drop T es j
        rw [← ht] at hdrop
        exact (runs_chase_of_reach ht (Table.mem_trail_iff.mp hk)).trans hdrop
      · simp only [if_neg hk]
        exact runs_chase_of_not_reach hT ht fun hjk => hk (Table.mem_trail_iff.mpr hjk)

/-- The loops come to one end only. -/
theorem runs_iff_eq_record {S : Table} (hT : T.Unlooped) (k : VarKey) (t : Ty) :
    Runs ⟨T, [(k, t)], .idle⟩ ⟨S, [], .idle⟩ ↔ S = T.record k t := by
  constructor
  · intro hS
    have hend := eq_of_final rightUnique_step hS (runs_record hT k t []) not_step_of_done
      not_step_of_done
    cases hend
    rfl
  · rintro rfl
    exact runs_record hT k t []

theorem runs_recordAll (hT : T.Unlooped) (es : List (VarKey × Ty)) :
    Runs ⟨T, es, .idle⟩ ⟨T.recordAll es, [], .idle⟩ := by
  induction es generalizing T with
  | nil => exact .refl
  | cons e es ih => exact (runs_record hT e.1 e.2 es).trans (ih (hT.record e.1 e.2))

/-- A loop under way ends, whatever round it is in. -/
theorem Sound.runs_idle (hr : r.Sound) : ∃ T, Runs r ⟨T, r.args, .idle⟩ := by
  have hdrop : ∀ T es stale, ∃ T', Runs ⟨T, es, .drop stale⟩ ⟨T', es, .idle⟩ := by
    intro T es stale
    cases stale with
    | none => exact ⟨T, .single .dropped⟩
    | some j => exact ⟨_, runs_drop T es j⟩
  obtain ⟨T, es, task⟩ := r
  cases task with
  | idle => exact ⟨T, .refl⟩
  | drop stale => exact hdrop T es stale
  | chase k t link =>
    cases link with
    | none => exact ⟨T.insert k t, .single .insert⟩
    | some u =>
      cases hu : u.key? with
      | none => exact ⟨T.insert k t, runs_chase_of_other hu⟩
      | some i =>
        by_cases hik : ReflTransGen T.Links i k
        · obtain ⟨T', hT'⟩ := hdrop T es t.key?
          exact ⟨T', (runs_chase_of_reach hu hik).trans hT'⟩
        · exact ⟨T.insert k t, runs_chase_of_not_reach hr.unlooped hu hik⟩

theorem Sound.run (hr : r.Sound) (h : Runs r r') : r'.Sound := by
  induction h with
  | refl => exact hr
  | tail _ hlast ih => exact ih.step hlast

/-- All arguments get recorded. -/
theorem Sound.runs_done (hr : r.Sound) : ∃ T, Runs r ⟨T, [], .idle⟩ := by
  obtain ⟨T, hT⟩ := hr.runs_idle
  have hunlooped : T.Unlooped := (hr.run hT).unlooped
  exact ⟨T.recordAll r.args, hT.trans (runs_recordAll hunlooped r.args)⟩

/-- **No recording goes on for ever**: a step is determined by the state, and some run ends. -/
theorem Sound.acc (hr : r.Sound) : Acc (fun b a => Step a b) r := by
  obtain ⟨T, hT⟩ := hr.runs_done
  clear hr
  induction hT using ReflTransGen.head_induction_on with
  | refl => exact ⟨_, fun b hb => absurd hb (not_step_of_done b)⟩
  | @head a b hab _ ih =>
    refine ⟨_, fun c hac => ?_⟩
    rw [rightUnique_step hac hab]
    exact ih

end Ends

end Recorder

/-! ## Surveys -/

/-- A survey under way: the types to visit, the types entered so far, and the recording of the
arguments of the latest one. -/
structure Survey where
  pending : List Ty
  entered : List Ty
  recorder : Recorder

/-- A survey between two types. -/
def Walk.survey (w : Walk) : Survey := ⟨w.pending, w.entered, ⟨w.found, [], .idle⟩⟩

namespace Registry

variable {R : Registry} {w w' : Walk} {s s' : Survey}

/-- The declared parameters of the class that a type applies, each with its argument. -/
def arguments (R : Registry) : Ty → Except Violation (List (VarKey × Ty))
  | .applied _ raw args =>
    match R.find? raw with
    | none => .error (.undeclared raw)
    | some d =>
      if d.params.length ≠ args.length then
        .error (.parameterCount raw d.params.length args.length)
      else .ok ((d.params.map Param.key).zip args)
  | _ => .ok []

/-- Entering a type records its arguments. -/
theorem enter_eq (found : Table) (t : Ty) :
    R.enter found t = (R.arguments t).map found.recordAll := by
  cases t with
  | applied owner raw args =>
    cases hd : R.find? raw with
    | none =>
      simp only [enter, arguments, hd]
      rfl
    | some d =>
      simp only [enter, arguments, hd]
      split <;> rfl
  | _ => rfl

/-- One step of a survey: a type is skipped or entered once all arguments are recorded, or the
recording goes on. -/
inductive Move (R : Registry) : Survey → Survey → Prop where
  | skip {t : Ty} {rest entered : List Ty} {T : Table} (h : t.listed entered = true) :
      Move R ⟨t :: rest, entered, ⟨T, [], .idle⟩⟩ ⟨rest, entered, ⟨T, [], .idle⟩⟩
  | enter {t : Ty} {rest entered : List Ty} {T : Table} {es : List (VarKey × Ty)}
      (h : ¬ t.listed entered = true) (ha : R.arguments t = .ok es) :
      Move R ⟨t :: rest, entered, ⟨T, [], .idle⟩⟩ ⟨R.next t ++ rest, t :: entered, ⟨T, es, .idle⟩⟩
  | record {pending entered : List Ty} {r r' : Recorder} (h : r.Step r') :
      Move R ⟨pending, entered, r⟩ ⟨pending, entered, r'⟩

/-- Any number of steps. -/
def Moves (R : Registry) : Survey → Survey → Prop := ReflTransGen R.Move

theorem rightUnique_move (R : Registry) : Relator.RightUnique R.Move := by
  intro s s₁ s₂ h₁ h₂
  cases h₁ with
  | skip hv =>
    cases h₂ with
    | skip _ => rfl
    | enter hn _ => exact absurd hv hn
    | record hr => exact absurd hr (Recorder.not_step_of_done _)
  | enter hn ha =>
    cases h₂ with
    | skip hv => exact absurd hv hn
    | enter _ ha' =>
      rw [ha, Except.ok.injEq] at ha'
      rw [ha']
    | record hr => exact absurd hr (Recorder.not_step_of_done _)
  | record hr =>
    cases h₂ with
    | skip _ => exact absurd hr (Recorder.not_step_of_done _)
    | enter _ _ => exact absurd hr (Recorder.not_step_of_done _)
    | record hr' => rw [Recorder.rightUnique_step hr hr']

/-- **A survey keeps its recorder sound.** -/
theorem sound_of_move (hs : s.recorder.Sound) (h : R.Move s s') : s'.recorder.Sound := by
  cases h with
  | skip _ => exact hs
  | enter _ _ => exact ⟨hs.unlooped, nofun⟩
  | record hr => exact hs.step hr

theorem sound_of_moves (hs : s.recorder.Sound) (h : R.Moves s s') : s'.recorder.Sound := by
  induction h with
  | refl => exact hs
  | tail _ hlast ih => exact sound_of_move ih hlast

/-! ## Surveys and walks -/

section Refinement

theorem moves_of_recorder (pending entered : List Ty) {r r' : Recorder} (h : r.Runs r') :
    R.Moves ⟨pending, entered, r⟩ ⟨pending, entered, r'⟩ := by
  induction h with
  | refl => exact .refl
  | tail _ hlast ih => exact .tail ih (.record hlast)

/-- A step of the walk is a number of steps of the survey. -/
theorem moves_of_step (hw : w.found.Unlooped) (h : R.Step w w') :
    R.Moves w.survey w'.survey ∧ w'.found.Unlooped := by
  cases h with
  | skip hv => exact ⟨.single (.skip hv), hw⟩
  | @enter t rest entered found found' hv hf =>
    rw [enter_eq] at hf
    cases ha : R.arguments t with
    | error v =>
      rw [ha] at hf
      cases hf
    | ok es =>
      rw [ha] at hf
      cases hf
      have hrecord := moves_of_recorder (R := R) (R.next t ++ rest) (t :: entered)
        (Recorder.runs_recordAll hw es)
      exact ⟨.head (.enter hv ha) hrecord, hw.recordAll es⟩

theorem moves_of_runs (hw : w.found.Unlooped) (h : R.Runs w w') :
    R.Moves w.survey w'.survey ∧ w'.found.Unlooped := by
  induction h with
  | refl => exact ⟨.refl, hw⟩
  | tail _ hlast ih =>
    obtain ⟨hmoves, hunlooped⟩ := ih
    obtain ⟨hmore, hlooped'⟩ := moves_of_step hunlooped hlast
    exact ⟨hmoves.trans hmore, hlooped'⟩

theorem not_move_of_done {entered : List Ty} {T : Table} (s : Survey) :
    ¬ R.Move ⟨[], entered, ⟨T, [], .idle⟩⟩ s := by
  intro h
  cases h with
  | record hr => exact Recorder.not_step_of_done _ hr

theorem not_move_of_error {t : Ty} {rest entered : List Ty} {T : Table} {v : Violation}
    (hv : ¬ t.listed entered = true) (he : R.enter T t = .error v) (s : Survey) :
    ¬ R.Move ⟨t :: rest, entered, ⟨T, [], .idle⟩⟩ s := by
  intro h
  cases h with
  | skip hl => exact hv hl
  | enter _ ha =>
    rw [enter_eq, ha] at he
    cases he
  | record hr => exact Recorder.not_step_of_done _ hr

/-- **A survey returns a table exactly if its steps come to an end with that table.** -/
theorem survey_eq_ok_iff {context : Ty} {next : Nat} {T : Table} :
    (R.survey context next).1 = .ok T ↔
      ∃ seen, R.Moves ⟨[(context.capture next).1], [], ⟨.empty, [], .idle⟩⟩
        ⟨[], seen, ⟨T, [], .idle⟩⟩ := by
  constructor
  · intro h
    obtain ⟨seen, hrun⟩ := survey_eq_ok_iff_runs.mp h
    exact ⟨seen, (moves_of_runs Table.unlooped_empty hrun).1⟩
  · rintro ⟨seen, hmoves⟩
    -- the survey ends in some way, and its steps have only one end
    cases hs : (R.survey context next).1 with
    | ok T' =>
      obtain ⟨seen', hrun⟩ := survey_eq_ok_iff_runs.mp hs
      have hend := eq_of_final R.rightUnique_move hmoves
        (moves_of_runs Table.unlooped_empty hrun).1 not_move_of_done not_move_of_done
      cases hend
      rfl
    | error v =>
      obtain ⟨t, rest, seen', T', hrun, hv, he⟩ := survey_eq_error_iff_runs.mp hs
      have hend := eq_of_final R.rightUnique_move hmoves
        (moves_of_runs Table.unlooped_empty hrun).1 not_move_of_done (not_move_of_error hv he)
      cases hend

end Refinement

/-! ## The main result -/

/-- **A survey never holds a cycle of variables.**  At every step of a survey, for every context and
registry, following variables through the table found so far never comes back to a key, so no key is
mapped to its own variable, and the loops of the recording under way end.  The table that a survey
returns is the one that these steps end with, and following variables through it never comes back to a
key either. -/
theorem survey_unlooped (R : Registry) (context : Ty) (next : Nat) :
    let start : Survey := ⟨[(context.capture next).1], [], ⟨.empty, [], .idle⟩⟩
    (∀ s, R.Moves start s →
        s.recorder.found.Unlooped ∧
        (∀ k bounds, s.recorder.found.get? k ≠ some (.var k bounds)) ∧
        Acc (fun b a => Recorder.Step a b) s.recorder ∧
        ∃ T, Recorder.Runs s.recorder ⟨T, [], .idle⟩) ∧
      (∀ T, (R.survey context next).1 = .ok T ↔
        ∃ seen, R.Moves start ⟨[], seen, ⟨T, [], .idle⟩⟩) ∧
      ∀ T, (R.survey context next).1 = .ok T → T.Unlooped := by
  intro start
  have hstart : start.recorder.Sound := ⟨Table.unlooped_empty, nofun⟩
  refine ⟨fun s hs => ?_, fun T => survey_eq_ok_iff, fun T hT => ?_⟩
  · have hsound := sound_of_moves hstart hs
    refine ⟨hsound.unlooped, fun k bounds hk => ?_, hsound.acc, hsound.runs_done⟩
    exact hsound.unlooped k (.single (Table.links_iff.mpr ⟨bounds, hk⟩))
  · obtain ⟨seen, hmoves⟩ := survey_eq_ok_iff.mp hT
    exact (sound_of_moves hstart hmoves).unlooped

/-- `Node<T>` extends `Link<T>`, and `Link<U>` extends `Node<U>`. -/
def ring : Registry :=
  ⟨[("Node", { Declaration.generic "Node" ["T"] with
      superclass := some (.applied none (.plain "Link") [.ofKey ⟨.type "Node", "T"⟩]) }),
    ("Link", { Declaration.generic "Link" ["U"] with
      superclass := some (.applied none (.plain "Node") [.ofKey ⟨.type "Link", "U"⟩]) })]⟩

/-- The survey of `Node<T>` in that registry comes to a state where `U` stands for `T` and the chain is
about to be dropped, because `T` would stand for `U`; it ends with the empty table. -/
theorem survey_unlooped_ring :
    let T : Ty := .ofKey ⟨.type "Node", "T"⟩
    let U : Ty := .ofKey ⟨.type "Link", "U"⟩
    let node (t : Ty) : Ty := .applied none (.plain "Node") [t]
    let link (t : Ty) : Ty := .applied none (.plain "Link") [t]
    let chain := Table.empty.insert ⟨.type "Link", "U"⟩ T
    let s : Survey := ⟨[.plain "Node"], [node U, .plain "Link", link T, .plain "Node", node T],
      ⟨chain, [], .drop (some ⟨.type "Link", "U"⟩)⟩⟩
    ring.Moves ⟨[((node T).capture 0).1], [], ⟨.empty, [], .idle⟩⟩ s ∧
      (chain.Unlooped ∧ (∀ k bounds, chain.get? k ≠ some (.var k bounds)) ∧
        Acc (fun b a => Recorder.Step a b) s.recorder ∧
        ∃ T, Recorder.Runs s.recorder ⟨T, [], .idle⟩) ∧
      (ring.survey (node T) 0).1 = .ok .empty ∧ Table.empty.Unlooped := by
  intro T U node link chain s
  obtain ⟨hstates, hreturns, hunlooped⟩ := survey_unlooped ring (node T) 0
  -- `T` is given itself, then `U` is given `T`, then `T` is given `U`
  have hmoves : ring.Moves ⟨[((node T).capture 0).1], [], ⟨.empty, [], .idle⟩⟩ s :=
    .head (.enter (by decide) rfl) <| .head (.record (.start (by decide))) <|
      .head (.record (.cycle (by decide))) <| .head (.record .remove) <|
      .head (.record .dropped) <| .head (.enter (by decide) rfl) <|
      .head (.enter (by decide) rfl) <| .head (.record (.start (by decide))) <|
      .head (.record (.follow (by decide))) <| .head (.record .insert) <|
      .head (.enter (by decide) rfl) <| .head (.enter (by decide) rfl) <|
      .head (.record (.start (by decide))) <| .head (.record (.follow (by decide))) <|
      .head (.record (.cycle (by decide))) .refl
  have hmore : ring.Moves s ⟨[], s.entered, ⟨.empty, [], .idle⟩⟩ :=
    .head (.record .remove) <| .head (.record .remove) <| .head (.record .dropped) <|
      .head (.skip (by decide)) .refl
  have hok : (ring.survey (node T) 0).1 = .ok .empty :=
    (hreturns _).mpr ⟨s.entered, hmoves.trans hmore⟩
  exact ⟨hmoves, hstates s hmoves, hok, hunlooped _ hok⟩

end Registry

end Generics
