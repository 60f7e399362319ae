import Generics.Proofs.Walk

/-!
# Generics.Proofs.Visits: the supertype walk as a recursion, and why it ends

Visiting a type means to enter it, unless an equal one was entered before, and then to visit what it
leads to, one type after the other; what has been entered is handed on from each visit to the next.
`Visits` says what a number of visits in a row come to, and `Calls` is the relation from a visit to
those that it makes itself.  The walk with its list of pending types does the same (`visits_iff_runs`),
and each type that it takes from the list is a call (`exists_calls_of_runs`).

A visit goes from a class to whatever its declaration names, so nothing gets smaller.  But all the
types that can be visited (`Visitable`) lie within the horizon of the context, which is finite, and a
visit makes calls only after it has entered a type that agrees with none before (`unvisited_lt`).
-/

namespace Generics

open Relation

/-- How far a walk has come: the types entered so far, the latest first, and what they say. -/
structure Progress where
  entered : List Ty
  found : Table

/-- A visit that is about to be made. -/
structure Visit where
  type : Ty
  progress : Progress

/-- The visit has something to do: its type agrees with none that has been entered. -/
def Visit.Works (c : Visit) : Prop := ∀ t ∈ c.progress.entered, ¬ c.type.agrees t = true

theorem Visit.works_iff {c : Visit} : c.Works ↔ ¬ c.type.listed c.progress.entered = true := by
  simp [Works, Ty.listed]

instance : DecidablePred Visit.Works := fun _ => decidable_of_iff _ Visit.works_iff.symm

namespace Registry

variable {R : Registry} {context t : Ty} {ts us : List Ty} {p p' p'' : Progress} {c d : Visit}
  {w w' : Walk}

/-! ## Visits and calls -/

section Defs

variable (R)

/-- Visiting the types of the list in order takes the walk from the first progress to the second. -/
inductive Visits : List Ty → Progress → Progress → Prop where
  | nil {p : Progress} : Visits [] p p
  | skip {t : Ty} {ts : List Ty} {p p' : Progress} (h : t.listed p.entered = true)
      (rest : Visits ts p p') : Visits (t :: ts) p p'
  | enter {t : Ty} {ts : List Ty} {p p₁ p' : Progress} {found : Table}
      (h : ¬ t.listed p.entered = true) (hf : R.enter p.found t = .ok found)
      (inner : Visits (R.next t) ⟨t :: p.entered, found⟩ p₁) (rest : Visits ts p₁ p') :
      Visits (t :: ts) p p'

/-- The first visit makes the second: it enters its type, and the visits to what that leads to before
the type of the second one have been made. -/
inductive Calls : Visit → Visit → Prop where
  | mk {t u : Ty} {before after : List Ty} {p p' : Progress} {found : Table}
      (h : ¬ t.listed p.entered = true) (hf : R.enter p.found t = .ok found)
      (hn : R.next t = before ++ u :: after) (hb : Visits R before ⟨t :: p.entered, found⟩ p') :
      Calls ⟨t, p⟩ ⟨u, p'⟩

/-- The types that can be visited from a context: the context, the declared supertypes, and what is
reached from these through owners, the bounds of variables and the upper bounds of wildcards, and the
classes that they apply. -/
inductive Visitable (context : Ty) : Ty → Prop where
  | context : Visitable context context
  | declared {name : String} {d : Declaration} {t : Ty} (hd : R.named? name = some d)
      (ht : t ∈ d.supertypes) : Visitable context t
  | owner {o : Ty} {raw : Nominal} {args : List Ty}
      (h : Visitable context (.applied (some o) raw args)) : Visitable context o
  | raw {owner : Option Ty} {raw : Nominal} {args : List Ty}
      (h : Visitable context (.applied owner raw args)) : Visitable context (.nominal raw)
  | bound {k : VarKey} {bounds : List Ty} {b : Ty} (h : Visitable context (.var k bounds))
      (hb : b ∈ bounds) : Visitable context b
  | upper {site : Option Nat} {upper lower : List Ty} {b : Ty}
      (h : Visitable context (.wildcard site upper lower)) (hb : b ∈ upper) : Visitable context b

end Defs

/-! ## The recursion and the list of pending types -/

section Recursion

theorem visits_append :
    R.Visits (ts ++ us) p p'' ↔ ∃ p', R.Visits ts p p' ∧ R.Visits us p' p'' := by
  constructor
  · intro h
    induction ts generalizing p with
    | nil => exact ⟨p, .nil, h⟩
    | cons t ts ih =>
      cases h with
      | skip hv rest =>
        obtain ⟨p', hts, hus⟩ := ih rest
        exact ⟨p', .skip hv hts, hus⟩
      | enter hv hf inner rest =>
        obtain ⟨p', hts, hus⟩ := ih rest
        exact ⟨p', .enter hv hf inner hts, hus⟩
  · rintro ⟨p', hts, hus⟩
    induction hts with
    | nil => exact hus
    | skip hv _ ih => exact .skip hv (ih hus)
    | enter hv hf inner _ _ ih => exact .enter hv hf inner (ih hus)

/-- Visits are made by the walk, whatever is pending behind them. -/
theorem runs_of_visits (h : R.Visits ts p p') (rest : List Ty) :
    R.Runs ⟨ts ++ rest, p.entered, p.found⟩ ⟨rest, p'.entered, p'.found⟩ := by
  induction h generalizing rest with
  | nil => exact .refl
  | skip hv _ ih => exact .head (.skip hv) (ih rest)
  | @enter t ts p p₁ p' found hv hf _ _ ihinner ihrest =>
    have hinner := ihinner (ts ++ rest)
    exact .head (.enter hv hf) (hinner.trans (ihrest rest))

theorem visits_of_runs (h : R.Runs w w') (hw : w'.pending = []) :
    R.Visits w.pending ⟨w.entered, w.found⟩ ⟨w'.entered, w'.found⟩ := by
  induction h using ReflTransGen.head_induction_on with
  | refl =>
    rw [hw]
    exact .nil
  | head hstep _ ih =>
    cases hstep with
    | skip hv => exact .skip hv ih
    | enter hv hf =>
      obtain ⟨p₁, hinner, hrest⟩ := visits_append.mp ih
      exact .enter hv hf hinner hrest

/-- **The walk makes the visits of the recursion.** -/
theorem visits_iff_runs :
    R.Visits ts p p' ↔ R.Runs ⟨ts, p.entered, p.found⟩ ⟨[], p'.entered, p'.found⟩ := by
  constructor
  · intro h
    have hrun := runs_of_visits h []
    rwa [List.append_nil] at hrun
  · intro h
    exact visits_of_runs h rfl

/-- A member of two lists in a row belongs to the first, or stands behind it. -/
theorem append_cons_cases {before after : List Ty} {u : Ty} (h : ts ++ us = before ++ u :: after) :
    (∃ as, ts = before ++ u :: as) ∨ ∃ as, before = ts ++ as ∧ us = as ++ u :: after := by
  rcases List.append_eq_append_iff.mp h with ⟨as, hbefore, hus⟩ | ⟨as, hts, hafter⟩
  · exact .inr ⟨as, hbefore, hus⟩
  · cases as with
    | nil =>
      rw [List.append_nil] at hts
      exact .inr ⟨[], by rw [hts, List.append_nil], hafter.symm⟩
    | cons a as =>
      rw [List.cons_append, List.cons.injEq] at hafter
      exact .inl ⟨as, by rw [hts, hafter.1]⟩

/-- Each type that the walk takes from the list is one that the recursion visits, below one of the
types that were pending first. -/
theorem exists_calls_of_runs (h : R.Runs w w') {rest : List Ty} (hw : w'.pending = t :: rest) :
    ∃ before u after p, w.pending = before ++ u :: after ∧
      R.Visits before ⟨w.entered, w.found⟩ p ∧
      ReflTransGen R.Calls ⟨u, p⟩ ⟨t, ⟨w'.entered, w'.found⟩⟩ := by
  induction h using ReflTransGen.head_induction_on with
  | refl => exact ⟨[], t, rest, _, hw, .nil, .refl⟩
  | head hstep _ ih =>
    obtain ⟨before, u, after, p, hpending, hbefore, hcalls⟩ := ih
    cases hstep with
    | skip hv => exact ⟨_ :: before, u, after, p, congrArg _ hpending, .skip hv hbefore, hcalls⟩
    | @enter s us _ found found' hv hf =>
      rcases append_cons_cases hpending with ⟨as, hnext⟩ | ⟨as, rfl, hus⟩
      · -- the type is one of those that `s` leads to
        exact ⟨[], s, us, _, rfl, .nil, .head (.mk hv hf hnext hbefore) hcalls⟩
      · -- the type stands behind what `s` leads to
        obtain ⟨p₁, hinner, hrest⟩ := visits_append.mp hbefore
        exact ⟨s :: as, u, after, p, congrArg _ hus, .enter hv hf hinner hrest, hcalls⟩

/-- Each visit that the recursion makes is one that the walk comes to. -/
theorem exists_runs_of_calls (h : ReflTransGen R.Calls c d) (after : List Ty) :
    ∃ rest, R.Runs ⟨c.type :: after, c.progress.entered, c.progress.found⟩
      ⟨d.type :: rest, d.progress.entered, d.progress.found⟩ := by
  induction h with
  | refl => exact ⟨after, .refl⟩
  | tail _ hlast ih =>
    obtain ⟨rest, hrun⟩ := ih
    cases hlast with
    | @mk t u before as p p' found hv hf hn hb =>
      have hbefore := runs_of_visits hb (u :: as ++ rest)
      rw [← List.append_assoc, ← hn] at hbefore
      exact ⟨as ++ rest, hrun.trans (.head (.enter hv hf) hbefore)⟩

/-- **The visits below a visit are those that its walk comes to.** -/
theorem calls_iff_runs :
    ReflTransGen R.Calls c d ↔
      ∃ rest, R.Runs ⟨[c.type], c.progress.entered, c.progress.found⟩
        ⟨d.type :: rest, d.progress.entered, d.progress.found⟩ := by
  constructor
  · intro h
    exact exists_runs_of_calls h []
  · rintro ⟨rest, hrun⟩
    obtain ⟨before, u, after, p, hpending, hbefore, hcalls⟩ := exists_calls_of_runs hrun rfl
    cases before with
    | nil =>
      cases hpending
      cases hbefore
      exact hcalls
    | cons s before => simp at hpending

end Recursion

/-! ## What is visited -/

section Universe

/-- What a visitable type leads to is visitable. -/
theorem Visitable.next (h : R.Visitable context t) {u : Ty} (hu : u ∈ R.next t) :
    R.Visitable context u := by
  cases t with
  | nominal c =>
    obtain ⟨d, hd, hu⟩ := mem_supertypes_iff.mp hu
    exact .declared (find?_eq_some_iff.mp hd).2 hu
  | applied owner raw args =>
    rcases List.mem_cons.mp hu with rfl | hu
    · exact .raw h
    · cases owner with
      | none => cases hu
      | some o =>
        obtain rfl : u = o := List.mem_singleton.mp hu
        exact .owner h
  | array c => cases hu
  | wildcard site upper lower => exact .upper h hu
  | var k bounds => exact .bound h hu

/-- **Only finitely many types can be visited**: they all lie within the horizon. -/
theorem Visitable.mem_horizon (h : R.Visitable context t) : t ∈ R.horizon context := by
  induction h with
  | context => exact Ty.mem_withinEach.mpr ⟨context, List.mem_cons_self, Ty.self_mem_within _⟩
  | @declared name d t hd ht =>
    have hfind : R.find? (.plain name) = some d := find?_eq_some_iff.mpr ⟨rfl, hd⟩
    have hsuper : t ∈ R.supertypes (.plain name) := mem_supertypes_iff.mpr ⟨d, hfind, ht⟩
    have hmem : t ∈ context :: R.allSupertypes := List.mem_cons_of_mem _ (mem_allSupertypes hsuper)
    exact Ty.mem_withinEach.mpr ⟨t, hmem, Ty.self_mem_within t⟩
  | owner _ ih => exact R.next_mem_horizon ih (List.mem_cons_of_mem _ List.mem_cons_self)
  | raw _ ih => exact R.next_mem_horizon ih List.mem_cons_self
  | bound _ hb ih => exact R.next_mem_horizon ih hb
  | upper _ hb ih => exact R.next_mem_horizon ih hb

/-- All types that a walk has to visit or has entered are visitable. -/
structure Within (R : Registry) (context : Ty) (w : Walk) : Prop where
  pending : ∀ t ∈ w.pending, R.Visitable context t
  entered : ∀ t ∈ w.entered, R.Visitable context t

theorem Within.step (hw : R.Within context w) (h : R.Step w w') : R.Within context w' := by
  cases h with
  | skip _ => exact ⟨fun t ht => hw.pending t (List.mem_cons_of_mem _ ht), hw.entered⟩
  | enter _ _ =>
    have hfirst := hw.pending _ List.mem_cons_self
    refine ⟨fun t ht => ?_, fun t ht => ?_⟩
    · rcases List.mem_append.mp ht with ht | ht
      · exact hfirst.next ht
      · exact hw.pending t (List.mem_cons_of_mem _ ht)
    · rcases List.mem_cons.mp ht with rfl | ht
      · exact hfirst
      · exact hw.entered t ht

theorem Within.run (hw : R.Within context w) (h : R.Runs w w') : R.Within context w' := by
  induction h with
  | refl => exact hw
  | tail _ hlast ih => exact ih.step hlast

end Universe

/-! ## Every visit ends -/

section Ends

theorem entered_suffix (h : R.Runs w w') : w.entered <:+ w'.entered := by
  induction h with
  | refl => exact List.suffix_refl _
  | tail _ hlast ih =>
    cases hlast with
    | skip _ => exact ih
    | enter _ _ => exact ih.trans (List.suffix_cons _ _)

/-- A visit enters its type before it makes calls. -/
theorem Calls.suffix (h : R.Calls c d) :
    c.Works ∧ c.type :: c.progress.entered <:+ d.progress.entered := by
  cases h with
  | mk hv _ _ hb => exact ⟨Visit.works_iff.mpr hv, entered_suffix (visits_iff_runs.mp hb)⟩

theorem Calls.mem_next (h : R.Calls c d) : d.type ∈ R.next c.type := by
  cases h with
  | mk _ _ hn _ =>
    rw [hn]
    exact List.mem_append_right _ List.mem_cons_self

/-- The more has been entered, the less is left. -/
theorem unvisited_anti {entered entered' : List Ty} (h : entered <:+ entered') :
    R.unvisited context entered' ≤ R.unvisited context entered := by
  refine List.countP_mono_left fun t _ ht => ?_
  simp only [Ty.listed, Bool.not_eq_true', List.any_eq_false] at ht ⊢
  exact fun s hs => ht s (h.subset hs)

/-- **A call leaves fewer types to enter.** -/
theorem unvisited_lt (hc : c.type ∈ R.horizon context) (h : R.Calls c d) :
    R.unvisited context d.progress.entered < R.unvisited context c.progress.entered := by
  obtain ⟨hworks, hsuffix⟩ := h.suffix
  calc R.unvisited context d.progress.entered
    _ ≤ R.unvisited context (c.type :: c.progress.entered) := unvisited_anti hsuffix
    _ < R.unvisited context c.progress.entered := unvisited_cons_lt hc (Visit.works_iff.mp hworks)

/-- **No visit goes on for ever**, whatever has been entered before it. -/
theorem wellFounded_calls (R : Registry) : WellFounded fun d c => R.Calls c d := by
  -- the horizon of the type that a visit starts from does for all its calls
  have hacc : ∀ context c, c.type ∈ R.horizon context → Acc (fun d c => R.Calls c d) c := by
    intro context c hc
    induction hn : R.unvisited context c.progress.entered using Nat.strongRecOn generalizing c with
    | _ n ih =>
      refine ⟨_, fun d hd => ?_⟩
      have hlt : R.unvisited context d.progress.entered < n := hn ▸ unvisited_lt hc hd
      exact ih _ hlt d (R.next_mem_horizon hc hd.mem_next) rfl
  refine ⟨fun c => hacc c.type c ?_⟩
  exact (Visitable.context : R.Visitable c.type c.type).mem_horizon

/-- What a single visit comes to: nothing if an equal type was entered before, and else its type is
entered first. -/
theorem Visits.single (h : R.Visits [t] p p') :
    (t.listed p.entered = true → p' = p) ∧
      (¬ t.listed p.entered = true → t :: p.entered <:+ p'.entered) := by
  cases h with
  | skip hv rest =>
    cases rest
    exact ⟨fun _ => rfl, fun hn => absurd hv hn⟩
  | enter hv _ inner rest =>
    cases rest
    exact ⟨fun hl => absurd hl hv, fun _ => entered_suffix (visits_iff_runs.mp inner)⟩

end Ends

/-! ## The main result -/

/-- What holds of every visit that the visit of a captured context leads to. -/
structure StaysWithin (R : Registry) (captured : Ty) (c : Visit) : Prop where
  /-- Its type is visitable. -/
  type : R.Visitable captured c.type
  /-- So are the types entered before. -/
  entered : ∀ t ∈ c.progress.entered, R.Visitable captured t
  /-- It makes calls only if its type agrees with none entered before; its type is entered then, and
  fewer types are left. -/
  calls : ∀ d, R.Calls c d → c.Works ∧ c.type :: c.progress.entered <:+ d.progress.entered ∧
    R.unvisited captured d.progress.entered < R.unvisited captured c.progress.entered
  /-- When it returns, its type has been entered, or nothing was to be done. -/
  returns : ∀ p, R.Visits [c.type] c.progress p →
    (c.Works → c.type :: c.progress.entered <:+ p.entered) ∧ (¬ c.Works → p = c.progress)

theorem staysWithin_of_calls (hc : ReflTransGen R.Calls ⟨context, [], .empty⟩ c) :
    R.StaysWithin context c := by
  have hstart : R.Within context ⟨[context], [], .empty⟩ := by
    refine ⟨fun t ht => ?_, nofun⟩
    rw [List.mem_singleton.mp ht]
    exact .context
  obtain ⟨rest, hrun⟩ := calls_iff_runs.mp hc
  have hwithin := hstart.run hrun
  have htype : R.Visitable context c.type := hwithin.pending _ List.mem_cons_self
  refine ⟨htype, hwithin.entered, fun d hd => ?_, fun p hp => ?_⟩
  · exact ⟨hd.suffix.1, hd.suffix.2, unvisited_lt htype.mem_horizon hd⟩
  · rw [Visit.works_iff, Classical.not_not]
    exact hp.single.symm

/-- A survey returns the table that the visit of the captured context comes to. -/
theorem survey_eq_ok_iff_visits {next : Nat} {T : Table} :
    (R.survey context next).1 = .ok T ↔
      ∃ seen, R.Visits [(context.capture next).1] ⟨[], .empty⟩ ⟨seen, T⟩ := by
  have hvisits : ∀ seen, R.Visits [(context.capture next).1] ⟨[], .empty⟩ ⟨seen, T⟩ ↔
      R.Runs ⟨[(context.capture next).1], [], .empty⟩ ⟨[], seen, T⟩ := fun _ => visits_iff_runs
  rw [survey_eq_ok_iff_runs]
  exact exists_congr fun seen => (hvisits seen).symm

/-- A survey fails exactly if a visit below that of the captured context cannot enter its type. -/
theorem survey_eq_error_iff_calls {next : Nat} {v : Violation} :
    (R.survey context next).1 = .error v ↔
      ∃ c, ReflTransGen R.Calls ⟨(context.capture next).1, [], .empty⟩ c ∧ c.Works ∧
        R.enter c.progress.found c.type = .error v := by
  rw [survey_eq_error_iff_runs]
  constructor
  · rintro ⟨t, rest, seen, T, hrun, hv, he⟩
    have hcalls : ReflTransGen R.Calls ⟨(context.capture next).1, [], .empty⟩ ⟨t, seen, T⟩ :=
      calls_iff_runs.mpr ⟨rest, hrun⟩
    exact ⟨_, hcalls, Visit.works_iff.mpr hv, he⟩
  · rintro ⟨c, hc, hworks, he⟩
    obtain ⟨rest, hrun⟩ := calls_iff_runs.mp hc
    exact ⟨c.type, rest, _, _, hrun, Visit.works_iff.mp hworks, he⟩

/-- **The supertype walk ends**, for every context and registry.  No visit makes calls for ever.  The
visits that the visit of the captured context leads to stay within the visitable types, of which there
are finitely many, and each one that does anything enters a type that agrees with none entered before.
A survey returns what this visit comes to, and fails exactly if one of these visits cannot enter its
type. -/
theorem visit_terminates (R : Registry) (context : Ty) (next : Nat) :
    let captured := (context.capture next).1
    let start : Visit := ⟨captured, [], .empty⟩
    (WellFounded fun d c => R.Calls c d) ∧
      (∀ c, ReflTransGen R.Calls start c → R.StaysWithin captured c) ∧
      (∀ t, R.Visitable captured t → t ∈ R.horizon captured) ∧
      (∀ T, (R.survey context next).1 = .ok T ↔
        ∃ seen, R.Visits [captured] start.progress ⟨seen, T⟩) ∧
      ∀ v, (R.survey context next).1 = .error v ↔
        ∃ c, ReflTransGen R.Calls start c ∧ c.Works ∧
          R.enter c.progress.found c.type = .error v := by
  intro captured start
  exact ⟨R.wellFounded_calls, fun c hc => staysWithin_of_calls hc, fun t ht => ht.mem_horizon,
    fun T => survey_eq_ok_iff_visits, fun v => survey_eq_error_iff_calls⟩

/-- `Box<E>` extends `Box<Box<E>>`. -/
def expansive : Registry :=
  ⟨[("Box", { Declaration.generic "Box" ["E"] with
      superclass := some (.applied none (.plain "Box")
        [.applied none (.plain "Box") [.ofKey ⟨.type "Box", "E"⟩]]) })]⟩

/-- The visit of `Box<String>` in that registry visits `Box`, which visits `Box<Box<E>>`, and there it
ends, since `Box` has been entered: no larger box is ever visited. -/
theorem visit_terminates_expansive :
    let E : Ty := .ofKey ⟨.type "Box", "E"⟩
    let box (t : Ty) : Ty := .applied none (.plain "Box") [t]
    let found := Table.empty.insert ⟨.type "Box", "E"⟩ (.plain "String")
    let start : Visit := ⟨((box (.plain "String")).capture 0).1, [], .empty⟩
    let inner : Visit := ⟨box (box E), [.plain "Box", box (.plain "String")], found⟩
    ReflTransGen expansive.Calls start inner ∧ inner.Works ∧
      Acc (fun d c => expansive.Calls c d) inner ∧ expansive.StaysWithin start.type inner ∧
      inner.type ∈ expansive.horizon start.type ∧
      (expansive.survey (box (.plain "String")) 0).1 = .ok found ∧
      ∀ c v, ReflTransGen expansive.Calls start c → c.Works →
        expansive.enter c.progress.found c.type ≠ .error v := by
  intro E box found start inner
  obtain ⟨hends, hstays, hfinite, hreturns, hfails⟩ :=
    visit_terminates expansive (box (.plain "String")) 0
  have hclass : expansive.Calls start ⟨.plain "Box", [box (.plain "String")], found⟩ :=
    .mk (by decide) rfl rfl .nil
  have hsuper : expansive.Calls ⟨.plain "Box", [box (.plain "String")], found⟩ inner :=
    .mk (by decide) rfl rfl .nil
  have hinner : ReflTransGen expansive.Calls start inner := .tail (.single hclass) hsuper
  have hok : (expansive.survey (box (.plain "String")) 0).1 = .ok found := by
    -- the box, its class and the box of boxes are entered, and then the class is skipped
    refine (hreturns _).mpr ⟨[box (box E), .plain "Box", box (.plain "String")], ?_⟩
    exact .enter (by decide) rfl (.enter (by decide) rfl
      (.enter (by decide) rfl (.skip (by decide) .nil) .nil) .nil) .nil
  refine ⟨hinner, by decide, hends.apply inner, hstays inner hinner, ?_, hok, ?_⟩
  · exact hfinite _ (hstays inner hinner).type
  · intro c v hc hworks he
    have herror := (hfails v).mpr ⟨c, hc, hworks, he⟩
    rw [hok] at herror
    cases herror

end Registry

end Generics
