import Generics.Proofs.Unification

/-!
# Generics.Proofs.Rollback: unifying is atomic, whatever came before

`Unifier.unify` works out the whole course of a comparison and then takes over its bindings.
`Unifier.attempt` works as it goes: it notes a decision and makes a binding as soon as it comes to it,
so a clash finds the bindings of some parts made and others not, and the old bindings are put back.
The two do the same (`attempt_eq_unify`), because the bindings of a course can be made one after the
other while its decisions are noted (`perform_andThen`).

So the result of unifying a pair does not depend on what the unifier holds, and what it holds
afterwards is what a new unifier would hold, laid over what was there (`unify_atomic`).
-/

namespace Generics

/-! ## Working as one goes -/

/-- A piece of work on a unifier.  It may end in a clash; what was done before that stays done. -/
abbrev Effort := ExceptT Clash (StateM Unifier) Unit

namespace Effort

/-- Notes a decision. -/
def note (d : Decision) : Effort := modify fun u => u.note d

/-- Binds a variable. -/
def bindVar (k : VarKey) (t : Ty) : Effort :=
  modify fun u => { u with bindings := u.bindings.insert k t }

/-- Notes a clash and ends with it. -/
def giveUp (formal actual : Ty) (reason : Clash.Reason) : Effort := do
  note ⟨formal, actual, .clash reason⟩
  throw ⟨formal, actual, reason⟩

/-- One piece of work after the other: a clash in the first ends it. -/
theorem run_bind (e : Effort) (f : Unit → Effort) (u : Unifier) :
    (e >>= f).run u =
      match e.run u with
      | (.ok (), v) => (f ()).run v
      | (.error c, v) => (.error c, v) := by
  show (match e.run u with | (a, v) => ExceptT.bindCont f a v) = _
  rcases e.run u with ⟨_ | ⟨⟩, v⟩ <;> rfl

end Effort

namespace Ty

open Effort

mutual

/-- The work of comparing a formal with an actual type, every decision and every binding in its
turn. -/
def compare (formal actual : Ty) : Effort :=
  if formal.agrees actual then note ⟨formal, actual, .same⟩
  else match formal with
    | var k _ => do
      note ⟨formal, actual, .bind k⟩
      bindVar k actual
    | wildcard _ upper lower =>
      match actual with
      | wildcard _ upper' lower' =>
        if upper.length ≠ upper'.length ∨ lower.length ≠ lower'.length then
          giveUp formal actual .boundCount
        else do
          note ⟨formal, actual, .splitBounds⟩
          compareEach upper upper'
          compareEach lower lower'
      | _ => note ⟨formal, actual, .wildcardTakes⟩
    | applied owner raw args =>
      match actual with
      | wildcard _ _ _ => note ⟨formal, actual, .wildcardSatisfied⟩
      | applied owner' raw' args' => do
        compareOwners owner owner'
        if raw ≠ raw' then giveUp formal actual (.differentClass raw raw')
        else if args.length ≠ args'.length then
          giveUp formal actual (.argumentCount args.length args'.length)
        else do
          note ⟨formal, actual, .splitArguments args.length⟩
          compareEach args args'
      | _ => giveUp formal actual .notApplied
    | array c =>
      match actual with
      | wildcard _ _ _ => note ⟨formal, actual, .wildcardSatisfied⟩
      | _ =>
        match actual.component? with
        | none => giveUp formal actual .notArray
        | some d => do
          note ⟨formal, actual, .splitComponents⟩
          compare c d
    | nominal c =>
      match actual with
      | wildcard _ _ _ => note ⟨formal, actual, .wildcardSatisfied⟩
      | _ => giveUp formal actual (.otherType c)

/-- Owners are compared only if both types have one. -/
def compareOwners : Option Ty → Option Ty → Effort
  | some formal, some actual => compare formal actual
  | _, _ => pure ()

/-- The members of two lists are compared one by one, up to the first clash. -/
def compareEach : List Ty → List Ty → Effort
  | formal :: formals, actual :: actuals => do
    compare formal actual
    compareEach formals actuals
  | _, _ => pure ()

end

end Ty

namespace Unifier

/-- The unifier with other bindings. -/
def rebind (u : Unifier) (B : Table) : Unifier := { u with bindings := B }

/-- Compares a formal with an actual type, and puts the old bindings back if they clash. -/
def attempt (u : Unifier) (formal actual : Ty) : Except Clash Unit × Unifier :=
  match (formal.compare actual).run u with
  | (.ok (), v) => (.ok (), v)
  | (.error c, v) => (.error c, v.rebind u.bindings)

/-! ## Bindings made on the way -/

section Rebind

variable (u : Unifier) (B C : Table)

theorem bindings_rebind : (u.rebind B).bindings = B := rfl

theorem rebind_rebind : (u.rebind B).rebind C = u.rebind C := rfl

theorem rebind_eq_self {u : Unifier} {B : Table} (h : u.bindings = B) : u.rebind B = u := by
  subst h
  rfl

/-- Noting decisions does not look at the bindings. -/
theorem noteAll_rebind (ds : List Decision) :
    (u.rebind B).noteAll ds = (u.noteAll ds).rebind B := by
  have hnote : ∀ (v : Unifier) (d : Decision), (v.rebind B).note d = (v.note d).rebind B := by
    intro v d
    unfold note rebind
    split <;> rfl
  unfold noteAll
  induction ds generalizing u with
  | nil => rfl
  | cons d ds ih => rw [List.foldl_cons, List.foldl_cons, hnote, ih]

end Rebind

end Unifier

namespace Course

variable {c : Course} {next : Unit → Course}

/-- How a course ends. -/
def outcome (c : Course) : Except Clash Unit :=
  match c.clash? with
  | some e => .error e
  | none => .ok ()

/-- The work of a course: its decisions are noted and its bindings made, those before a clash too. -/
def perform (c : Course) : Effort := ExceptT.mk fun u =>
  (c.outcome, (u.noteAll c.decisions).rebind (u.bindings.insertAll c.bindings))

theorem run_perform (c : Course) (u : Unifier) :
    c.perform.run u =
      (c.outcome, (u.noteAll c.decisions).rebind (u.bindings.insertAll c.bindings)) := rfl

/-- A course without bindings is noted, and that is all. -/
theorem run_perform_of_bindings_eq_nil (h : c.bindings = []) (u : Unifier) :
    c.perform.run u = (c.outcome, u.noteAll c.decisions) := by
  have hsame : u.bindings.insertAll [] = u.bindings := rfl
  rw [run_perform, h, hsame, Unifier.rebind_eq_self (Unifier.bindings_noteAll u c.decisions)]

theorem perform_settled {formal actual : Ty} {verdict : Verdict} (h : ∀ k, verdict ≠ .bind k) :
    (settled formal actual verdict).perform = Effort.note ⟨formal, actual, verdict⟩ := by
  funext u
  exact run_perform_of_bindings_eq_nil (bindings_settled h) u

theorem perform_clashed (formal actual : Ty) (reason : Clash.Reason) :
    (clashed formal actual reason).perform = Effort.giveUp formal actual reason := by
  funext u
  exact run_perform_of_bindings_eq_nil (bindings_clashed ..) u

theorem perform_settled_bind (formal actual : Ty) (k : VarKey) :
    (settled formal actual (.bind k)).perform =
      Effort.note ⟨formal, actual, .bind k⟩ >>= fun _ => Effort.bindVar k actual := by
  funext u
  have hnote : (u.note ⟨formal, actual, .bind k⟩).bindings = u.bindings :=
    Unifier.bindings_noteAll u [⟨formal, actual, .bind k⟩]
  refine Eq.trans ?_ (Effort.run_bind _ _ u).symm
  show (_, (u.note ⟨formal, actual, .bind k⟩).rebind (u.bindings.insert k actual)) = _
  rw [← hnote]
  rfl

/-- **Doing a course in two parts is doing the one and then the other**, and a clash in the first
leaves the second undone. -/
theorem perform_andThen (c : Course) (next : Unit → Course) :
    (c.andThen next).perform = c.perform >>= fun _ => (next ()).perform := by
  funext u
  refine Eq.trans ?_ (Effort.run_bind _ _ u).symm
  cases hc : c.clash? with
  | some e =>
    have hfirst : c.andThen next = c := by rw [andThen, hc]
    have hout : c.outcome = .error e := by rw [outcome, hc]
    rw [hfirst, run_perform, hout]
    exact (run_perform c u).trans (by rw [hout])
  | none =>
    have hout : c.outcome = .ok () := by rw [outcome, hc]
    have hrest : (c.andThen next).outcome = (next ()).outcome := by
      rw [andThen_of_succeeds hc, outcome, outcome]
    have hnoted : u.noteAll (c.andThen next).decisions =
        (u.noteAll c.decisions).noteAll (next ()).decisions := by
      rw [andThen_of_succeeds hc]
      exact List.foldl_append
    have hmade : u.bindings.insertAll (c.andThen next).bindings =
        (u.bindings.insertAll c.bindings).insertAll (next ()).bindings := by
      rw [bindings_andThen hc]
      exact List.foldl_append
    rw [run_perform, hout]
    refine (run_perform _ u).trans ?_
    show _ = (next ()).perform.run _
    rw [run_perform, hrest, hnoted, hmade, Unifier.noteAll_rebind, Unifier.rebind_rebind,
      Unifier.bindings_rebind]

end Course

namespace Ty

open Course

theorem compareEach_eq_perform {formals actuals : List Ty}
    (h : ∀ p ∈ formals.zip actuals, p.1.compare p.2 = (p.1.settle p.2).perform) :
    compareEach formals actuals = (settleEach formals actuals).perform := by
  induction formals generalizing actuals with
  | nil => cases actuals <;> rfl
  | cons f fs ih =>
    cases actuals with
    | nil => rfl
    | cons a as =>
      rw [List.zip_cons_cons, List.forall_mem_cons] at h
      rw [compareEach, settleEach, perform_andThen, h.1, ih h.2]

theorem compareOwners_eq_perform {owner owner' : Option Ty}
    (h : ∀ f ∈ owner, ∀ a ∈ owner', f.compare a = (f.settle a).perform) :
    compareOwners owner owner' = (settleOwners owner owner').perform := by
  cases owner with
  | none => cases owner' <;> rfl
  | some f =>
    cases owner' with
    | none => rfl
    | some a => exact h f rfl a rfl

/-- **Comparing two types is doing their course**, step by step. -/
theorem compare_eq_perform (formal actual : Ty) :
    formal.compare actual = (formal.settle actual).perform := by
  induction formal, actual using settle_induct with
  | same formal actual ha =>
    rw [settle_of_agrees ha, perform_settled (by simp)]
    cases formal <;> exact if_pos ha
  | binds k bounds actual ha =>
    rw [settle_var ha, perform_settled_bind]
    exact if_neg ha
  | wildcards site upper lower site' upper' lower' ha hu hl =>
    by_cases hn : upper.length = upper'.length ∧ lower.length = lower'.length
    · rw [settle_wildcards ha hn.1 hn.2, perform_andThen, perform_andThen,
        perform_settled (by simp), ← compareEach_eq_perform hu, ← compareEach_eq_perform hl]
      exact (if_neg ha).trans (if_neg (by simp [hn]))
    · have hcount : upper.length ≠ upper'.length ∨ lower.length ≠ lower'.length := by omega
      rw [settle_wildcards_count hcount, perform_clashed]
      exact (if_neg ha).trans (if_pos hcount)
  | takes site upper lower actual hw =>
    rw [settle_wildcard_takes hw, perform_settled (by simp)]
    cases actual with
    | wildcard site' upper' lower' => simp [isWildcard, kind] at hw
    | _ => exact if_neg (by simp [agrees])
  | satisfied formal actual hf hk ha =>
    rw [settle_wildcard_satisfied hf hk ha, perform_settled (by simp)]
    cases actual with
    | wildcard site upper lower =>
      cases formal with
      | wildcard site' upper' lower' => simp [isWildcard, kind] at hf
      | var k bounds => simp [key?] at hk
      | _ => exact if_neg (by simp [agrees])
    | _ => simp [isWildcard, kind] at ha
  | application owner raw args owner' raw' args' ha ho has =>
    rw [settle_applied ha, perform_andThen, ← compareOwners_eq_perform ho]
    refine (if_neg ha).trans (congrArg (compareOwners owner owner' >>= ·) (funext fun _ => ?_))
    by_cases hr : raw = raw'
    · by_cases hl : args.length = args'.length
      · simp only [hr, hl, ne_eq, not_true_eq_false, if_false]
        rw [perform_andThen, perform_settled (by simp), ← compareEach_eq_perform has]
      · simp only [hr, hl, ne_eq, not_true_eq_false, not_false_eq_true, if_false, if_true]
        rw [perform_clashed]
    · simp only [hr, ne_eq, not_false_eq_true, if_true]
      rw [perform_clashed]
  | notApplied owner raw args actual hw ha =>
    rw [settle_applied_other hw ha, perform_clashed]
    cases actual with
    | wildcard site' upper' lower' => simp [isWildcard, kind] at hw
    | applied owner' raw' args' => simp [kind] at ha
    | _ => exact if_neg (by simp [agrees])
  | arrays c actual d ha hw hd ih =>
    rw [settle_array ha hw hd, perform_andThen, perform_settled (by simp), ← ih]
    cases actual with
    | wildcard site' upper' lower' => simp [isWildcard, kind] at hw
    | _ =>
      refine (if_neg ha).trans ?_
      simp only [hd]
  | notArray c actual hw hd =>
    rw [settle_array_other hw hd, perform_clashed]
    cases actual with
    | wildcard site' upper' lower' => simp [isWildcard, kind] at hw
    | array e => simp [component?] at hd
    | _ =>
      refine (if_neg (by simp [agrees])).trans ?_
      simp only [hd]
  | otherType c actual ha hw =>
    rw [settle_nominal ha hw, perform_clashed]
    cases actual with
    | wildcard site' upper' lower' => simp [isWildcard, kind] at hw
    | _ => exact if_neg ha

end Ty

namespace Unifier

theorem unify_of_clash {u : Unifier} {formal actual : Ty} {c : Clash}
    (h : (formal.settle actual).clash? = some c) :
    u.unify formal actual = (.error c, u.noteAll (formal.settle actual).decisions) := by
  unfold unify
  simp only [h]

theorem unify_of_succeeds {u : Unifier} {formal actual : Ty}
    (h : (formal.settle actual).Succeeds) :
    u.unify formal actual = (.ok (), (u.noteAll (formal.settle actual).decisions).rebind
      (u.bindings.insertAll (formal.settle actual).bindings)) := by
  have hc : (formal.settle actual).clash? = none := h
  unfold unify
  simp only [hc, bindings_noteAll, rebind]

/-- **Working as one goes, with the old bindings put back after a clash, is working out the course
first.** -/
theorem attempt_eq_unify (u : Unifier) (formal actual : Ty) :
    u.attempt formal actual = u.unify formal actual := by
  unfold attempt
  rw [Ty.compare_eq_perform, Course.run_perform]
  cases hc : (formal.settle actual).clash? with
  | some c =>
    rw [unify_of_clash hc, Course.outcome, hc]
    simp only [rebind_rebind, rebind_eq_self (bindings_noteAll u _)]
  | none => rw [unify_of_succeeds hc, Course.outcome, hc]

end Unifier

/-! ## Tables laid over each other -/

namespace Table

/-- The table `T` laid over the table `S`: where both map a key, `T` wins. -/
def overlay (S T : Table) : Table := S.insertAll T.entries

theorem get?_overlay (S T : Table) (k : VarKey) :
    (S.overlay T).get? k = (T.get? k).or (S.get? k) := by
  have hlast := get?_insertAll empty T.entries k
  rw [empty_insertAll_entries, get?_empty, Option.or_none] at hlast
  rw [overlay, get?_insertAll, hlast]

/-- Adding entries one by one is laying the table of these entries over what is there. -/
theorem overlay_insertAll (S : Table) (es : List (VarKey × Ty)) :
    S.overlay (empty.insertAll es) = S.insertAll es := by
  refine ext_get? fun k => ?_
  rw [get?_overlay, get?_insertAll, get?_insertAll, get?_empty, Option.or_none]

end Table

/-! ## The main result -/

namespace Unifier

/-- Compares the pairs one after the other, clashes notwithstanding. -/
def unifyAll (u : Unifier) (pairs : List (Ty × Ty)) : Unifier :=
  pairs.foldl (fun v p => (v.unify p.1 p.2).2) u

/-- What a new unifier binds, if the two types do not clash. -/
def gain? (formal actual : Ty) : Option Table :=
  match unify {} formal actual with
  | (.ok (), v) => some v.bindings
  | (.error _, _) => none

theorem gain?_of_clash {formal actual : Ty} {c : Clash}
    (h : (formal.settle actual).clash? = some c) : gain? formal actual = none := by
  rw [gain?, unify_of_clash h]

theorem gain?_of_succeeds {formal actual : Ty} (h : (formal.settle actual).Succeeds) :
    gain? formal actual = some (Table.empty.insertAll (formal.settle actual).bindings) := by
  rw [gain?, unify_of_succeeds h]
  rfl

/-- What one comparison adds to the bindings. -/
theorem bindings_unify (u : Unifier) (formal actual : Ty) :
    (u.unify formal actual).2.bindings =
      (gain? formal actual).elim u.bindings u.bindings.overlay := by
  cases hc : (formal.settle actual).clash? with
  | some c => rw [unify_of_clash hc, gain?_of_clash hc, Option.elim_none, bindings_noteAll]
  | none =>
    rw [unify_of_succeeds hc, gain?_of_succeeds hc, Option.elim_some, bindings_rebind,
      Table.overlay_insertAll]

/-- What a run of comparisons adds to the bindings. -/
theorem bindings_unifyAll (u : Unifier) (pairs : List (Ty × Ty)) :
    (u.unifyAll pairs).bindings =
      (pairs.filterMap fun p => gain? p.1 p.2).foldl Table.overlay u.bindings := by
  unfold unifyAll
  induction pairs generalizing u with
  | nil => rfl
  | cons p ps ih =>
    rw [List.foldl_cons, ih, bindings_unify]
    cases hg : gain? p.1 p.2 with
    | none => simp only [List.filterMap_cons, hg, Option.elim_none]
    | some S => simp only [List.filterMap_cons, hg, List.foldl_cons, Option.elim_some]

end Unifier

/-- Extending a table by a comparison is extending it by the table of that comparison. -/
theorem Table.unify_eq_bind (T : Table) (formal actual : Ty) :
    T.unify formal actual =
      (Generics.unify formal actual).bind fun S => (T.extend S.entries).mapError .violation := by
  rw [unify_eq]
  unfold Table.unify
  cases hc : (formal.settle actual).clash? with
  | some c => rw [Unifier.unify_of_clash hc]; rfl
  | none => rw [Unifier.unify_of_succeeds hc]; rfl

/-- Extending a table by a comparison lays the table of the comparison over it, and fails only if the
comparison does. -/
theorem Table.unify_eq_map (T : Table) (formal actual : Ty) :
    T.unify formal actual = (Generics.unify formal actual).map T.overlay := by
  rw [Table.unify_eq_bind]
  cases h : Generics.unify formal actual with
  | error f => rfl
  | ok S =>
    show (T.extend S.entries).mapError Failure.violation = _
    rw [(selfFree_of_unify h).extend_entries T]
    rfl

theorem Table.unify_eq_error_iff {T : Table} {formal actual : Ty} {f : Failure} :
    T.unify formal actual = .error f ↔ Generics.unify formal actual = .error f := by
  rw [unify_eq_map]
  cases Generics.unify formal actual with
  | error f' => exact Iff.rfl
  | ok G => exact ⟨nofun, nofun⟩

theorem Table.unify_eq_ok_iff {S T : Table} {formal actual : Ty} :
    T.unify formal actual = .ok S ↔
      ∃ G, Generics.unify formal actual = .ok G ∧ S = T.overlay G := by
  rw [unify_eq_map]
  cases Generics.unify formal actual with
  | error f => exact ⟨nofun, nofun⟩
  | ok G =>
    constructor
    · intro h
      cases h
      exact ⟨G, rfl, rfl⟩
    · rintro ⟨_, ⟨⟩, rfl⟩
      rfl

/-- **Unifying is atomic and does not depend on history.**  Whatever a unifier holds, it gives the
result that a new unifier gives.  If that is a success, its bindings afterwards are the old ones with
those of the new unifier laid over them: a variable is mapped as by the new unifier, and if that does not
map it, as before.  If it is a clash, they are the old ones, though bindings are made on the way and have
to be taken back.  So after any run of comparisons the bindings are those
of the successful ones, laid over each other in order; and to extend a table by a comparison is to
extend it by the entries of what the comparison yields on its own. -/
theorem unify_atomic (u : Unifier) (tracing : Tracing) (formal actual : Ty)
    (pairs : List (Ty × Ty)) (T : Table) :
    let after := u.unify formal actual
    let alone := Unifier.unify { tracing } formal actual
    u.attempt formal actual = after ∧
      after.1 = alone.1 ∧
      after.2.bindings =
        (match alone.1 with
        | .ok () => u.bindings.overlay alone.2.bindings
        | .error _ => u.bindings) ∧
      (∀ k, after.2.bindings.get? k =
        match alone.1 with
        | .ok () => (alone.2.bindings.get? k).or (u.bindings.get? k)
        | .error _ => u.bindings.get? k) ∧
      (u.unifyAll pairs).bindings =
        (pairs.filterMap fun p => Unifier.gain? p.1 p.2).foldl Table.overlay u.bindings ∧
      T.unify formal actual =
        (unify formal actual).bind fun S => (T.extend S.entries).mapError .violation := by
  intro after alone
  have hsame : after.1 = alone.1 ∧ after.2.bindings =
      (match alone.1 with
      | .ok () => u.bindings.overlay alone.2.bindings
      | .error _ => u.bindings) := by
    simp only [after, alone]
    cases hc : (formal.settle actual).clash? with
    | some c =>
      rw [Unifier.unify_of_clash hc, Unifier.unify_of_clash hc]
      exact ⟨rfl, Unifier.bindings_noteAll u _⟩
    | none =>
      rw [Unifier.unify_of_succeeds hc, Unifier.unify_of_succeeds hc]
      exact ⟨rfl, (Table.overlay_insertAll u.bindings _).symm⟩
  refine ⟨u.attempt_eq_unify formal actual, hsame.1, hsame.2, fun k => ?_,
    u.bindings_unifyAll pairs, T.unify_eq_bind formal actual⟩
  rw [hsame.2]
  cases alone.1 with
  | ok _ => exact Table.get?_overlay u.bindings alone.2.bindings k
  | error _ => rfl

end Generics
