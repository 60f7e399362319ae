import Generics.Proofs.Entries
import Generics.Proofs.Skeleton
import Generics.Unifier
import Mathlib.Logic.Relation

/-!
# Generics.Proofs.Unification: what a comparison of two types can do

The course of comparing a formal with an actual type is described once, here:

* one equation for every kind of pair (`settle_of_agrees`, `settle_var`, ...);
* a course that goes on part by part succeeds when the parts do, and its bindings are theirs
  (`succeeds_settleEach`, `bindings_settleEach`);
* a binding comes from a pair of parts that the comparison has come to
  (`exists_meets_of_mem_bindings`), so a comparison binds variables of the formal type only, and none
  to itself (`of_mem_bindings_settle`).

Hence unification succeeds exactly when the course does, and yields the table of its bindings
(`unify_eq`).
-/

namespace Generics

open Relation

/-! ## Courses -/

namespace Course

variable {c : Course} {next : Unit → Course}

/-- No clash ended the course. -/
def Succeeds (c : Course) : Prop := c.clash? = none

theorem succeeds_done : done.Succeeds := rfl

theorem succeeds_settled (formal actual : Ty) (verdict : Verdict) :
    (settled formal actual verdict).Succeeds := rfl

theorem not_succeeds_clashed (formal actual : Ty) (reason : Clash.Reason) :
    ¬ (clashed formal actual reason).Succeeds := by
  simp [Succeeds, clashed]

theorem andThen_of_succeeds (h : c.Succeeds) :
    c.andThen next = ⟨c.decisions ++ (next ()).decisions, (next ()).clash?⟩ := by
  have hc : c.clash? = none := h
  rw [andThen, hc]

theorem succeeds_andThen : (c.andThen next).Succeeds ↔ c.Succeeds ∧ (next ()).Succeeds := by
  cases hc : c.clash? with
  | none =>
    have hs : c.Succeeds := hc
    rw [andThen_of_succeeds hs]
    exact ⟨fun h => ⟨hs, h⟩, fun h => h.2⟩
  | some clash => simp [Succeeds, andThen, hc]

theorem bindings_andThen (h : c.Succeeds) :
    (c.andThen next).bindings = c.bindings ++ (next ()).bindings := by
  rw [andThen_of_succeeds h, bindings, List.filterMap_append, bindings, bindings]

theorem mem_bindings_andThen {e : VarKey × Ty} (h : e ∈ (c.andThen next).bindings) :
    e ∈ c.bindings ∨ e ∈ (next ()).bindings := by
  cases hc : c.clash? with
  | none =>
    rw [bindings_andThen hc] at h
    exact List.mem_append.mp h
  | some clash =>
    rw [andThen, hc] at h
    exact .inl h

theorem bindings_done : done.bindings = [] := rfl

theorem bindings_clashed (formal actual : Ty) (reason : Clash.Reason) :
    (clashed formal actual reason).bindings = [] := rfl

theorem bindings_settled_bind (formal actual : Ty) (k : VarKey) :
    (settled formal actual (.bind k)).bindings = [(k, actual)] := rfl

/-- Only one verdict binds anything. -/
theorem bindings_settled {formal actual : Ty} {verdict : Verdict} (h : ∀ k, verdict ≠ .bind k) :
    (settled formal actual verdict).bindings = [] := by
  cases verdict with
  | bind k => exact absurd rfl (h k)
  | _ => rfl

end Course

/-! ## One equation per kind of pair -/

namespace Ty

section Equations

variable {formal actual : Ty}

theorem settle_of_agrees (h : formal.agrees actual = true) :
    formal.settle actual = .settled formal actual .same := by
  cases formal <;> exact if_pos h

/-- Only types that do not agree can clash. -/
theorem succeeds_settle_of
    (h : ¬ formal.agrees actual = true → (formal.settle actual).Succeeds) :
    (formal.settle actual).Succeeds := by
  by_cases ha : formal.agrees actual = true
  · rw [settle_of_agrees ha]
    exact Course.succeeds_settled ..
  · exact h ha

theorem settle_var {k : VarKey} {bounds : List Ty} (h : ¬ (var k bounds).agrees actual = true) :
    (var k bounds).settle actual = .settled (var k bounds) actual (.bind k) :=
  if_neg h

theorem settle_wildcards {site site' : Option Nat} {upper upper' lower lower' : List Ty}
    (h : ¬ (wildcard site upper lower).agrees (wildcard site' upper' lower') = true)
    (hu : upper.length = upper'.length) (hl : lower.length = lower'.length) :
    (wildcard site upper lower).settle (wildcard site' upper' lower') =
      (Course.settled (wildcard site upper lower) (wildcard site' upper' lower')
        .splitBounds).andThen fun _ =>
          (settleEach upper upper').andThen fun _ => settleEach lower lower' :=
  (if_neg h).trans (if_neg (by simp [hu, hl]))

theorem settle_wildcards_count {site site' : Option Nat} {upper upper' lower lower' : List Ty}
    (hn : upper.length ≠ upper'.length ∨ lower.length ≠ lower'.length) :
    (wildcard site upper lower).settle (wildcard site' upper' lower') =
      .clashed (wildcard site upper lower) (wildcard site' upper' lower') .boundCount := by
  have h : ¬ (wildcard site upper lower).agrees (wildcard site' upper' lower') = true := by
    rw [agrees_iff, skeleton_wildcard, skeleton_wildcard, wildcard.injEq]
    rintro ⟨-, hu, hl⟩
    have hul := congrArg List.length hu
    have hll := congrArg List.length hl
    simp only [List.length_map] at hul hll
    omega
  exact (if_neg h).trans (if_pos hn)

theorem settle_wildcard_takes {site : Option Nat} {upper lower : List Ty}
    (ha : actual.isWildcard = false) :
    (wildcard site upper lower).settle actual =
      .settled (wildcard site upper lower) actual .wildcardTakes := by
  cases actual with
  | wildcard site' upper' lower' => simp [isWildcard, kind] at ha
  | _ => exact if_neg (by simp [agrees])

theorem settle_wildcard_satisfied (hf : formal.isWildcard = false) (hk : formal.key? = none)
    (ha : actual.isWildcard = true) :
    formal.settle actual = .settled formal actual .wildcardSatisfied := by
  cases actual with
  | wildcard site upper lower =>
    cases formal with
    | wildcard site' upper' lower' => simp [isWildcard, kind] at hf
    | var k bounds => simp [key?] at hk
    | _ => exact if_neg (by simp [agrees])
  | _ => simp [isWildcard, kind] at ha

theorem settle_applied {owner owner' : Option Ty} {raw raw' : Nominal} {args args' : List Ty}
    (h : ¬ (applied owner raw args).agrees (applied owner' raw' args') = true) :
    (applied owner raw args).settle (applied owner' raw' args') =
      (settleOwners owner owner').andThen fun _ =>
        if raw ≠ raw' then
          .clashed (applied owner raw args) (applied owner' raw' args') (.differentClass raw raw')
        else if args.length ≠ args'.length then
          .clashed (applied owner raw args) (applied owner' raw' args')
            (.argumentCount args.length args'.length)
        else
          (Course.settled (applied owner raw args) (applied owner' raw' args')
            (.splitArguments args.length)).andThen fun _ => settleEach args args' :=
  if_neg h

theorem settle_applied_other {owner : Option Ty} {raw : Nominal} {args : List Ty}
    (hw : actual.isWildcard = false) (ha : actual.kind ≠ .applied) :
    (applied owner raw args).settle actual =
      .clashed (applied owner raw args) actual .notApplied := by
  cases actual with
  | wildcard site' upper' lower' => simp [isWildcard, kind] at hw
  | applied owner' raw' args' => simp [kind] at ha
  | _ => exact if_neg (by simp [agrees])

theorem settle_array {c d : Ty} (h : ¬ (array c).agrees actual = true)
    (hw : actual.isWildcard = false) (hd : actual.component? = some d) :
    (array c).settle actual =
      (Course.settled (array c) actual .splitComponents).andThen fun _ => c.settle d := by
  cases actual with
  | wildcard site' upper' lower' => simp [isWildcard, kind] at hw
  | _ =>
    refine (if_neg h).trans ?_
    simp only [hd]

theorem settle_array_other {c : Ty} (hw : actual.isWildcard = false)
    (hd : actual.component? = none) :
    (array c).settle actual = .clashed (array c) actual .notArray := by
  cases actual with
  | wildcard site' upper' lower' => simp [isWildcard, kind] at hw
  | array e => simp [component?] at hd
  | _ =>
    refine (if_neg (by simp [agrees])).trans ?_
    simp only [hd]

theorem settle_nominal {c : Nominal} (h : ¬ (nominal c).agrees actual = true)
    (hw : actual.isWildcard = false) :
    (nominal c).settle actual = .clashed (nominal c) actual (.otherType c) := by
  cases actual with
  | wildcard site' upper' lower' => simp [isWildcard, kind] at hw
  | _ => exact if_neg h

end Equations

/-! ## Part by part -/

section Parts

variable {formals actuals : List Ty} {owner owner' : Option Ty}

theorem succeeds_settleEach :
    (settleEach formals actuals).Succeeds ↔
      ∀ p ∈ formals.zip actuals, (p.1.settle p.2).Succeeds := by
  induction formals generalizing actuals with
  | nil => simp [settleEach, Course.succeeds_done]
  | cons f fs ih =>
    cases actuals with
    | nil => simp [settleEach, Course.succeeds_done]
    | cons a as =>
      rw [settleEach, Course.succeeds_andThen, ih, List.zip_cons_cons, List.forall_mem_cons]

theorem bindings_settleEach (h : ∀ p ∈ formals.zip actuals, (p.1.settle p.2).Succeeds) :
    (settleEach formals actuals).bindings =
      (formals.zip actuals).flatMap fun p => (p.1.settle p.2).bindings := by
  induction formals generalizing actuals with
  | nil => simp [settleEach, Course.bindings_done]
  | cons f fs ih =>
    cases actuals with
    | nil => simp [settleEach, Course.bindings_done]
    | cons a as =>
      rw [List.zip_cons_cons, List.forall_mem_cons] at h
      rw [settleEach, Course.bindings_andThen h.1, ih h.2, List.zip_cons_cons, List.flatMap_cons]

theorem mem_bindings_settleEach {e : VarKey × Ty} (h : e ∈ (settleEach formals actuals).bindings) :
    ∃ p ∈ formals.zip actuals, e ∈ (p.1.settle p.2).bindings := by
  induction formals generalizing actuals with
  | nil => simp [settleEach, Course.bindings_done] at h
  | cons f fs ih =>
    cases actuals with
    | nil => simp [settleEach, Course.bindings_done] at h
    | cons a as =>
      rw [settleEach] at h
      rcases Course.mem_bindings_andThen h with h | h
      · exact ⟨(f, a), List.mem_cons_self, h⟩
      · obtain ⟨p, hp, he⟩ := ih h
        exact ⟨p, List.mem_cons_of_mem _ hp, he⟩

theorem succeeds_settleOwners :
    (settleOwners owner owner').Succeeds ↔
      ∀ f ∈ owner, ∀ a ∈ owner', (f.settle a).Succeeds := by
  cases owner <;> cases owner' <;> simp [settleOwners, Course.succeeds_done]

theorem succeeds_settle_applied {raw raw' : Nominal} {args args' : List Ty}
    (h : ¬ (applied owner raw args).agrees (applied owner' raw' args') = true) :
    ((applied owner raw args).settle (applied owner' raw' args')).Succeeds ↔
      (settleOwners owner owner').Succeeds ∧ raw = raw' ∧ args.length = args'.length ∧
        (settleEach args args').Succeeds := by
  rw [settle_applied h, Course.succeeds_andThen]
  refine and_congr_right fun _ => ?_
  by_cases hr : raw = raw'
  · by_cases hl : args.length = args'.length
    · simp [hr, hl, Course.succeeds_andThen, Course.succeeds_settled]
    · simp [hr, hl, Course.not_succeeds_clashed]
  · simp [hr, Course.not_succeeds_clashed]

theorem bindings_settle_applied {raw : Nominal} {args args' : List Ty}
    (h : ¬ (applied owner raw args).agrees (applied owner' raw args') = true)
    (ho : (settleOwners owner owner').Succeeds) (hl : args.length = args'.length) :
    ((applied owner raw args).settle (applied owner' raw args')).bindings =
      (settleOwners owner owner').bindings ++ (settleEach args args').bindings := by
  rw [settle_applied h, Course.bindings_andThen ho, if_neg fun hr => hr rfl,
    if_neg fun hn => hn hl, Course.bindings_andThen (Course.succeeds_settled ..),
    Course.bindings_settled (by simp), List.nil_append]

end Parts

/-- Induction along a comparison: what holds of a pair if it holds of all pairs of parts that the
comparison looks at. -/
@[elab_as_elim]
theorem settle_induct {motive : Ty → Ty → Prop}
    (same : ∀ formal actual, formal.agrees actual = true → motive formal actual)
    (binds : ∀ k bounds actual, ¬ (var k bounds).agrees actual = true →
      motive (var k bounds) actual)
    (wildcards : ∀ site upper lower site' upper' lower',
      ¬ (wildcard site upper lower).agrees (wildcard site' upper' lower') = true →
      (∀ p ∈ upper.zip upper', motive p.1 p.2) → (∀ p ∈ lower.zip lower', motive p.1 p.2) →
      motive (wildcard site upper lower) (wildcard site' upper' lower'))
    (takes : ∀ site upper lower actual, actual.isWildcard = false →
      motive (wildcard site upper lower) actual)
    (satisfied : ∀ formal actual, formal.isWildcard = false → formal.key? = none →
      actual.isWildcard = true → motive formal actual)
    (application : ∀ owner raw args owner' raw' args',
      ¬ (applied owner raw args).agrees (applied owner' raw' args') = true →
      (∀ f ∈ owner, ∀ a ∈ owner', motive f a) → (∀ p ∈ args.zip args', motive p.1 p.2) →
      motive (applied owner raw args) (applied owner' raw' args'))
    (notApplied : ∀ owner raw args actual, actual.isWildcard = false → actual.kind ≠ .applied →
      motive (applied owner raw args) actual)
    (arrays : ∀ c actual d, ¬ (array c).agrees actual = true → actual.isWildcard = false →
      actual.component? = some d → motive c d → motive (array c) actual)
    (notArray : ∀ c actual, actual.isWildcard = false → actual.component? = none →
      motive (array c) actual)
    (otherType : ∀ c actual, ¬ (nominal c).agrees actual = true → actual.isWildcard = false →
      motive (nominal c) actual)
    (formal actual : Ty) : motive formal actual := by
  induction formal using induct generalizing actual with
  | nominal c =>
    by_cases h : (nominal c).agrees actual = true
    · exact same _ _ h
    · cases actual with
      | wildcard site upper lower => exact satisfied _ _ rfl rfl rfl
      | _ => exact otherType _ _ h rfl
  | applied owner raw args ho ha =>
    by_cases h : (applied owner raw args).agrees actual = true
    · exact same _ _ h
    · cases actual with
      | wildcard site upper lower => exact satisfied _ _ rfl rfl rfl
      | applied owner' raw' args' =>
        exact application _ _ _ _ _ _ h (fun f hf a _ => ho f hf a)
          fun p hp => ha p.1 (List.of_mem_zip hp).1 p.2
      | _ => exact notApplied _ _ _ _ rfl (by simp [kind])
  | array c ih =>
    by_cases h : (array c).agrees actual = true
    · exact same _ _ h
    · cases hw : actual.isWildcard with
      | true => exact satisfied _ _ rfl rfl hw
      | false =>
        cases hd : actual.component? with
        | none => exact notArray _ _ hw hd
        | some d => exact arrays _ _ d h hw hd (ih d)
  | wildcard site upper lower hu hl =>
    by_cases h : (wildcard site upper lower).agrees actual = true
    · exact same _ _ h
    · cases actual with
      | wildcard site' upper' lower' =>
        exact wildcards _ _ _ _ _ _ h (fun p hp => hu p.1 (List.of_mem_zip hp).1 p.2)
          fun p hp => hl p.1 (List.of_mem_zip hp).1 p.2
      | _ => exact takes _ _ _ _ rfl
  | var k bounds _ =>
    by_cases h : (var k bounds).agrees actual = true
    · exact same _ _ h
    · exact binds _ _ _ h

/-! ## Where bindings come from -/

/-- Comparing the first pair comes to comparing the second, a pair of parts. -/
inductive Meets : Ty × Ty → Ty × Ty → Prop where
  | upper {site site' : Option Nat} {upper lower upper' lower' : List Ty} {p : Ty × Ty}
      (hp : p ∈ upper.zip upper') :
      Meets (wildcard site upper lower, wildcard site' upper' lower') p
  | lower {site site' : Option Nat} {upper lower upper' lower' : List Ty} {p : Ty × Ty}
      (hp : p ∈ lower.zip lower') :
      Meets (wildcard site upper lower, wildcard site' upper' lower') p
  | owner {f a : Ty} {raw raw' : Nominal} {args args' : List Ty} :
      Meets (applied (some f) raw args, applied (some a) raw' args') (f, a)
  | arg {owner owner' : Option Ty} {raw raw' : Nominal} {args args' : List Ty} {p : Ty × Ty}
      (hp : p ∈ args.zip args') : Meets (applied owner raw args, applied owner' raw' args') p
  | component {c actual d : Ty} (hd : actual.component? = some d) : Meets (array c, actual) (c, d)

/-- **A binding comes from a variable that the comparison has come to**, together with a type that is
not this variable. -/
theorem exists_meets_of_mem_bindings {formal actual : Ty} {k : VarKey} {t : Ty}
    (h : (k, t) ∈ (formal.settle actual).bindings) :
    ∃ bounds, ReflTransGen Meets (formal, actual) (var k bounds, t) ∧
      ¬ (var k bounds).agrees t = true := by
  induction formal, actual using settle_induct with
  | same formal actual ha => simp [settle_of_agrees ha, Course.bindings_settled] at h
  | binds j bounds actual ha =>
    rw [settle_var ha, Course.bindings_settled_bind, List.mem_singleton, Prod.mk.injEq] at h
    obtain ⟨rfl, rfl⟩ := h
    exact ⟨bounds, .refl, ha⟩
  | wildcards site upper lower site' upper' lower' ha hu hl =>
    by_cases hn : upper.length = upper'.length ∧ lower.length = lower'.length
    · rw [settle_wildcards ha hn.1 hn.2, Course.bindings_andThen (Course.succeeds_settled ..),
        Course.bindings_settled (by simp), List.nil_append] at h
      rcases Course.mem_bindings_andThen h with h | h
      · obtain ⟨p, hp, hkt⟩ := mem_bindings_settleEach h
        obtain ⟨bounds, hrun, hne⟩ := hu p hp hkt
        exact ⟨bounds, hrun.head (.upper hp), hne⟩
      · obtain ⟨p, hp, hkt⟩ := mem_bindings_settleEach h
        obtain ⟨bounds, hrun, hne⟩ := hl p hp hkt
        exact ⟨bounds, hrun.head (.lower hp), hne⟩
    · rw [settle_wildcards_count (by omega)] at h
      simp [Course.bindings_clashed] at h
  | takes site upper lower actual hw =>
    simp [settle_wildcard_takes hw, Course.bindings_settled] at h
  | satisfied formal actual hf hk ha =>
    simp [settle_wildcard_satisfied hf hk ha, Course.bindings_settled] at h
  | application owner raw args owner' raw' args' ha ho has =>
    rw [settle_applied ha] at h
    rcases Course.mem_bindings_andThen h with h | h
    · cases owner <;> cases owner' <;>
        simp only [settleOwners, Course.bindings_done, List.not_mem_nil] at h
      obtain ⟨bounds, hrun, hne⟩ := ho _ rfl _ rfl h
      exact ⟨bounds, hrun.head .owner, hne⟩
    · split at h
      · simp [Course.bindings_clashed] at h
      · split at h
        · simp [Course.bindings_clashed] at h
        · rw [Course.bindings_andThen (Course.succeeds_settled ..),
            Course.bindings_settled (by simp), List.nil_append] at h
          obtain ⟨p, hp, hkt⟩ := mem_bindings_settleEach h
          obtain ⟨bounds, hrun, hne⟩ := has p hp hkt
          exact ⟨bounds, hrun.head (.arg hp), hne⟩
  | notApplied owner raw args actual hw ha =>
    simp [settle_applied_other hw ha, Course.bindings_clashed] at h
  | arrays c actual d ha hw hd ih =>
    rw [settle_array ha hw hd, Course.bindings_andThen (Course.succeeds_settled ..),
      Course.bindings_settled (by simp), List.nil_append] at h
    obtain ⟨bounds, hrun, hne⟩ := ih h
    exact ⟨bounds, hrun.head (.component hd), hne⟩
  | notArray c actual hw hd => simp [settle_array_other hw hd, Course.bindings_clashed] at h
  | otherType c actual ha hw => simp [settle_nominal ha hw, Course.bindings_clashed] at h

theorem Meets.mem_vars {p q : Ty × Ty} {k : VarKey} (h : Meets p q) (hk : k ∈ q.1.vars) :
    k ∈ p.1.vars := by
  cases h with
  | upper hp => exact mem_vars_wildcard.mpr (.inl ⟨q.1, (List.of_mem_zip hp).1, hk⟩)
  | lower hp => exact mem_vars_wildcard.mpr (.inr ⟨q.1, (List.of_mem_zip hp).1, hk⟩)
  | owner => exact mem_vars_applied.mpr (.inl ⟨_, rfl, hk⟩)
  | arg hp => exact mem_vars_applied.mpr (.inr ⟨q.1, (List.of_mem_zip hp).1, hk⟩)
  | component _ => rwa [vars_array]

/-- A comparison binds variables of the formal type only, and none of them to itself. -/
theorem of_mem_bindings_settle {formal actual : Ty} {k : VarKey} {t : Ty}
    (h : (k, t) ∈ (formal.settle actual).bindings) : k ∈ formal.vars ∧ t.key? ≠ some k := by
  obtain ⟨bounds, hrun, hne⟩ := exists_meets_of_mem_bindings h
  refine ⟨?_, fun hk => hne ?_⟩
  · have hback : ∀ p, ReflTransGen Meets p (var k bounds, t) → k ∈ p.1.vars := by
      intro p hp
      induction hp using ReflTransGen.head_induction_on with
      | refl => rw [vars_var]; exact List.mem_singleton_self k
      | head hstep _ ih => exact hstep.mem_vars ih
    exact hback _ hrun
  · cases t <;> simp [key?] at hk
    simp [agrees, hk]

end Ty

/-! ## Unification -/

theorem Unifier.bindings_noteAll (u : Unifier) (ds : List Decision) :
    (u.noteAll ds).bindings = u.bindings := by
  induction ds generalizing u with
  | nil => rfl
  | cons d ds ih =>
    have hnote : (u.note d).bindings = u.bindings := by
      unfold Unifier.note
      split <;> rfl
    rw [Unifier.noteAll, List.foldl_cons, ← Unifier.noteAll, ih, hnote]

/-- The bindings of a course never bind a variable to itself: types that agree are left alone before
anything is bound. -/
theorem selfFree_bindings (formal actual : Ty) :
    (Table.empty.insertAll (formal.settle actual).bindings).SelfFree :=
  Table.selfFree_empty.insertAll fun _ he => (Ty.of_mem_bindings_settle he).2

/-- **Unification yields the bindings of the course**, or the clash that ended it. -/
theorem unify_eq (formal actual : Ty) :
    unify formal actual =
      match (formal.settle actual).clash? with
      | some c => .error (.clash c)
      | none => .ok (Table.empty.insertAll (formal.settle actual).bindings) := by
  unfold unify Table.unify Unifier.unify
  cases hc : (formal.settle actual).clash? with
  | some c => simp only [hc]
  | none =>
    simp only [hc, Unifier.bindings_noteAll]
    rw [(selfFree_bindings formal actual).extend_entries, Table.empty_insertAll_entries]
    rfl

theorem unify_eq_ok_iff {formal actual : Ty} {s : Table} :
    unify formal actual = .ok s ↔
      (formal.settle actual).Succeeds ∧ s = Table.empty.insertAll (formal.settle actual).bindings := by
  rw [unify_eq, Course.Succeeds]
  cases (formal.settle actual).clash? with
  | some c => simp
  | none => simp [eq_comm]

theorem selfFree_of_unify {formal actual : Ty} {S : Table} (h : unify formal actual = .ok S) :
    S.SelfFree := by
  obtain ⟨-, rfl⟩ := unify_eq_ok_iff.mp h
  exact selfFree_bindings formal actual

end Generics
