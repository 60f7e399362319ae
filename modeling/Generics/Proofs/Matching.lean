import Generics.Proofs.Acyclic
import Generics.Proofs.Unification
import Mathlib.Data.List.Forall2

/-!
# Generics.Proofs.Matching: unification decides matching

On types without wildcards unification is matching, if no variable occurs twice in the formal type or
also in the actual one, and owners are where both types agree that they should be (`Regular`).

* Completeness: a type unifies with each of its instances (`Regular.succeeds_settle`).
* Soundness: the bindings of a comparison that succeeds make the formal type into the actual one
  (`Regular.solves`).  They are collected part by part, as `Solves` says.

The table of the bindings is flat, because no bound variable occurs in a value; so resolving with it
is substituting the bindings (`unify_decides_matching`).  An instance counts only if its arrays can be
counted: the array of a class with as many dimensions as can be counted is no array any more.
-/

namespace Generics

namespace Ty

/-- A type built without wildcards, whose variables have no bounds, and in which a class stands
inside an owner exactly if `owned` says so. -/
structure Regular (owned : Nominal → Bool) (t : Ty) : Prop where
  constructed : t.Constructed
  wildcardFree : ∀ s ∈ t.nodes, s.isWildcard = false
  unbounded : ∀ k bounds, var k bounds ∈ t.nodes → bounds = []
  owners : ∀ owner raw args, applied owner raw args ∈ t.nodes → owner.isSome = owned raw

section Regular

variable {owned : Nominal → Bool} {s t c d : Ty}

theorem Regular.of_mem_nodes (h : t.Regular owned) (hs : s ∈ t.nodes) : s.Regular owned where
  constructed := constructed_of_normal (normal_of_mem_nodes h.constructed.normal hs)
  wildcardFree r hr := h.wildcardFree r (mem_nodes_trans hs hr)
  unbounded k bounds hk := h.unbounded k bounds (mem_nodes_trans hs hk)
  owners owner raw args ha := h.owners owner raw args (mem_nodes_trans hs ha)

theorem Regular.owner {owner : Option Ty} {raw : Nominal} {args : List Ty}
    (h : (applied owner raw args).Regular owned) (ho : s ∈ owner) : s.Regular owned :=
  h.of_mem_nodes (mem_nodes_applied.mpr (.inr (.inl ⟨s, ho, self_mem_nodes s⟩)))

theorem Regular.arg {owner : Option Ty} {raw : Nominal} {args : List Ty}
    (h : (applied owner raw args).Regular owned) (ha : s ∈ args) : s.Regular owned :=
  h.of_mem_nodes (mem_nodes_applied.mpr (.inr (.inr ⟨s, ha, self_mem_nodes s⟩)))

theorem Regular.inArray (h : (array c).Regular owned) : c.Regular owned :=
  h.of_mem_nodes (mem_nodes_array.mpr (.inr (self_mem_nodes c)))

theorem Regular.isWildcard (h : t.Regular owned) : t.isWildcard = false :=
  h.wildcardFree t (self_mem_nodes t)

theorem regular_nominal (c : Nominal) : (nominal c).Regular owned where
  constructed := .nominal c
  wildcardFree s hs := by rw [mem_nodes_nominal.mp hs]; rfl
  unbounded k bounds hk := by cases mem_nodes_nominal.mp hk
  owners owner raw args ha := by cases mem_nodes_nominal.mp ha

/-- What an array holds is regular again, and the array is the array of it: without bounds to look
into, only arrays are array-shaped. -/
theorem Regular.component (h : t.Regular owned) (hd : t.component? = some d) :
    d.Regular owned ∧ d.isFull = false ∧ d.arrayOf = t ∧ d.vars = t.vars := by
  cases t with
  | nominal c =>
    rw [component?, Option.map_eq_some_iff] at hd
    obtain ⟨e, he, rfl⟩ := hd
    obtain ⟨harray, hfull⟩ := Nominal.array_of_component? he
    exact ⟨regular_nominal e, hfull, by rw [arrayOf_nominal, harray], by simp⟩
  | applied owner raw args => simp [component?] at hd
  | array c =>
    rw [component?, Option.some.injEq] at hd
    subst hd
    have hf := (normal_array.mp h.constructed.normal).1
    exact ⟨h.inArray, isFull_of_not_folds hf, arrayOf_of_not_folds hf, by simp⟩
  | wildcard site upper lower => cases h.isWildcard
  | var k bounds =>
    obtain rfl := h.unbounded k bounds (self_mem_nodes _)
    simp [component?, firstComponent?] at hd

/-- A type that is an array up to bounds holds the type that the array is of. -/
theorem Regular.exists_component (h : t.Regular owned) (hd : t.skeleton = d.arrayOf)
    (hfull : d.isFull = false) : ∃ e, t.component? = some e ∧ e.skeleton = d := by
  have hw : d.arrayOf.isWildcard = false := by
    rw [← hd, isWildcard_skeleton]
    exact h.isWildcard
  have hcomp := component?_arrayOf hw hfull
  rw [← hd] at hcomp
  cases t with
  | nominal c =>
    rw [skeleton_nominal, component?, Option.map_eq_some_iff] at hcomp
    obtain ⟨e, he, rfl⟩ := hcomp
    exact ⟨nominal e, by rw [component?, he, Option.map_some], by simp⟩
  | array c =>
    rw [skeleton_array, component?, Option.some.injEq] at hcomp
    exact ⟨c, by rw [component?], hcomp⟩
  | wildcard site upper lower => cases h.isWildcard
  | _ => simp [component?, firstComponent?, ofKey] at hcomp

theorem map_eq_map_iff_zip {f g : Ty → Ty} {xs ys : List Ty} :
    xs.map f = ys.map g ↔ xs.length = ys.length ∧ ∀ p ∈ xs.zip ys, f p.1 = g p.2 := by
  rw [← List.forall₂_eq_eq_eq, List.forall₂_map_left_iff, List.forall₂_map_right_iff,
    List.forall₂_iff_zip, Prod.forall]

/-- **Completeness.**  A regular type unifies with every regular instance of itself whose arrays can be
counted. -/
theorem Regular.succeeds_settle {formal actual : Ty} (hF : formal.Regular owned)
    (hA : actual.Regular owned) {σ : VarKey → Option Ty}
    (h : formal.skeleton.subst σ = actual.skeleton)
    (hfull : ∀ c, array c ∈ formal.nodes → (c.skeleton.subst σ).isFull = false) :
    (formal.settle actual).Succeeds := by
  induction formal using induct generalizing actual with
  | nominal c =>
    rw [skeleton_nominal, subst_nominal] at h
    rw [settle_of_agrees (agrees_iff.mpr (by rw [skeleton_nominal, h]))]
    exact Course.succeeds_settled ..
  | applied owner raw args ho ha =>
    refine succeeds_settle_of fun hne => ?_
    rw [skeleton_applied, subst_applied] at h
    cases actual with
    | applied owner' raw' args' =>
      rw [skeleton_applied, applied.injEq, Option.map_map, List.map_map, map_eq_map_iff_zip] at h
      obtain ⟨howner, hraw, hlen, hargs⟩ := h
      refine (succeeds_settle_applied hne).mpr ⟨succeeds_settleOwners.mpr ?_, hraw, hlen,
        succeeds_settleEach.mpr ?_⟩
      · intro o hm o' hm'
        cases hm
        cases hm'
        exact ho o rfl (hF.owner rfl) (hA.owner rfl) (Option.some.inj howner) fun c hc =>
          hfull c (mem_nodes_applied.mpr (.inr (.inl ⟨o, rfl, hc⟩)))
      · intro p hp
        obtain ⟨hm, hm'⟩ := List.of_mem_zip hp
        exact ha p.1 hm (hF.arg hm) (hA.arg hm') (hargs p hp) fun c hc =>
          hfull c (mem_nodes_applied.mpr (.inr (.inr ⟨p.1, hm, hc⟩)))
    | _ => simp [ofKey] at h
  | array c ih =>
    refine succeeds_settle_of fun hne => ?_
    rw [skeleton_array, subst_array] at h
    obtain ⟨e, he, hskel⟩ := hA.exists_component h.symm (hfull c (self_mem_nodes _))
    rw [settle_array hne hA.isWildcard he, Course.succeeds_andThen]
    refine ⟨Course.succeeds_settled .., ih hF.inArray (hA.component he).1 hskel.symm fun d hd => ?_⟩
    exact hfull d (mem_nodes_array.mpr (.inr hd))
  | wildcard site upper lower _ _ => cases hF.isWildcard
  | var k bounds _ =>
    refine succeeds_settle_of fun hne => ?_
    rw [settle_var hne]
    exact Course.succeeds_settled ..

/-- The bindings name the variables of the formal types in order, they are taken from the actual
types, and substituting them makes the formal types into the actual ones, with arrays that can be
counted. -/
structure Solves (bs : List (VarKey × Ty)) (formals actuals : List Ty) : Prop where
  keys : bs.map Prod.fst = formals.flatMap vars
  values : ∀ e ∈ bs, e.2.normal = true ∧ ∀ j ∈ e.2.vars, j ∈ actuals.flatMap vars
  subst : ∀ σ : VarKey → Option Ty, (∀ e ∈ bs, σ e.1 = some e.2.skeleton) →
    formals.map (fun f => f.skeleton.subst σ) = actuals.map skeleton
  counted : ∀ σ : VarKey → Option Ty, (∀ e ∈ bs, σ e.1 = some e.2.skeleton) →
    ∀ f ∈ formals, ∀ c, Ty.array c ∈ f.nodes → (c.skeleton.subst σ).isFull = false

theorem solves_nil : Solves [] [] [] where
  keys := rfl
  values := by simp
  subst _ _ := rfl
  counted _ _ := by simp

theorem Solves.append {bs cs : List (VarKey × Ty)} {fs as fs' as' : List Ty}
    (h : Solves bs fs as) (h' : Solves cs fs' as') : Solves (bs ++ cs) (fs ++ fs') (as ++ as') where
  keys := by rw [List.map_append, h.keys, h'.keys, List.flatMap_append]
  values e he := by
    rw [List.flatMap_append]
    rcases List.mem_append.mp he with he | he
    · exact ⟨(h.values e he).1, fun j hj => List.mem_append_left _ ((h.values e he).2 j hj)⟩
    · exact ⟨(h'.values e he).1, fun j hj => List.mem_append_right _ ((h'.values e he).2 j hj)⟩
  subst σ hσ := by
    rw [List.map_append, List.map_append, h.subst σ fun e he => hσ e (List.mem_append_left _ he),
      h'.subst σ fun e he => hσ e (List.mem_append_right _ he)]
  counted σ hσ f hf := by
    rcases List.mem_append.mp hf with hf | hf
    · exact h.counted σ (fun e he => hσ e (List.mem_append_left _ he)) f hf
    · exact h'.counted σ (fun e he => hσ e (List.mem_append_right _ he)) f hf

theorem Solves.applied {bs cs : List (VarKey × Ty)} {owner owner' : Option Ty}
    {args args' : List Ty} (ho : Solves bs owner.toList owner'.toList) (ha : Solves cs args args')
    (raw : Nominal) : Solves (bs ++ cs) [applied owner raw args] [applied owner' raw args'] where
  keys := by
    rw [(ho.append ha).keys, List.flatMap_append, List.flatMap_singleton, vars_applied]
  values e he := by
    rw [List.flatMap_singleton, vars_applied, ← List.flatMap_append]
    exact (ho.append ha).values e he
  subst σ hσ := by
    have howner := ho.subst σ fun e he => hσ e (List.mem_append_left _ he)
    have hargs := ha.subst σ fun e he => hσ e (List.mem_append_right _ he)
    have hopt : owner.map (fun f => f.skeleton.subst σ) = owner'.map skeleton := by
      cases owner <;> cases owner' <;> simp_all
    simp only [List.map_singleton, skeleton_applied, subst_applied, Option.map_map, List.map_map]
    rw [← hopt, ← hargs]
    rfl
  counted σ hσ f hf c hc := by
    rw [List.mem_singleton.mp hf] at hc
    have hparts := (ho.append ha).counted σ hσ
    obtain h | ⟨o, hm, hc⟩ | ⟨a, hm, hc⟩ := mem_nodes_applied.mp hc
    · cases h
    · exact hparts o (List.mem_append_left _ (Option.mem_toList.mpr hm)) c hc
    · exact hparts a (List.mem_append_right _ hm) c hc

theorem Solves.subst_singleton {bs : List (VarKey × Ty)} (h : Solves bs [c] [d])
    {σ : VarKey → Option Ty} (hσ : ∀ e ∈ bs, σ e.1 = some e.2.skeleton) :
    c.skeleton.subst σ = d.skeleton := by
  simpa using h.subst σ hσ

theorem Solves.array {bs : List (VarKey × Ty)} (h : Solves bs [c] [d]) (hfull : d.isFull = false)
    (hd : d.arrayOf = t) (hv : d.vars = t.vars) : Solves bs [array c] [t] where
  keys := by simpa using h.keys
  values := by simpa [hv] using h.values
  subst σ hσ := by
    rw [List.map_singleton, List.map_singleton, skeleton_array, subst_array, h.subst_singleton hσ,
      ← skeleton_arrayOf, hd]
  counted σ hσ f hf e he := by
    rw [List.mem_singleton.mp hf] at he
    obtain heq | he := mem_nodes_array.mp he
    · cases heq
      rw [h.subst_singleton hσ, isFull_skeleton, hfull]
    · exact h.counted σ hσ c List.mem_cons_self e he

/-- Types that agree and share no variable have none, so there is nothing to bind. -/
theorem solves_nil_of_agrees (ha : c.agrees d = true) (hn : c.normal = true)
    (hdisj : ∀ k ∈ d.vars, k ∉ c.vars) : Solves [] [c] [d] := by
  have hskel : c.skeleton = d.skeleton := agrees_iff.mp ha
  have hvars : c.vars = [] := by
    rw [List.eq_nil_iff_forall_not_mem]
    intro k hk
    refine hdisj k ?_ hk
    rwa [← vars_skeleton, ← hskel, vars_skeleton]
  have hself : ∀ e ∈ c.nodes, ∀ σ : VarKey → Option Ty, e.skeleton.subst σ = e.skeleton := by
    intro e he σ
    refine subst_eq_self (normal_skeleton (normal_of_mem_nodes hn he)) fun k bounds hk => ?_
    have hmem := mem_vars_iff.mpr ⟨bounds, hk⟩
    rw [vars_skeleton] at hmem
    obtain ⟨bounds', hk'⟩ := mem_vars_iff.mp hmem
    have hkc := mem_vars_iff.mpr ⟨bounds', mem_nodes_trans he hk'⟩
    simp [hvars] at hkc
  refine ⟨by simp [hvars], by simp, fun σ _ => ?_, fun σ _ f hf e he => ?_⟩
  · rw [List.map_singleton, List.map_singleton, hself c (self_mem_nodes c), hskel]
  · rw [List.mem_singleton.mp hf] at he
    have hfolds : e.folds = false := (normal_array.mp (normal_of_mem_nodes hn he)).1
    have hec : e ∈ c.nodes := mem_nodes_trans he (mem_nodes_array.mpr (.inr (self_mem_nodes e)))
    rw [hself e hec, isFull_skeleton, isFull_of_not_folds hfolds]

theorem solves_settleOwners {owner owner' : Option Ty} (hsome : owner.isSome = owner'.isSome)
    (h : ∀ o ∈ owner, ∀ o' ∈ owner', Solves (o.settle o').bindings [o] [o']) :
    Solves (settleOwners owner owner').bindings owner.toList owner'.toList := by
  cases owner with
  | none =>
    cases owner' with
    | none => exact solves_nil
    | some o' => simp at hsome
  | some o =>
    cases owner' with
    | none => simp at hsome
    | some o' => exact h o rfl o' rfl

theorem solves_flatMap_zip {fs as : List Ty} (hl : fs.length = as.length)
    (h : ∀ p ∈ fs.zip as, Solves (p.1.settle p.2).bindings [p.1] [p.2]) :
    Solves ((fs.zip as).flatMap fun p => (p.1.settle p.2).bindings) fs as := by
  induction fs generalizing as with
  | nil =>
    cases as with
    | nil => exact solves_nil
    | cons a as => simp at hl
  | cons f fs ih =>
    cases as with
    | nil => simp at hl
    | cons a as =>
      rw [List.zip_cons_cons, List.forall_mem_cons] at h
      have htail := ih (by simpa using hl) h.2
      have := h.1.append htail
      rwa [← List.flatMap_cons (f := fun p : Ty × Ty => (p.1.settle p.2).bindings)] at this

/-- **Soundness.**  If a regular type unifies with one that has none of its variables, the bindings
make the first into the second. -/
theorem Regular.solves {formal actual : Ty} (hF : formal.Regular owned)
    (hA : actual.Regular owned) (hdisj : ∀ k ∈ actual.vars, k ∉ formal.vars)
    (h : (formal.settle actual).Succeeds) :
    Solves (formal.settle actual).bindings [formal] [actual] := by
  induction formal, actual using settle_induct with
  | same formal actual ha =>
    rw [settle_of_agrees ha, Course.bindings_settled (by simp)]
    exact solves_nil_of_agrees ha hF.constructed.normal hdisj
  | binds k bounds actual ha =>
    rw [settle_var ha, Course.bindings_settled_bind]
    refine ⟨by simp, by simpa using hA.constructed.normal, fun σ hσ => ?_, fun σ _ f hf c hc => ?_⟩
    · have hk : σ k = some actual.skeleton := hσ (k, actual) List.mem_cons_self
      rw [List.map_singleton, List.map_singleton, skeleton_var, subst_ofKey, hk, Option.getD_some]
    · rw [List.mem_singleton.mp hf] at hc
      cases mem_nodes_var.mp hc
  | wildcards site upper lower site' upper' lower' ha _ _ => cases hF.isWildcard
  | takes site upper lower actual hw => cases hF.isWildcard
  | satisfied formal actual hf hk ha => exact absurd ha (by simp [hA.isWildcard])
  | application owner raw args owner' raw' args' ha ho has =>
    obtain ⟨hso, rfl, hlen, hse⟩ := (succeeds_settle_applied ha).mp h
    have hparts := succeeds_settleEach.mp hse
    have hsome : owner.isSome = owner'.isSome := by
      rw [hF.owners _ _ _ (self_mem_nodes _), hA.owners _ _ _ (self_mem_nodes _)]
    rw [bindings_settle_applied ha hso hlen, bindings_settleEach hparts]
    refine (solves_settleOwners hsome fun o hm o' hm' => ?_).applied
      (solves_flatMap_zip hlen fun p hp => ?_) raw
    · refine ho o hm o' hm' (hF.owner hm) (hA.owner hm') (fun k hk hk' => ?_)
        (succeeds_settleOwners.mp hso o hm o' hm')
      exact hdisj k (mem_vars_applied.mpr (.inl ⟨o', hm', hk⟩))
        (mem_vars_applied.mpr (.inl ⟨o, hm, hk'⟩))
    · obtain ⟨hm, hm'⟩ := List.of_mem_zip hp
      refine has p hp (hF.arg hm) (hA.arg hm') (fun k hk hk' => ?_) (hparts p hp)
      exact hdisj k (mem_vars_applied.mpr (.inr ⟨p.2, hm', hk⟩))
        (mem_vars_applied.mpr (.inr ⟨p.1, hm, hk'⟩))
  | notApplied owner raw args actual hw ha =>
    rw [settle_applied_other hw ha] at h
    exact (Course.not_succeeds_clashed _ _ _ h).elim
  | arrays c actual d ha hw hd ih =>
    obtain ⟨hreg, hfull, harray, hvars⟩ := hA.component hd
    rw [settle_array ha hw hd, Course.succeeds_andThen] at h
    rw [settle_array ha hw hd, Course.bindings_andThen (Course.succeeds_settled ..),
      Course.bindings_settled (by simp), List.nil_append]
    rw [vars_array] at hdisj
    exact (ih hF.inArray hreg (by rwa [hvars]) h.2).array hfull harray hvars
  | notArray c actual hw hd =>
    rw [settle_array_other hw hd] at h
    exact (Course.not_succeeds_clashed _ _ _ h).elim
  | otherType c actual ha hw =>
    rw [settle_nominal ha hw] at h
    exact (Course.not_succeeds_clashed _ _ _ h).elim

end Regular

end Ty

theorem Ty.Solves.resolve_agrees {bs : List (VarKey × Ty)} {F A : Ty} (h : Ty.Solves bs [F] [A])
    (hlin : F.vars.Nodup) (hdisj : ∀ k ∈ A.vars, k ∉ F.vars) :
    ((Table.empty.insertAll bs).resolve F).agrees A = true ∧
      (∀ c, .array c ∈ F.nodes → ((Table.empty.insertAll bs).resolve c).isFull = false) ∧
      ∀ k, (Table.empty.insertAll bs).contains k = true ↔ k ∈ F.freeKeys := by
  have hkeys : bs.map Prod.fst = F.vars := by simpa using h.keys
  have hget : ∀ e ∈ bs, (Table.empty.insertAll bs).get? e.1 = some e.2 := fun e he =>
    Table.get?_insertAll_of_mem (by rwa [hkeys]) he _
  have hnone : ∀ k, k ∉ F.vars → (Table.empty.insertAll bs).get? k = none := fun k hk =>
    Table.get?_insertAll_of_not_mem (by rwa [hkeys]) _
  have hflat : (Table.empty.insertAll bs).Flat := by
    intro k t hk
    rcases Table.mem_or_get?_of_insertAll hk with hmem | hempty
    · obtain ⟨hn, hv⟩ := h.values (k, t) hmem
      refine ⟨Ty.normal_skeleton hn, fun j hj => hnone j (hdisj j ?_)⟩
      simpa using hv j hj
    · simp at hempty
  have himage : ∀ e ∈ bs, some ((Table.empty.insertAll bs).image [] e.1) = some e.2.skeleton :=
    fun e he => by rw [Table.image_of_flat hflat, hget e he, Option.getD_some]
  refine ⟨?_, fun c hc => ?_, fun k => ?_⟩
  · rw [Ty.agrees_iff, Table.skeleton_resolve]
    exact h.subst_singleton himage
  · rw [← Ty.isFull_skeleton, Table.skeleton_resolve]
    exact h.counted _ himage F List.mem_cons_self c hc
  · rw [Ty.mem_freeKeys]
    by_cases hk : k ∈ F.vars
    · rw [← hkeys] at hk
      obtain ⟨e, he, rfl⟩ := List.mem_map.mp hk
      refine iff_of_true (Table.contains_of_get? (hget e he)) ?_
      rwa [hkeys] at hk
    · exact iff_of_false (Table.not_contains_iff.mpr (hnone k hk)) hk

/-- **Unification decides matching.**  A linear pattern without wildcards unifies with a type that
shares no variable with it exactly if the type is an instance of it in which no array of the pattern is
the array of a class that has as many dimensions as can be counted; the table found makes the pattern
into the type, and maps the variables of the pattern and no others. -/
theorem unify_decides_matching {owned : Nominal → Bool} {F A : Ty} (hF : F.Regular owned)
    (hA : A.Regular owned) (hlin : F.vars.Nodup) (hdisj : ∀ k ∈ A.vars, k ∉ F.vars) :
    ((∃ s, unify F A = .ok s) ↔
        ∃ t : Table, (t.resolve F).agrees A = true ∧
          ∀ c, .array c ∈ F.nodes → (t.resolve c).isFull = false) ∧
      ∀ s, unify F A = .ok s →
        (s.resolve F).agrees A = true ∧ ∀ k, s.contains k = true ↔ k ∈ F.freeKeys := by
  have hsound : ∀ s, unify F A = .ok s → (s.resolve F).agrees A = true ∧
      (∀ c, .array c ∈ F.nodes → (s.resolve c).isFull = false) ∧
      ∀ k, s.contains k = true ↔ k ∈ F.freeKeys := by
    intro s hs
    obtain ⟨hsucceeds, rfl⟩ := unify_eq_ok_iff.mp hs
    exact (hF.solves hA hdisj hsucceeds).resolve_agrees hlin hdisj
  refine ⟨⟨fun ⟨s, hs⟩ => ⟨s, (hsound s hs).1, (hsound s hs).2.1⟩, fun ⟨t, ht, hfull⟩ => ?_⟩,
    fun s hs => ⟨(hsound s hs).1, (hsound s hs).2.2⟩⟩
  rw [Ty.agrees_iff, Table.skeleton_resolve] at ht
  refine ⟨_, unify_eq_ok_iff.mpr ⟨hF.succeeds_settle hA ht fun c hc => ?_, rfl⟩⟩
  rw [← Table.skeleton_resolve, Ty.isFull_skeleton]
  exact hfull c hc

/-- `Outer<A>.Inner<B[]>` against `Outer<Integer>.Inner<String[][]>`. -/
theorem unify_decides_matching_inner :
    let owned : Nominal → Bool := fun c => decide (c = .plain "Inner")
    let F : Ty := .applied (some (.applied none (.plain "Outer") [.ofKey ⟨.type "Outer", "A"⟩]))
      (.plain "Inner") [.array (.ofKey ⟨.type "Inner", "B"⟩)]
    let A : Ty := .applied (some (.applied none (.plain "Outer") [.plain "Integer"]))
      (.plain "Inner") [.nominal ⟨"String", 2⟩]
    F.Regular owned ∧ A.Regular owned ∧ F.vars.Nodup ∧ (∀ k ∈ A.vars, k ∉ F.vars) ∧
      (∃ s, unify F A = .ok s) ∧
      ((∃ s, unify F A = .ok s) ↔
        ∃ t : Table, (t.resolve F).agrees A = true ∧
          ∀ c, .array c ∈ F.nodes → (t.resolve c).isFull = false) ∧
      ∀ s, unify F A = .ok s →
        (s.resolve F).agrees A = true ∧ ∀ k, s.contains k = true ↔ k ∈ F.freeKeys := by
  intro owned F A
  have hF : F.Regular owned := by
    refine ⟨by decide, by decide, fun k bounds hk => ?_, fun owner raw args ha => ?_⟩
    · simp [F, Ty.nodes, Ty.nodesOwner, Ty.nodesEach, Ty.ofKey] at hk
      rcases hk with ⟨-, rfl⟩ | ⟨-, rfl⟩ <;> rfl
    · simp [F, Ty.nodes, Ty.nodesOwner, Ty.nodesEach, Ty.ofKey] at ha
      rcases ha with ⟨rfl, rfl, -⟩ | ⟨rfl, rfl, -⟩ <;> rfl
  have hA : A.Regular owned := by
    refine ⟨by decide, by decide, fun k bounds hk => ?_, fun owner raw args ha => ?_⟩
    · simp [A, Ty.nodes, Ty.nodesOwner, Ty.nodesEach, Ty.plain] at hk
    · simp [A, Ty.nodes, Ty.nodesOwner, Ty.nodesEach, Ty.plain] at ha
      rcases ha with ⟨rfl, rfl, -⟩ | ⟨rfl, rfl, -⟩ <;> rfl
  have hlin : F.vars.Nodup := by decide
  have hdisj : ∀ k ∈ A.vars, k ∉ F.vars := by decide
  exact ⟨hF, hA, hlin, hdisj, ⟨_, rfl⟩, unify_decides_matching hF hA hlin hdisj⟩

/-- `String` is the instance of `T[]` under `fullBox`, but does not unify with it. -/
theorem unify_decides_matching_fullBox :
    let owned : Nominal → Bool := fun _ => false
    let F : Ty := .array (.ofKey ⟨.type "Box", "T"⟩)
    let A : Ty := .plain "String"
    F.Regular owned ∧ A.Regular owned ∧ F.vars.Nodup ∧ (∀ k ∈ A.vars, k ∉ F.vars) ∧
      (Table.fullBox.resolve F).agrees A = true ∧
      unify F A = .error (.clash ⟨F, A, .notArray⟩) := by
  intro owned F A
  have hF : F.Regular owned := by
    refine ⟨by decide, by decide, fun k bounds hk => ?_, fun owner raw args ha => ?_⟩
    · simp [F, Ty.nodes, Ty.ofKey] at hk
      exact hk.2
    · simp [F, Ty.nodes, Ty.ofKey] at ha
  refine ⟨hF, Ty.regular_nominal _, by decide, by decide, ?_, rfl⟩
  rw [Table.resolve_array_fullBox]
  exact Ty.agrees_refl A

end Generics
