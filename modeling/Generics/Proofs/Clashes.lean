import Generics.Proofs.Rollback

/-!
# Generics.Proofs.Clashes: where a comparison fails, and why

The clash that ends a comparison names a formal and an actual type.  They are a pair of parts that the
comparison has come to, they are in the relation that the reason of the clash names
(`Clash.Reason.Holds`), and comparing them on their own fails in the same way (`Ty.Localized`).

A clash arises at any depth, after owners and other parts have been compared and variables bound.  That
it can be had again from its pair alone is due to the course of a comparison being determined by the two
types: a clash is raised by the pair that it names (`Ty.Localized.here`), and handed on unchanged by the
pairs around it (`Ty.Localized.within`).
-/

namespace Generics

open Relation

/-! ## Reasons -/

/-- What the reason of a clash says about the formal and the actual type. -/
inductive Clash.Reason.Holds : Clash.Reason → Ty → Ty → Prop where
  | boundCount {site site' : Option Nat} {upper lower upper' lower' : List Ty}
      (h : upper.length ≠ upper'.length ∨ lower.length ≠ lower'.length) :
      Holds .boundCount (.wildcard site upper lower) (.wildcard site' upper' lower')
  | notApplied {owner : Option Ty} {raw : Nominal} {args : List Ty} {actual : Ty}
      (hw : actual.isWildcard = false) (h : actual.kind ≠ .applied) :
      Holds .notApplied (.applied owner raw args) actual
  | differentClass {owner owner' : Option Ty} {raw raw' : Nominal} {args args' : List Ty}
      (h : raw ≠ raw') :
      Holds (.differentClass raw raw') (.applied owner raw args) (.applied owner' raw' args')
  | argumentCount {owner owner' : Option Ty} {raw : Nominal} {args args' : List Ty}
      (h : args.length ≠ args'.length) :
      Holds (.argumentCount args.length args'.length) (.applied owner raw args)
        (.applied owner' raw args')
  | notArray {c actual : Ty} (hw : actual.isWildcard = false) (h : actual.component? = none) :
      Holds .notArray (.array c) actual
  | otherType {c : Nominal} {actual : Ty} (hw : actual.isWildcard = false)
      (h : ¬ (Ty.nominal c).agrees actual = true) : Holds (.otherType c) (.nominal c) actual

/-- No two reasons hold of one pair. -/
theorem Clash.Reason.Holds.unique {r r' : Clash.Reason} {formal actual : Ty}
    (h : r.Holds formal actual) (h' : r'.Holds formal actual) : r' = r := by
  cases h with
  | boundCount _ => cases h'; rfl
  | notApplied _ ha =>
    cases h' with
    | notApplied _ _ => rfl
    | differentClass _ => exact absurd rfl ha
    | argumentCount _ => exact absurd rfl ha
  | differentClass hr =>
    cases h' with
    | notApplied _ ha => exact absurd rfl ha
    | differentClass _ => rfl
    | argumentCount _ => exact absurd rfl hr
  | argumentCount _ =>
    cases h' with
    | notApplied _ ha => exact absurd rfl ha
    | differentClass hr => exact absurd rfl hr
    | argumentCount _ => rfl
  | notArray _ _ => cases h'; rfl
  | otherType _ _ => cases h'; rfl

/-! ## How clashes are handed on -/

namespace Course

theorem clash?_andThen {c : Course} {next : Unit → Course} {clash : Clash}
    (h : (c.andThen next).clash? = some clash) :
    c.clash? = some clash ∨ (next ()).clash? = some clash := by
  cases hc : c.clash? with
  | none =>
    rw [andThen_of_succeeds hc] at h
    exact .inr h
  | some clash' =>
    rw [andThen, hc] at h
    exact .inl (hc.symm.trans h)

theorem clash?_settled_andThen {formal actual : Ty} {verdict : Verdict} {next : Unit → Course}
    {clash : Clash} (h : ((settled formal actual verdict).andThen next).clash? = some clash) :
    (next ()).clash? = some clash :=
  h

end Course

namespace Ty

theorem clash?_settleEach {formals actuals : List Ty} {c : Clash}
    (h : (settleEach formals actuals).clash? = some c) :
    ∃ p ∈ formals.zip actuals, (p.1.settle p.2).clash? = some c := by
  induction formals generalizing actuals with
  | nil => cases h
  | cons f fs ih =>
    cases actuals with
    | nil => cases h
    | cons a as =>
      rcases Course.clash?_andThen h with h | h
      · exact ⟨(f, a), List.mem_cons_self, h⟩
      · obtain ⟨p, hp, hc⟩ := ih h
        exact ⟨p, List.mem_cons_of_mem _ hp, hc⟩

theorem clash?_settleOwners {owner owner' : Option Ty} {c : Clash}
    (h : (settleOwners owner owner').clash? = some c) :
    ∃ f ∈ owner, ∃ a ∈ owner', (f.settle a).clash? = some c := by
  cases owner with
  | none => cases h
  | some f =>
    cases owner' with
    | none => cases h
    | some a => exact ⟨f, rfl, a, rfl, h⟩

/-! ## Clashes and their pairs -/

/-- The clash is due to a pair of parts of the two types: the comparison comes to that pair, its reason
holds of it, and comparing the pair ends in the same clash. -/
structure Localized (p : Ty × Ty) (c : Clash) : Prop where
  meets : ReflTransGen Meets p (c.formal, c.actual)
  holds : c.reason.Holds c.formal c.actual
  again : (c.formal.settle c.actual).clash? = some c

theorem Localized.within {p q : Ty × Ty} {c : Clash} (h : Localized q c) (hpq : Meets p q) :
    Localized p c :=
  ⟨h.meets.head hpq, h.holds, h.again⟩

theorem Localized.here {formal actual : Ty} {reason : Clash.Reason} {c : Clash}
    (hr : reason.Holds formal actual) (h : (formal.settle actual).clash? = some c)
    (hc : some ⟨formal, actual, reason⟩ = some c) : Localized (formal, actual) c := by
  cases hc
  exact ⟨.refl, hr, h⟩

/-- **A clash is due to the pair that it names.** -/
theorem localized_of_clash {formal actual : Ty} {c : Clash}
    (h : (formal.settle actual).clash? = some c) : Localized (formal, actual) c := by
  induction formal, actual using settle_induct with
  | same formal actual ha =>
    rw [settle_of_agrees ha] at h
    cases h
  | binds k bounds actual ha =>
    rw [settle_var ha] at h
    cases h
  | wildcards site upper lower site' upper' lower' ha hu hl =>
    have hc := h
    by_cases hn : upper.length = upper'.length ∧ lower.length = lower'.length
    · rw [settle_wildcards ha hn.1 hn.2] at hc
      rcases Course.clash?_andThen (Course.clash?_settled_andThen hc) with hc | hc
      · obtain ⟨p, hp, hc⟩ := clash?_settleEach hc
        exact (hu p hp hc).within (.upper hp)
      · obtain ⟨p, hp, hc⟩ := clash?_settleEach hc
        exact (hl p hp hc).within (.lower hp)
    · have hcount : upper.length ≠ upper'.length ∨ lower.length ≠ lower'.length := by omega
      rw [settle_wildcards_count hcount] at hc
      exact .here (.boundCount hcount) h hc
  | takes site upper lower actual hw =>
    rw [settle_wildcard_takes hw] at h
    cases h
  | satisfied formal actual hf hk ha =>
    rw [settle_wildcard_satisfied hf hk ha] at h
    cases h
  | application owner raw args owner' raw' args' ha ho has =>
    have hc := h
    rw [settle_applied ha] at hc
    rcases Course.clash?_andThen hc with hc | hc
    · obtain ⟨f, rfl, a, rfl, hc⟩ := clash?_settleOwners hc
      exact (ho f rfl a rfl hc).within .owner
    · by_cases hr : raw = raw'
      · subst hr
        rw [if_neg fun hr => hr rfl] at hc
        by_cases hl : args.length = args'.length
        · rw [if_neg fun hn => hn hl] at hc
          obtain ⟨p, hp, hc⟩ := clash?_settleEach (Course.clash?_settled_andThen hc)
          exact (has p hp hc).within (.arg hp)
        · rw [if_pos hl] at hc
          exact .here (.argumentCount hl) h hc
      · rw [if_pos hr] at hc
        exact .here (.differentClass hr) h hc
  | notApplied owner raw args actual hw ha =>
    have hc := h
    rw [settle_applied_other hw ha] at hc
    exact .here (.notApplied hw ha) h hc
  | arrays component actual d ha hw hd ih =>
    rw [settle_array ha hw hd] at h
    exact (ih (Course.clash?_settled_andThen h)).within (.component hd)
  | notArray component actual hw hd =>
    have hc := h
    rw [settle_array_other hw hd] at hc
    exact .here (.notArray hw hd) h hc
  | otherType class' actual ha hw =>
    have hc := h
    rw [settle_nominal ha hw] at hc
    exact .here (.otherType hw ha) h hc

/-- The formal types that a comparison comes to are parts of the one it started from. -/
theorem Meets.mem_nodes {p q : Ty × Ty} (h : Meets p q) : q.1 ∈ p.1.nodes := by
  cases h with
  | upper hp =>
    exact mem_nodes_wildcard.mpr (.inr (.inl ⟨q.1, (List.of_mem_zip hp).1, self_mem_nodes _⟩))
  | lower hp =>
    exact mem_nodes_wildcard.mpr (.inr (.inr ⟨q.1, (List.of_mem_zip hp).1, self_mem_nodes _⟩))
  | owner => exact mem_nodes_applied.mpr (.inr (.inl ⟨_, rfl, self_mem_nodes _⟩))
  | arg hp =>
    exact mem_nodes_applied.mpr (.inr (.inr ⟨q.1, (List.of_mem_zip hp).1, self_mem_nodes _⟩))
  | component _ => exact mem_nodes_array.mpr (.inr (self_mem_nodes _))

theorem mem_nodes_of_meets {p q : Ty × Ty} (h : ReflTransGen Meets p q) : q.1 ∈ p.1.nodes := by
  induction h with
  | refl => exact self_mem_nodes _
  | tail _ hlast ih => exact mem_nodes_trans ih hlast.mem_nodes

end Ty

/-! ## The main result -/

/-- **A failed unification says where it failed and why, and fails there again.**  It fails with a clash,
whose formal type is a part of the whole one, and which is a pair of parts that the comparison has come
to; its reason, and no other, holds of the pair; and unifying the pair fails with the same clash, on its
own and whatever a unifier holds already. -/
theorem unify_clash_localized {F A : Ty} {e : Failure} (h : unify F A = .error e) :
    ∃ c : Clash, e = .clash c ∧ c.formal ∈ F.nodes ∧
      ReflTransGen Ty.Meets (F, A) (c.formal, c.actual) ∧
      (∀ r : Clash.Reason, r.Holds c.formal c.actual ↔ r = c.reason) ∧
      unify c.formal c.actual = .error e ∧
      ∀ u : Unifier, (u.unify c.formal c.actual).1 = .error c := by
  rw [unify_eq] at h
  cases hc : (F.settle A).clash? with
  | none =>
    rw [hc] at h
    cases h
  | some c =>
    rw [hc] at h
    cases h
    obtain ⟨hmeets, hholds, hagain⟩ := Ty.localized_of_clash hc
    refine ⟨c, rfl, Ty.mem_nodes_of_meets hmeets, hmeets, fun r => ?_, ?_, fun u => ?_⟩
    · exact ⟨hholds.unique, fun hr => hr ▸ hholds⟩
    · rw [unify_eq, hagain]
    · rw [Unifier.unify_of_clash hagain]

/-- The type variable `V extends int[]` holds `int` where an array is asked for, so `Pair<T, List<T>[]>`
fails against `Pair<String, V>` at `List<T>` and `int`, after `T` has been bound. -/
theorem unify_clash_localized_intArray :
    let T : Ty := .ofKey ⟨.type "Box", "T"⟩
    let V : Ty := .var ⟨.method "Box" "of", "V"⟩ [.nominal ⟨"int", 1⟩]
    let list : Ty := .applied none (.plain "List") [T]
    let F : Ty := .applied none (.plain "Pair") [T, .array list]
    let A : Ty := .applied none (.plain "Pair") [.plain "String", V]
    let c : Clash := ⟨list, .plain "int", .notApplied⟩
    unify F A = .error (.clash c) ∧ list ∈ F.nodes ∧
      ReflTransGen Ty.Meets (F, A) (list, .plain "int") ∧
      (∀ r : Clash.Reason, r.Holds list (.plain "int") ↔ r = .notApplied) ∧
      unify list (.plain "int") = .error (.clash c) ∧
      ∀ u : Unifier, (u.unify list (.plain "int")).1 = .error c := by
  intro T V list F A c
  have hfails : unify F A = .error (.clash c) := rfl
  obtain ⟨c', hc', hlocal⟩ := unify_clash_localized hfails
  cases hc'
  exact ⟨hfails, hlocal⟩

end Generics
