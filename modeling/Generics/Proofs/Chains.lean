import Generics.Proofs.Idempotence
import Generics.Proofs.Links

/-!
# Generics.Proofs.Chains: what a chain of variables resolves to

A variable that is mapped to a variable starts a chain: the variable, its entry, the entry of that variable,
and so on.  `chain` lists the types on it by their places, `chainKey` the keys of the variables among them.

As long as no key stands twice on it, resolution follows the chain and puts up one shield over an entry
for every place that it leaves behind (`exists_shields_of_straight`).  There are two ways for this to end.

* A key stands on the chain for the second time.  Its shield is up, so the variable stays
  (`Repeats.resolve`).  The key is the one by which the chain enters its cycle
  (`exists_repeats_of_entry`).
* The chain comes to its end, a type that is no mapped variable.  No key has been met twice by then
  (`straight_of_end`), and what is left is to resolve that type.
-/

namespace Generics.Table

open Relation

variable {T : Table} {d e k : VarKey} {t : Ty} {i j m n : Nat}

/-! ## Chains -/

section Defs

variable (T k)

/-- The type at place `n` of the chain from `k`: at first the variable of `k` without bounds, and after
a variable the entry of its key.  Behind a type without such an entry there is nothing. -/
def chain : Nat → Option Ty
  | 0 => some (.ofKey k)
  | n + 1 => (chain n).bind fun t => t.key?.bind T.get?

/-- The key of the variable at place `n` of the chain from `k`. -/
def chainKey (n : Nat) : Option VarKey := (T.chain k n).bind Ty.key?

/-- No key stands at two of the first `n` places of the chain from `k`. -/
def Straight (n : Nat) : Prop :=
  ∀ j < n, ∀ i < j, ∀ e, T.chainKey k i = some e → T.chainKey k j ≠ some e

/-- The key `e` is the first to repeat on the chain from `k`, at place `n`. -/
structure Repeats (n : Nat) (e : VarKey) : Prop where
  again : T.chainKey k n = some e
  before : ∃ i < n, T.chainKey k i = some e
  straight : T.Straight k n

end Defs

section Chain

theorem chainKey_zero (T : Table) (k : VarKey) : T.chainKey k 0 = some k := rfl

theorem chain_succ (T : Table) (k : VarKey) (n : Nat) :
    T.chain k (n + 1) = (T.chainKey k n).bind T.get? := by
  show (T.chain k n).bind (fun t => t.key?.bind T.get?) = ((T.chain k n).bind Ty.key?).bind T.get?
  rw [Option.bind_assoc]

/-- From one place to the next the keys follow the links of the table. -/
theorem chainKey_succ (T : Table) (k : VarKey) (n : Nat) :
    T.chainKey k (n + 1) = (T.chainKey k n).bind T.follow? := by
  unfold chainKey
  rw [chain_succ, Option.bind_assoc]
  rfl

theorem chainKey_eq_some_iff :
    T.chainKey k n = some e ↔ ∃ bounds, T.chain k n = some (.var e bounds) := by
  unfold chainKey
  rw [Option.bind_eq_some_iff]
  constructor
  · rintro ⟨t, ht, he⟩
    obtain ⟨bounds, rfl⟩ := Ty.key?_eq_some_iff.mp he
    exact ⟨bounds, ht⟩
  · rintro ⟨bounds, ht⟩
    exact ⟨_, ht, rfl⟩

/-- After the same key the chain goes on in the same way. -/
theorem chainKey_add (h : T.chainKey k i = T.chainKey k j) (m : Nat) :
    T.chainKey k (i + m) = T.chainKey k (j + m) := by
  induction m with
  | zero => exact h
  | succ m ih => rw [← Nat.add_assoc, ← Nat.add_assoc, chainKey_succ, chainKey_succ, ih]

/-- A chain has no gaps. -/
theorem exists_chain_of_le (h : T.chain k n = some t) (hm : m ≤ n) : ∃ s, T.chain k m = some s := by
  induction n generalizing t with
  | zero =>
    obtain rfl : m = 0 := Nat.le_zero.mp hm
    exact ⟨t, h⟩
  | succ n ih =>
    rcases Nat.le_succ_iff.mp hm with hm | rfl
    · obtain ⟨s, hs, -⟩ := Option.bind_eq_some_iff.mp h
      exact ih hs hm
    · exact ⟨t, h⟩

/-- Links lead from a key of the chain to the keys at later places. -/
theorem transGen_links_of_lt (hi : T.chainKey k i = some d) (hj : T.chainKey k j = some e)
    (hij : i < j) : TransGen T.Links d e := by
  induction j generalizing e with
  | zero => exact absurd hij (Nat.not_lt_zero i)
  | succ j ih =>
    rw [chainKey_succ] at hj
    obtain ⟨c, hc, hce⟩ := Option.bind_eq_some_iff.mp hj
    rcases Nat.lt_succ_iff_lt_or_eq.mp hij with hij | rfl
    · exact (ih hc hij).tail hce
    · rw [hi] at hc
      cases hc
      exact .single hce

/-- What links lead to from a key of the chain stands at a later place. -/
theorem exists_lt_of_transGen (hi : T.chainKey k i = some d) (h : TransGen T.Links d e) :
    ∃ j, i < j ∧ T.chainKey k j = some e := by
  induction h with
  | single hde =>
    refine ⟨i + 1, Nat.lt_succ_self i, ?_⟩
    rw [chainKey_succ, hi]
    exact hde
  | tail _ hce ih =>
    obtain ⟨j, hij, hj⟩ := ih
    refine ⟨j + 1, Nat.lt_succ_of_lt hij, ?_⟩
    rw [chainKey_succ, hj]
    exact hce

theorem Straight.of_le (h : T.Straight k n) (hm : m ≤ n) : T.Straight k m :=
  fun j hj => h j (Nat.lt_of_lt_of_le hj hm)

theorem exists_of_not_straight (h : ¬ T.Straight k n) :
    ∃ i j e, i < j ∧ j < n ∧ T.chainKey k i = some e ∧ T.chainKey k j = some e := by
  refine Classical.byContradiction fun hno => h fun j hj i hij e hi he => ?_
  exact hno ⟨i, j, e, hij, hj, hi, he⟩

end Chain

/-! ## Resolution along a chain -/

section Resolution

/-- **Resolution follows a chain** as long as no key repeats.  The shields that are up are those over the
entries of the keys at the places that it has left. -/
theorem exists_shields_of_straight (hs : T.Straight k n) (ht : T.chain k n = some t) :
    ∃ g : Shields, (∀ e, g.cover e = true ↔ ∃ i < n, T.chainKey k i = some e) ∧
      T.resolve (.ofKey k) = T.resolveUnder g t := by
  induction n generalizing t with
  | zero =>
    cases ht
    exact ⟨[], by simp, rfl⟩
  | succ n ih =>
    rw [chain_succ] at ht
    obtain ⟨d, hd, hentry⟩ := Option.bind_eq_some_iff.mp ht
    obtain ⟨bounds, hvar⟩ := chainKey_eq_some_iff.mp hd
    obtain ⟨g, hcover, hresolve⟩ := ih (hs.of_le (Nat.le_succ n)) hvar
    have hopen : ¬ g.cover d = true := by
      intro hg
      obtain ⟨i, hi, hid⟩ := (hcover d).mp hg
      exact hs n (Nat.lt_succ_self n) i hi d hid hd
    refine ⟨.entry d :: g, fun e => ?_, ?_⟩
    · rw [Shields.cover_entry, hcover, Nat.exists_lt_succ_right, hd, Option.some.injEq, or_comm]
    · rw [hresolve, resolveUnder_mapped T bounds hopen hentry]

/-- **Where a key repeats, its variable stays.** -/
theorem Repeats.resolve (h : T.Repeats k n e) : T.chain k n = some (T.resolve (.ofKey k)) := by
  obtain ⟨bounds, hvar⟩ := chainKey_eq_some_iff.mp h.again
  obtain ⟨g, hcover, hresolve⟩ := exists_shields_of_straight h.straight hvar
  rw [hresolve, resolveUnder_covered T bounds ((hcover e).mpr h.before), hvar]

theorem Repeats.key?_resolve (h : T.Repeats k n e) : (T.resolve (.ofKey k)).key? = some e := by
  have hkey := h.again
  unfold chainKey at hkey
  rwa [h.resolve, Option.bind_some] at hkey

/-- If keys repeat, one of them does so first. -/
theorem exists_repeats (hij : i < j) (hi : T.chainKey k i = some e) (hj : T.chainKey k j = some e) :
    ∃ n d, T.Repeats k n d := by
  induction j using Nat.strongRecOn generalizing i e with
  | _ j ih =>
    by_cases hs : T.Straight k j
    · exact ⟨j, e, hj, ⟨i, hij, hi⟩, hs⟩
    · obtain ⟨a, b, d, hab, hbj, ha, hb⟩ := exists_of_not_straight hs
      exact ih b hbj hab ha hb

/-- **The first key to repeat is the entry to the cycle**, the first key of the chain that links lead back
to.  The induction is on the place where that key is met again: any other key that repeats before lies on
the cycle too, and cutting out the way between its two places leads to an earlier one. -/
theorem exists_repeats_of_entry (hm : T.chainKey k m = some e) (hcycle : TransGen T.Links e e)
    (hfirst : ∀ i < m, ∀ d, T.chainKey k i = some d → ¬ TransGen T.Links d d) :
    ∃ n, T.Repeats k n e := by
  obtain ⟨n, hmn, hn⟩ := exists_lt_of_transGen hm hcycle
  induction n using Nat.strongRecOn with
  | _ n ih =>
    by_cases hs : T.Straight k n
    · exact ⟨n, hn, ⟨m, hmn, hm⟩, hs⟩
    · obtain ⟨a, b, d, hab, hbn, ha, hb⟩ := exists_of_not_straight hs
      have hma : m ≤ a := Nat.le_of_not_lt fun ham =>
        hfirst a ham d ha (transGen_links_of_lt ha hb hab)
      have hshift : T.chainKey k (a + (n - b)) = T.chainKey k (b + (n - b)) :=
        chainKey_add (ha.trans hb.symm) (n - b)
      rw [Nat.add_sub_cancel' (Nat.le_of_lt hbn), hn] at hshift
      exact ih (a + (n - b)) (by omega) (by omega) hshift

/-- A chain that comes to an end has not met a key twice: if it had, it would have come to its end before
the second time. -/
theorem straight_of_end (ht : T.chain k n = some t) (hend : T.chain k (n + 1) = none) :
    T.Straight k n := by
  intro j hj i hij e hi he
  have hshift : T.chainKey k (i + (n - j)) = T.chainKey k (j + (n - j)) :=
    chainKey_add (hi.trans he.symm) (n - j)
  rw [Nat.add_sub_cancel' (Nat.le_of_lt hj)] at hshift
  obtain ⟨s, hs⟩ := exists_chain_of_le ht (show i + (n - j) + 1 ≤ n by omega)
  rw [chain_succ, hshift, ← chain_succ, hend] at hs
  cases hs

/-- At the end of a chain there is left to resolve what stands there. -/
theorem exists_shields_of_end (ht : T.chain k n = some t) (hend : T.chain k (n + 1) = none) :
    ∃ g : Shields, T.resolve (.ofKey k) = T.resolveUnder g t := by
  obtain ⟨g, -, hresolve⟩ := exists_shields_of_straight (straight_of_end ht hend) ht
  exact ⟨g, hresolve⟩

/-- A chain to a normal type without variables resolves to that type. -/
theorem resolve_identical_of_chain (ht : T.chain k n = some t) (hn : t.normal = true)
    (hvars : t.allVars = []) : (T.resolve (.ofKey k)).identical t = true := by
  have hkey : T.chainKey k n = none := by
    cases hc : T.chainKey k n with
    | none => rfl
    | some e =>
      obtain ⟨bounds, hvar⟩ := chainKey_eq_some_iff.mp hc
      rw [ht] at hvar
      cases hvar
      cases hvars
  have hend : T.chain k (n + 1) = none := by rw [chain_succ, hkey, Option.bind_none]
  obtain ⟨g, hresolve⟩ := exists_shields_of_end ht hend
  rw [hresolve, Ty.identical_iff]
  exact unsited_resolveUnder_of_unmapped hn (by simp [hvars]) g

/-- A chain to an unmapped variable without bounds resolves to that variable. -/
theorem resolve_eq_of_chain (ht : T.chain k n = some (.ofKey e)) (he : T.get? e = none) :
    T.resolve (.ofKey k) = .ofKey e := by
  have hkey : T.chainKey k n = some e := chainKey_eq_some_iff.mpr ⟨[], ht⟩
  have hend : T.chain k (n + 1) = none := by rw [chain_succ, hkey, Option.bind_some, he]
  obtain ⟨g, hresolve⟩ := exists_shields_of_end ht hend
  rw [hresolve, resolveUnder_ofKey_unmapped T g he]

end Resolution

/-! ## The main result -/

/-- **What a chain of variables resolves to**, whatever scopes its variables belong to.  If keys repeat on
the chain from `k`, one of them is the first to do so, and the variable of `k` resolves to the variable of
that key, as it stands on the chain.  So it resolves to itself if links lead back to `k`, and otherwise to
the first variable of the chain to which they lead back.  If the chain ends in a normal type without
variables, or in an unmapped variable without bounds, it resolves to that type. -/
theorem resolve_follows_chain (T : Table) (k : VarKey) :
    (∀ i j e, i < j → T.chainKey k i = some e → T.chainKey k j = some e → ∃ n d, T.Repeats k n d) ∧
      (∀ n e, T.Repeats k n e →
        (T.resolve (.ofKey k)).key? = some e ∧ T.chain k n = some (T.resolve (.ofKey k))) ∧
      (TransGen T.Links k k → (T.resolve (.ofKey k)).key? = some k) ∧
      (∀ m e, T.chainKey k m = some e → TransGen T.Links e e →
        (∀ i < m, ∀ d, T.chainKey k i = some d → ¬ TransGen T.Links d d) →
          (T.resolve (.ofKey k)).key? = some e) ∧
      (∀ n t, T.chain k n = some t → t.normal = true → t.allVars = [] →
        (T.resolve (.ofKey k)).identical t = true) ∧
      ∀ n e, T.chain k n = some (.ofKey e) → T.get? e = none → T.resolve (.ofKey k) = .ofKey e := by
  have hentry : ∀ m e, T.chainKey k m = some e → TransGen T.Links e e →
      (∀ i < m, ∀ d, T.chainKey k i = some d → ¬ TransGen T.Links d d) →
        (T.resolve (.ofKey k)).key? = some e := by
    intro m e hm hcycle hfirst
    obtain ⟨n, hn⟩ := exists_repeats_of_entry hm hcycle hfirst
    exact hn.key?_resolve
  refine ⟨fun i j e hij hi hj => exists_repeats hij hi hj,
    fun n e h => ⟨h.key?_resolve, h.resolve⟩, fun hcycle => ?_, hentry,
    fun n t => resolve_identical_of_chain, fun n e => resolve_eq_of_chain⟩
  exact hentry 0 k (chainKey_zero T k) hcycle fun i hi => absurd hi (Nat.not_lt_zero i)

/-- `A` stands for `B extends Number`, `B` for `P`, and `P` for `B` again.  Beside this, `C` stands for `D` and
`D` for `List<? extends String>`, and `F` stands for `G`, which stands for nothing. -/
def lasso : Table :=
  empty.insertAll
    [(⟨.type "Box", "A"⟩, .var ⟨.type "Box", "B"⟩ [.plain "Number"]),
      (⟨.type "Box", "B"⟩, .ofKey ⟨.method "Box" "of", "P"⟩),
      (⟨.method "Box" "of", "P"⟩, .ofKey ⟨.type "Box", "B"⟩),
      (⟨.type "Box", "C"⟩, .ofKey ⟨.type "Box", "D"⟩),
      (⟨.type "Box", "D"⟩, .applied none (.plain "List") [.wildcard (some 7) [.plain "String"] []]),
      (⟨.type "Box", "F"⟩, .ofKey ⟨.constructor "Box", "G"⟩)]

/-- From `A` the chain is `A`, `B`, `P`, `B`: it enters its cycle at `B`, whose scope is that of `A`, and `A`
resolves to `B`.  On the cycle `P` resolves to itself.  The other two chains resolve to their ends. -/
theorem resolve_follows_chain_lasso :
    let A : VarKey := ⟨.type "Box", "A"⟩
    let B : VarKey := ⟨.type "Box", "B"⟩
    let P : VarKey := ⟨.method "Box" "of", "P"⟩
    let C : VarKey := ⟨.type "Box", "C"⟩
    let F : VarKey := ⟨.type "Box", "F"⟩
    let G : VarKey := ⟨.constructor "Box", "G"⟩
    let strings : Ty := .applied none (.plain "List") [.extending (.plain "String")]
    (lasso.Repeats A 3 B ∧ lasso.resolve (.ofKey A) = .ofKey B) ∧
      (TransGen lasso.Links B B ∧ ¬ TransGen lasso.Links A A ∧
        (lasso.resolve (.ofKey A)).key? = some B) ∧
      (TransGen lasso.Links P P ∧ (lasso.resolve (.ofKey P)).key? = some P) ∧
      (lasso.resolve (.ofKey C)).identical strings = true ∧
      lasso.resolve (.ofKey F) = .ofKey G := by
  intro A B P C F G strings
  have hrepeats : lasso.Repeats A 3 B := by
    refine ⟨rfl, ⟨1, by decide, rfl⟩, fun j hj i hij e hi he => ?_⟩
    have hne : ∀ j < 3, ∀ i < j, lasso.chainKey A i ≠ lasso.chainKey A j := by decide
    exact hne j hj i hij (hi.trans he.symm)
  have hB : TransGen lasso.Links B B := .head (b := P) rfl (.single rfl)
  have hP : TransGen lasso.Links P P := .head (b := B) rfl (.single rfl)
  have hA : ¬ TransGen lasso.Links A A := by
    intro h
    obtain ⟨c, -, hc⟩ := TransGen.tail'_iff.mp h
    obtain ⟨bounds, hget⟩ := links_iff.mp hc
    have hkeys : ∀ e ∈ lasso.entries, e.2.key? ≠ some A := by decide
    exact hkeys _ (mem_of_get? hget) rfl
  obtain ⟨-, hfirst, -, hentry, -, -⟩ := resolve_follows_chain lasso A
  obtain ⟨-, -, hcycle, -, -, -⟩ := resolve_follows_chain lasso P
  obtain ⟨-, -, -, -, hplain, -⟩ := resolve_follows_chain lasso C
  obtain ⟨-, -, -, -, -, hfree⟩ := resolve_follows_chain lasso F
  refine ⟨⟨hrepeats, ?_⟩, ⟨hB, hA, ?_⟩, ⟨hP, hcycle hP⟩, ?_, hfree 1 G rfl rfl⟩
  · exact (Option.some.inj (hfirst 3 B hrepeats).2).symm
  · refine hentry 1 B rfl hB fun i hi d hd => ?_
    obtain rfl : i = 0 := by omega
    cases hd
    exact hA
  · have hend := Ty.identical_iff.mp (hplain 2 _ rfl (by decide) rfl)
    exact Ty.identical_iff.mpr hend

end Generics.Table
