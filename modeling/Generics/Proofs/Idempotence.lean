import Generics.Proofs.Descent
import Generics.Proofs.Identity

/-!
# Generics.Proofs.Idempotence: resolving twice

Resolving a resolved type changes nothing, the bounds of variables included, if no key of the table
leads back to itself through the variables of its entry, those inside bounds included
(`resolve_idempotent`).

Inside bounds resolution shields whole scopes, so a resolved type may well hold mapped variables.  The
reason that they stay is that the second pass comes to them under the same shields over bounds as the
first: an entry takes the place of its variable, and the shields over entries, which are gone by then,
never covered anything (`Clear.call`).
-/

namespace Generics

open Relation

/-! ## All variables of a type -/

namespace Ty

variable {k : VarKey}

mutual

/-- The keys of the variables of a type, also inside the bounds of variables. -/
def allVars : Ty → List VarKey
  | nominal _ => []
  | applied owner _ args => allVarsOwner owner ++ allVarsEach args
  | array c => allVars c
  | wildcard _ upper lower => allVarsEach upper ++ allVarsEach lower
  | var k bounds => k :: allVarsEach bounds

/-- All variables of an owner. -/
def allVarsOwner : Option Ty → List VarKey
  | none => []
  | some o => allVars o

/-- All variables of the types of a list. -/
def allVarsEach : List Ty → List VarKey
  | [] => []
  | t :: ts => allVars t ++ allVarsEach ts

end

theorem mem_allVarsEach {ts : List Ty} : k ∈ allVarsEach ts ↔ ∃ t ∈ ts, k ∈ allVars t := by
  induction ts with
  | nil => simp [allVarsEach]
  | cons t ts ih => simp [allVarsEach, ih]

theorem mem_allVars_applied {owner : Option Ty} {raw : Nominal} {args : List Ty} :
    k ∈ allVars (applied owner raw args) ↔
      (∃ o ∈ owner, k ∈ allVars o) ∨ ∃ a ∈ args, k ∈ allVars a := by
  show k ∈ allVarsOwner owner ++ allVarsEach args ↔ _
  rw [List.mem_append, mem_allVarsEach]
  cases owner <;> simp [allVarsOwner]

theorem mem_allVars_wildcard {site : Option Nat} {upper lower : List Ty} :
    k ∈ allVars (wildcard site upper lower) ↔
      (∃ b ∈ upper, k ∈ allVars b) ∨ ∃ b ∈ lower, k ∈ allVars b := by
  show k ∈ allVarsEach upper ++ allVarsEach lower ↔ _
  rw [List.mem_append, mem_allVarsEach, mem_allVarsEach]

theorem mem_allVars_var {j : VarKey} {bounds : List Ty} :
    k ∈ allVars (var j bounds) ↔ k = j ∨ ∃ b ∈ bounds, k ∈ allVars b := by
  show k ∈ j :: allVarsEach bounds ↔ _
  rw [List.mem_cons, mem_allVarsEach]

end Ty

/-- The shields over bounds alone: those that a second pass meets. -/
def Shields.standing (g : Shields) : Shields := g.scopes.map .bounds

theorem Shields.cover_standing {g : Shields} {k : VarKey} :
    g.standing.cover k = true ↔ k.scope ∈ g.scopes := by
  unfold standing
  induction g.scopes with
  | nil => simp
  | cons s ss ih =>
    rw [List.map_cons, cover_bounds, ih, List.mem_cons, eq_comm]

namespace Table

variable {T : Table} {g h : Shields} {k : VarKey} {s t : Ty}

/-! ## Tables without cycles, bounds included -/

section Touches

variable (T)

/-- The variable `j` occurs anywhere in the entry of `k`, also inside the bounds of variables. -/
def Touches (k j : VarKey) : Prop := ∃ t, T.get? k = some t ∧ j ∈ t.allVars

/-- No key leads back to itself through the variables that occur anywhere in its entry. -/
def DeeplyAcyclic : Prop := ∀ k, ¬ TransGen T.Touches k k

variable {T}

/-- A table whose entries hold only variables of lower rank has no cycles. -/
theorem deeplyAcyclic_of_rank (rank : VarKey → Nat)
    (hr : ∀ k t, T.get? k = some t → ∀ j ∈ t.allVars, rank j < rank k) : T.DeeplyAcyclic := by
  have hlt : ∀ k j, TransGen T.Touches k j → rank j < rank k := by
    intro k j hkj
    induction hkj with
    | single hstep =>
      obtain ⟨t, ht, hj⟩ := hstep
      exact hr _ t ht _ hj
    | tail _ hstep ih =>
      obtain ⟨t, ht, hj⟩ := hstep
      exact Nat.lt_trans (hr _ t ht _ hj) ih
  intro k hk
  exact Nat.lt_irrefl _ (hlt k k hk)

end Touches

/-! ## Shields that cover nothing -/

section Clear

/-- No variable of the type leads to a key whose entry is being resolved. -/
def Clear (T : Table) (g : Shields) (t : Ty) : Prop :=
  ∀ k ∈ g.opened, ∀ v ∈ t.allVars, ¬ ReflTransGen T.Touches v k

theorem clear_nil (T : Table) (t : Ty) : T.Clear [] t := by
  intro k hk
  cases hk

theorem Clear.of_subset (hc : T.Clear g t) (hgh : h.opened = g.opened)
    (hst : ∀ v ∈ s.allVars, v ∈ t.allVars) : T.Clear h s := by
  intro k hk v hv
  exact hc k (hgh ▸ hk) v (hst v hv)

/-- What resolution goes on to is as clear: if the entry of a key led back to the key, the table had
a cycle. -/
theorem Clear.call (hT : T.DeeplyAcyclic) (hc : T.Clear g t) (hcall : T.Calls (g, t) (h, s)) :
    T.Clear h s := by
  cases hcall with
  | owner =>
    exact hc.of_subset rfl fun v hv => Ty.mem_allVars_applied.mpr (.inl ⟨s, rfl, hv⟩)
  | arg ha => exact hc.of_subset rfl fun v hv => Ty.mem_allVars_applied.mpr (.inr ⟨s, ha, hv⟩)
  | component => exact hc.of_subset rfl fun v hv => hv
  | upper hb => exact hc.of_subset rfl fun v hv => Ty.mem_allVars_wildcard.mpr (.inl ⟨s, hb, hv⟩)
  | lower hb => exact hc.of_subset rfl fun v hv => Ty.mem_allVars_wildcard.mpr (.inr ⟨s, hb, hv⟩)
  | @entry _ k bounds _ _ hk =>
    intro j hj v hv hvj
    have hkv : T.Touches k v := ⟨s, hk, hv⟩
    rcases List.mem_cons.mp hj with rfl | hj
    · exact hT j (TransGen.head' hkv hvj)
    · exact hc j hj k (Ty.mem_allVars_var.mpr (.inl rfl)) (.head hkv hvj)
  | bound _ _ hb => exact hc.of_subset rfl fun v hv => Ty.mem_allVars_var.mpr (.inr ⟨s, hb, hv⟩)

/-- Over a variable that is clear, only the shields over bounds count. -/
theorem Clear.cover_standing {bounds : List Ty} (hc : T.Clear g (.var k bounds)) :
    g.standing.cover k = true ↔ g.cover k = true := by
  rw [Shields.cover_standing, Shields.cover_iff]
  refine (or_iff_right fun hk => ?_).symm
  exact hc k hk k (Ty.mem_allVars_var.mpr (.inl rfl)) .refl

end Clear

/-! ## Resolution up to sites -/

section Unsited

/-- Up to sites, an unmapped variable gets its resolved bounds, whether or not they are new. -/
theorem unsited_resolveUnder_unmapped (bounds : List Ty) (hg : ¬ g.cover k = true)
    (hk : T.get? k = none) :
    (T.resolveUnder g (.var k bounds)).unsited =
      .var k ((bounds.map (T.resolveUnder (.bounds k.scope :: g))).map Ty.unsited) := by
  rw [resolveUnder_unmapped T bounds hg hk]
  split
  · next hsame => rw [Ty.unsited_var, ← Ty.identicalEach_iff.mp hsame]
  · rw [Ty.unsited_var]

/-- Resolution does not look at sites. -/
theorem unsited_resolveUnder_unsited (T : Table) (g : Shields) (t : Ty) :
    (T.resolveUnder g t.unsited).unsited = (T.resolveUnder g t).unsited := by
  induction t using Ty.induct generalizing g with
  | nominal c => rw [Ty.unsited_nominal]
  | applied owner raw args ho ha =>
    simp only [Ty.unsited_applied, resolveUnder_applied, Option.map_map, List.map_map,
      Ty.applied.injEq, true_and]
    exact ⟨Option.map_congr fun o hm => ho o hm g, List.map_congr_left fun a hm => ha a hm g⟩
  | array c ih =>
    rw [Ty.unsited_array, resolveUnder_array, resolveUnder_array, Ty.unsited_arrayOf, ih,
      Ty.unsited_arrayOf]
  | wildcard site upper lower hu hl =>
    simp only [Ty.unsited_wildcard, resolveUnder_wildcard, List.map_map, Ty.wildcard.injEq, true_and]
    exact ⟨List.map_congr_left fun b hm => hu b hm g, List.map_congr_left fun b hm => hl b hm g⟩
  | var k bounds hb =>
    by_cases hg : g.cover k = true
    · rw [resolveUnder_covered T _ hg, Ty.unsited_var, resolveUnder_covered T _ hg, ← Ty.unsited_var,
        Ty.unsited_unsited]
    · rw [Ty.unsited_var]
      cases hk : T.get? k with
      | some t => rw [resolveUnder_mapped T _ hg hk, resolveUnder_mapped T _ hg hk]
      | none =>
        rw [unsited_resolveUnder_unmapped _ hg hk, unsited_resolveUnder_unmapped _ hg hk]
        simp only [List.map_map, Ty.var.injEq, true_and]
        exact List.map_congr_left fun b hm => hb b hm _

/-- Lists that are equal up to sites are still so after resolution. -/
theorem unsited_resolveUnder_congr {ss ts : List Ty} (g : Shields)
    (hst : ss.map Ty.unsited = ts.map Ty.unsited) :
    (ss.map (T.resolveUnder g)).map Ty.unsited = (ts.map (T.resolveUnder g)).map Ty.unsited := by
  have herase : ∀ us : List Ty, (us.map (T.resolveUnder g)).map Ty.unsited =
      (us.map Ty.unsited).map fun u => (T.resolveUnder g u).unsited := by
    intro us
    rw [List.map_map, List.map_map]
    exact List.map_congr_left fun u _ => (unsited_resolveUnder_unsited T g u).symm
  rw [herase ss, hst, ← herase ts]

/-- A normal type none of whose variables is mapped, be it inside bounds, stays as it is up to sites. -/
theorem unsited_resolveUnder_of_unmapped (hn : t.normal = true)
    (hk : ∀ k ∈ t.allVars, T.get? k = none) (g : Shields) :
    (T.resolveUnder g t).unsited = t.unsited := by
  induction t using Ty.induct generalizing g with
  | nominal c => rw [resolveUnder_nominal]
  | applied owner raw args ho ha =>
    obtain ⟨hno, hna⟩ := Ty.normal_applied.mp hn
    simp only [resolveUnder_applied, Ty.unsited_applied, Option.map_map, List.map_map,
      Ty.applied.injEq, true_and]
    refine ⟨Option.map_congr fun o hm => ?_, List.map_congr_left fun a hm => ?_⟩
    · exact ho o hm (hno o hm) (fun k h => hk k (Ty.mem_allVars_applied.mpr (.inl ⟨o, hm, h⟩))) g
    · exact ha a hm (hna a hm) (fun k h => hk k (Ty.mem_allVars_applied.mpr (.inr ⟨a, hm, h⟩))) g
  | array c ih =>
    obtain ⟨hf, hc⟩ := Ty.normal_array.mp hn
    have hf' : c.unsited.folds = false := by rw [Ty.folds_unsited, hf]
    rw [resolveUnder_array, Ty.unsited_arrayOf, ih hc hk, Ty.arrayOf_of_not_folds hf',
      Ty.unsited_array]
  | wildcard site upper lower hu hl =>
    obtain ⟨hnu, hnl⟩ := Ty.normal_wildcard.mp hn
    simp only [resolveUnder_wildcard, Ty.unsited_wildcard, List.map_map, Ty.wildcard.injEq, true_and]
    refine ⟨List.map_congr_left fun b hm => ?_, List.map_congr_left fun b hm => ?_⟩
    · exact hu b hm (hnu b hm) (fun k h => hk k (Ty.mem_allVars_wildcard.mpr (.inl ⟨b, hm, h⟩))) g
    · exact hl b hm (hnl b hm) (fun k h => hk k (Ty.mem_allVars_wildcard.mpr (.inr ⟨b, hm, h⟩))) g
  | var k bounds hb =>
    by_cases hg : g.cover k = true
    · rw [resolveUnder_covered T bounds hg]
    · rw [unsited_resolveUnder_unmapped bounds hg (hk k (Ty.mem_allVars_var.mpr (.inl rfl))),
        Ty.unsited_var, List.map_map]
      congr 1
      refine List.map_congr_left fun b hm => ?_
      exact hb b hm (Ty.normal_var.mp hn b hm)
        (fun j h => hk j (Ty.mem_allVars_var.mpr (.inr ⟨b, hm, h⟩))) _

/-- Resolving an array and building the array of what is resolved are the same. -/
theorem resolveUnder_arrayOf (T : Table) (g : Shields) (t : Ty) :
    T.resolveUnder g t.arrayOf = (T.resolveUnder g t).arrayOf := by
  induction t using Ty.arrayOf_induct with
  | nominal c =>
    rw [Ty.arrayOf_nominal, resolveUnder_nominal, resolveUnder_nominal, Ty.arrayOf_nominal]
  | lower site upper lower ih =>
    rw [Ty.arrayOf_wildcard_lower, Ty.above, resolveUnder_wildcard, resolveUnder_wildcard,
      List.map_singleton, List.map_singleton, List.map_singleton, Ty.arrayOf_wildcard_lower, ih,
      Ty.top, resolveUnder_nominal, Ty.above, Ty.top]
  | upper site upper ih =>
    rw [Ty.arrayOf_wildcard_upper, Ty.extending, resolveUnder_wildcard, resolveUnder_wildcard,
      List.map_singleton, List.map_singleton, List.map_nil, Ty.arrayOf_wildcard_upper, ih,
      Ty.extending]
  | other t hf => rw [Ty.arrayOf_of_not_folds hf, resolveUnder_array]

end Unsited

/-! ## The main result -/

/-- A second pass leaves an unmapped variable alone if it does so with the resolved bounds.  Where the
first pass has kept the old bounds, the second starts from these instead; they differ in sites only. -/
theorem resolveUnder_unmapped_twice {bounds : List Ty} (hg : ¬ g.cover k = true)
    (hh : ¬ h.cover k = true) (hk : T.get? k = none)
    (hb : ∀ b ∈ bounds, T.resolveUnder (.bounds k.scope :: h)
      (T.resolveUnder (.bounds k.scope :: g) b) = T.resolveUnder (.bounds k.scope :: g) b) :
    T.resolveUnder h (T.resolveUnder g (.var k bounds)) = T.resolveUnder g (.var k bounds) := by
  let resolved := bounds.map (T.resolveUnder (.bounds k.scope :: g))
  have htwice : resolved.map (T.resolveUnder (.bounds k.scope :: h)) = resolved := by
    simp only [resolved, List.map_map]
    exact List.map_congr_left hb
  rw [resolveUnder_unmapped T bounds hg hk]
  split
  · next hsame =>
    have hsites : resolved.map Ty.unsited = bounds.map Ty.unsited := Ty.identicalEach_iff.mp hsame
    have hagain :
        Ty.identicalEach (bounds.map (T.resolveUnder (.bounds k.scope :: h))) bounds = true := by
      refine Ty.identicalEach_iff.mpr ?_
      rw [← unsited_resolveUnder_congr _ hsites, htwice, hsites]
    rw [resolveUnder_unmapped T bounds hh hk, if_pos hagain]
  · rw [resolveUnder_unmapped T resolved hh hk, htwice, ite_self]

/-- **The second pass changes nothing.**  The induction is along the first pass; at each place of the
result the second one has the same shields over bounds, and no others. -/
theorem resolveUnder_resolveUnder (hT : T.DeeplyAcyclic) (c : Shields × Ty) (hc : T.Clear c.1 c.2) :
    T.resolveUnder c.1.standing (T.resolveUnder c.1 c.2) = T.resolveUnder c.1 c.2 := by
  induction c using T.wellFounded_calls.induction with
  | _ c ih =>
    obtain ⟨g, t⟩ := c
    -- every call is clear again, so the hypothesis holds of all of them
    have hcall : ∀ h s, T.Calls (g, t) (h, s) →
        T.resolveUnder h.standing (T.resolveUnder h s) = T.resolveUnder h s :=
      fun h s hd => ih (h, s) hd (hc.call hT hd)
    clear ih
    cases t with
    | nominal c => simp only [resolveUnder_nominal]
    | applied owner raw args =>
      simp only [resolveUnder_applied, Option.map_map, List.map_map, Ty.applied.injEq, true_and]
      refine ⟨Option.map_congr fun o ho => ?_, List.map_congr_left fun a ha => hcall g a (.arg ha)⟩
      obtain rfl : owner = some o := ho
      exact hcall g o .owner
    | array c =>
      simp only [resolveUnder_array]
      rw [resolveUnder_arrayOf, hcall g c .component]
    | wildcard site upper lower =>
      simp only [resolveUnder_wildcard, List.map_map, Ty.wildcard.injEq, true_and]
      exact ⟨List.map_congr_left fun b hb => hcall g b (.upper hb),
        List.map_congr_left fun b hb => hcall g b (.lower hb)⟩
    | var k bounds =>
      by_cases hg : g.cover k = true
      · have hs : g.standing.cover k = true := hc.cover_standing.mpr hg
        simp only [resolveUnder_covered T bounds hg, resolveUnder_covered T bounds hs]
      · have hs : ¬ g.standing.cover k = true := fun h => hg (hc.cover_standing.mp h)
        cases hk : T.get? k with
        | some u =>
          simp only [resolveUnder_mapped T bounds hg hk]
          exact hcall (.entry k :: g) u (.entry hg hk)
        | none =>
          refine resolveUnder_unmapped_twice hg hs hk fun b hb => ?_
          exact hcall (.bounds k.scope :: g) b (.bound hg hk hb)

/-- **Resolution is idempotent**, the bounds of variables included, on every table whose entries do
not lead back to their keys, be it inside bounds. -/
theorem resolve_idempotent (hT : T.DeeplyAcyclic) (X : Ty) :
    T.resolve (T.resolve X) = T.resolve X :=
  resolveUnder_resolveUnder hT ([], X) (clear_nil T X)

/-- `X` stands for `String[]`, and `K` for `List<X>`. -/
def boundTable : Table :=
  (empty.insert ⟨.type "Key", "X"⟩ (.nominal ⟨"String", 1⟩)).insert ⟨.type "Holder", "K"⟩
    (.applied none (.plain "List") [.ofKey ⟨.type "Key", "X"⟩])

theorem deeplyAcyclic_boundTable : boundTable.DeeplyAcyclic := by
  refine deeplyAcyclic_of_rank (fun k => if k.scope = .type "Holder" then 1 else 0) ?_
  intro k t hk j hj
  have hentries : boundTable.entries =
      [(⟨.type "Holder", "K"⟩, .applied none (.plain "List") [.ofKey ⟨.type "Key", "X"⟩]),
        (⟨.type "Key", "X"⟩, .nominal ⟨"String", 1⟩)] := rfl
  have hmem := mem_of_get? hk
  rw [hentries] at hmem
  simp only [List.mem_cons, Prod.mk.injEq, List.not_mem_nil, or_false] at hmem
  rcases hmem with ⟨rfl, rfl⟩ | ⟨rfl, rfl⟩
  · obtain rfl : j = ⟨.type "Key", "X"⟩ := List.mem_singleton.mp hj
    decide
  · cases hj

/-- `T extends Map<K, U>` with `U extends Comparable<X>`, where `K` belongs to the scope of `T`: the
inner bound is resolved, `K` stays as it is, and a second pass leaves it so. -/
theorem resolve_idempotent_boundTable :
    let K : Ty := .ofKey ⟨.type "Holder", "K"⟩
    let U (x : Ty) : Ty :=
      .var ⟨.method "Sorter" "sort", "U"⟩ [.applied none (.plain "Comparable") [x]]
    let X (x : Ty) : Ty := .var ⟨.type "Holder", "T"⟩ [.applied none (.plain "Map") [K, U x]]
    let before := X (.ofKey ⟨.type "Key", "X"⟩)
    let after := X (.nominal ⟨"String", 1⟩)
    boundTable.DeeplyAcyclic ∧ before.Constructed ∧ boundTable.resolve before = after ∧
      before.identical after = false ∧ boundTable.resolve after = after := by
  intro K U X before after
  let g : Shields := [.bounds (.type "Holder")]
  have hx : boundTable.resolveUnder (.bounds (.method "Sorter" "sort") :: g)
      (.ofKey ⟨.type "Key", "X"⟩) = .nominal ⟨"String", 1⟩ := by
    rw [Ty.ofKey, resolveUnder_mapped boundTable [] (by decide) rfl, resolveUnder_nominal]
  have hU : boundTable.resolveUnder g (U (.ofKey ⟨.type "Key", "X"⟩)) =
      U (.nominal ⟨"String", 1⟩) := by
    simp only [U]
    rw [resolveUnder_unmapped boundTable _ (by decide) rfl, List.map_singleton, resolveUnder_applied,
      List.map_singleton, hx, Option.map_none, if_neg (by decide)]
  have hK : boundTable.resolveUnder g K = K := resolveUnder_covered boundTable [] (by decide)
  have hbefore : boundTable.resolve before = after := by
    simp only [before, after, X]
    rw [resolve, resolveUnder_unmapped boundTable _ (by decide) rfl, List.map_singleton,
      resolveUnder_applied, List.map_cons, List.map_singleton, hK, hU, Option.map_none,
      if_neg (by decide)]
  have htwice := resolve_idempotent deeplyAcyclic_boundTable before
  rw [hbefore] at htwice
  exact ⟨deeplyAcyclic_boundTable, by decide, hbefore, by decide, htwice⟩

end Table

end Generics
