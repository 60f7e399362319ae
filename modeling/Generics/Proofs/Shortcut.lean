import Generics.Proofs.Idempotence

/-!
# Generics.Proofs.Shortcut: returning a variable whose bounds do not change

A variable that is neither covered nor mapped is resolved by resolving its bounds.  If these come out
identical to what they were, the variable is returned as it is, and a variable with the new bounds is built
only if they differ.  `rebuildBody` is resolution without this shortcut: it builds the variable every time.

Identical types are equal but for the sites of their wildcards, the bounds of variables at every depth
included.  So one step with the shortcut and one without give types that are equal up to sites, whatever
resolves the types that the step goes on to (`unsited_resolveBody`).  By induction along these the same
holds of whole runs: up to sites, resolution is what the equation without the shortcut determines
(`unsited_eq_rebuildBody_iff`).
-/

namespace Generics.Table

variable {T : Table} {f f' : Shields → Ty → Ty} {g : Shields} {k : VarKey} {t : Ty}

/-! ## Resolution without the shortcut -/

section Defs

variable (T)

/-- What resolving a type does, if `f` resolves the types that it goes on to, and if a variable that is
neither covered nor mapped is always built anew. -/
def rebuildBody (f : Shields → Ty → Ty) (g : Shields) : Ty → Ty
  | .var k bounds =>
    if g.cover k then .var k bounds
    else match T.get? k with
      | some t => f (.entry k :: g) t
      | none => .var k (bounds.map (f (.bounds k.scope :: g)))
  | t => T.resolveBody f g t

end Defs

theorem rebuildBody_var (f : Shields → Ty → Ty) (g : Shields) (k : VarKey) (bounds : List Ty) :
    T.rebuildBody f g (.var k bounds) =
      if g.cover k then .var k bounds
      else match T.get? k with
        | some t => f (.entry k :: g) t
        | none => .var k (bounds.map (f (.bounds k.scope :: g))) := rfl

/-- **One step may take the shortcut**: up to sites the result is the same. -/
theorem unsited_resolveBody (f : Shields → Ty → Ty) (g : Shields) (t : Ty) :
    (T.resolveBody f g t).unsited = (T.rebuildBody f g t).unsited := by
  cases t with
  | var k bounds =>
    rw [resolveBody_var, rebuildBody_var]
    by_cases hg : g.cover k = true
    · rw [if_pos hg, if_pos hg]
    · rw [if_neg hg, if_neg hg]
      cases T.get? k with
      | some t => rfl
      | none =>
        dsimp only
        split
        · next hsame => rw [Ty.unsited_var, Ty.unsited_var, Ty.identicalEach_iff.mp hsame]
        · rfl
  | _ => rfl

/-- Up to sites, a step depends on what it goes on to up to sites. -/
theorem unsited_rebuildBody_congr
    (h : ∀ d, T.Calls (g, t) d → (f d.1 d.2).unsited = (f' d.1 d.2).unsited) :
    (T.rebuildBody f g t).unsited = (T.rebuildBody f' g t).unsited := by
  cases t with
  | nominal c => rfl
  | applied owner raw args =>
    simp only [rebuildBody, resolveBody, Ty.unsited_applied, Option.map_map, List.map_map,
      Ty.applied.injEq, true_and]
    refine ⟨Option.map_congr fun o ho => ?_, List.map_congr_left fun a ha => h (g, a) (.arg ha)⟩
    obtain rfl : owner = some o := ho
    exact h (g, o) .owner
  | array c =>
    simp only [rebuildBody, resolveBody, Ty.unsited_arrayOf]
    rw [h (g, c) .component]
  | wildcard site upper lower =>
    simp only [rebuildBody, resolveBody, Ty.unsited_wildcard, List.map_map, Ty.wildcard.injEq,
      true_and]
    exact ⟨List.map_congr_left fun b hb => h (g, b) (.upper hb),
      List.map_congr_left fun b hb => h (g, b) (.lower hb)⟩
  | var k bounds =>
    rw [rebuildBody_var, rebuildBody_var]
    by_cases hg : g.cover k = true
    · rw [if_pos hg, if_pos hg]
    · rw [if_neg hg, if_neg hg]
      cases hk : T.get? k with
      | some t => exact h (.entry k :: g, t) (.entry hg hk)
      | none =>
        simp only [Ty.unsited_var, List.map_map, Ty.var.injEq, true_and]
        exact List.map_congr_left fun b hb => h (.bounds k.scope :: g, b) (.bound hg hk hb)

theorem unsited_resolveUnder_eq_rebuildBody (T : Table) (g : Shields) (t : Ty) :
    (T.resolveUnder g t).unsited = (T.rebuildBody T.resolveUnder g t).unsited := by
  rw [resolveUnder_eq_resolveBody, unsited_resolveBody]

/-- **Whole runs may take the shortcut**: whatever resolves types without it, up to sites, gives what
resolution gives.  The induction is along the types that resolution goes on to. -/
theorem unsited_eq_rebuildBody_iff :
    (∀ g t, (f g t).unsited = (T.rebuildBody f g t).unsited) ↔
      ∀ g t, (f g t).unsited = (T.resolveUnder g t).unsited := by
  constructor
  · intro hf
    have hall : ∀ c : Shields × Ty, (f c.1 c.2).unsited = (T.resolveUnder c.1 c.2).unsited := by
      intro c
      induction c using T.wellFounded_calls.induction with
      | _ c ih =>
        rw [hf, unsited_resolveUnder_eq_rebuildBody]
        exact unsited_rebuildBody_congr ih
    exact fun g t => hall (g, t)
  · intro hf g t
    rw [hf, unsited_resolveUnder_eq_rebuildBody]
    exact unsited_rebuildBody_congr fun d _ => (hf d.1 d.2).symm

/-- A variable that is neither covered nor mapped keeps its key, and up to sites its bounds are the resolved
ones, be they new or old. -/
theorem exists_bounds_of_unmapped (bounds : List Ty) (hg : ¬ g.cover k = true)
    (hk : T.get? k = none) :
    ∃ kept, T.resolveUnder g (.var k bounds) = .var k kept ∧
      kept.map Ty.unsited = (T.resolveEachUnder (.bounds k.scope :: g) bounds).map Ty.unsited := by
  rw [resolveUnder_unmapped T bounds hg hk, resolveEachUnder_eq_map]
  split
  · next hsame => exact ⟨bounds, rfl, (Ty.identicalEach_iff.mp hsame).symm⟩
  · exact ⟨_, rfl, rfl⟩

/-! ## The main result -/

/-- **The shortcut for unchanged bounds loses nothing.**  Two types are identical exactly if they are equal
up to the sites of wildcards, the bounds of variables at every depth included, and so are two lists of types.
Hence a variable that is neither covered nor mapped resolves to a variable of its key, whose bounds are equal
to the resolved ones, whether it was built anew or returned as it was.  Therefore resolution gives, for every
type and under all shields, what resolving without the shortcut gives. -/
theorem resolve_shortcut_lossless (T : Table) :
    (∀ a b : Ty, a.identical b = true ↔ a.unsited = b.unsited) ∧
      (∀ as bs : List Ty, Ty.identicalEach as bs = true ↔ as.map Ty.unsited = bs.map Ty.unsited) ∧
      (∀ (g : Shields) (k : VarKey) (bounds : List Ty), g.cover k = false → T.get? k = none →
        ∃ kept, T.resolveUnder g (.var k bounds) = .var k kept ∧
          kept.map Ty.unsited =
            (T.resolveEachUnder (.bounds k.scope :: g) bounds).map Ty.unsited) ∧
      ∀ f : Shields → Ty → Ty, (∀ g t, (f g t).unsited = (T.rebuildBody f g t).unsited) ↔
        ∀ g t, (f g t).unsited = (T.resolveUnder g t).unsited := by
  refine ⟨fun a b => Ty.identical_iff, fun as bs => Ty.identicalEach_iff, fun g k bounds hg hk => ?_,
    fun f => unsited_eq_rebuildBody_iff⟩
  exact exists_bounds_of_unmapped bounds (Bool.eq_false_iff.mp hg) hk

/-- `T extends List<U>` with `U extends Comparable<X>` is built anew, although its new bound agrees with the
old one: the two differ in a bound of `U`, which only identity looks at.  `V extends List<? extends Y>`, where
`Y` stands for nothing, is returned as it is, with the site of its wildcard. -/
theorem resolve_shortcut_lossless_boundTable :
    let T : VarKey := ⟨.type "Holder", "T"⟩
    let V : VarKey := ⟨.type "Pair", "V"⟩
    let lists (t : Ty) : List Ty := [.applied none (.plain "List") [t]]
    let U (t : Ty) : Ty :=
      .var ⟨.method "Sorter" "sort", "U"⟩ [.applied none (.plain "Comparable") [t]]
    let before := lists (U (.ofKey ⟨.type "Key", "X"⟩))
    let after := lists (U (.nominal ⟨"String", 1⟩))
    let free := lists (.wildcard (some 7) [.ofKey ⟨.type "Key", "Y"⟩] [])
    (Shields.cover [] T = false ∧ boundTable.get? T = none ∧
        Ty.agreesEach before after = true ∧ before.map Ty.unsited ≠ after.map Ty.unsited ∧
        ∃ kept, boundTable.resolveUnder [] (.var T before) = .var T kept ∧
          kept.map Ty.unsited = after.map Ty.unsited) ∧
      (Shields.cover [] V = false ∧ boundTable.get? V = none ∧
        boundTable.resolveUnder [] (.var V free) = .var V free ∧
        ∃ kept, boundTable.resolveUnder [] (.var V free) = .var V kept ∧
          kept.map Ty.unsited = free.map Ty.unsited) ∧
      let f : Shields → Ty → Ty := fun g t => (boundTable.resolveUnder g t).unsited
      ∀ g t, (f g t).unsited = (boundTable.rebuildBody f g t).unsited := by
  intro T V lists U before after free
  obtain ⟨-, heach, hbounds, hruns⟩ := resolve_shortcut_lossless boundTable
  have hX : boundTable.resolveUnder [.bounds (.method "Sorter" "sort"), .bounds (.type "Holder")]
      (.ofKey ⟨.type "Key", "X"⟩) = .nominal ⟨"String", 1⟩ := by
    rw [Ty.ofKey, resolveUnder_mapped boundTable [] (by decide) rfl, resolveUnder_nominal]
  have hU : boundTable.resolveUnder [.bounds (.type "Holder")] (U (.ofKey ⟨.type "Key", "X"⟩)) =
      U (.nominal ⟨"String", 1⟩) := by
    simp only [U]
    rw [resolveUnder_unmapped boundTable _ (by decide) rfl, List.map_singleton, resolveUnder_applied,
      List.map_singleton, hX, Option.map_none, if_neg (by decide)]
  have hafter : boundTable.resolveEachUnder [.bounds (.type "Holder")] before = after := by
    simp only [before, after, lists]
    rw [resolveEachUnder_eq_map, List.map_singleton, resolveUnder_applied, List.map_singleton, hU,
      Option.map_none]
  have hfree : boundTable.resolveEachUnder [.bounds (.type "Pair")] free =
      lists (.extending (.ofKey ⟨.type "Key", "Y"⟩)) := by
    simp only [free, lists]
    rw [resolveEachUnder_eq_map, List.map_singleton, resolveUnder_applied, List.map_singleton,
      resolveUnder_wildcard, List.map_singleton, resolveUnder_ofKey_unmapped boundTable _ rfl]
    rfl
  have hsame : (lists (.extending (.ofKey ⟨.type "Key", "Y"⟩))).map Ty.unsited =
      free.map Ty.unsited := (heach _ _).mp (by decide)
  refine ⟨⟨rfl, rfl, by decide, fun h => ?_, ?_⟩, ⟨rfl, rfl, ?_, ?_⟩, (hruns _).mpr fun g t => ?_⟩
  · exact absurd ((heach before after).mpr h) (by decide)
  · obtain ⟨kept, hkept, hequal⟩ := hbounds [] T before rfl rfl
    exact ⟨kept, hkept, hequal.trans (congrArg _ hafter)⟩
  · rw [resolveUnder_unmapped boundTable _ (by decide) rfl, ← resolveEachUnder_eq_map]
    exact if_pos ((heach _ _).mpr ((congrArg _ hfree).trans hsame))
  · obtain ⟨kept, hkept, hequal⟩ := hbounds [] V free rfl rfl
    exact ⟨kept, hkept, (hequal.trans (congrArg _ hfree)).trans hsame⟩
  · exact Ty.unsited_unsited _

end Generics.Table
