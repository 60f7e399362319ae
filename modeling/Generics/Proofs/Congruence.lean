import Generics.Proofs.Resolution
import Generics.Ty.Text

/-!
# Generics.Proofs.Congruence: what agreement is respected by

Two types agree when their skeletons are equal, so whatever sees nothing but the skeleton of a type
cannot tell types apart that agree.  The text of a type and the list of its variables are of this kind
(`render_skeleton`, `vars_skeleton`).

Resolution is not: it resolves the bounds of variables, and the variables that it leaves may get new
ones.  But the bounds reach no part of the result other than bounds, for up to bounds a resolved type is
determined by the images of its variables (`skeleton_resolveUnder`), and these do not change when the
entries of the table do up to bounds only (`image_eq_of_get?`).
-/

namespace Generics

/-! ## The text of a type -/

namespace Ty

@[simp] theorem isTop_skeleton (t : Ty) : (skeleton t).isTop = t.isTop := by
  cases t <;> simp [isTop, ofKey]

/-- A type and its skeleton have the same text. -/
@[simp] theorem render_skeleton (t : Ty) : (skeleton t).render = t.render := by
  have heach : ∀ ts : List Ty, (∀ s ∈ ts, (skeleton s).render = s.render) →
      (ts.map skeleton).map render = ts.map render := by
    intro ts h
    rw [List.map_map]
    exact List.map_congr_left h
  have hproper : ∀ ts : List Ty, (∀ s ∈ ts, (skeleton s).render = s.render) →
      renderProper (ts.map skeleton) = renderProper ts := by
    intro ts h
    rw [renderProper_eq_map, renderProper_eq_map, List.filter_map]
    simp only [Function.comp_def, isTop_skeleton]
    exact heach _ fun s hs => h s (List.mem_filter.mp hs).1
  induction t using induct with
  | nominal c => rw [skeleton_nominal]
  | applied owner raw args ho ha =>
    rw [skeleton_applied, render, render, renderEach_eq_map, renderEach_eq_map, heach args ha]
    cases owner with
    | none => rfl
    | some o => rw [Option.map_some, renderOwner, renderOwner, ho o rfl]
  | array c ih => rw [skeleton_array, render, render, ih]
  | wildcard site upper lower hu hl =>
    rw [skeleton_wildcard, render, render, renderEach_eq_map, renderEach_eq_map, heach lower hl,
      hproper upper hu]
  | var k bounds _ => rw [skeleton_var, ofKey, render, render]

end Ty

/-! ## Tables that agree -/

namespace Table

variable {S T : Table}

theorem lookup_of_agree {es fs : List (VarKey × Ty)} (hl : es.length = fs.length)
    (h : ∀ p ∈ es.zip fs, p.1.1 = p.2.1 ∧ p.1.2.skeleton = p.2.2.skeleton) (k : VarKey) :
    (es.lookup k).map Ty.skeleton = (fs.lookup k).map Ty.skeleton := by
  induction es generalizing fs with
  | nil => rw [List.length_eq_zero_iff.mp hl.symm]
  | cons e es ih =>
    cases fs with
    | nil => cases hl
    | cons f fs =>
      rw [List.zip_cons_cons, List.forall_mem_cons] at h
      obtain ⟨⟨hkey, htype⟩, hrest⟩ := h
      rw [lookup_cons_ite, lookup_cons_ite, ← hkey]
      by_cases hk : k = e.1
      · rw [if_pos hk, if_pos hk, Option.map_some, Option.map_some, htype]
      · rw [if_neg hk, if_neg hk]
        exact ih (Nat.succ.inj hl) hrest

/-- Tables that agree map the same keys, to types with the same skeletons. -/
theorem get?_of_agrees (h : S.agrees T = true) (k : VarKey) :
    (S.get? k).map Ty.skeleton = (T.get? k).map Ty.skeleton := by
  simp only [agrees, Bool.and_eq_true, decide_eq_true_eq, List.all_eq_true, Ty.agrees_iff] at h
  exact lookup_of_agree h.1 h.2 k

/-- **Images see the entries of a table up to bounds only.**  The two runs open the same entries under
the same shields. -/
theorem image_eq_of_get? (h : ∀ k, (S.get? k).map Ty.skeleton = (T.get? k).map Ty.skeleton)
    (g : Shields) (k : VarKey) : S.image g k = T.image g k := by
  induction g, k using image_induct (T := S) with
  | covered g k hg => rw [image_covered hg, image_covered hg]
  | unmapped g k hk =>
    have hk' : T.get? k = none := by simpa [hk] using (h k).symm
    rw [image_unmapped hk, image_unmapped hk']
  | mapped g k s hg hk ih =>
    obtain ⟨t, hk', hst⟩ : ∃ t, T.get? k = some t ∧ t.skeleton = s.skeleton := by
      simpa [hk] using (h k).symm
    rw [image_mapped hg hk, image_mapped hg hk', skeleton_resolveUnder, skeleton_resolveUnder, hst]
    refine Ty.subst_congr fun j hj => ?_
    rw [Ty.vars_skeleton] at hj
    rw [ih j hj]

/-- Tables that agree resolve types that agree alike, whatever shields are up. -/
theorem resolveUnder_agrees (h : S.agrees T = true) (g : Shields) {a b : Ty}
    (hab : a.agrees b = true) : (S.resolveUnder g a).agrees (T.resolveUnder g b) = true := by
  rw [Ty.agrees_iff] at hab ⊢
  rw [skeleton_resolveUnder, skeleton_resolveUnder, hab]
  refine Ty.subst_congr fun k _ => ?_
  rw [image_eq_of_get? (get?_of_agrees h)]

end Table

/-! ## The main result -/

/-- **Agreement is equality up to the bounds of variables, and nothing visible depends on bounds.**  Two
types agree exactly if they are the same once the bounds of all variables are erased.  Types that agree
have the same variables and the same text, and tables that agree resolve them to types that agree. -/
theorem agreement_respected (a b : Ty) :
    (a.agrees b = true ↔ a.skeleton = b.skeleton) ∧
      (a.agrees b = true →
        a.freeKeys = b.freeKeys ∧ a.render = b.render ∧
          ∀ S T : Table, S.agrees T = true → (S.resolve a).agrees (T.resolve b) = true) := by
  refine ⟨Ty.agrees_iff, fun h => ⟨?_, ?_, fun S T hST => Table.resolveUnder_agrees hST [] h⟩⟩
  · rw [Ty.freeKeys, Ty.freeKeys, ← Ty.vars_skeleton a, ← Ty.vars_skeleton b, Ty.agrees_iff.mp h]
  · rw [← Ty.render_skeleton a, ← Ty.render_skeleton b, Ty.agrees_iff.mp h]

/-- `P` stands for the variable `V` with these bounds, and `N` for `Integer`. -/
def boundedBy (bounds : List Ty) : Table :=
  (Table.empty.insert ⟨.type "Pair", "P"⟩ (.var ⟨.method "Box" "of", "V"⟩ bounds)).insert
    ⟨.type "Box", "N"⟩ (.plain "Integer")

/-- With and without a bound on `V` and on `W`, `Map<P, W>` resolves to `Map<V, W>`.  The bounds are
there in one of the two results, and resolved. -/
theorem agreement_respected_boundedBy :
    let N : Ty := .ofKey ⟨.type "Box", "N"⟩
    let V : VarKey := ⟨.method "Box" "of", "V"⟩
    let W : VarKey := ⟨.method "Box" "to", "W"⟩
    let list (t : Ty) : Ty := .applied none (.plain "List") [t]
    let map (s t : Ty) : Ty := .applied none (.plain "Map") [s, t]
    let P : Ty := .ofKey ⟨.type "Pair", "P"⟩
    let a := map P (.var W [list N])
    let b := map P (.ofKey W)
    let S := boundedBy [list N]
    let T := boundedBy []
    a.agrees b = true ∧ S.agrees T = true ∧ a.skeleton = b.skeleton ∧ a.freeKeys = b.freeKeys ∧
      a.render = b.render ∧
      S.resolve a = map (.var V [list (.plain "Integer")]) (.var W [list (.plain "Integer")]) ∧
      T.resolve b = map (.ofKey V) (.ofKey W) ∧ (S.resolve a).agrees (T.resolve b) = true := by
  intro N V W list map P a b S T
  have hab : a.agrees b = true := by decide
  have hST : S.agrees T = true := by decide
  obtain ⟨hiff, hrespects⟩ := agreement_respected a b
  obtain ⟨hfree, htext, hresolve⟩ := hrespects hab
  -- the bound is resolved alike at both places: neither shield covers `N`
  have hbound : ∀ g : Shields, g.cover ⟨.type "Box", "N"⟩ = false →
      S.resolveUnder g (list N) = list (.plain "Integer") := by
    intro g hg
    show S.resolveUnder g (.applied none _ [.var _ []]) = _
    rw [Table.resolveUnder_applied, List.map_singleton,
      Table.resolveUnder_mapped S [] (by simp [hg]) rfl, Ty.plain, Table.resolveUnder_nominal]
    rfl
  have hV : S.resolve P = .var V [list (.plain "Integer")] := by
    refine (Table.resolveUnder_mapped S [] (by decide) rfl).trans ?_
    rw [Table.resolveUnder_unmapped S _ (by decide) rfl, List.map_singleton, hbound _ (by decide)]
    exact if_neg (by decide)
  have hW : S.resolve (.var W [list N]) = .var W [list (.plain "Integer")] := by
    refine (Table.resolveUnder_unmapped S _ (by decide) rfl).trans ?_
    rw [List.map_singleton, hbound _ (by decide)]
    exact if_neg (by decide)
  have hV' : T.resolve P = .ofKey V :=
    (Table.resolveUnder_mapped T [] (by decide) rfl).trans (Table.resolveUnder_ofKey_unmapped T _ rfl)
  have hW' : T.resolve (.ofKey W) = .ofKey W := Table.resolveUnder_ofKey_unmapped T [] rfl
  refine ⟨hab, hST, hiff.mp hab, hfree, htext, ?_, ?_, hresolve S T hST⟩
  · rw [Table.resolve_applied, List.map_cons, List.map_singleton, hV, hW]
    rfl
  · rw [Table.resolve_applied, List.map_cons, List.map_singleton, hV', hW']
    rfl

end Generics
