import Generics.Proofs.Acyclic
import Generics.Proofs.Numbering

/-!
# Generics.Proofs.Release: putting the wildcards back

A captured type says all that the type said.  The table `release t c` gives every variable put in the
wildcard whose place it took; resolving the captured type with it gives the type back
(`resolve_capture_agrees`), as long as the type did not have one of these variables before.  To capture
once more changes nothing, since no open wildcard is left.
-/

namespace Generics

namespace Ty

variable {t c : Ty}

/-! ## Captured types are normal -/

/-- An open wildcard of a type is a part of it. -/
theorem ty_mem_nodes_of_mem_openings {o : Opening} (ho : o ∈ t.openings) : o.ty ∈ t.nodes := by
  induction t using induct with
  | nominal _ => exact absurd ho List.not_mem_nil
  | applied owner raw args iho iha =>
    rcases mem_openings_applied.mp ho with ⟨s, hs, ho⟩ | ⟨s, hs, ho⟩
    · exact mem_nodes_applied.mpr (.inr (.inl ⟨s, hs, iho s hs ho⟩))
    · exact mem_nodes_applied.mpr (.inr (.inr ⟨s, hs, iha s hs ho⟩))
  | array c ih => exact mem_nodes_array.mpr (.inr (ih ho))
  | wildcard site upper lower _ _ =>
    by_cases h : opens upper lower = true
    · rw [openings_wildcard site h, List.mem_singleton] at ho
      rw [ho, lower_eq_nil_of_opens h]
      exact mem_nodes_wildcard.mpr (.inl rfl)
    · rw [openings_kept site h] at ho
      exact absurd ho List.not_mem_nil
  | var _ _ _ => exact absurd ho List.not_mem_nil

/-- A captured type is normal if the type was. -/
theorem normal_capture (hn : t.normal = true) (next : Nat) : (t.capture next).1.normal = true := by
  refine (exchanged_capture t next).normal hn fun e he => ?_
  obtain ⟨c, hc, hstand, -⟩ := standIn_capture he
  have hnormal : c.opening.ty.normal = true :=
    normal_of_mem_nodes hn (ty_mem_nodes_of_mem_openings (opening_mem_openings hc))
  rw [hstand]
  exact normal_var.mpr (normal_wildcard.mp hnormal).1

/-! ## Capturing twice -/

theorem captureEachFrom_of_forall {ts : List Ty} (s : Captor)
    (h : ∀ t ∈ ts, captureFrom s t = (t, s)) : captureEachFrom s ts = (ts, s) := by
  induction ts with
  | nil => rfl
  | cons t ts ih =>
    rw [List.forall_mem_cons] at h
    rw [captureEachFrom, h.1, ih h.2]

/-- A normal type without open wildcards is captured as it is. -/
theorem captureFrom_of_openings_eq_nil (s : Captor) (hn : t.normal = true)
    (ho : t.openings = []) : captureFrom s t = (t, s) := by
  induction t using induct with
  | nominal _ => rfl
  | applied owner raw args iho iha =>
    obtain ⟨hno, hna⟩ := normal_applied.mp hn
    obtain ⟨hoo, hoa⟩ := List.append_eq_nil_iff.mp (openings_applied owner raw args ▸ ho)
    have howner : captureOwnerFrom s owner = (owner, s) := by
      cases owner with
      | none => rfl
      | some o => rw [captureOwnerFrom, iho o rfl (hno o rfl) hoo]
    have hargs : captureEachFrom s args = (args, s) := by
      refine captureEachFrom_of_forall s fun a ha => iha a ha (hna a ha) ?_
      refine List.eq_nil_iff_forall_not_mem.mpr fun o hmem => ?_
      exact absurd (mem_openings_applied.mpr (.inr ⟨a, ha, hmem⟩)) (ho ▸ List.not_mem_nil)
    show (applied (captureOwnerFrom s owner).1 raw
      (captureEachFrom (captureOwnerFrom s owner).2 args).1, _) = _
    rw [howner, hargs]
  | array c ih =>
    obtain ⟨hf, hc⟩ := normal_array.mp hn
    show ((captureFrom s c).1.arrayOf, (captureFrom s c).2) = _
    rw [ih hc ho, arrayOf_of_not_folds hf]
  | wildcard site upper lower _ _ =>
    refine captureFrom_of_not_opens s site fun h => ?_
    rw [openings_wildcard site h] at ho
    exact List.cons_ne_nil _ _ ho
  | var _ _ _ => rfl

/-! ## Putting the wildcards back -/

/-- Sites are no part of a skeleton. -/
theorem skeleton_unsited (t : Ty) : (unsited t).skeleton = t.skeleton := by
  induction t using induct with
  | nominal _ => rfl
  | applied owner raw args ho ha =>
    simp only [unsited_applied, skeleton_applied, Option.map_map, List.map_map, applied.injEq,
      true_and]
    exact ⟨Option.map_congr ho, List.map_congr_left ha⟩
  | array c ih => rw [unsited_array, skeleton_array, ih, skeleton_array]
  | wildcard site upper lower hu hl =>
    simp only [unsited_wildcard, skeleton_wildcard, List.map_map, wildcard.injEq, true_and]
    exact ⟨List.map_congr_left hu, List.map_congr_left hl⟩
  | var k bounds _ => rw [unsited_var, skeleton_var, skeleton_var]

/-- The skeleton of an open wildcard does not depend on sites. -/
theorem skeleton_ty_of_unsited {o p : Opening} (h : o.upper.map unsited = p.upper.map unsited) :
    o.ty.skeleton = p.ty.skeleton := by
  have hmap : ∀ ts : List Ty, ts.map skeleton = (ts.map unsited).map skeleton := fun ts => by
    rw [List.map_map]
    exact List.map_congr_left fun t _ => (skeleton_unsited t).symm
  rw [Opening.ty, Opening.ty, skeleton_wildcard, skeleton_wildcard, hmap o.upper, h, ← hmap]

/-- If every variable put in is replaced by the wildcard whose place it took, and the others stay, the
type comes back. -/
theorem Exchanged.subst_skeleton {σ : VarKey → Ty} (h : Exchanged t c) (hn : t.normal = true)
    (hkept : ∀ k ∈ t.vars, σ k = .ofKey k)
    (hput : ∀ e ∈ exchanges t c, ∀ k, e.2.key? = some k → σ k = e.1.ty.skeleton) :
    c.skeleton.subst (fun k => some (σ k)) = t.skeleton := by
  induction h with
  | nominal _ => rfl
  | @applied os raw ps _ _ iho iha =>
    obtain ⟨hno, hna⟩ := normal_applied.mp hn
    simp only [skeleton_applied, subst_applied, Option.map_map, List.map_map]
    congr 1
    · refine Option.map_congr fun p hp => ?_
      have hp' : p.1 ∈ os.map Prod.fst := Option.map_eq_some_iff.mpr ⟨p, hp, rfl⟩
      refine iho p hp (hno p.1 hp') (fun k hk => ?_) fun e he => ?_
      · exact hkept k (mem_vars_applied.mpr (.inl ⟨p.1, hp', hk⟩))
      · exact hput e (mem_exchanges_applied.mpr (.inl ⟨p, hp, he⟩))
    · refine List.map_congr_left fun p hp => ?_
      have hp' : p.1 ∈ ps.map Prod.fst := List.mem_map_of_mem hp
      refine iha p hp (hna p.1 hp') (fun k hk => ?_) fun e he => ?_
      · exact hkept k (mem_vars_applied.mpr (.inr ⟨p.1, hp', hk⟩))
      · exact hput e (mem_exchanges_applied.mpr (.inr ⟨p, hp, he⟩))
  | @array t c h ih =>
    obtain ⟨hf, hn'⟩ := normal_array.mp hn
    rw [h.exchanges_arrayOf] at hput
    rw [vars_array] at hkept
    rw [skeleton_arrayOf, subst_arrayOf, ih hn' hkept hput, skeleton_array]
    exact arrayOf_of_not_folds (by rwa [folds_skeleton])
  | @opened site upper lower h k bounds =>
    rw [exchanges_wildcard site h] at hput
    rw [skeleton_var, subst_ofKey, Option.getD_some, hput _ List.mem_cons_self k rfl,
      lower_eq_nil_of_opens h, Opening.ty]
  | kept _ _ => exact subst_skeleton_eq_self (normal_skeleton hn) hkept
  | var k bounds => exact subst_skeleton_eq_self (normal_skeleton hn) hkept

end Ty

/-- The table that gives every variable put in the wildcard whose place it took. -/
def release (t c : Ty) : Table :=
  Table.empty.insertAll ((t.exchanges c).filterMap fun e => e.2.key?.map (·, e.1.ty))

variable {t c : Ty} {k : VarKey}

theorem of_get?_release {w : Ty} (h : (release t c).get? k = some w) :
    ∃ e ∈ t.exchanges c, e.2.key? = some k ∧ w = e.1.ty := by
  rcases Table.mem_or_get?_of_insertAll h with h | h
  · obtain ⟨e, he, hkey⟩ := List.mem_filterMap.mp h
    obtain ⟨j, hj, heq⟩ := Option.map_eq_some_iff.mp hkey
    obtain ⟨rfl, rfl⟩ := Prod.mk.inj heq
    exact ⟨e, he, hj, rfl⟩
  · rw [Table.get?_empty] at h
    cases h

/-- Every variable put in is mapped to a wildcard with the bounds of the one whose place it took. -/
theorem get?_release {next : Nat} {e : Opening × Ty} (he : e ∈ t.exchanges (t.capture next).1)
    (hkey : e.2.key? = some k) :
    ∃ o : Opening, (release t (t.capture next).1).get? k = some o.ty ∧
      o.upper.map Ty.unsited = e.1.upper.map Ty.unsited := by
  have hmem : k ∈ ((t.exchanges (t.capture next).1).filterMap fun e =>
      e.2.key?.map (·, e.1.ty)).map Prod.fst :=
    List.mem_map.mpr ⟨(k, e.1.ty), List.mem_filterMap.mpr ⟨e, he, by rw [hkey]; rfl⟩, rfl⟩
  obtain ⟨w, hw⟩ := Table.exists_get?_insertAll hmem .empty
  obtain ⟨e', he', hkey', rfl⟩ := of_get?_release hw
  refine ⟨e'.1, hw, ?_⟩
  -- both variables stand for the one wildcard that was captured under this key
  obtain ⟨c, hc, hstand, hbounds⟩ := Ty.standIn_capture he
  obtain ⟨c', hc', hstand', hbounds'⟩ := Ty.standIn_capture he'
  have hck : c.key = k := Option.some.inj (hstand ▸ hkey : c.standIn.key? = some k)
  have hck' : c'.key = k := Option.some.inj (hstand' ▸ hkey' : c'.standIn.key? = some k)
  have hcc : c' = c := (Ty.orderly_capture t next).eq_of_key c' hc' c hc (hck'.trans hck.symm)
  rw [← hbounds', ← hbounds, hcc]

/-- The variables that the type had before are not mapped. -/
theorem get?_release_of_mem_vars
    (hfresh : ∀ k ∈ t.vars, ∀ e ∈ t.exchanges c, e.2.key? ≠ some k) (hk : k ∈ t.vars) :
    (release t c).get? k = none := by
  cases hget : (release t c).get? k with
  | none => rfl
  | some w =>
    obtain ⟨e, he, hkey, -⟩ := of_get?_release hget
    exact absurd hkey (hfresh k hk e he)

/-- The wildcards are parts of the type, and hold none of the variables put in. -/
theorem flat_release (hn : t.normal = true) (h : t.Exchanged c)
    (hfresh : ∀ k ∈ t.vars, ∀ e ∈ t.exchanges c, e.2.key? ≠ some k) : (release t c).Flat := by
  intro k w hw
  obtain ⟨e, he, -, rfl⟩ := of_get?_release hw
  have hnode : e.1.ty ∈ t.nodes := by
    refine Ty.ty_mem_nodes_of_mem_openings ?_
    rw [← h.map_fst_exchanges]
    exact List.mem_map_of_mem he
  refine ⟨Ty.normal_skeleton (Ty.normal_of_mem_nodes hn hnode), fun j hj => ?_⟩
  obtain ⟨bounds, hj⟩ := Ty.mem_vars_iff.mp hj
  exact get?_release_of_mem_vars hfresh
    (Ty.mem_vars_iff.mpr ⟨bounds, Ty.mem_nodes_trans hnode hj⟩)

/-- **Capturing is undone by substitution, and capturing twice is capturing once.**  Let `c` be a
constructed type with its wildcards captured, none of its variables being one that the call hands out.
Resolving `c` with the table that gives each of these variables the wildcard whose place it took gives
the type back.  A variable has been put in for every open wildcard; it is of the scope of captures and
has the wildcard's upper bounds.  To capture `c` again changes nothing and uses up no number, since `c`
has no open wildcard. -/
theorem resolve_capture_agrees (t : Ty) (next : Nat) (ht : t.Constructed)
    (hfresh : ∀ k ∈ t.vars, ∀ e ∈ t.exchanges (t.capture next).1, e.2.key? ≠ some k) :
    let c := (t.capture next).1
    ((release t c).resolve c).agrees t = true ∧
      (t.exchanges c).map Prod.fst = t.openings ∧
      (∀ e ∈ t.exchanges c, ∃ k bounds o, e.2 = .var k bounds ∧ k.scope = .capture ∧
        Ty.identicalEach bounds e.1.upper = true ∧
        (release t c).get? k = some (Opening.ty o) ∧ Ty.identicalEach o.upper e.1.upper = true) ∧
      c.openings = [] ∧ ∀ n, c.capture n = (c, n) := by
  intro c
  have hn : t.normal = true := Ty.constructed_iff.mp ht
  have hex : t.Exchanged c := Ty.exchanged_capture t next
  have hflat : (release t c).Flat := flat_release hn hex hfresh
  have hclosed : c.openings = [] := hex.openings_right hn
  refine ⟨?_, hex.map_fst_exchanges, fun e he => ?_, hclosed, fun n => ?_⟩
  · rw [Ty.agrees_iff, Table.skeleton_resolve]
    refine hex.subst_skeleton hn (fun k hk => ?_) fun e he k hkey => ?_
    · rw [Table.image_of_flat hflat, get?_release_of_mem_vars hfresh hk, Option.getD_none,
        Ty.skeleton_ofKey]
    · obtain ⟨o, hget, hbounds⟩ := get?_release he hkey
      rw [Table.image_of_flat hflat, hget, Option.getD_some]
      exact Ty.skeleton_ty_of_unsited hbounds
  · obtain ⟨d, hd, hstand, hbounds⟩ := Ty.standIn_capture he
    obtain ⟨n, -, -, hkey⟩ := (Ty.orderly_capture t next).numbered d hd
    obtain ⟨o, hget, ho⟩ := get?_release he (hstand ▸ rfl : e.2.key? = some d.key)
    refine ⟨d.key, d.upper, o, hstand, ?_, Ty.identicalEach_iff.mpr hbounds, hget,
      Ty.identicalEach_iff.mpr ho⟩
    rw [hkey, captureKey]
  · have hsame := Ty.captureFrom_of_openings_eq_nil ⟨n, []⟩ (Ty.normal_capture hn next) hclosed
    rw [Ty.capture, hsame]

/-- `Map<A, B[], C>.Entry<A, ?, ? super Number, T>`, where `A` is one wildcard `? extends Number` at two
places, and `B` and `C` are two wildcards `? extends List<T> & Number`. -/
def sharedWildcard : Ty :=
  let T : Ty := .var ⟨.type "Map", "T"⟩ []
  let A : Ty := .wildcard (some 0) [.plain "Number"] []
  let both : List Ty := [.applied none (.plain "List") [T], .plain "Number"]
  let owner : Ty := .applied none (.plain "Map")
    [A, .array (.wildcard none both []), .wildcard none both []]
  .applied (some owner) (.plain "Entry") [A, .any, .above (.plain "Number"), T]

theorem resolve_capture_agrees_sharedWildcard :
    sharedWildcard.Constructed ∧
      (∀ k ∈ sharedWildcard.vars,
        ∀ e ∈ sharedWildcard.exchanges (sharedWildcard.capture 1000).1, e.2.key? ≠ some k) ∧
      sharedWildcard.openings.length = 4 ∧ (sharedWildcard.capture 1000).2 = 1003 ∧
      ((release sharedWildcard (sharedWildcard.capture 1000).1).resolve
        (sharedWildcard.capture 1000).1).agrees sharedWildcard = true := by
  have hc : sharedWildcard.Constructed := by decide
  have hfresh : ∀ k ∈ sharedWildcard.vars,
      ∀ e ∈ sharedWildcard.exchanges (sharedWildcard.capture 1000).1, e.2.key? ≠ some k := by
    decide
  exact ⟨hc, hfresh, rfl, rfl, (resolve_capture_agrees sharedWildcard 1000 hc hfresh).1⟩

end Generics
