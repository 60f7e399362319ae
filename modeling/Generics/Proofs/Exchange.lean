import Generics.Capture
import Generics.Proofs.Identity

/-!
# Generics.Proofs.Exchange: variables in the place of wildcards

A wildcard is *open* if it has no lower bound and is not `?`: these are the wildcards that capturing
replaces.  `openings` lists the open wildcards of a type from left to right, those inside the bounds of
wildcards and variables left out, and `exchanges t c` lists them with what stands in their places in `c`.

A captured type is the type with variables in the place of its open wildcards, its arrays built anew and
nothing else changed; and these variables are what a captor hands out for the open wildcards, one after
the other (`handOut_openings`).  So what there is to know about capturing is what a captor hands out in
a row, and what it is to exchange wildcards for variables.
-/

namespace Generics

/-! ## Open wildcards -/

/-- An open wildcard. -/
structure Opening where
  site : Option Nat
  upper : List Ty
  deriving Inhabited

namespace Opening

/-- The wildcard as a type. -/
def ty (o : Opening) : Ty := .wildcard o.site o.upper []

/-- Are these two places of one wildcard?  A wildcard is known by its site and its bounds; without a
site it stands at one place only. -/
def same (o p : Opening) : Bool :=
  o.site.isSome && decide (o.site = p.site) && Ty.identicalEach o.upper p.upper

variable {o p q : Opening}

theorem same_iff :
    o.same p = true ↔
      o.site.isSome = true ∧ o.site = p.site ∧ o.upper.map Ty.unsited = p.upper.map Ty.unsited := by
  rw [same, Bool.and_eq_true, Bool.and_eq_true, decide_eq_true_eq, Ty.identicalEach_iff, and_assoc]

theorem same_symm (h : o.same p = true) : p.same o = true := by
  obtain ⟨hs, hsite, hu⟩ := same_iff.mp h
  exact same_iff.mpr ⟨hsite ▸ hs, hsite.symm, hu.symm⟩

theorem same_comm (o p : Opening) : o.same p = p.same o :=
  Bool.eq_iff_iff.mpr ⟨same_symm, same_symm⟩

theorem same_trans (h : o.same p = true) (h' : p.same q = true) : o.same q = true := by
  obtain ⟨hs, hsite, hu⟩ := same_iff.mp h
  obtain ⟨-, hsite', hu'⟩ := same_iff.mp h'
  exact same_iff.mpr ⟨hs, hsite.trans hsite', hu.trans hu'⟩

end Opening

namespace Ty

/-- Is a wildcard with these bounds open? -/
def opens (upper lower : List Ty) : Bool := lower.isEmpty && !boundsNothing upper lower

theorem lower_eq_nil_of_opens {upper lower : List Ty} (h : opens upper lower = true) : lower = [] :=
  List.isEmpty_iff.mp (Bool.and_eq_true_iff.mp h).1

mutual

/-- The open wildcards of a type, from left to right. -/
def openings : Ty → List Opening
  | nominal _ => []
  | applied owner _ args => openingsOwner owner ++ openingsEach args
  | array c => openings c
  | wildcard site upper lower => if opens upper lower then [⟨site, upper⟩] else []
  | var _ _ => []

/-- The open wildcards of an owner. -/
def openingsOwner : Option Ty → List Opening
  | none => []
  | some o => openings o

/-- The open wildcards of the types of a list. -/
def openingsEach : List Ty → List Opening
  | [] => []
  | t :: ts => openings t ++ openingsEach ts

end

mutual

/-- The open wildcards of the first type, each with what stands in its place in the second. -/
def exchanges : Ty → Ty → List (Opening × Ty)
  | applied owner _ args, applied owner' _ args' =>
    exchangesOwner owner owner' ++ exchangesEach args args'
  | array t, array c => exchanges t c
  | wildcard site upper lower, c => if opens upper lower then [(⟨site, upper⟩, c)] else []
  | _, _ => []

/-- The open wildcards of the first owner, each with what stands in its place in the second. -/
def exchangesOwner : Option Ty → Option Ty → List (Opening × Ty)
  | some o, some o' => exchanges o o'
  | _, _ => []

/-- The open wildcards of the first list, each with what stands in its place in the second. -/
def exchangesEach : List Ty → List Ty → List (Opening × Ty)
  | t :: ts, c :: cs => exchanges t c ++ exchangesEach ts cs
  | _, _ => []

end

/-- The second type is the first with variables in the place of its open wildcards, and with its arrays
rebuilt. -/
inductive Exchanged : Ty → Ty → Prop where
  | nominal (c : Nominal) : Exchanged (nominal c) (nominal c)
  | applied {os : Option (Ty × Ty)} (raw : Nominal) {ps : List (Ty × Ty)}
      (ho : ∀ p ∈ os, Exchanged p.1 p.2) (ha : ∀ p ∈ ps, Exchanged p.1 p.2) :
      Exchanged (applied (os.map Prod.fst) raw (ps.map Prod.fst))
        (applied (os.map Prod.snd) raw (ps.map Prod.snd))
  | array {t c : Ty} (h : Exchanged t c) : Exchanged (array t) c.arrayOf
  | opened (site : Option Nat) {upper lower : List Ty} (h : opens upper lower = true) (k : VarKey)
      (bounds : List Ty) : Exchanged (wildcard site upper lower) (var k bounds)
  | kept (site : Option Nat) {upper lower : List Ty} (h : ¬ opens upper lower = true) :
      Exchanged (wildcard site upper lower) (wildcard site upper lower)
  | var (k : VarKey) (bounds : List Ty) : Exchanged (var k bounds) (var k bounds)

/-! ## Wildcards exchanged for variables -/

section Exchanged

variable {t c : Ty}

theorem openings_applied (owner : Option Ty) (raw : Nominal) (args : List Ty) :
    openings (applied owner raw args) = openingsOwner owner ++ openingsEach args := rfl

theorem mem_openings_applied {owner : Option Ty} {raw : Nominal} {args : List Ty} {o : Opening} :
    o ∈ openings (applied owner raw args) ↔
      (∃ t ∈ owner, o ∈ t.openings) ∨ ∃ t ∈ args, o ∈ t.openings := by
  have hargs : o ∈ openingsEach args ↔ ∃ t ∈ args, o ∈ t.openings := by
    induction args with
    | nil => simp [openingsEach]
    | cons t ts ih => simp [openingsEach, ih]
  rw [openings_applied, List.mem_append, hargs]
  cases owner <;> simp [openingsOwner]

theorem openings_wildcard (site : Option Nat) {upper lower : List Ty} (h : opens upper lower = true) :
    openings (wildcard site upper lower) = [⟨site, upper⟩] := if_pos h

theorem openings_kept (site : Option Nat) {upper lower : List Ty} (h : ¬ opens upper lower = true) :
    openings (wildcard site upper lower) = [] := if_neg h

theorem exchanges_wildcard (site : Option Nat) {upper lower : List Ty} (h : opens upper lower = true)
    (c : Ty) : exchanges (wildcard site upper lower) c = [(⟨site, upper⟩, c)] := if_pos h

theorem exchanges_kept (site : Option Nat) {upper lower : List Ty} (h : ¬ opens upper lower = true)
    (c : Ty) : exchanges (wildcard site upper lower) c = [] := if_neg h

theorem mem_exchanges_applied {os : Option (Ty × Ty)} {raw : Nominal} {ps : List (Ty × Ty)}
    {e : Opening × Ty} :
    e ∈ exchanges (applied (os.map Prod.fst) raw (ps.map Prod.fst))
        (applied (os.map Prod.snd) raw (ps.map Prod.snd)) ↔
      (∃ p ∈ os, e ∈ exchanges p.1 p.2) ∨ ∃ p ∈ ps, e ∈ exchanges p.1 p.2 := by
  have hargs : e ∈ exchangesEach (ps.map Prod.fst) (ps.map Prod.snd) ↔
      ∃ p ∈ ps, e ∈ exchanges p.1 p.2 := by
    induction ps with
    | nil => simp [exchangesEach]
    | cons p ps ih => simp [exchangesEach, ih]
  show e ∈ exchangesOwner _ _ ++ exchangesEach _ _ ↔ _
  rw [List.mem_append, hargs]
  cases os <;> simp [exchangesOwner]

/-- Nothing of an array is exchanged with a part of a type that folds. -/
theorem exchanges_array_of_folds (t : Ty) (h : c.folds = true) : exchanges (array t) c = [] := by
  cases c with
  | nominal _ => rfl
  | applied _ _ _ => simp [folds] at h
  | array _ => simp [folds] at h
  | wildcard _ _ _ => rfl
  | var _ _ => simp [folds] at h

/-- A type that folds has taken the place of one without open wildcards. -/
theorem Exchanged.openings_eq_nil (h : Exchanged t c) (hf : c.folds = true) : t.openings = [] := by
  induction h with
  | nominal _ => rfl
  | applied _ _ _ => simp [folds] at hf
  | array _ ih =>
    rw [folds_arrayOf] at hf
    exact ih hf
  | opened _ _ _ _ => simp [folds] at hf
  | kept site h => exact openings_kept site h
  | var _ _ => simp [folds] at hf

theorem map_fst_exchangesEach {ps : List (Ty × Ty)}
    (h : ∀ p ∈ ps, (exchanges p.1 p.2).map Prod.fst = p.1.openings) :
    (exchangesEach (ps.map Prod.fst) (ps.map Prod.snd)).map Prod.fst =
      openingsEach (ps.map Prod.fst) := by
  induction ps with
  | nil => rfl
  | cons p ps ih =>
    rw [List.forall_mem_cons] at h
    show (exchanges p.1 p.2 ++ exchangesEach _ _).map Prod.fst = p.1.openings ++ openingsEach _
    rw [List.map_append, h.1, ih h.2]

/-- The exchanges are those of all open wildcards, in order. -/
theorem Exchanged.map_fst_exchanges (h : Exchanged t c) :
    (exchanges t c).map Prod.fst = t.openings := by
  induction h with
  | nominal _ => rfl
  | @applied os raw ps _ _ iho iha =>
    show (exchangesOwner _ _ ++ exchangesEach _ _).map Prod.fst = openingsOwner _ ++ openingsEach _
    rw [List.map_append, map_fst_exchangesEach iha]
    cases os with
    | none => rfl
    | some p => exact congrArg (· ++ _) (iho p rfl)
  | @array t c hc ih =>
    -- an array that folds is an array node no longer, but then nothing in it was open
    cases hf : c.folds with
    | true =>
      rw [exchanges_array_of_folds t (by rw [folds_arrayOf, hf])]
      exact (hc.openings_eq_nil hf).symm
    | false =>
      rw [arrayOf_of_not_folds hf]
      exact ih
  | opened site h k bounds => rw [exchanges_wildcard site h, openings_wildcard site h]; rfl
  | kept site h => rw [exchanges_kept site h, openings_kept site h]; rfl
  | var _ _ => rfl

/-- An array built anew holds what its component has in the place of the open wildcards. -/
theorem Exchanged.exchanges_arrayOf (h : Exchanged t c) :
    exchanges (.array t) c.arrayOf = exchanges t c := by
  cases hf : c.folds with
  | true =>
    have hnone : (exchanges t c).map Prod.fst = [] := by
      rw [h.map_fst_exchanges, h.openings_eq_nil hf]
    rw [exchanges_array_of_folds t (by rw [folds_arrayOf, hf]), List.map_eq_nil_iff.mp hnone]
  | false => rw [arrayOf_of_not_folds hf]; rfl

/-! ### Normal types -/

/-- What takes the place of a normal type that does not fold does not fold either. -/
theorem Exchanged.folds_eq_false (h : Exchanged t c) (hn : t.normal = true)
    (hf : t.folds = false) : c.folds = false := by
  induction h with
  | nominal _ => exact hf
  | applied _ _ _ => rfl
  | array _ ih =>
    obtain ⟨hf', hn'⟩ := normal_array.mp hn
    rw [folds_arrayOf]
    exact ih hn' hf'
  | opened _ _ _ _ => rfl
  | kept _ _ => exact hf
  | var _ _ => rfl

/-- In a normal type arrays stay arrays. -/
theorem Exchanged.arrayOf_eq (h : Exchanged t c) (hn : (Ty.array t).normal = true) :
    c.arrayOf = .array c := by
  obtain ⟨hf, hn'⟩ := normal_array.mp hn
  exact arrayOf_of_not_folds (h.folds_eq_false hn' hf)

/-- If the variables put in are normal, so is the result. -/
theorem Exchanged.normal (h : Exchanged t c) (hn : t.normal = true)
    (hvars : ∀ e ∈ exchanges t c, e.2.normal = true) : c.normal = true := by
  induction h with
  | nominal c => exact normal_nominal c
  | @applied os raw ps _ _ iho iha =>
    obtain ⟨hno, hna⟩ := normal_applied.mp hn
    refine normal_applied.mpr ⟨fun o ho => ?_, fun a ha => ?_⟩
    · obtain ⟨p, hp, rfl⟩ := Option.map_eq_some_iff.mp ho
      refine iho p hp (hno p.1 (Option.map_eq_some_iff.mpr ⟨p, hp, rfl⟩)) fun e he => ?_
      exact hvars e (mem_exchanges_applied.mpr (.inl ⟨p, hp, he⟩))
    · obtain ⟨p, hp, rfl⟩ := List.mem_map.mp ha
      refine iha p hp (hna p.1 (List.mem_map_of_mem hp)) fun e he => ?_
      exact hvars e (mem_exchanges_applied.mpr (.inr ⟨p, hp, he⟩))
  | array h ih =>
    rw [h.exchanges_arrayOf] at hvars
    exact normal_arrayOf (ih (normal_array.mp hn).2 hvars)
  | opened site h k bounds =>
    rw [exchanges_wildcard site h] at hvars
    exact hvars _ List.mem_cons_self
  | kept _ _ => exact hn
  | var _ _ => exact hn

/-- No open wildcard of a normal type is left. -/
theorem Exchanged.openings_right (h : Exchanged t c) (hn : t.normal = true) : c.openings = [] := by
  induction h with
  | nominal _ => rfl
  | @applied os raw ps _ _ iho iha =>
    obtain ⟨hno, hna⟩ := normal_applied.mp hn
    refine List.eq_nil_iff_forall_not_mem.mpr fun o ho => ?_
    rcases mem_openings_applied.mp ho with ⟨t, ht, ho⟩ | ⟨t, ht, ho⟩
    · obtain ⟨p, hp, rfl⟩ := Option.map_eq_some_iff.mp ht
      rw [iho p hp (hno p.1 (Option.map_eq_some_iff.mpr ⟨p, hp, rfl⟩))] at ho
      exact List.not_mem_nil ho
    · obtain ⟨p, hp, rfl⟩ := List.mem_map.mp ht
      rw [iha p hp (hna p.1 (List.mem_map_of_mem hp))] at ho
      exact List.not_mem_nil ho
  | array h ih =>
    rw [h.arrayOf_eq hn]
    exact ih (normal_array.mp hn).2
  | opened _ _ _ _ => rfl
  | kept site h => exact openings_kept site h
  | var _ _ => rfl

end Exchanged

end Ty

/-! ## What a captor hands out -/

/-- The wildcard that was captured. -/
def Captured.opening (c : Captured) : Opening := ⟨c.site, c.upper⟩

namespace Captor

/-- A captor hands out the variable of a wildcard that it knows, or else a new one. -/
theorem standInFor_cases (s : Captor) (o : Opening) :
    (∃ c ∈ s.captured, c.opening.same o = true ∧ s.standInFor o.site o.upper = (c.standIn, s)) ∨
      (∀ c ∈ s.captured, ¬ c.opening.same o = true) ∧
        s.standInFor o.site o.upper = s.fresh o.site o.upper := by
  have hat : ∀ c : Captured, c.isAt o.site o.upper = c.opening.same o := fun c => by
    by_cases hsite : c.site = o.site <;>
      simp [Captured.isAt, Opening.same, Captured.opening, hsite]
  unfold standInFor
  cases hf : s.captured.find? (fun c => c.isAt o.site o.upper) with
  | some c =>
    have hsame := List.find?_some (p := fun c : Captured => c.isAt o.site o.upper) hf
    exact .inl ⟨c, List.mem_of_find?_eq_some hf, hat c ▸ hsame, rfl⟩
  | none => exact .inr ⟨fun c hc => hat c ▸ List.find?_eq_none.mp hf c hc, rfl⟩

/-- Hands out the variables for open wildcards, one after the other. -/
def handOut (s : Captor) : List Opening → List (Opening × Ty) × Captor
  | [] => ([], s)
  | o :: os =>
    let one := s.standInFor o.site o.upper
    let rest := one.2.handOut os
    ((o, one.1) :: rest.1, rest.2)

theorem handOut_append (s : Captor) (os os' : List Opening) :
    s.handOut (os ++ os') =
      ((s.handOut os).1 ++ ((s.handOut os).2.handOut os').1, ((s.handOut os).2.handOut os').2) := by
  induction os generalizing s with
  | nil => rfl
  | cons o os ih =>
    simp only [List.cons_append, handOut, ih]

end Captor

namespace Ty

theorem captureFrom_of_opens (s : Captor) (site : Option Nat) {upper lower : List Ty}
    (h : opens upper lower = true) :
    captureFrom s (wildcard site upper lower) = s.standInFor site upper := by
  obtain ⟨hl, hn⟩ := Bool.and_eq_true_iff.mp h
  have hopen : ¬ (boundsNothing upper lower || !lower.isEmpty) = true := by simp_all
  exact if_neg hopen

theorem captureFrom_of_not_opens (s : Captor) (site : Option Nat) {upper lower : List Ty}
    (h : ¬ opens upper lower = true) :
    captureFrom s (wildcard site upper lower) = (wildcard site upper lower, s) := by
  have hkept : (boundsNothing upper lower || !lower.isEmpty) = true := by
    rw [opens] at h
    cases hl : lower.isEmpty <;> simp_all
  exact if_pos hkept

theorem handOut_openingsEach {ts : List Ty}
    (h : ∀ t ∈ ts, ∀ s, Exchanged t (captureFrom s t).1 ∧
      s.handOut t.openings = (exchanges t (captureFrom s t).1, (captureFrom s t).2))
    (s : Captor) :
    (∃ ps : List (Ty × Ty), ps.map Prod.fst = ts ∧ ps.map Prod.snd = (captureEachFrom s ts).1 ∧
        ∀ p ∈ ps, Exchanged p.1 p.2) ∧
      s.handOut (openingsEach ts) =
        (exchangesEach ts (captureEachFrom s ts).1, (captureEachFrom s ts).2) := by
  induction ts generalizing s with
  | nil => exact ⟨⟨[], rfl, rfl, by simp⟩, rfl⟩
  | cons t ts ih =>
    rw [List.forall_mem_cons] at h
    obtain ⟨hfirst, hout⟩ := h.1 s
    obtain ⟨⟨ps, hts, hcs, hps⟩, hrest⟩ := ih h.2 (captureFrom s t).2
    refine ⟨⟨(t, (captureFrom s t).1) :: ps, ?_, ?_, ?_⟩, ?_⟩
    · rw [List.map_cons, hts]
    · rw [List.map_cons, hcs, captureEachFrom]
    · exact List.forall_mem_cons.mpr ⟨hfirst, hps⟩
    · show s.handOut (t.openings ++ openingsEach ts) = _
      rw [Captor.handOut_append, hout, hrest]
      rfl

/-- **Capturing exchanges the open wildcards of a type for what the captor hands out.** -/
theorem handOut_openings (s : Captor) (t : Ty) :
    Exchanged t (captureFrom s t).1 ∧
      s.handOut t.openings = (exchanges t (captureFrom s t).1, (captureFrom s t).2) := by
  induction t using induct generalizing s with
  | nominal c => exact ⟨.nominal c, rfl⟩
  | applied owner raw args ho ha =>
    have howner : (∃ os : Option (Ty × Ty), os.map Prod.fst = owner ∧
        os.map Prod.snd = (captureOwnerFrom s owner).1 ∧ ∀ p ∈ os, Exchanged p.1 p.2) ∧
        s.handOut (openingsOwner owner) =
          (exchangesOwner owner (captureOwnerFrom s owner).1, (captureOwnerFrom s owner).2) := by
      cases owner with
      | none => exact ⟨⟨none, rfl, rfl, by simp⟩, rfl⟩
      | some o =>
        obtain ⟨hex, hout⟩ := ho o rfl s
        exact ⟨⟨some (o, (captureFrom s o).1), rfl, rfl, by simpa using hex⟩, hout⟩
    obtain ⟨⟨os, hfst, hsnd, hos⟩, houtOwner⟩ := howner
    obtain ⟨⟨ps, hts, hcs, hps⟩, houtEach⟩ :=
      handOut_openingsEach (fun a hm s => ha a hm s) (captureOwnerFrom s owner).2
    constructor
    · have hex := Exchanged.applied raw hos hps
      rwa [hfst, hsnd, hts, hcs] at hex
    · rw [openings_applied, Captor.handOut_append, houtOwner, houtEach]
      rfl
  | array c ih =>
    obtain ⟨hex, hout⟩ := ih s
    refine ⟨.array hex, ?_⟩
    show s.handOut c.openings = (exchanges (array c) (captureFrom s c).1.arrayOf, (captureFrom s c).2)
    rw [hout, hex.exchanges_arrayOf]
  | wildcard site upper lower _ _ =>
    by_cases h : opens upper lower = true
    · rw [captureFrom_of_opens s site h, openings_wildcard site h, exchanges_wildcard site h]
      refine ⟨?_, rfl⟩
      obtain ⟨c, -, -, hc⟩ | ⟨-, hc⟩ := s.standInFor_cases ⟨site, upper⟩
      · exact hc ▸ .opened site h c.key c.upper
      · exact hc ▸ .opened site h (captureKey s.next upper) upper
    · rw [captureFrom_of_not_opens s site h, openings_kept site h, exchanges_kept site h]
      exact ⟨.kept site h, rfl⟩
  | var k bounds _ => exact ⟨.var k bounds, rfl⟩

end Ty

end Generics
