import Generics.Proofs.Nodes
import Generics.Ty.Array

/-!
# Generics.Proofs.NormalForm: the normal form of arrays

Types are built by the constructors of `Ty`, with the one exception that arrays are built by
`arrayOf`: `Constructed` says that a type can be built in this way.  Such types are exactly the ones
in array normal form (`constructed_iff`): no array node holds a type that `arrayOf` would have folded
into a class or a wildcard.  The normal form can be decided by looking at the type.
-/

namespace Generics.Ty

/-! ## Types that fold -/

/-- A type whose arrays are not written as an array node: a class, or a wildcard with a single
bound that counts. -/
def folds : Ty → Bool
  | nominal _ => true
  | wildcard _ _ [_] => true
  | wildcard _ [_] [] => true
  | _ => false

/-- A class with as many dimensions as can be counted. -/
def isFull : Ty → Bool
  | nominal c => c.isFull
  | _ => false

/-- Whether a wildcard folds depends on the number of its bounds. -/
theorem folds_wildcard (site : Option Nat) (upper lower : List Ty) :
    folds (wildcard site upper lower) =
      (lower.length == 1 || (lower.length == 0 && upper.length == 1)) := by
  rcases lower with _ | ⟨l, _ | ⟨l', ls⟩⟩ <;> rcases upper with _ | ⟨u, _ | ⟨u', us⟩⟩ <;>
    simp [folds]

theorem arrayOf_of_not_folds {t : Ty} (h : t.folds = false) : arrayOf t = array t := by
  fun_cases arrayOf t with
  | case1 c => simp [folds] at h
  | case2 site upper lower => simp [folds] at h
  | case3 site upper => simp [folds] at h
  | case4 => rfl

theorem arrayOf_nominal (c : Nominal) : arrayOf (nominal c) = nominal c.array := rfl

theorem arrayOf_wildcard_lower (site : Option Nat) (upper : List Ty) (lower : Ty) :
    arrayOf (wildcard site upper [lower]) = above (arrayOf lower) := rfl

theorem arrayOf_wildcard_upper (site : Option Nat) (upper : Ty) :
    arrayOf (wildcard site [upper] []) = extending (arrayOf upper) := rfl

/-- Induction along `arrayOf`: a class, a wildcard with one lower bound, a wildcard with one upper
bound and no lower one, and all types that do not fold. -/
@[elab_as_elim]
theorem arrayOf_induct {P : Ty → Prop} (nominal : ∀ c, P (nominal c))
    (lower : ∀ site upper lower, P lower → P (wildcard site upper [lower]))
    (upper : ∀ site upper, P upper → P (wildcard site [upper] []))
    (other : ∀ t, t.folds = false → P t) (t : Ty) : P t := by
  induction t using arrayOf.induct with
  | case1 c => exact nominal c
  | case2 site us l ih => exact lower site us l ih
  | case3 site u ih => exact upper site u ih
  | case4 t h1 h2 h3 =>
    refine other t ?_
    unfold folds
    split <;> simp_all

/-- The array of a type is a wildcard only if the type is one that folds. -/
theorem isWildcard_arrayOf (t : Ty) :
    (arrayOf t).isWildcard = (t.isWildcard && t.folds) := by
  induction t using arrayOf_induct with
  | nominal c => simp [arrayOf_nominal, isWildcard, kind]
  | lower site upper lower _ =>
    simp [arrayOf_wildcard_lower, above, isWildcard, kind, folds]
  | upper site upper _ =>
    simp [arrayOf_wildcard_upper, extending, isWildcard, kind, folds]
  | other t hf => simp [arrayOf_of_not_folds hf, isWildcard, kind, hf]

/-- The array of a type folds if the type does. -/
theorem folds_arrayOf (t : Ty) : (arrayOf t).folds = t.folds := by
  induction t using arrayOf_induct with
  | nominal c => rfl
  | lower site upper lower _ => rfl
  | upper site upper _ => rfl
  | other t hf => rw [arrayOf_of_not_folds hf, hf, folds] <;> simp

theorem isFull_of_not_folds {t : Ty} (h : t.folds = false) : t.isFull = false := by
  cases t with
  | nominal c => cases h
  | applied _ _ _ | array _ | wildcard _ _ _ | var _ _ => rfl

theorem isFull_of_isWildcard {t : Ty} (h : t.isWildcard = true) : t.isFull = false := by
  cases t with
  | nominal c => cases h
  | applied _ _ _ | array _ | wildcard _ _ _ | var _ _ => rfl

/-- Arrays that are not wildcards hold what they were built from, if it could be counted. -/
theorem component?_arrayOf {t : Ty} (h : (arrayOf t).isWildcard = false) (hfull : t.isFull = false) :
    (arrayOf t).component? = some t := by
  induction t using arrayOf_induct with
  | nominal c => rw [arrayOf_nominal, component?, Nominal.component?_array hfull, Option.map_some]
  | lower site upper lower _ => simp [arrayOf_wildcard_lower, above, isWildcard, kind] at h
  | upper site upper _ => simp [arrayOf_wildcard_upper, extending, isWildcard, kind] at h
  | other t hf => rw [arrayOf_of_not_folds hf, component?]

/-- The array of a full class is a class without dimensions, which holds nothing. -/
theorem component?_arrayOf_of_isFull {t : Ty} (h : t.isFull = true) :
    (arrayOf t).component? = none := by
  cases t with
  | nominal c =>
    rw [arrayOf_nominal, component?, Nominal.component?_array_of_isFull h, Option.map_none]
  | applied _ _ _ | array _ | wildcard _ _ _ | var _ _ => cases h

theorem mem_of_firstComponent? {ts : List Ty} {c : Ty} (h : firstComponent? ts = some c) :
    ∃ t ∈ ts, t.component? = some c := by
  induction ts with
  | nil => cases h
  | cons t ts ih =>
    rcases Option.or_eq_some_iff.mp h with h | ⟨-, h⟩
    · exact ⟨t, List.mem_cons_self, h⟩
    · obtain ⟨s, hs, hc⟩ := ih h
      exact ⟨s, List.mem_cons_of_mem t hs, hc⟩

/-- Induction on what a type holds: a class or an array holds its component, a wildcard or a variable
what one of its bounds holds, widened. -/
@[elab_as_elim]
theorem component?_induct {P : Ty → Ty → Prop}
    (nominal : ∀ n m, P (nominal n) (nominal m))
    (array : ∀ c, P (array c) c)
    (wildcard : ∀ site upper lower b d, b ∈ upper → P b d → P (wildcard site upper lower) d.widen)
    (var : ∀ k bounds b d, b ∈ bounds → P b d → P (var k bounds) d.widen)
    (t c : Ty) (h : t.component? = some c) : P t c := by
  induction t using induct generalizing c with
  | nominal n =>
    obtain ⟨m, -, rfl⟩ := Option.map_eq_some_iff.mp h
    exact nominal n m
  | applied owner raw args _ _ => cases h
  | array d _ =>
    cases h
    exact array d
  | wildcard site upper lower hu _ =>
    obtain ⟨d, hd, rfl⟩ := Option.map_eq_some_iff.mp h
    obtain ⟨b, hb, hbd⟩ := mem_of_firstComponent? hd
    exact wildcard site upper lower b d hb (hu b hb d hbd)
  | var k bounds hbounds =>
    obtain ⟨d, hd, rfl⟩ := Option.map_eq_some_iff.mp h
    obtain ⟨b, hb, hbd⟩ := mem_of_firstComponent? hd
    exact var k bounds b d hb (hbounds b hb d hbd)

/-! ## The normal form -/

mutual

/-- Is no array node in the type, be it inside the bounds of a variable, over a type that folds? -/
def normal : Ty → Bool
  | nominal _ => true
  | applied owner _ args => normalOwner owner && normalEach args
  | array c => !c.folds && normal c
  | wildcard _ upper lower => normalEach upper && normalEach lower
  | var _ bounds => normalEach bounds

/-- Is an owner normal? -/
def normalOwner : Option Ty → Bool
  | none => true
  | some o => normal o

/-- Are the types of a list normal? -/
def normalEach : List Ty → Bool
  | [] => true
  | t :: ts => normal t && normalEach ts

end

theorem normalOwner_iff {owner : Option Ty} :
    normalOwner owner = true ↔ ∀ o ∈ owner, normal o = true := by
  cases owner <;> simp [normalOwner]

theorem normalEach_iff {ts : List Ty} : normalEach ts = true ↔ ∀ t ∈ ts, normal t = true := by
  induction ts with
  | nil => simp [normalEach]
  | cons t ts ih => simp [normalEach, ih]

@[simp] theorem normal_nominal (c : Nominal) : normal (nominal c) = true := rfl

theorem normal_applied {owner : Option Ty} {raw : Nominal} {args : List Ty} :
    normal (applied owner raw args) = true ↔
      (∀ o ∈ owner, normal o = true) ∧ ∀ a ∈ args, normal a = true := by
  show (normalOwner owner && normalEach args) = true ↔ _
  rw [Bool.and_eq_true, normalOwner_iff, normalEach_iff]

theorem normal_array {c : Ty} :
    normal (array c) = true ↔ c.folds = false ∧ normal c = true := by
  show (!c.folds && normal c) = true ↔ _
  rw [Bool.and_eq_true, Bool.not_eq_true']

theorem normal_wildcard {site : Option Nat} {upper lower : List Ty} :
    normal (wildcard site upper lower) = true ↔
      (∀ b ∈ upper, normal b = true) ∧ ∀ b ∈ lower, normal b = true := by
  show (normalEach upper && normalEach lower) = true ↔ _
  rw [Bool.and_eq_true, normalEach_iff, normalEach_iff]

theorem normal_var {k : VarKey} {bounds : List Ty} :
    normal (var k bounds) = true ↔ ∀ b ∈ bounds, normal b = true :=
  normalEach_iff

@[simp] theorem normal_ofKey (k : VarKey) : normal (ofKey k) = true := by
  simp [ofKey, normal_var]

/-- The parts of a normal type are normal. -/
theorem normal_of_mem_nodes {s t : Ty} (h : normal t = true) (hs : s ∈ nodes t) :
    normal s = true := by
  induction t using induct with
  | nominal c => rwa [mem_nodes_nominal.mp hs]
  | applied owner raw args ho ha =>
    obtain ⟨hno, hna⟩ := normal_applied.mp h
    obtain rfl | ⟨o, hm, hs⟩ | ⟨a, hm, hs⟩ := mem_nodes_applied.mp hs
    · exact h
    · exact ho o hm (hno o hm) hs
    · exact ha a hm (hna a hm) hs
  | array c ih =>
    obtain rfl | hs := mem_nodes_array.mp hs
    · exact h
    · exact ih (normal_array.mp h).2 hs
  | wildcard site upper lower hu hl =>
    obtain ⟨hnu, hnl⟩ := normal_wildcard.mp h
    obtain rfl | ⟨b, hm, hs⟩ | ⟨b, hm, hs⟩ := mem_nodes_wildcard.mp hs
    · exact h
    · exact hu b hm (hnu b hm) hs
    · exact hl b hm (hnl b hm) hs
  | var k bounds _ => rwa [mem_nodes_var.mp hs]

/-- The array of a normal type is normal. -/
theorem normal_arrayOf {t : Ty} (h : normal t = true) : normal (arrayOf t) = true := by
  induction t using arrayOf_induct with
  | nominal c => rw [arrayOf_nominal, normal_nominal]
  | lower site upper lower ih =>
    have hl : normal lower = true := (normal_wildcard.mp h).2 lower List.mem_cons_self
    rw [arrayOf_wildcard_lower, above, normal_wildcard]
    simp [top, ih hl]
  | upper site upper ih =>
    have hu : normal upper = true := (normal_wildcard.mp h).1 upper List.mem_cons_self
    rw [arrayOf_wildcard_upper, extending, normal_wildcard]
    simp [ih hu]
  | other t hf =>
    rw [arrayOf_of_not_folds hf, normal_array]
    exact ⟨hf, h⟩

/-! ## What can be constructed -/

/-- The type can be built from the constructors, with `arrayOf` as the only way to build an array. -/
inductive Constructed : Ty → Prop where
  | nominal (c : Nominal) : Constructed (nominal c)
  | applied {owner : Option Ty} (raw : Nominal) {args : List Ty}
      (ho : ∀ o ∈ owner, Constructed o) (ha : ∀ a ∈ args, Constructed a) :
      Constructed (applied owner raw args)
  | arrayOf {c : Ty} (h : Constructed c) : Constructed c.arrayOf
  | wildcard (site : Option Nat) {upper lower : List Ty}
      (hu : ∀ b ∈ upper, Constructed b) (hl : ∀ b ∈ lower, Constructed b) :
      Constructed (wildcard site upper lower)
  | var (k : VarKey) {bounds : List Ty} (hb : ∀ b ∈ bounds, Constructed b) :
      Constructed (var k bounds)

theorem Constructed.normal {t : Ty} (h : Constructed t) : t.normal = true := by
  induction h with
  | nominal c => exact normal_nominal c
  | applied raw _ _ iho iha => exact normal_applied.mpr ⟨iho, iha⟩
  | arrayOf _ ih => exact normal_arrayOf ih
  | wildcard site _ _ ihu ihl => exact normal_wildcard.mpr ⟨ihu, ihl⟩
  | var k _ ihb => exact normal_var.mpr ihb

theorem constructed_of_normal {t : Ty} (h : t.normal = true) : Constructed t := by
  induction t using induct with
  | nominal c => exact .nominal c
  | applied owner raw args ho ha =>
    obtain ⟨hno, hna⟩ := normal_applied.mp h
    exact .applied raw (fun o hm => ho o hm (hno o hm)) (fun a hm => ha a hm (hna a hm))
  | array c ih =>
    obtain ⟨hf, hc⟩ := normal_array.mp h
    rw [← arrayOf_of_not_folds hf]
    exact .arrayOf (ih hc)
  | wildcard site upper lower hu hl =>
    obtain ⟨hnu, hnl⟩ := normal_wildcard.mp h
    exact .wildcard site (fun b hm => hu b hm (hnu b hm)) (fun b hm => hl b hm (hnl b hm))
  | var k bounds hb =>
    exact .var k (fun b hm => hb b hm (normal_var.mp h b hm))

/-- The types that can be constructed are those in array normal form. -/
theorem constructed_iff {t : Ty} : Constructed t ↔ t.normal = true :=
  ⟨Constructed.normal, constructed_of_normal⟩

instance : DecidablePred Constructed := fun _ => decidable_of_iff _ constructed_iff.symm

end Generics.Ty
