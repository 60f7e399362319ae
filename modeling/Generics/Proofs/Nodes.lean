import Generics.Ty.Vars

/-!
# Generics.Proofs.Nodes: the parts of a type

`nodes` lists a type and all its parts: what is reached through owners, arguments, array components
and the bounds of wildcards.  The bounds of variables are not entered, so the variables of a type are
the variables among its nodes (`mem_vars_iff`).
-/

namespace Generics.Ty

variable {s : Ty} {k : VarKey}

/-! ## Definition -/

mutual

/-- The type and its parts, the bounds of variables left out. -/
def nodes : Ty → List Ty
  | nominal c => [nominal c]
  | applied owner raw args => applied owner raw args :: (nodesOwner owner ++ nodesEach args)
  | array c => array c :: nodes c
  | wildcard site upper lower =>
    wildcard site upper lower :: (nodesEach upper ++ nodesEach lower)
  | var k bounds => [var k bounds]

def nodesOwner : Option Ty → List Ty
  | none => []
  | some o => nodes o

def nodesEach : List Ty → List Ty
  | [] => []
  | t :: ts => nodes t ++ nodesEach ts

end

theorem mem_nodesOwner {owner : Option Ty} : s ∈ nodesOwner owner ↔ ∃ o ∈ owner, s ∈ nodes o := by
  cases owner <;> simp [nodesOwner]

theorem mem_nodesEach {ts : List Ty} : s ∈ nodesEach ts ↔ ∃ t ∈ ts, s ∈ nodes t := by
  induction ts with
  | nil => simp [nodesEach]
  | cons t ts ih => simp [nodesEach, ih]

theorem mem_nodes_nominal {c : Nominal} : s ∈ nodes (nominal c) ↔ s = nominal c :=
  List.mem_singleton

theorem mem_nodes_applied {owner : Option Ty} {raw : Nominal} {args : List Ty} :
    s ∈ nodes (applied owner raw args) ↔
      s = applied owner raw args ∨ (∃ o ∈ owner, s ∈ nodes o) ∨ ∃ a ∈ args, s ∈ nodes a := by
  show s ∈ _ :: (nodesOwner owner ++ nodesEach args) ↔ _
  rw [List.mem_cons, List.mem_append, mem_nodesOwner, mem_nodesEach]

theorem mem_nodes_array {c : Ty} : s ∈ nodes (array c) ↔ s = array c ∨ s ∈ nodes c :=
  List.mem_cons

theorem mem_nodes_wildcard {site : Option Nat} {upper lower : List Ty} :
    s ∈ nodes (wildcard site upper lower) ↔
      s = wildcard site upper lower ∨ (∃ b ∈ upper, s ∈ nodes b) ∨ ∃ b ∈ lower, s ∈ nodes b := by
  show s ∈ _ :: (nodesEach upper ++ nodesEach lower) ↔ _
  rw [List.mem_cons, List.mem_append, mem_nodesEach, mem_nodesEach]

theorem mem_nodes_var {bounds : List Ty} : s ∈ nodes (var k bounds) ↔ s = var k bounds :=
  List.mem_singleton

theorem self_mem_nodes (t : Ty) : t ∈ nodes t := by
  cases t <;> exact List.mem_cons_self

theorem mem_nodes_trans {r t : Ty} (hs : s ∈ nodes t) (hr : r ∈ nodes s) : r ∈ nodes t := by
  induction t using induct with
  | nominal c => rwa [mem_nodes_nominal.mp hs] at hr
  | applied owner raw args ho ha =>
    obtain rfl | ⟨o, hm, hs⟩ | ⟨a, hm, hs⟩ := mem_nodes_applied.mp hs
    · exact hr
    · exact mem_nodes_applied.mpr (.inr (.inl ⟨o, hm, ho o hm hs⟩))
    · exact mem_nodes_applied.mpr (.inr (.inr ⟨a, hm, ha a hm hs⟩))
  | array c ih =>
    obtain rfl | hs := mem_nodes_array.mp hs
    · exact hr
    · exact mem_nodes_array.mpr (.inr (ih hs))
  | wildcard site upper lower hu hl =>
    obtain rfl | ⟨b, hm, hs⟩ | ⟨b, hm, hs⟩ := mem_nodes_wildcard.mp hs
    · exact hr
    · exact mem_nodes_wildcard.mpr (.inr (.inl ⟨b, hm, hu b hm hs⟩))
    · exact mem_nodes_wildcard.mpr (.inr (.inr ⟨b, hm, hl b hm hs⟩))
  | var k bounds _ => rwa [mem_nodes_var.mp hs] at hr

/-! ## Variables -/

theorem vars_applied (owner : Option Ty) (raw : Nominal) (args : List Ty) :
    vars (applied owner raw args) = owner.toList.flatMap vars ++ args.flatMap vars := by
  show varsOwner owner ++ varsEach args = _
  rw [varsEach_eq_flatMap]
  cases owner <;> simp [varsOwner]

theorem mem_vars_applied {owner : Option Ty} {raw : Nominal} {args : List Ty} :
    k ∈ vars (applied owner raw args) ↔ (∃ o ∈ owner, k ∈ vars o) ∨ ∃ a ∈ args, k ∈ vars a := by
  rw [vars_applied, List.mem_append, List.mem_flatMap, List.mem_flatMap]
  simp only [Option.mem_toList, Option.mem_def]

@[simp] theorem vars_nominal (c : Nominal) : vars (nominal c) = [] := rfl

@[simp] theorem vars_array (c : Ty) : vars (array c) = vars c := rfl

theorem vars_wildcard (site : Option Nat) (upper lower : List Ty) :
    vars (wildcard site upper lower) = upper.flatMap vars ++ lower.flatMap vars := by
  show varsEach upper ++ varsEach lower = _
  rw [varsEach_eq_flatMap, varsEach_eq_flatMap]

theorem mem_vars_wildcard {site : Option Nat} {upper lower : List Ty} :
    k ∈ vars (wildcard site upper lower) ↔ (∃ b ∈ upper, k ∈ vars b) ∨ ∃ b ∈ lower, k ∈ vars b := by
  rw [vars_wildcard, List.mem_append, List.mem_flatMap, List.mem_flatMap]

@[simp] theorem vars_var (k : VarKey) (bounds : List Ty) : vars (var k bounds) = [k] := rfl

@[simp] theorem vars_ofKey (k : VarKey) : vars (ofKey k) = [k] := vars_var k []

@[simp] theorem mem_freeKeys {t : Ty} : k ∈ t.freeKeys ↔ k ∈ t.vars := mem_ascending

/-- The variables of a type are the variables among its nodes. -/
theorem mem_vars_iff {t : Ty} : k ∈ vars t ↔ ∃ bounds, var k bounds ∈ nodes t := by
  induction t using induct with
  | nominal c => simp [mem_nodes_nominal]
  | applied owner raw args ho ha =>
    rw [mem_vars_applied]
    constructor
    · rintro (⟨o, hm, hk⟩ | ⟨a, hm, hk⟩)
      · obtain ⟨bs, hbs⟩ := (ho o hm).mp hk
        exact ⟨bs, mem_nodes_applied.mpr (.inr (.inl ⟨o, hm, hbs⟩))⟩
      · obtain ⟨bs, hbs⟩ := (ha a hm).mp hk
        exact ⟨bs, mem_nodes_applied.mpr (.inr (.inr ⟨a, hm, hbs⟩))⟩
    · rintro ⟨bs, hbs⟩
      obtain h | ⟨o, hm, hbs⟩ | ⟨a, hm, hbs⟩ := mem_nodes_applied.mp hbs
      · cases h
      · exact .inl ⟨o, hm, (ho o hm).mpr ⟨bs, hbs⟩⟩
      · exact .inr ⟨a, hm, (ha a hm).mpr ⟨bs, hbs⟩⟩
  | array c ih => simp [mem_nodes_array, ih]
  | wildcard site upper lower hu hl =>
    rw [mem_vars_wildcard]
    constructor
    · rintro (⟨b, hm, hk⟩ | ⟨b, hm, hk⟩)
      · obtain ⟨bs, hbs⟩ := (hu b hm).mp hk
        exact ⟨bs, mem_nodes_wildcard.mpr (.inr (.inl ⟨b, hm, hbs⟩))⟩
      · obtain ⟨bs, hbs⟩ := (hl b hm).mp hk
        exact ⟨bs, mem_nodes_wildcard.mpr (.inr (.inr ⟨b, hm, hbs⟩))⟩
    · rintro ⟨bs, hbs⟩
      obtain h | ⟨b, hm, hbs⟩ | ⟨b, hm, hbs⟩ := mem_nodes_wildcard.mp hbs
      · cases h
      · exact .inl ⟨b, hm, (hu b hm).mpr ⟨bs, hbs⟩⟩
      · exact .inr ⟨b, hm, (hl b hm).mpr ⟨bs, hbs⟩⟩
  | var j bounds _ => simp [mem_nodes_var, eq_comm]

end Generics.Ty
