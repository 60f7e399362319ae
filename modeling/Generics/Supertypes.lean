import Generics.Capture
import Generics.Count
import Generics.Registry
import Generics.Table.Record

/-!
# Generics.Supertypes: what a type says about the parameters of its supertypes

`Registry.survey` walks from a context type to all its declared supertypes and records for every
parameter met on the way the argument it is given.  A type is entered once, up to the bounds of
variables; the walk goes depth first, so the arguments nearest to the context come first.

The walk ends on every registry, however its declarations refer to each other: all it can meet is
the context, the declared supertypes, and the parts of these that `Ty.within` lists, and each step
that enters a type leaves one fewer of them (`Registry.walk`).
-/

namespace Generics

namespace Ty

mutual

/-- The types that a walk can reach from a type without using a declaration: the type, the class
that it applies, its owner, the bounds of a variable, the upper bounds of a wildcard, and what can
be reached from these. -/
def within : Ty → List Ty
  | nominal c => [nominal c]
  | applied owner raw args => applied owner raw args :: nominal raw :: withinOwner owner
  | array c => [array c]
  | wildcard site upper lower => wildcard site upper lower :: withinEach upper
  | var k bounds => var k bounds :: withinEach bounds

/-- What can be reached from an owner. -/
def withinOwner : Option Ty → List Ty
  | none => []
  | some o => within o

/-- What can be reached from the types of a list. -/
def withinEach : List Ty → List Ty
  | [] => []
  | t :: ts => within t ++ withinEach ts

end

theorem mem_withinEach {s : Ty} {ts : List Ty} : s ∈ withinEach ts ↔ ∃ t ∈ ts, s ∈ within t := by
  induction ts with
  | nil => simp [withinEach]
  | cons t ts ih => simp [withinEach, ih]

theorem self_mem_within (t : Ty) : t ∈ within t := by
  cases t <;> simp [within]

end Ty

namespace Registry

variable (R : Registry)

/-- The types that a walk goes on to from a type. -/
def next : Ty → List Ty
  | .nominal c => R.supertypes c
  | .applied owner raw _ => .nominal raw :: owner.toList
  | .array _ => []
  | .wildcard _ upper _ => upper
  | .var _ bounds => bounds

/-- Records what entering a type says about the parameters of the class that it applies. -/
def enter (found : Table) : Ty → Except Violation Table
  | .applied _ raw args =>
    match R.find? raw with
    | none => .error (.undeclared raw)
    | some d =>
      if d.params.length ≠ args.length then
        .error (.parameterCount raw d.params.length args.length)
      else .ok (found.recordAll ((d.params.map Param.key).zip args))
  | _ => .ok found

/-- All that a walk from the context can meet. -/
def horizon (context : Ty) : List Ty := Ty.withinEach (context :: R.allSupertypes)

theorem next_mem_within {t s u : Ty} (hs : s ∈ R.next t) (ht : t ∈ Ty.within u) :
    s ∈ Ty.within u ∨ s ∈ R.allSupertypes := by
  have hself : ∀ {v : Ty}, s ∈ R.next v → s ∈ Ty.within v ∨ s ∈ R.allSupertypes := by
    intro v hv
    cases v with
    | nominal c => exact .inr (mem_allSupertypes hv)
    | applied owner raw args =>
      left
      rcases List.mem_cons.mp hv with rfl | hv
      · simp [Ty.within]
      · cases owner with
        | none => simp at hv
        | some o =>
          simp only [Option.toList_some, List.mem_singleton] at hv
          subst hv
          simp [Ty.within, Ty.withinOwner, Ty.self_mem_within]
    | array c => simp [next] at hv
    | wildcard site upper lower =>
      left
      exact List.mem_cons_of_mem _ (Ty.mem_withinEach.mpr ⟨s, hv, Ty.self_mem_within s⟩)
    | var k bounds =>
      left
      exact List.mem_cons_of_mem _ (Ty.mem_withinEach.mpr ⟨s, hv, Ty.self_mem_within s⟩)
  induction u using Ty.induct with
  | nominal c =>
    rw [Ty.within, List.mem_singleton] at ht
    exact ht ▸ hself (ht ▸ hs)
  | applied owner raw args ho _ =>
    rw [Ty.within, List.mem_cons] at ht
    rcases ht with rfl | ht
    · exact hself hs
    · rcases List.mem_cons.mp ht with rfl | ht
      · rcases hself hs with h | h
        · rw [Ty.within, List.mem_singleton] at h
          exact .inl (by simp [h, Ty.within])
        · exact .inr h
      · cases owner with
        | none => simp [Ty.withinOwner] at ht
        | some o =>
          refine (ho o rfl ht).imp_left fun h => ?_
          exact List.mem_cons_of_mem _ (List.mem_cons_of_mem _ h)
  | array c _ =>
    rw [Ty.within, List.mem_singleton] at ht
    exact ht ▸ hself (ht ▸ hs)
  | wildcard site upper lower hu _ =>
    rw [Ty.within, List.mem_cons] at ht
    rcases ht with rfl | ht
    · exact hself hs
    · obtain ⟨b, hb, htb⟩ := Ty.mem_withinEach.mp ht
      refine (hu b hb htb).imp_left fun h => ?_
      exact List.mem_cons_of_mem _ (Ty.mem_withinEach.mpr ⟨b, hb, h⟩)
  | var k bounds hb =>
    rw [Ty.within, List.mem_cons] at ht
    rcases ht with rfl | ht
    · exact hself hs
    · obtain ⟨b, hmem, htb⟩ := Ty.mem_withinEach.mp ht
      refine (hb b hmem htb).imp_left fun h => ?_
      exact List.mem_cons_of_mem _ (Ty.mem_withinEach.mpr ⟨b, hmem, h⟩)

/-- A walk never leaves its horizon. -/
theorem next_mem_horizon {context t s : Ty} (ht : t ∈ R.horizon context) (hs : s ∈ R.next t) :
    s ∈ R.horizon context := by
  obtain ⟨u, hu, htu⟩ := Ty.mem_withinEach.mp ht
  rcases R.next_mem_within hs htu with h | h
  · exact Ty.mem_withinEach.mpr ⟨u, hu, h⟩
  · exact Ty.mem_withinEach.mpr ⟨s, List.mem_cons_of_mem _ h, Ty.self_mem_within s⟩

/-- The types of the horizon that do not agree with one visited already. -/
def unvisited (context : Ty) (visited : List Ty) : Nat :=
  (R.horizon context).countP fun t => !t.listed visited

variable {R}

/-- Entering a type that was not visited leaves one fewer. -/
theorem unvisited_cons_lt {context t : Ty} {visited : List Ty} (ht : t ∈ R.horizon context)
    (hv : ¬ t.listed visited = true) :
    R.unvisited context (t :: visited) < R.unvisited context visited := by
  refine countP_lt (fun s _ hs => ?_) ht (by simpa using hv) (by simp [Ty.listed])
  simp only [Ty.listed, List.any_cons, Bool.not_or, Bool.and_eq_true] at hs
  exact hs.2

variable (R)

/-- Visits the pending types one after the other, each followed by what it leads to, and returns
what has been found. -/
def walk (context : Ty) (pending visited : List Ty) (found : Table)
    (inside : ∀ t ∈ pending, t ∈ R.horizon context) : Except Violation Table :=
  match pending with
  | [] => .ok found
  | t :: rest =>
    if _hv : t.listed visited = true then
      walk context rest visited found fun s hs => inside s (List.mem_cons_of_mem t hs)
    else match R.enter found t with
      | .error v => .error v
      | .ok found' =>
        walk context (R.next t ++ rest) (t :: visited) found' fun s hs =>
          (List.mem_append.mp hs).elim (R.next_mem_horizon (inside t List.mem_cons_self))
            fun h => inside s (List.mem_cons_of_mem t h)
  termination_by (R.unvisited context visited, pending.length)
  decreasing_by
    · exact Prod.Lex.right _ (Nat.lt_succ_self _)
    · exact Prod.Lex.left _ _ (unvisited_cons_lt (inside t List.mem_cons_self) _hv)

/-- What a captured context says about the parameters of its supertypes. -/
def parameterTable (context : Ty) : Except Violation Table :=
  R.walk context [context] [] .empty fun t ht => by
    rw [List.mem_singleton] at ht
    subst ht
    exact Ty.mem_withinEach.mpr ⟨t, List.mem_cons_self, Ty.self_mem_within t⟩

/-- What a context says about the parameters of its supertypes, once its wildcards are captured from
the number `next` on; and the next free number, which is used up even if the walk fails. -/
def survey (context : Ty) (next : Nat) : Except Violation Table × Nat :=
  let captured := context.capture next
  (R.parameterTable captured.1, captured.2)

/-- The table of what a context says about the parameters of its supertypes. -/
def contextTable (context : Ty) (next : Nat) : Except Violation Table × Nat :=
  let found := R.survey context next
  (found.1.bind fun T => Table.empty.extend T.entries, found.2)

end Registry

end Generics
