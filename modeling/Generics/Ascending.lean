/-!
# Generics.Ascending: ascending lists as finite sets

`ascending xs` holds the members of `xs`, each once, in increasing order.
-/

namespace Generics

variable {α : Type} [LT α] [DecidableLT α] [DecidableEq α]

/-- Puts `a` at its place in an ascending list, unless it is there already. -/
def insertAscending (a : α) : List α → List α
  | [] => [a]
  | b :: bs =>
    if a < b then a :: b :: bs
    else if a = b then b :: bs
    else b :: insertAscending a bs

/-- The members of a list, each once, in increasing order. -/
def ascending (xs : List α) : List α := xs.foldr insertAscending []

theorem mem_insertAscending {a x : α} {xs : List α} :
    x ∈ insertAscending a xs ↔ x = a ∨ x ∈ xs := by
  induction xs with
  | nil => simp [insertAscending]
  | cons b bs ih =>
    unfold insertAscending
    by_cases hlt : a < b
    · simp [hlt]
    · by_cases heq : a = b
      · subst heq
        simp [hlt]
      · rw [if_neg hlt, if_neg heq, List.mem_cons, ih, List.mem_cons]
        exact or_left_comm

@[simp] theorem mem_ascending {x : α} {xs : List α} : x ∈ ascending xs ↔ x ∈ xs := by
  induction xs with
  | nil => simp [ascending]
  | cons a xs ih => rw [ascending, List.foldr_cons, mem_insertAscending, List.mem_cons, ← ih]; rfl

end Generics
