/-!
# Generics.Count: counting argument for recursions that use up a finite stock

A recursion that at each step takes one more member of a fixed list out of consideration comes to an
end: the number of members left goes down (`countP_lt`).
-/

namespace Generics

variable {α : Type} {p q : α → Bool}

/-- If `q` picks only members that `p` picks, and misses one of them, it picks fewer. -/
theorem countP_lt {l : List α} (hqp : ∀ x ∈ l, q x = true → p x = true) {a : α} (ha : a ∈ l)
    (hp : p a = true) (hq : ¬ q a = true) : l.countP q < l.countP p := by
  induction l with
  | nil => simp at ha
  | cons b l ih =>
    have htail : ∀ x ∈ l, q x = true → p x = true := fun x hx => hqp x (List.mem_cons_of_mem b hx)
    rcases List.mem_cons.mp ha with rfl | ha
    · rw [List.countP_cons_of_neg hq, List.countP_cons_of_pos hp]
      exact Nat.lt_succ_of_le (List.countP_mono_left htail)
    · have hlt := ih htail ha
      by_cases hb : q b = true
      · rw [List.countP_cons_of_pos hb, List.countP_cons_of_pos (hqp b List.mem_cons_self hb)]
        omega
      · rw [List.countP_cons_of_neg hb, List.countP_cons]
        omega

end Generics
