import Generics.Proofs.Exchange

/-!
# Generics.Proofs.Numbering: what a captor hands out

A captor numbers the variables it hands out, and the number can be read off the name
(`number_captureKey`), whatever bounds the name goes on with.  So a captor that has started with nothing
captured stays `Orderly`: one number for each wildcard captured, one variable for each number, and
one wildcard for each variable.

Of what an orderly captor hands out in a row it follows that two open wildcards get one variable if and
only if they are the same (`Orderly.pairwise_handOut`), and that as many numbers are used up as there
are different wildcards (`length_handOut`).
-/

namespace Generics

/-! ## Names and numbers -/

/-- The number of a captured variable can be read off its name. -/
theorem number_captureKey (n : Nat) (upper : List Ty) :
    Nat.ofDigitChars 10 (((captureKey n upper).name.toList.drop 8).takeWhile Char.isDigit) 0 = n := by
  have hdigits : ∀ c ∈ n.repr.toList, c.isDigit = true := by
    rw [Nat.toList_repr]
    exact fun c hc => Nat.isDigit_of_mem_toDigits (by decide) (by decide) hc
  have hname : (captureKey n upper).name.toList.drop 8 =
      n.repr.toList ++ ("-of ? extends " ++ "&".intercalate (Ty.renderEach upper)).toList := by
    simp [captureKey]
  have hstop : ("-of ? extends " ++ "&".intercalate (Ty.renderEach upper)).toList.takeWhile
      Char.isDigit = [] := by
    simp
  rw [hname, List.takeWhile_append_of_pos hdigits, hstop, List.append_nil, Nat.toList_repr,
    Nat.ofDigitChars_ten_toDigits]

theorem captureKey_inj {n m : Nat} {us vs : List Ty} (h : captureKey n us = captureKey m vs) :
    n = m := by
  rw [← number_captureKey n us, h, number_captureKey]

namespace Captor

variable {start : Nat} {s : Captor}

/-! ## Orderly captors -/

/-- Every wildcard captured since the number `start` has a variable with a number of its own. -/
structure Orderly (start : Nat) (s : Captor) : Prop where
  next_eq : s.next = start + s.captured.length
  numbered : ∀ c ∈ s.captured, ∃ n, start ≤ n ∧ n < s.next ∧ c.key = captureKey n c.upper
  eq_of_key : ∀ c ∈ s.captured, ∀ d ∈ s.captured, c.key = d.key → c = d
  eq_of_same : ∀ c ∈ s.captured, ∀ d ∈ s.captured, c.opening.same d.opening = true → c = d

theorem orderly_start (start : Nat) : Orderly start ⟨start, []⟩ where
  next_eq := rfl
  numbered := by simp
  eq_of_key := by simp
  eq_of_same := by simp

/-- The next variable is none of those handed out. -/
theorem Orderly.key_ne (hs : s.Orderly start) (upper : List Ty) :
    ∀ c ∈ s.captured, c.key ≠ captureKey s.next upper := by
  intro c hc heq
  obtain ⟨n, -, hn, hkey⟩ := hs.numbered c hc
  have hnext : n = s.next := captureKey_inj (hkey.symm.trans heq)
  omega

theorem Orderly.fresh (hs : s.Orderly start) {o : Opening}
    (hnew : ∀ c ∈ s.captured, ¬ c.opening.same o = true) :
    (s.fresh o.site o.upper).2.Orderly start where
  next_eq := by
    show s.next + 1 = start + (s.captured.length + 1)
    rw [hs.next_eq, Nat.add_assoc]
  numbered := by
    refine List.forall_mem_cons.mpr ⟨⟨s.next, ?_, Nat.lt_succ_self _, rfl⟩, fun c hc => ?_⟩
    · rw [hs.next_eq]
      exact Nat.le_add_right _ _
    · obtain ⟨n, hle, hlt, hkey⟩ := hs.numbered c hc
      exact ⟨n, hle, Nat.lt_succ_of_lt hlt, hkey⟩
  eq_of_key := by
    intro c hc d hd heq
    rcases List.mem_cons.mp hc with rfl | hc <;> rcases List.mem_cons.mp hd with rfl | hd
    · rfl
    · exact absurd heq.symm (hs.key_ne o.upper d hd)
    · exact absurd heq (hs.key_ne o.upper c hc)
    · exact hs.eq_of_key c hc d hd heq
  eq_of_same := by
    intro c hc d hd hsame
    rcases List.mem_cons.mp hc with rfl | hc <;> rcases List.mem_cons.mp hd with rfl | hd
    · rfl
    · exact absurd (Opening.same_symm hsame) (hnew d hd)
    · exact absurd hsame (hnew c hc)
    · exact hs.eq_of_same c hc d hd hsame

/-! ## One wildcard after the other -/

/-- **One step**: the captor stays orderly and forgets nothing; what it hands out is the variable of a
wildcard captured by then, either this very wildcard or the same one met before. -/
theorem Orderly.standInFor (hs : s.Orderly start) (o : Opening) :
    (s.standInFor o.site o.upper).2.Orderly start ∧
      s.captured ⊆ (s.standInFor o.site o.upper).2.captured ∧
      ∃ c ∈ (s.standInFor o.site o.upper).2.captured,
        (s.standInFor o.site o.upper).1 = c.standIn ∧ (c.opening = o ∨ c.opening.same o = true) := by
  obtain ⟨c, hc, hsame, heq⟩ | ⟨hnew, heq⟩ := s.standInFor_cases o
  · rw [heq]
    exact ⟨hs, List.Subset.refl _, c, hc, rfl, .inr hsame⟩
  · rw [heq]
    exact ⟨hs.fresh hnew, List.subset_cons_self _ _, _, List.mem_cons_self, rfl, .inl rfl⟩

/-- A whole run: the captor stays orderly and forgets nothing, and everything that it hands out is the
variable of a wildcard captured by the end. -/
theorem Orderly.handOut (hs : s.Orderly start) (os : List Opening) :
    (s.handOut os).2.Orderly start ∧ s.captured ⊆ (s.handOut os).2.captured ∧
      ∀ e ∈ (s.handOut os).1, ∃ c ∈ (s.handOut os).2.captured,
        e.2 = c.standIn ∧ (c.opening = e.1 ∨ c.opening.same e.1 = true) := by
  induction os generalizing s with
  | nil => exact ⟨hs, List.Subset.refl _, by simp [Captor.handOut]⟩
  | cons o os ih =>
    obtain ⟨hone, hsub, c, hc, hstand, hsame⟩ := hs.standInFor o
    obtain ⟨hrest, hsub', hall⟩ := ih hone
    refine ⟨hrest, List.Subset.trans hsub hsub', List.forall_mem_cons.mpr ⟨?_, hall⟩⟩
    exact ⟨c, hsub' hc, hstand, hsame⟩

/-- Whatever is captured at the end was captured before or is one of the wildcards of the run. -/
theorem mem_captured_handOut {c : Captured} {os : List Opening}
    (hc : c ∈ (s.handOut os).2.captured) : c ∈ s.captured ∨ c.opening ∈ os := by
  induction os generalizing s with
  | nil => exact .inl hc
  | cons o os ih =>
    rcases ih hc with hc | hc
    · obtain ⟨d, -, -, heq⟩ | ⟨-, heq⟩ := s.standInFor_cases o
      · rw [heq] at hc
        exact .inl hc
      · rw [heq] at hc
        rcases List.mem_cons.mp hc with rfl | hc
        · exact .inr List.mem_cons_self
        · exact .inl hc
    · exact .inr (List.mem_cons_of_mem o hc)

/-! ## Who shares a variable with whom -/

/-- A wildcard gets the variable of one that was captured before if and only if it is the same. -/
theorem Orderly.key?_handOut (hs : s.Orderly start) {c : Captured} (hc : c ∈ s.captured)
    {os : List Opening} :
    ∀ e ∈ (s.handOut os).1, e.2.key? = some c.key ↔ c.opening.same e.1 = true := by
  induction os generalizing s with
  | nil => simp [Captor.handOut]
  | cons o os ih =>
    obtain ⟨hone, hsub, -⟩ := hs.standInFor o
    refine List.forall_mem_cons.mpr ⟨?_, ih hone (hsub hc)⟩
    show (s.standInFor o.site o.upper).1.key? = some c.key ↔ c.opening.same o = true
    obtain ⟨d, hd, hsame, heq⟩ | ⟨hnew, heq⟩ := s.standInFor_cases o
    · rw [heq]
      show some d.key = some c.key ↔ _
      rw [Option.some.injEq]
      constructor
      · intro hkey
        rwa [← hs.eq_of_key d hd c hc hkey]
      · intro hco
        rw [hs.eq_of_same c hc d hd (Opening.same_trans hco (Opening.same_symm hsame))]
    · rw [heq]
      show some (captureKey s.next o.upper) = some c.key ↔ _
      rw [Option.some.injEq]
      exact iff_of_false (hs.key_ne o.upper c hc).symm (hnew c hc)

/-- **Two open wildcards get one variable if and only if they are the same.** -/
theorem Orderly.pairwise_handOut (hs : s.Orderly start) (os : List Opening) :
    (s.handOut os).1.Pairwise fun e e' => e.2.key? = e'.2.key? ↔ e.1.same e'.1 = true := by
  induction os generalizing s with
  | nil => exact .nil
  | cons o os ih =>
    obtain ⟨hone, -, c, hc, hstand, hsame⟩ := hs.standInFor o
    refine List.Pairwise.cons (fun e he => ?_) (ih hone)
    show (s.standInFor o.site o.upper).1.key? = e.2.key? ↔ o.same e.1 = true
    have hkey : e.2.key? = some c.key ↔ c.opening.same e.1 = true := hone.key?_handOut hc e he
    rw [hstand, eq_comm]
    show e.2.key? = some c.key ↔ _
    rw [hkey]
    -- the wildcard captured for `o` is `o` or the same as `o`
    rcases hsame with heq | hsame
    · rw [heq]
    · exact ⟨Opening.same_trans (Opening.same_symm hsame), Opening.same_trans hsame⟩

/-! ## How many numbers are used up -/

/-- As many wildcards are captured in a run as it has different ones that were not captured before. -/
theorem length_handOut (s : Captor) (os : List Opening) :
    (s.handOut os).2.captured.length = s.captured.length +
      ((os.filter fun o => !s.captured.any fun c => c.opening.same o).eraseDupsBy
        Opening.same).length := by
  induction os generalizing s with
  | nil => rfl
  | cons o os ih =>
    show (((s.standInFor o.site o.upper).2.handOut os).2.captured).length = _
    rw [ih]
    obtain ⟨c, hc, hsame, heq⟩ | ⟨hnew, heq⟩ := s.standInFor_cases o
    · have hold : (s.captured.any fun c => c.opening.same o) = true :=
        List.any_eq_true.mpr ⟨c, hc, hsame⟩
      rw [heq, List.filter_cons_of_neg (by simp [hold])]
    · have hold : (s.captured.any fun c => c.opening.same o) = false := by simpa using hnew
      rw [heq, List.filter_cons_of_pos (by simp [hold]), List.eraseDupsBy_cons, List.filter_filter]
      -- from now on `o` counts as captured, which is to leave out what is the same as `o`
      have hleft : (fun p => !(s.fresh o.site o.upper).2.captured.any fun c => c.opening.same p) =
          fun p => decide (p.same o = false) && !s.captured.any fun c => c.opening.same p := by
        funext p
        show (!(o.same p || s.captured.any fun c => c.opening.same p)) = _
        rw [Opening.same_comm o p]
        cases p.same o <;> simp
      rw [hleft, List.length_cons]
      show s.captured.length + 1 + _ = _
      omega

end Captor

/-! ## One call -/

namespace Ty

theorem exchanged_capture (t : Ty) (next : Nat) : Exchanged t (t.capture next).1 :=
  (handOut_openings ⟨next, []⟩ t).1

theorem orderly_capture (t : Ty) (next : Nat) :
    (captureFrom ⟨next, []⟩ t).2.Orderly next := by
  obtain ⟨hend, -, -⟩ := (Captor.orderly_start next).handOut t.openings
  rwa [(handOut_openings ⟨next, []⟩ t).2] at hend

/-- What takes the place of an open wildcard is the variable of a captured wildcard with its bounds. -/
theorem standIn_capture {t : Ty} {next : Nat} {e : Opening × Ty}
    (he : e ∈ exchanges t (t.capture next).1) :
    ∃ c ∈ (captureFrom ⟨next, []⟩ t).2.captured, e.2 = c.standIn ∧
      c.upper.map unsited = e.1.upper.map unsited := by
  obtain ⟨-, -, hall⟩ := (Captor.orderly_start next).handOut t.openings
  rw [(handOut_openings ⟨next, []⟩ t).2] at hall
  obtain ⟨c, hc, hstand, heq | hsame⟩ := hall e he
  · exact ⟨c, hc, hstand, heq ▸ rfl⟩
  · exact ⟨c, hc, hstand, (Opening.same_iff.mp hsame).2.2⟩

/-- A captured wildcard is an open wildcard of the type. -/
theorem opening_mem_openings {t : Ty} {next : Nat} {c : Captured}
    (hc : c ∈ (captureFrom ⟨next, []⟩ t).2.captured) : c.opening ∈ t.openings := by
  have hrun : c ∈ (Captor.handOut ⟨next, []⟩ t.openings).2.captured := by
    rw [(handOut_openings ⟨next, []⟩ t).2]
    exact hc
  exact (Captor.mem_captured_handOut hrun).resolve_left List.not_mem_nil

theorem pairwise_capture (t : Ty) (next : Nat) :
    (exchanges t (t.capture next).1).Pairwise fun e e' =>
      e.2.key? = e'.2.key? ↔ e.1.same e'.1 = true := by
  have hrun := (Captor.orderly_start next).pairwise_handOut t.openings
  rwa [(handOut_openings ⟨next, []⟩ t).2] at hrun

/-- As many numbers are used up as the type has different open wildcards. -/
theorem next_capture (t : Ty) (next : Nat) :
    (t.capture next).2 = next + (t.openings.eraseDupsBy Opening.same).length := by
  have hlen := Captor.length_handOut ⟨next, []⟩ t.openings
  have hall : (t.openings.filter fun o =>
      !([] : List Captured).any fun c => c.opening.same o) = t.openings :=
    List.filter_eq_self.mpr fun _ _ => rfl
  rw [(handOut_openings ⟨next, []⟩ t).2, hall, List.length_nil, Nat.zero_add] at hlen
  show (captureFrom ⟨next, []⟩ t).2.next = _
  rw [(orderly_capture t next).next_eq, hlen]

end Ty

end Generics
