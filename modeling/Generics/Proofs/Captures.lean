import Generics.Capture
import Generics.Proofs.Skeleton

/-!
# Generics.Proofs.Captures: the variables of a captured type

Capturing threads a `Captor` through the type from left to right.  All variables that it has handed
out are of the scope of captures, and it hands out no others (`minted_captureFrom`); so a captured
type has the variables it had before and variables of that scope (`mem_vars_capture`).
-/

namespace Generics

/-- Every variable handed out so far belongs to the scope of captures. -/
def Captor.Minted (s : Captor) : Prop := ∀ c ∈ s.captured, c.key.scope = .capture

namespace Ty

variable {s : Captor}

/-- One wildcard: its variable is of the scope of captures, be it an old one or a new one. -/
theorem minted_standInFor (hs : s.Minted) (site : Option Nat) (upper : List Ty) :
    (s.standInFor site upper).2.Minted ∧
      ∀ k ∈ (s.standInFor site upper).1.vars, k.scope = .capture := by
  unfold Captor.standInFor
  cases hf : s.captured.find? (fun c => c.isAt site upper) with
  | some c =>
    have hc : c.key.scope = .capture := hs c (List.mem_of_find?_eq_some hf)
    have hvars : c.standIn.vars = [c.key] := vars_var _ _
    refine ⟨hs, fun k hk => ?_⟩
    rw [hvars, List.mem_singleton] at hk
    rwa [hk]
  | none =>
    have hvars : (s.fresh site upper).1.vars = [captureKey s.next upper] := vars_var _ _
    refine ⟨fun c hc => ?_, fun k hk => ?_⟩
    · rcases List.mem_cons.mp hc with rfl | hc
      · rfl
      · exact hs c hc
    · rw [hvars, List.mem_singleton] at hk
      rw [hk, captureKey]

theorem minted_captureEachFrom {ts : List Ty}
    (h : ∀ t ∈ ts, ∀ s : Captor, s.Minted → (captureFrom s t).2.Minted ∧
      ∀ k ∈ (captureFrom s t).1.vars, k ∈ t.vars ∨ k.scope = .capture)
    (hs : s.Minted) :
    (captureEachFrom s ts).2.Minted ∧
      ∀ k ∈ (captureEachFrom s ts).1.flatMap vars, k ∈ ts.flatMap vars ∨ k.scope = .capture := by
  induction ts generalizing s with
  | nil => exact ⟨hs, by simp [captureEachFrom]⟩
  | cons t ts ih =>
    rw [List.forall_mem_cons] at h
    obtain ⟨hfirst, hvars⟩ := h.1 s hs
    obtain ⟨hrest, hvars'⟩ := ih h.2 hfirst
    refine ⟨hrest, fun k hk => ?_⟩
    rw [captureEachFrom, List.flatMap_cons, List.mem_append] at hk
    rw [List.flatMap_cons, List.mem_append]
    rcases hk with hk | hk
    · exact (hvars k hk).imp_left .inl
    · exact (hvars' k hk).imp_left .inr

/-- **Capturing hands out variables of its own scope only.** -/
theorem minted_captureFrom (t : Ty) (hs : s.Minted) :
    (captureFrom s t).2.Minted ∧
      ∀ k ∈ (captureFrom s t).1.vars, k ∈ t.vars ∨ k.scope = .capture := by
  induction t using induct generalizing s with
  | nominal c => exact ⟨hs, by simp [captureFrom]⟩
  | applied owner raw args ho ha =>
    have howner : (captureOwnerFrom s owner).2.Minted ∧
        ∀ k ∈ (captureOwnerFrom s owner).1.toList.flatMap vars,
          k ∈ owner.toList.flatMap vars ∨ k.scope = .capture := by
      cases owner with
      | none => exact ⟨hs, by simp [captureOwnerFrom]⟩
      | some o => simpa [captureOwnerFrom] using ho o rfl hs
    obtain ⟨hargs, hvars⟩ := minted_captureEachFrom (fun a hm s hs => ha a hm hs) howner.1
    rw [captureFrom]
    refine ⟨hargs, fun k hk => ?_⟩
    rw [vars_applied, List.mem_append] at hk ⊢
    rcases hk with hk | hk
    · exact (howner.2 k hk).imp_left .inl
    · exact (hvars k hk).imp_left .inr
  | array c ih =>
    obtain ⟨hc, hvars⟩ := ih hs
    rw [captureFrom, vars_array]
    exact ⟨hc, fun k hk => hvars k (mem_vars_of_arrayOf hk)⟩
  | wildcard site upper lower _ _ =>
    rw [captureFrom]
    split
    · exact ⟨hs, fun k hk => .inl hk⟩
    · obtain ⟨hm, hvars⟩ := minted_standInFor hs site upper
      exact ⟨hm, fun k hk => .inr (hvars k hk)⟩
  | var k bounds _ =>
    rw [captureFrom]
    exact ⟨hs, fun j hj => .inl hj⟩

theorem mem_vars_capture {t : Ty} {next : Nat} {k : VarKey} (h : k ∈ (t.capture next).1.vars) :
    k ∈ t.vars ∨ k.scope = .capture :=
  (minted_captureFrom t (s := ⟨next, []⟩) (by simp [Captor.Minted])).2 k h

end Ty

end Generics
