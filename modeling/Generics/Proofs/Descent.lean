import Generics.Proofs.Resolution

/-!
# Generics.Proofs.Descent: why resolution ends

Resolving a type goes on to its parts, to the entry of a variable, or to the bounds of a variable.
`Calls` is the relation from a type, under the shields that are up, to what it goes on to.  A part is
smaller than the type; an entry may be larger, but one more of the entries is shielded then
(`calls_lt`).  So the relation is well-founded (`wellFounded_calls`), and the equation that says what
resolving one type does has `resolveUnder` for its only solution (`eq_resolveUnder_iff`).

On every way down the relation the shields over entries name mapped keys, each once, and the shields
over bounds name scopes, each once (`Stacked.run`).
-/

namespace Generics

open Relation

/-! ## What resolution goes on to -/

namespace Table

variable {T : Table} {g : Shields} {t : Ty}

section Defs

variable (T)

/-- What resolving a type does, if `f` resolves the types that it goes on to. -/
def resolveBody (f : Shields → Ty → Ty) (g : Shields) : Ty → Ty
  | .nominal c => .nominal c
  | .applied owner raw args => .applied (owner.map (f g)) raw (args.map (f g))
  | .array c => (f g c).arrayOf
  | .wildcard _ upper lower => .wildcard none (upper.map (f g)) (lower.map (f g))
  | .var k bounds =>
    if g.cover k then .var k bounds
    else match T.get? k with
      | some t => f (.entry k :: g) t
      | none =>
        if Ty.identicalEach (bounds.map (f (.bounds k.scope :: g))) bounds then .var k bounds
        else .var k (bounds.map (f (.bounds k.scope :: g)))

/-- Resolving the first type under the first shields goes on to the second type under the second. -/
inductive Calls : Shields × Ty → Shields × Ty → Prop where
  | owner {g : Shields} {o : Ty} {raw : Nominal} {args : List Ty} :
      Calls (g, .applied (some o) raw args) (g, o)
  | arg {g : Shields} {owner : Option Ty} {raw : Nominal} {args : List Ty} {a : Ty}
      (ha : a ∈ args) : Calls (g, .applied owner raw args) (g, a)
  | component {g : Shields} {c : Ty} : Calls (g, .array c) (g, c)
  | upper {g : Shields} {site : Option Nat} {upper lower : List Ty} {b : Ty} (hb : b ∈ upper) :
      Calls (g, .wildcard site upper lower) (g, b)
  | lower {g : Shields} {site : Option Nat} {upper lower : List Ty} {b : Ty} (hb : b ∈ lower) :
      Calls (g, .wildcard site upper lower) (g, b)
  | entry {g : Shields} {k : VarKey} {bounds : List Ty} {t : Ty} (hg : ¬ g.cover k = true)
      (hk : T.get? k = some t) : Calls (g, .var k bounds) (.entry k :: g, t)
  | bound {g : Shields} {k : VarKey} {bounds : List Ty} {b : Ty} (hg : ¬ g.cover k = true)
      (hk : T.get? k = none) (hb : b ∈ bounds) :
      Calls (g, .var k bounds) (.bounds k.scope :: g, b)

end Defs

/-! ## The relation is well-founded -/

section Measure

/-- One call leaves fewer entries to open, or as many as before and a smaller type. -/
theorem calls_lt {h : Shields} {s : Ty} (hc : T.Calls (g, t) (h, s)) :
    Prod.Lex (· < ·) (· < ·) (T.exposed h, sizeOf s) (T.exposed g, sizeOf t) := by
  cases hc with
  | owner => exact .right _ (by simp only [Ty.applied.sizeOf_spec, Option.some.sizeOf_spec]; omega)
  | arg ha =>
    have hlt := List.sizeOf_lt_of_mem ha
    exact .right _ (by rw [Ty.applied.sizeOf_spec]; omega)
  | component => exact .right _ (by rw [Ty.array.sizeOf_spec]; omega)
  | upper hb =>
    have hlt := List.sizeOf_lt_of_mem hb
    exact .right _ (by rw [Ty.wildcard.sizeOf_spec]; omega)
  | lower hb =>
    have hlt := List.sizeOf_lt_of_mem hb
    exact .right _ (by rw [Ty.wildcard.sizeOf_spec]; omega)
  | entry hg hk => exact .left _ _ (exposed_entry_lt hg hk)
  | bound _ _ hb =>
    have hlt := List.sizeOf_lt_of_mem hb
    exact Prod.Lex.right' _ (T.exposed_cons_le _ _) (by rw [Ty.var.sizeOf_spec]; omega)

/-- **Resolution never goes on for ever**, whatever the type and the shields. -/
theorem wellFounded_calls (T : Table) : WellFounded fun d c => T.Calls c d :=
  Subrelation.wf (fun hc => calls_lt hc)
    (InvImage.wf (fun c : Shields × Ty => (T.exposed c.1, sizeOf c.2))
      (Prod.lex Nat.lt_wfRel Nat.lt_wfRel).wf)

end Measure

/-! ## The equation of resolution -/

section Equation

theorem resolveBody_var (f : Shields → Ty → Ty) (g : Shields) (k : VarKey) (bounds : List Ty) :
    T.resolveBody f g (.var k bounds) =
      if g.cover k then .var k bounds
      else match T.get? k with
        | some t => f (.entry k :: g) t
        | none =>
          if Ty.identicalEach (bounds.map (f (.bounds k.scope :: g))) bounds then .var k bounds
          else .var k (bounds.map (f (.bounds k.scope :: g))) := rfl

theorem resolveUnder_eq_resolveBody (T : Table) (g : Shields) (t : Ty) :
    T.resolveUnder g t = T.resolveBody T.resolveUnder g t := by
  cases t with
  | nominal c => exact resolveUnder_nominal T g c
  | applied owner raw args => exact resolveUnder_applied T g owner raw args
  | array c => exact resolveUnder_array T g c
  | wildcard site upper lower => exact resolveUnder_wildcard T g site upper lower
  | var k bounds =>
    rw [resolveBody_var]
    by_cases hg : g.cover k = true
    · rw [if_pos hg, resolveUnder_covered T bounds hg]
    · rw [if_neg hg]
      cases hk : T.get? k with
      | some t => exact resolveUnder_mapped T bounds hg hk
      | none => exact resolveUnder_unmapped T bounds hg hk

/-- What resolving a type does depends on nothing but the types that it goes on to. -/
theorem resolveBody_congr {f f' : Shields → Ty → Ty}
    (h : ∀ d, T.Calls (g, t) d → f d.1 d.2 = f' d.1 d.2) :
    T.resolveBody f g t = T.resolveBody f' g t := by
  cases t with
  | nominal c => rfl
  | applied owner raw args =>
    have howner : owner.map (f g) = owner.map (f' g) :=
      Option.map_congr fun o ho => by
        obtain rfl : owner = some o := ho
        exact h (g, o) .owner
    have hargs : args.map (f g) = args.map (f' g) :=
      List.map_congr_left fun a ha => h (g, a) (.arg ha)
    rw [resolveBody, resolveBody, howner, hargs]
  | array c => rw [resolveBody, resolveBody, h (g, c) .component]
  | wildcard site upper lower =>
    have hupper : upper.map (f g) = upper.map (f' g) :=
      List.map_congr_left fun b hb => h (g, b) (.upper hb)
    have hlower : lower.map (f g) = lower.map (f' g) :=
      List.map_congr_left fun b hb => h (g, b) (.lower hb)
    rw [resolveBody, resolveBody, hupper, hlower]
  | var k bounds =>
    rw [resolveBody_var, resolveBody_var]
    by_cases hg : g.cover k = true
    · rw [if_pos hg, if_pos hg]
    · rw [if_neg hg, if_neg hg]
      cases hk : T.get? k with
      | some t => exact h (.entry k :: g, t) (.entry hg hk)
      | none =>
        have hbounds : bounds.map (f (.bounds k.scope :: g)) =
            bounds.map (f' (.bounds k.scope :: g)) :=
          List.map_congr_left fun b hb => h (.bounds k.scope :: g, b) (.bound hg hk hb)
        simp only [hbounds]

/-- **Resolution is the only solution of its equation.** -/
theorem eq_resolveUnder_iff {f : Shields → Ty → Ty} :
    (∀ g t, f g t = T.resolveBody f g t) ↔ f = T.resolveUnder := by
  constructor
  · intro hf
    have hall : ∀ c : Shields × Ty, f c.1 c.2 = T.resolveUnder c.1 c.2 := by
      intro c
      induction c using T.wellFounded_calls.induction with
      | _ c ih => rw [hf, resolveUnder_eq_resolveBody, resolveBody_congr ih]
    funext g t
    exact hall (g, t)
  · rintro rfl
    exact resolveUnder_eq_resolveBody T

end Equation

end Table

/-! ## The shields on a way down -/

namespace Shields

/-- The keys whose entries are being resolved, the latest first. -/
def opened (g : Shields) : List VarKey :=
  g.filterMap fun s => match s with
    | .entry k => some k
    | .bounds _ => none

/-- The scopes of the variables whose bounds are being resolved, the latest first. -/
def scopes (g : Shields) : List Scope :=
  g.filterMap fun s => match s with
    | .entry _ => none
    | .bounds s => some s

@[simp] theorem opened_entry (k : VarKey) (g : Shields) : opened (.entry k :: g) = k :: g.opened :=
  rfl

@[simp] theorem opened_bounds (s : Scope) (g : Shields) : opened (.bounds s :: g) = g.opened := rfl

@[simp] theorem scopes_entry (k : VarKey) (g : Shields) : scopes (.entry k :: g) = g.scopes := rfl

@[simp] theorem scopes_bounds (s : Scope) (g : Shields) : scopes (.bounds s :: g) = s :: g.scopes :=
  rfl

/-- A variable is covered if its entry is being resolved, or the bounds of one of its scope. -/
theorem cover_iff {g : Shields} {k : VarKey} :
    g.cover k = true ↔ k ∈ g.opened ∨ k.scope ∈ g.scopes := by
  induction g with
  | nil => simp [opened, scopes]
  | cons s g ih =>
    cases s with
    | entry j =>
      rw [cover_entry, ih, opened_entry, scopes_entry, List.mem_cons, or_assoc, eq_comm]
    | bounds s =>
      rw [cover_bounds, ih, opened_bounds, scopes_bounds, List.mem_cons, or_left_comm, eq_comm]

end Shields

namespace Table

variable {T : Table} {c d : Shields × Ty}

/-- The shields that can be up at once: the entries being resolved belong to different mapped keys,
the bounds being resolved to variables of different scopes. -/
structure Stacked (T : Table) (g : Shields) : Prop where
  opened_nodup : g.opened.Nodup
  opened_mapped : ∀ k ∈ g.opened, T.contains k = true
  scopes_nodup : g.scopes.Nodup

theorem stacked_nil (T : Table) : T.Stacked [] where
  opened_nodup := List.nodup_nil
  opened_mapped _ hk := by cases hk
  scopes_nodup := List.nodup_nil

/-- A shield goes up over a variable that no shield covers, so it names what none names yet. -/
theorem Stacked.call (hs : T.Stacked c.1) (h : T.Calls c d) : T.Stacked d.1 := by
  cases h with
  | owner | arg _ | component | upper _ | lower _ => exact hs
  | entry hg hk =>
    rw [Shields.cover_iff, not_or] at hg
    refine ⟨?_, ?_, hs.scopes_nodup⟩
    · exact List.nodup_cons.mpr ⟨hg.1, hs.opened_nodup⟩
    · intro j hj
      rcases List.mem_cons.mp hj with rfl | hj
      · exact contains_of_get? hk
      · exact hs.opened_mapped j hj
  | bound hg _ _ =>
    rw [Shields.cover_iff, not_or] at hg
    exact ⟨hs.opened_nodup, hs.opened_mapped, List.nodup_cons.mpr ⟨hg.2, hs.scopes_nodup⟩⟩

theorem Stacked.run (hs : T.Stacked c.1) (h : ReflTransGen T.Calls c d) : T.Stacked d.1 := by
  induction h with
  | refl => exact hs
  | tail _ hlast ih => exact ih.call hlast

/-- No more entries are being resolved at once than there are. -/
theorem Stacked.length_opened_le {g : Shields} (hs : T.Stacked g) : g.opened.length ≤ T.size := by
  rw [← length_keys]
  exact hs.opened_nodup.length_le_of_subset fun k hk => mem_keys.mpr (hs.opened_mapped k hk)

/-! ## The main result -/

/-- **Resolution ends on every table**, however its entries hang together.  It never goes on for ever,
whatever the type and the shields; `resolveUnder` is the one function that does on every type what its
equation says, and the equation looks at nothing but what it goes on to.  On every way down from a type
the entries being resolved belong to different mapped keys, so there are never more of them than
entries, and the bounds being resolved belong to variables of different scopes. -/
theorem resolve_terminates (T : Table) :
    (WellFounded fun d c => T.Calls c d) ∧
      (∀ f : Shields → Ty → Ty, (∀ g t, f g t = T.resolveBody f g t) ↔ f = T.resolveUnder) ∧
      (∀ f f' : Shields → Ty → Ty, ∀ g t, (∀ d, T.Calls (g, t) d → f d.1 d.2 = f' d.1 d.2) →
        T.resolveBody f g t = T.resolveBody f' g t) ∧
      ∀ X, T.resolve X = T.resolveUnder [] X ∧
        ∀ g t, ReflTransGen T.Calls ([], X) (g, t) →
          g.opened.Nodup ∧ (∀ k ∈ g.opened, T.contains k = true) ∧ g.scopes.Nodup ∧
            g.opened.length ≤ T.size := by
  refine ⟨T.wellFounded_calls, fun f => eq_resolveUnder_iff, fun f f' g t h => resolveBody_congr h,
    fun X => ⟨rfl, fun g t h => ?_⟩⟩
  have hs : T.Stacked g := T.stacked_nil.run h
  exact ⟨hs.opened_nodup, hs.opened_mapped, hs.scopes_nodup, hs.length_opened_le⟩

/-- `K` stands for `Comparable<V>`, and `V` for a variable whose bound leads back to `K`. -/
def boundCycle : Table :=
  (empty.insert ⟨.type "Map", "K"⟩
    (.applied none (.plain "Comparable") [.ofKey ⟨.type "Map", "V"⟩])).insert ⟨.type "Map", "V"⟩
    (.var ⟨.method "Sorter" "sort", "U"⟩ [.array (.ofKey ⟨.type "Map", "K"⟩)])

/-- The way from `K` round the cycle ends under both shields over entries and one over bounds; there
`K` stands for itself. -/
theorem resolve_terminates_boundCycle :
    let K : VarKey := ⟨.type "Map", "K"⟩
    let V : VarKey := ⟨.type "Map", "V"⟩
    let g : Shields := [.bounds (.method "Sorter" "sort"), .entry V, .entry K]
    ReflTransGen boundCycle.Calls ([], .ofKey K) (g, .ofKey K) ∧
      (g.opened.Nodup ∧ (∀ k ∈ g.opened, boundCycle.contains k = true) ∧ g.scopes.Nodup ∧
        g.opened.length ≤ boundCycle.size) ∧
      (∀ d, ¬ boundCycle.Calls (g, .ofKey K) d) := by
  intro K V g
  have hpath : ReflTransGen boundCycle.Calls ([], .ofKey K) (g, .ofKey K) :=
    .head (.entry (by decide) rfl) <| .head (.arg List.mem_cons_self) <|
      .head (.entry (by decide) rfl) <|
      .head (.bound (by decide) rfl List.mem_cons_self) <| .head .component .refl
  refine ⟨hpath, ((resolve_terminates boundCycle).2.2.2 (.ofKey K)).2 g (.ofKey K) hpath, ?_⟩
  have hcover : g.cover K = true := by decide
  intro d hd
  cases hd with
  | entry hg _ => exact hg hcover
  | bound hg _ _ => exact hg hcover

end Table

end Generics
