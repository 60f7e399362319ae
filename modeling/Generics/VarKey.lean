/-!
# Generics.VarKey: scopes and the keys of type variables

A type variable is known by the scope that declares it and by its name, never by its bounds.
`VarKey` is that pair.  Keys are ordered by the kind of the scope (types, methods, constructors,
captures), then by the words of the scope, then by the name; words compare by code points.
The order is strict and total (`VarKey.lt_trans`, `VarKey.lt_of_not_lt`), so a table can be listed
in key order in one way only.
-/

namespace Generics

/-- The declaration that a type variable belongs to. -/
inductive Scope where
  /-- A parameter of the class `name`. -/
  | type (name : String)
  /-- A parameter of the method `name` of the class `owner`. -/
  | method (owner name : String)
  /-- A parameter of a constructor of the class `owner`. -/
  | constructor (owner : String)
  /-- A variable that stands for a captured wildcard. -/
  | capture
  deriving DecidableEq, Inhabited

namespace Scope

/-- The text of a scope. -/
def render : Scope → String
  | type name => name
  | method owner name => owner ++ "::" ++ name
  | constructor owner => owner ++ "::<init>"
  | capture => "<capture>"

/-- The place of the kind of a scope among the four kinds. -/
def rank : Scope → Nat
  | type _ => 0
  | method _ _ => 1
  | constructor _ => 2
  | capture => 3

/-- The words that tell two scopes of one kind apart. -/
def words : Scope → List String
  | type name => [name]
  | method owner name => [owner, name]
  | constructor owner => [owner]
  | capture => []

theorem eq_of_rank_words {s t : Scope} (hr : s.rank = t.rank) (hw : s.words = t.words) :
    s = t := by
  cases s <;> cases t <;> simp_all [rank, words]

end Scope

/-- The identity of a type variable: the scope that declares it, and its name. -/
structure VarKey where
  scope : Scope
  name : String
  deriving DecidableEq, Inhabited

namespace VarKey

/-- The text of a key is the bare name of its variable. -/
def render (k : VarKey) : String := k.name

/-- The text of a key with its scope in front. -/
def qualified (k : VarKey) : String := k.scope.render ++ "::" ++ k.render

/-- The words by which keys with scopes of one kind are ordered: the scope's, then the name. -/
def words (k : VarKey) : List String := k.scope.words ++ [k.name]

/-- Keys are ordered by the kind of the scope, then by their words. -/
instance : LT VarKey where
  lt a b := a.scope.rank < b.scope.rank ∨ a.scope.rank = b.scope.rank ∧ a.words < b.words

theorem lt_def {a b : VarKey} :
    a < b ↔ a.scope.rank < b.scope.rank ∨ a.scope.rank = b.scope.rank ∧ a.words < b.words :=
  Iff.rfl

instance : DecidableLT VarKey := fun a b =>
  inferInstanceAs (Decidable
    (a.scope.rank < b.scope.rank ∨ a.scope.rank = b.scope.rank ∧ a.words < b.words))

theorem eq_of_rank_words {a b : VarKey} (hr : a.scope.rank = b.scope.rank)
    (hw : a.words = b.words) : a = b := by
  obtain ⟨s, n⟩ := a
  obtain ⟨t, m⟩ := b
  obtain ⟨hs, hn⟩ := List.append_inj' hw rfl
  have hst : s = t := Scope.eq_of_rank_words hr hs
  simp_all

theorem lt_irrefl (a : VarKey) : ¬ a < a := by
  rintro (h | ⟨-, h⟩)
  · exact Nat.lt_irrefl _ h
  · exact List.lt_irrefl _ h

theorem lt_trans {a b c : VarKey} (hab : a < b) (hbc : b < c) : a < c := by
  rcases hab with hab | ⟨hr, hab⟩
  · rcases hbc with hbc | ⟨hs, -⟩
    · exact .inl (Nat.lt_trans hab hbc)
    · exact .inl (hs ▸ hab)
  · rcases hbc with hbc | ⟨hs, hbc⟩
    · exact .inl (hr ▸ hbc)
    · exact .inr ⟨hr.trans hs, List.lt_trans hab hbc⟩

theorem ne_of_lt {a b : VarKey} (h : a < b) : a ≠ b := by
  rintro rfl
  exact lt_irrefl a h

/-- Of two different keys one comes first. -/
theorem lt_of_not_lt {a b : VarKey} (h : ¬ a < b) (hne : a ≠ b) : b < a := by
  rcases Nat.lt_trichotomy a.scope.rank b.scope.rank with hr | hr | hr
  · exact absurd (.inl hr) h
  · rcases Std.Trichotomous.rel_or_eq_or_rel_swap (r := (· < · : List String → List String → Prop))
        (a := a.words) (b := b.words) with hw | hw | hw
    · exact absurd (.inr ⟨hr, hw⟩) h
    · exact absurd (eq_of_rank_words hr hw) hne
    · exact .inr ⟨hr.symm, hw⟩
  · exact .inl hr

end VarKey

end Generics
