import Generics.Proofs.Entries

/-!
# Generics.Proofs.Extension: extending a table

To extend a table is to take in entries one by one, up to the first that binds a variable to itself
(`extend_cons`).  If there is such an entry, there is no new table (`extend_eq_error_iff`), even where a
later entry would have replaced it.  Otherwise the last entry of a key counts, and a key without new entry
keeps its old one (`overlaid_insertAll`).

Keys are ordered by the kind of their scope, the words of the scope and their name (`VarKey.lt_iff`), and
of two keys one comes first unless they are equal (`VarKey.not_lt_iff`).  So there is one way only to list
a table, and it does not matter how the table came about: extending in two steps is extending at once
(`extend_append`), and entries with distinct keys can be taken in in any order (`insertAll_perm`).
-/

namespace Generics

/-! ## The order of keys -/

theorem Scope.length_words_of_rank {s t : Scope} (h : s.rank = t.rank) :
    s.words.length = t.words.length := by
  cases s <;> cases t <;> simp_all [rank, words]

namespace VarKey

/-- Of two lists of one length the last members are compared if the others are equal. -/
theorem concat_lt_concat_iff {as bs : List String} (h : as.length = bs.length) (x y : String) :
    as ++ [x] < bs ++ [y] ↔ as < bs ∨ as = bs ∧ x < y := by
  induction as generalizing bs with
  | nil =>
    obtain rfl : bs = [] := List.length_eq_zero_iff.mp h.symm
    simp [List.cons_lt_cons_iff]
  | cons a as ih =>
    cases bs with
    | nil => cases h
    | cons b bs =>
      rw [List.cons_append, List.cons_append, List.cons_lt_cons_iff, List.cons_lt_cons_iff,
        ih (Nat.succ.inj h), List.cons.injEq, and_or_left, or_assoc, and_assoc]

/-- **Keys are compared by the kinds of their scopes, then by the words of these, then by their names.** -/
theorem lt_iff {a b : VarKey} :
    a < b ↔ a.scope.rank < b.scope.rank ∨
      (a.scope.rank = b.scope.rank ∧ a.scope.words < b.scope.words) ∨
      (a.scope = b.scope ∧ a.name < b.name) := by
  rw [lt_def]
  refine or_congr_right ?_
  constructor
  · rintro ⟨hr, hw⟩
    rcases (concat_lt_concat_iff (Scope.length_words_of_rank hr) _ _).mp hw with hw | ⟨hw, hn⟩
    · exact .inl ⟨hr, hw⟩
    · exact .inr ⟨Scope.eq_of_rank_words hr hw, hn⟩
  · rintro (⟨hr, hw⟩ | ⟨hs, hn⟩)
    · exact ⟨hr, (concat_lt_concat_iff (Scope.length_words_of_rank hr) _ _).mpr (.inl hw)⟩
    · refine ⟨congrArg Scope.rank hs, ?_⟩
      exact (concat_lt_concat_iff (by rw [hs]) _ _).mpr (.inr ⟨by rw [hs], hn⟩)

/-- Keys of which neither comes first are equal. -/
theorem not_lt_iff {a b : VarKey} : ¬ a < b ∧ ¬ b < a ↔ a = b := by
  constructor
  · rintro ⟨hab, hba⟩
    exact Decidable.byContradiction fun hne => hba (lt_of_not_lt hab hne)
  · rintro rfl
    exact ⟨lt_irrefl a, lt_irrefl a⟩

end VarKey

namespace Table

variable {S T : Table} {es fs : List (VarKey × Ty)} {v : Violation}

/-! ## Taking in entries -/

section Extend

theorem forall_key?_ne_iff :
    (∀ e ∈ es, e.2.key? ≠ some e.1) ↔ ∀ k bounds, (k, Ty.var k bounds) ∉ es := by
  constructor
  · intro h k bounds hmem
    exact h _ hmem rfl
  · rintro h ⟨k, t⟩ hmem (hk : t.key? = some k)
    obtain ⟨bounds, rfl⟩ := Ty.key?_eq_some_iff.mp hk
    exact h k bounds hmem

/-- The first entry is refused or taken in; once it is in, the others are next. -/
theorem extend_cons (T : Table) (e : VarKey × Ty) (es : List (VarKey × Ty)) :
    T.extend (e :: es) =
      if e.2.hasKey e.1 then .error (.selfBinding e.1) else (T.insert e.1 e.2).extend es := by
  unfold extend
  rw [List.find?_cons]
  cases e.2.hasKey e.1 with
  | true => rfl
  | false => rfl

/-- **Extending in two steps is extending at once**, and fails alike. -/
theorem extend_append (T : Table) (es fs : List (VarKey × Ty)) :
    T.extend (es ++ fs) = (T.extend es).bind fun S => S.extend fs := by
  induction es generalizing T with
  | nil => rfl
  | cons e es ih =>
    rw [List.cons_append, extend_cons, extend_cons]
    split
    · rfl
    · exact ih _

/-- **A table cannot be extended if an entry binds a variable to itself**; then the first such entry is
named. -/
theorem extend_eq_error_iff :
    T.extend es = .error v ↔
      ∃ pre k bounds post, es = pre ++ (k, .var k bounds) :: post ∧
        (∀ j cs, (j, Ty.var j cs) ∉ pre) ∧ v = .selfBinding k := by
  constructor
  · intro h
    unfold extend at h
    cases hf : es.find? (fun e => e.2.hasKey e.1) with
    | none =>
      rw [hf] at h
      cases h
    | some e =>
      rw [hf] at h
      cases h
      obtain ⟨he, pre, post, hes, hpre⟩ := List.find?_eq_some_iff_append.mp hf
      obtain ⟨bounds, hvar⟩ := Ty.key?_eq_some_iff.mp (of_decide_eq_true he)
      refine ⟨pre, e.1, bounds, post, by rw [hes, ← hvar], ?_, rfl⟩
      refine forall_key?_ne_iff.mp fun d hd => ?_
      simpa [Ty.hasKey] using hpre d hd
  · rintro ⟨pre, k, bounds, post, rfl, hpre, rfl⟩
    have htaken : T.extend pre = .ok (T.insertAll pre) :=
      extend_eq_ok_iff.mpr ⟨forall_key?_ne_iff.mpr hpre, rfl⟩
    rw [extend_append, htaken]
    exact (extend_cons _ _ _).trans (if_pos (by simp [Ty.hasKey, Ty.key?]))

end Extend

/-! ## What is in the extended table -/

section Overlaid

/-- The table `S` is the table `T` with the entries laid over it, later ones over earlier ones. -/
structure Overlaid (T : Table) (es : List (VarKey × Ty)) (S : Table) : Prop where
  /-- The last entry of a key counts. -/
  last : ∀ pre k t post, es = pre ++ (k, t) :: post → k ∉ post.map Prod.fst → S.get? k = some t
  /-- A key without entry is mapped as before. -/
  kept : ∀ k, k ∉ es.map Prod.fst → S.get? k = T.get? k

theorem overlaid_insertAll (T : Table) (es : List (VarKey × Ty)) : T.Overlaid es (T.insertAll es) where
  last := by
    rintro pre k t post rfl hpost
    have happend : T.insertAll (pre ++ (k, t) :: post) =
        ((T.insertAll pre).insert k t).insertAll post := List.foldl_append
    rw [happend, get?_insertAll_of_not_mem hpost, get?_insert, if_pos rfl]
  kept k hk := get?_insertAll_of_not_mem hk T

/-- **Entries with distinct keys can be taken in in any order.** -/
theorem insertAll_perm (T : Table) (hp : es.Perm fs) (hnd : (es.map Prod.fst).Nodup) :
    T.insertAll es = T.insertAll fs := by
  have hkeys : (es.map Prod.fst).Perm (fs.map Prod.fst) := hp.map Prod.fst
  refine ext_get? fun k => ?_
  by_cases hk : k ∈ es.map Prod.fst
  · obtain ⟨⟨k, t⟩, he, rfl⟩ := List.mem_map.mp hk
    rw [get?_insertAll_of_mem hnd he,
      get?_insertAll_of_mem (hkeys.nodup_iff.mp hnd) (hp.mem_iff.mp he)]
  · rw [get?_insertAll_of_not_mem hk,
      get?_insertAll_of_not_mem fun hk' => hk (hkeys.mem_iff.mpr hk')]

theorem extend_perm (hp : es.Perm fs) (hnd : (es.map Prod.fst).Nodup) (h : T.extend es = .ok S) :
    T.extend fs = .ok S := by
  obtain ⟨hes, rfl⟩ := extend_eq_ok_iff.mp h
  exact extend_eq_ok_iff.mpr ⟨fun e he => hes e (hp.mem_iff.mpr he), insertAll_perm T hp hnd⟩

end Overlaid

/-! ## The main result -/

/-- **Extending a table is a union in which the last entry wins.**  It fails exactly if some entry binds a
variable to itself, one that a later entry replaces included, and names the first such key.  Otherwise it
gives a table that maps a key to its last entry, or as before if it has none, and that lists its entries,
each once, in increasing order of their keys.  This order is by the kind of the scope, then its words, then
the name; it is transitive, and keys of which neither comes first are equal.  Hence extending by more
entries is extending by both lists in a row, and entries with distinct keys may come in any order. -/
theorem extend_last_wins (T : Table) (es : List (VarKey × Ty)) :
    ((∃ v, T.extend es = .error v) ↔ ∃ k bounds, (k, Ty.var k bounds) ∈ es) ∧
      (∀ v, T.extend es = .error v ↔
        ∃ pre k bounds post, es = pre ++ (k, .var k bounds) :: post ∧
          (∀ j cs, (j, Ty.var j cs) ∉ pre) ∧ v = .selfBinding k) ∧
      ((∀ k bounds, (k, Ty.var k bounds) ∉ es) →
        ∃ S, T.extend es = .ok S ∧ T.Overlaid es S ∧
          S.entries.Pairwise (fun e f => e.1 < f.1) ∧ ∀ k t, (k, t) ∈ S.entries ↔ S.get? k = some t) ∧
      ((∀ a b : VarKey, a < b ↔ a.scope.rank < b.scope.rank ∨
          (a.scope.rank = b.scope.rank ∧ a.scope.words < b.scope.words) ∨
          (a.scope = b.scope ∧ a.name < b.name)) ∧
        (∀ a b c : VarKey, a < b → b < c → a < c) ∧ ∀ a b : VarKey, ¬ a < b ∧ ¬ b < a ↔ a = b) ∧
      (∀ fs S, T.extend es = .ok S → T.extend (es ++ fs) = S.extend fs) ∧
      ∀ fs S, es.Perm fs → (es.map Prod.fst).Nodup → T.extend es = .ok S → T.extend fs = .ok S := by
  refine ⟨?_, fun v => extend_eq_error_iff, fun hes => ?_,
    ⟨fun a b => VarKey.lt_iff, fun a b c => VarKey.lt_trans, fun a b => VarKey.not_lt_iff⟩, ?_,
    fun fs S => extend_perm⟩
  · constructor
    · rintro ⟨v, hv⟩
      obtain ⟨pre, k, bounds, post, rfl, -, -⟩ := extend_eq_error_iff.mp hv
      exact ⟨k, bounds, List.mem_append_right pre List.mem_cons_self⟩
    · rintro ⟨k, bounds, hmem⟩
      cases h : T.extend es with
      | error v => exact ⟨v, rfl⟩
      | ok S => exact absurd hmem (forall_key?_ne_iff.mp (extend_eq_ok_iff.mp h).1 k bounds)
  · refine ⟨_, extend_eq_ok_iff.mpr ⟨forall_key?_ne_iff.mpr hes, rfl⟩, overlaid_insertAll T es, ?_, ?_⟩
    · exact (T.insertAll es).ordered
    · exact fun k t => get?_eq_some_iff.symm
  · intro fs S h
    rw [extend_append, h]
    rfl

/-- `K` stands for `String`. -/
def stringKeys : Table := empty.insert ⟨.type "Map", "K"⟩ (.plain "String")

/-- The second entry of `K` counts, the new table is listed in key order, and the entry of `P` may as well
follow in a second step.  Entries of `C` and `P` may come in either order.  An entry that binds `K` to itself
is refused, although another one for `K` follows. -/
theorem extend_last_wins_stringKeys :
    let K : VarKey := ⟨.type "Map", "K"⟩
    let P : VarKey := ⟨.method "Map" "of", "P"⟩
    let C : VarKey := ⟨.constructor "Map", "C"⟩
    let es : List (VarKey × Ty) := [(K, .plain "Integer"), (C, .ofKey K), (K, .array (.ofKey P))]
    let fs : List (VarKey × Ty) := [(C, .ofKey K), (P, .plain "Short")]
    let refused : List (VarKey × Ty) :=
      [(P, .plain "Short"), (K, .var K [.plain "Number"]), (K, .plain "Integer")]
    (∃ S, stringKeys.extend es = .ok S ∧ S.get? K = some (.array (.ofKey P)) ∧
        S.get? P = stringKeys.get? P ∧ S.entries.Pairwise (fun e f => e.1 < f.1) ∧
        stringKeys.extend (es ++ fs) = S.extend fs) ∧
      (∃ S, stringKeys.extend fs = .ok S ∧ stringKeys.extend fs.reverse = .ok S) ∧
      stringKeys.extend refused = .error (.selfBinding K) ∧
      (K < P ∧ P < C ∧ K < C) := by
  intro K P C es fs refused
  obtain ⟨-, -, htable, ⟨-, htrans, -⟩, happend, -⟩ := extend_last_wins stringKeys es
  obtain ⟨-, -, htable', -, -, hperm⟩ := extend_last_wins stringKeys fs
  obtain ⟨-, hfirst, -, -, -, -⟩ := extend_last_wins stringKeys refused
  obtain ⟨S, hS, hover, hlisted, -⟩ := htable (forall_key?_ne_iff.mp (by decide))
  obtain ⟨U, hU, -, -, -⟩ := htable' (forall_key?_ne_iff.mp (by decide))
  have hlast : S.get? K = some (.array (.ofKey P)) :=
    hover.last [(K, .plain "Integer"), (C, .ofKey K)] K _ [] rfl (by decide)
  have hrefused : stringKeys.extend refused = .error (.selfBinding K) :=
    (hfirst _).mpr ⟨[(P, .plain "Short")], K, [.plain "Number"], [(K, .plain "Integer")], rfl,
      forall_key?_ne_iff.mp (by decide), rfl⟩
  have hKP : K < P := by decide
  have hPC : P < C := by decide
  exact ⟨⟨S, hS, hlast, hover.kept P (by decide), hlisted, happend fs S hS⟩,
    ⟨U, hU, hperm _ U (List.reverse_perm fs).symm (by decide) hU⟩, hrefused, hKP, hPC,
    htrans K P C hKP hPC⟩

end Table

end Generics
