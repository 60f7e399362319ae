import Generics.Proofs.Idempotence

/-!
# Generics.Proofs.Arrays: building arrays and taking them apart

`arrayOf` folds: the array of a class is a class, and the array of a wildcard with a single bound is a
wildcard over an array.  This does not get in the way of what is done with arrays.

* Substituting may turn a component that does not fold into one that does.  Whether the array is built
  before or after makes no difference (`resolve_arrayOf_commutes`).
* `component?` goes back from an array to its component (`component?_inverts_arrayOf`), also where the
  brackets have been pushed down a tower of `? extends`: it takes the component at the foot of the tower
  and widens it once for every level (`TowerOver.component?_arrayOf`).  So the foot must not be a
  primitive class, which is never widened.  The one thing that is lost is a class with as many
  dimensions as can be counted: the count of its array starts over at zero.
-/

namespace Generics

/-! ## Arrays and resolution -/

/-- **Resolution commutes with building arrays**, whatever the component is and whatever shields are up:
the two results are identical, the bounds of variables included, and are equal even in their sites. -/
theorem resolve_arrayOf_commutes (T : Table) (c : Ty) :
    (T.resolve c.arrayOf).identical (T.resolve c).arrayOf = true ∧
      ∀ g : Shields,
        (T.resolveUnder g c.arrayOf).identical (T.resolveUnder g c).arrayOf = true ∧
          T.resolveUnder g c.arrayOf = (T.resolveUnder g c).arrayOf := by
  have hunder : ∀ g : Shields, T.resolveUnder g c.arrayOf = (T.resolveUnder g c).arrayOf :=
    fun g => Table.resolveUnder_arrayOf T g c
  have hsame : ∀ g : Shields,
      (T.resolveUnder g c.arrayOf).identical (T.resolveUnder g c).arrayOf = true := by
    intro g
    rw [hunder g]
    exact Ty.identical_iff.mpr rfl
  exact ⟨hsame [], fun g => ⟨hsame g, hunder g⟩⟩

/-- The component changes its kind: `T[]` is an array node over a variable, and with `String` for `T` it
becomes a class of arrays. -/
example :
    let T := Table.empty.insert ⟨.type "Box", "T"⟩ (.plain "String")
    let c : Ty := .ofKey ⟨.type "Box", "T"⟩
    c.arrayOf = .array c ∧ T.resolve c.arrayOf = .nominal ⟨"String", 1⟩ ∧
      (T.resolve c).arrayOf = .nominal ⟨"String", 1⟩ := by
  intro T c
  rw [Ty.arrayOf_of_not_folds rfl, Table.resolve_array, Table.resolve_ofKey_of_nominal T rfl]
  exact ⟨rfl, rfl, rfl⟩

/-! ## Components of arrays -/

namespace Ty

variable {c X : Ty}

/-- The type is a tower of one or more wildcards `? extends` over `X`. -/
inductive TowerOver (X : Ty) : Ty → Prop where
  | foot (site : Option Nat) : TowerOver X (wildcard site [X] [])
  | level (site : Option Nat) {c : Ty} (h : TowerOver X c) : TowerOver X (wildcard site [c] [])

/-- A type that is not a primitive class can be widened. -/
theorem widen_eq_extending (h : ∀ n ∈ X.nominal?, n.isPrimitive = false) : X.widen = extending X := by
  cases X with
  | nominal n => exact if_neg (by simp [h n rfl])
  | applied _ _ _ | array _ | wildcard _ _ _ | var _ _ => rfl

/-- What `? extends t` holds is what `t` holds, widened. -/
theorem component?_extending (t : Ty) : (extending t).component? = t.component?.map widen := by
  show ((component? t).or none).map widen = _
  rw [Option.or_none]

/-- An array of a type that is no wildcard holds that type, unless the dimensions were all counted. -/
theorem component?_arrayOf_eq_self_iff (h : c.isWildcard = false) :
    c.arrayOf.component? = some c ↔ c.isFull = false := by
  cases hfull : c.isFull with
  | true =>
    rw [component?_arrayOf_of_isFull hfull]
    exact iff_of_false nofun nofun
  | false =>
    have hw : c.arrayOf.isWildcard = false := by rw [isWildcard_arrayOf, h, Bool.false_and]
    exact iff_of_true (component?_arrayOf hw hfull) rfl

/-- **A tower is rebuilt level by level**, over the component that stands at its foot. -/
theorem TowerOver.component?_arrayOf (h : TowerOver X c) (hX : X.arrayOf.component? = some X)
    (hwide : ∀ n ∈ X.nominal?, n.isPrimitive = false) :
    ∃ d, c.arrayOf.component? = some (extending d) ∧ (extending d).unsited = c.unsited := by
  induction h with
  | foot site =>
    refine ⟨X, ?_, by rw [extending, unsited_wildcard, unsited_wildcard]⟩
    rw [arrayOf_wildcard_upper, component?_extending, hX, Option.map_some, widen_eq_extending hwide]
  | level site _ ih =>
    obtain ⟨d, hd, hsame⟩ := ih
    refine ⟨extending d, ?_, ?_⟩
    · rw [arrayOf_wildcard_upper, component?_extending, hd]
      rfl
    · rw [extending, unsited_wildcard, unsited_wildcard, List.map_singleton, List.map_singleton,
        hsame]

/-- A tower over a type whose array holds nothing has an array that holds nothing. -/
theorem TowerOver.component?_arrayOf_eq_none (h : TowerOver X c) (hX : X.arrayOf.component? = none) :
    c.arrayOf.component? = none := by
  induction h with
  | foot site => rw [arrayOf_wildcard_upper, component?_extending, hX, Option.map_none]
  | level site _ ih => rw [arrayOf_wildcard_upper, component?_extending, ih, Option.map_none]

/-- A generic array that does not fold is the array of what it holds. -/
theorem arrayOf_component?_of_not_folds (h : c.folds = false) :
    (array c).component? = some c ∧ c.arrayOf = array c :=
  ⟨by rw [component?], arrayOf_of_not_folds h⟩

/-- A class of arrays is the array of what it holds. -/
theorem arrayOf_component?_of_isArray {n : Nominal} (h : n.isArray = true) :
    ∃ c, (nominal n).component? = some c ∧ c.arrayOf = nominal n := by
  have hm : n.component? = some ⟨n.name, n.dims - 1⟩ := if_pos h
  refine ⟨nominal ⟨n.name, n.dims - 1⟩, by rw [component?, hm, Option.map_some], ?_⟩
  rw [arrayOf_nominal, (Nominal.array_of_component? hm).1]

end Ty

/-- **`component?` inverts `arrayOf`, as long as dimensions can be counted.**  It gives back a component
that is no wildcard exactly if the component is not a full class, and a tower of one or more `? extends`
over a type that is neither a wildcard nor a primitive class exactly if that type is not a full class.  It
gives back every wildcard whose lower bounds are none or several and whose bounds do not fold.  The other
way round, every class of arrays and every generic array in normal form is the array of what it holds. -/
theorem component?_inverts_arrayOf (c : Ty) :
    (c.isWildcard = false → (c.arrayOf.component? = some c ↔ c.isFull = false)) ∧
      (∀ X : Ty, Ty.TowerOver X c → X.isWildcard = false →
        (∀ n ∈ X.nominal?, n.isPrimitive = false) →
          ((∃ d, c.arrayOf.component? = some d ∧ d.identical c = true) ↔ X.isFull = false)) ∧
      (∀ site upper lower, c = .wildcard site upper lower → lower.length ≠ 1 →
        ¬ (lower = [] ∧ upper.length = 1) → c.arrayOf.component? = some c) ∧
      (∀ n : Nominal, c = .nominal n → n.isArray = true →
        ∃ d, c.component? = some d ∧ d.arrayOf = c) ∧
      ∀ t : Ty, c = .array t → c.normal = true → ∃ d, c.component? = some d ∧ d.arrayOf = c := by
  refine ⟨Ty.component?_arrayOf_eq_self_iff, ?_, ?_, ?_, ?_⟩
  · intro X htower hX hwide
    cases hfull : X.isFull with
    | true =>
      have hnone := htower.component?_arrayOf_eq_none (Ty.component?_arrayOf_of_isFull hfull)
      refine iff_of_false (fun ⟨d, hd, _⟩ => ?_) nofun
      rw [hnone] at hd
      cases hd
    | false =>
      obtain ⟨d, hd, hsame⟩ :=
        htower.component?_arrayOf ((Ty.component?_arrayOf_eq_self_iff hX).mpr hfull) hwide
      exact iff_of_true ⟨_, hd, Ty.identical_iff.mpr hsame⟩ rfl
  · rintro site upper lower rfl hlower hupper
    have hfolds : (Ty.wildcard site upper lower).folds = false := by
      rw [Ty.folds_wildcard]
      simpa [hlower] using hupper
    rw [Ty.arrayOf_of_not_folds hfolds, (Ty.arrayOf_component?_of_not_folds hfolds).1]
  · rintro n rfl hn
    exact Ty.arrayOf_component?_of_isArray hn
  · rintro t rfl hn
    exact ⟨t, Ty.arrayOf_component?_of_not_folds (Ty.normal_array.mp hn).1⟩

/-- The array of `? extends ? extends int[]` is `? extends ? extends int[][]`, and holds that tower again,
without its sites.  The array of `? extends Number & Cloneable` does not fold, nor does that of a wildcard
between bounds on both sides with two lower ones. -/
theorem component?_inverts_arrayOf_towers :
    let ints : Ty := .nominal ⟨"int", 1⟩
    let tower : Ty := .wildcard (some 3) [.wildcard none [ints] []] []
    let both : Ty := .wildcard (some 4) [.plain "Number", .plain "Cloneable"] []
    let between : Ty := .wildcard none [.top] [.plain "Integer", .plain "Short"]
    (Ty.TowerOver ints tower ∧
        tower.arrayOf = .extending (.extending (.nominal ⟨"int", 2⟩)) ∧
        ∃ d, tower.arrayOf.component? = some d ∧ d.identical tower = true) ∧
      (both.arrayOf.component? = some both ∧ between.arrayOf.component? = some between) ∧
      ints.arrayOf.component? = some ints ∧
      (∃ d, ints.component? = some d ∧ d.arrayOf = ints) ∧
      ∃ d, (Ty.array both).component? = some d ∧ d.arrayOf = .array both := by
  intro ints tower both between
  obtain ⟨hplain, -, -, hclass, -⟩ := component?_inverts_arrayOf ints
  obtain ⟨-, htowers, -, -, -⟩ := component?_inverts_arrayOf tower
  obtain ⟨-, -, hboth, -, -⟩ := component?_inverts_arrayOf both
  obtain ⟨-, -, hbetween, -, -⟩ := component?_inverts_arrayOf between
  obtain ⟨-, -, -, -, harray⟩ := component?_inverts_arrayOf (.array both)
  have htower : Ty.TowerOver ints tower := .level _ (.foot _)
  exact ⟨⟨htower, rfl, (htowers ints htower rfl (by decide)).mpr rfl⟩,
    ⟨hboth _ _ _ rfl (by decide) (by decide), hbetween _ _ _ rfl (by decide) (by decide)⟩,
    (hplain rfl).mpr rfl, hclass _ rfl rfl, harray both rfl (by decide)⟩

/-- The arrays of `String` with the largest count of dimensions are `String` itself, and hold nothing. -/
theorem component?_arrayOf_fullString :
    let full : Ty := .nominal ⟨"String", 4294967295⟩
    full.isWildcard = false ∧ full.arrayOf = .plain "String" ∧
      full.arrayOf.component? = none ∧ full.arrayOf.component? ≠ some full :=
  ⟨rfl, rfl, rfl, nofun⟩

end Generics
