import Generics.Proofs.Survey

/-!
# Generics.Proofs.Paths: what recording an argument changes

A path leads from a type over variables to the variable of a key: the type is a variable, its entry is the
next one, and so on.  It is a way through one table, which stays as it is.  The loop that drops a chain of
variables takes entries out of the table while it follows them, so what it comes to is a trail through
tables that get smaller.  In an unlooped table the two are the same: no key stands twice on a path
(`Path.nodup`), so each entry is still there when the loop comes to it, and the loop ends where the path
does, at a key without an entry (`Path.trail_eq`).

Hence an argument that leads to its parameter takes from the table the entries on the path and no others,
and any other argument is added.
-/

namespace Generics.Table

open Relation

variable {T : Table} {i j k : VarKey} {t u : Ty} {path : List VarKey}

/-! ## Paths -/

/-- Following variables from a type leads to the variable of `k`; the list holds the keys of the variables
before it. -/
inductive Path (T : Table) (k : VarKey) : Ty → List VarKey → Prop where
  | here {t : Ty} (hk : t.key? = some k) : Path T k t []
  | next {t u : Ty} {j : VarKey} {path : List VarKey} (hj : t.key? = some j)
      (hu : T.get? j = some u) (h : Path T k u path) : Path T k t (j :: path)

namespace Path

/-- A path starts from a variable. -/
theorem exists_key (h : T.Path k t path) : ∃ j, t.key? = some j := by
  cases h with
  | here hk => exact ⟨k, hk⟩
  | next hj _ _ => exact ⟨_, hj⟩

/-- The variables on a path have entries. -/
theorem contains (h : T.Path k t path) (hi : i ∈ path) : T.contains i = true := by
  induction h with
  | here _ => cases hi
  | next _ hu _ ih =>
    rcases List.mem_cons.mp hi with rfl | hi
    · exact contains_of_get? hu
    · exact ih hi

/-- From the first variable of a path, links lead to all of them. -/
theorem reach (h : T.Path k t path) (hj : t.key? = some j) (hi : i ∈ path) :
    ReflTransGen T.Links j i := by
  induction h generalizing j with
  | here _ => cases hi
  | @next t u m path hm hu hpath ih =>
    obtain rfl : m = j := Option.some.inj (hm.symm.trans hj)
    rcases List.mem_cons.mp hi with rfl | hi
    · exact .refl
    · obtain ⟨n, hn⟩ := hpath.exists_key
      exact .head (links_of_get? hu hn) (ih hn hi)

/-- A path does without the entries of other keys. -/
theorem erase (h : T.Path k t path) (hi : i ∉ path) : (T.erase i).Path k t path := by
  induction h with
  | here hk => exact .here hk
  | @next t u m path hm hu _ ih =>
    rw [List.mem_cons, not_or] at hi
    refine .next hm ?_ (ih hi.2)
    rw [get?_erase, if_neg (Ne.symm hi.1), hu]

/-- In an unlooped table, a path does not come back to where it starts. -/
theorem not_mem_tail (hT : T.Unlooped) (hu : T.get? j = some u) (h : T.Path k u path) :
    j ∉ path := by
  intro hj
  obtain ⟨n, hn⟩ := h.exists_key
  exact hT j (.head' (links_of_get? hu hn) (h.reach hn hj))

theorem nodup (hT : T.Unlooped) (h : T.Path k t path) : path.Nodup := by
  induction h with
  | here _ => exact List.nodup_nil
  | next _ hu hpath ih => exact List.nodup_cons.mpr ⟨hpath.not_mem_tail hT hu, ih⟩

/-- **The trail through the shrinking table is the path through the whole one.**  The induction is on the
path; the rest of it is a path without the entry that the trail has left behind. -/
theorem trail_eq (hT : T.Unlooped) (hk : T.get? k = none) (h : T.Path k t path)
    (hj : t.key? = some j) : T.trail j = path ++ [k] := by
  induction path generalizing T t j with
  | nil =>
    cases h with
    | here hkey =>
      obtain rfl : k = j := Option.some.inj (hkey.symm.trans hj)
      refine trail_of_follow?_eq_none ?_
      rw [follow?, hk, Option.bind_none]
  | cons m path ih =>
    cases h with
    | @next _ u _ _ hm hu hpath =>
      obtain rfl : m = j := Option.some.inj (hm.symm.trans hj)
      obtain ⟨n, hn⟩ := hpath.exists_key
      have hk' : (T.erase m).get? k = none := by rw [get?_erase, hk, ite_self]
      have hrest : (T.erase m).trail n = path ++ [k] :=
        ih (hT.erase m) hk' (hpath.erase (hpath.not_mem_tail hT hu)) hn
      rw [trail_of_links (links_of_get? hu hn), hrest, List.cons_append]

end Path

/-- Where links lead from a variable to `k`, there is a path. -/
theorem exists_path_of_reach (hj : t.key? = some j) (h : ReflTransGen T.Links j k) :
    ∃ path, T.Path k t path := by
  induction h using ReflTransGen.head_induction_on generalizing t with
  | refl => exact ⟨[], .here hj⟩
  | @head j n hlink _ ih =>
    obtain ⟨bounds, hu⟩ := links_iff.mp hlink
    obtain ⟨path, hpath⟩ := ih (t := .var n bounds) rfl
    exact ⟨j :: path, .next hj hu hpath⟩

/-! ## What changes -/

section Changes

theorem mem_entries_insert {e : VarKey × Ty} (hk : T.get? k = none) :
    e ∈ (T.insert k t).entries ↔ e ∈ T.entries ∨ e = (k, t) := by
  obtain ⟨i, u⟩ := e
  rw [← get?_eq_some_iff, ← get?_eq_some_iff, get?_insert, Prod.mk.injEq]
  by_cases hi : i = k
  · subst hi
    rw [if_pos rfl, hk, Option.some.injEq]
    simp [eq_comm]
  · simp [hi]

theorem mem_entries_foldl_erase {e : VarKey × Ty} (ks : List VarKey) :
    e ∈ (ks.foldl erase T).entries ↔ e ∈ T.entries ∧ e.1 ∉ ks := by
  obtain ⟨i, u⟩ := e
  rw [← get?_eq_some_iff, ← get?_eq_some_iff, get?_foldl_erase]
  by_cases hi : i ∈ ks <;> simp [hi]

/-- An argument that leads to its parameter takes the entries on the path away. -/
theorem Path.mem_entries_record (hT : T.Unlooped) (hk : T.get? k = none) (h : T.Path k t path)
    {e : VarKey × Ty} : e ∈ (T.record k t).entries ↔ e ∈ T.entries ∧ e.1 ∉ path := by
  obtain ⟨j, hj⟩ := h.exists_key
  have htrail : T.trail j = path ++ [k] := h.trail_eq hT hk hj
  have hmem : k ∈ T.trail j := by rw [htrail]; exact List.mem_concat_self
  rw [record_of_key? hj, if_neg (not_contains_iff.mpr hk), if_pos hmem, mem_entries_foldl_erase,
    htrail, List.mem_append, List.mem_singleton, not_or]
  -- at the end of the trail there is nothing to take away
  have hne : e ∈ T.entries → e.1 ≠ k := by
    rintro he rfl
    rw [get?_eq_some_iff.mpr he] at hk
    cases hk
  exact ⟨fun ⟨he, hpath, _⟩ => ⟨he, hpath⟩, fun ⟨he, hpath⟩ => ⟨he, hpath, hne he⟩⟩

/-- Any other argument of an unmapped parameter is added. -/
theorem record_of_no_path (hk : T.get? k = none) (hno : ∀ path, ¬ T.Path k t path) :
    T.record k t = T.insert k t := by
  obtain ⟨hc, -⟩ | ⟨heq, -⟩ | ⟨-, j, hj, hreach, -⟩ := T.record_cases k t
  · exact absurd hc (not_contains_iff.mpr hk)
  · exact heq
  · obtain ⟨path, hpath⟩ := exists_path_of_reach hj hreach
    exact absurd hpath (hno path)

end Changes

/-! ## The main result -/

/-- **What recording an argument does to an unlooped table.**  Its two loops end, and with one table.  If
the parameter is mapped, this is the table as it was.  Otherwise, if a path leads from the argument to the
variable of the parameter, each variable on it has an entry, and exactly these entries are dropped.  If no
path does, exactly the parameter with its argument is added.  All other entries stay as they are. -/
theorem record_effect (T : Table) (hT : T.Unlooped) (k : VarKey) (t : Ty) :
    (∀ S, Recorder.Runs ⟨T, [(k, t)], .idle⟩ ⟨S, [], .idle⟩ ↔ S = T.record k t) ∧
      (T.contains k = true → T.record k t = T) ∧
      (T.contains k = false → ∀ path, T.Path k t path →
        path.Nodup ∧ (∀ i ∈ path, T.contains i = true) ∧
          ∀ e, e ∈ (T.record k t).entries ↔ e ∈ T.entries ∧ e.1 ∉ path) ∧
      (T.contains k = false → (∀ path, ¬ T.Path k t path) →
        ∀ e, e ∈ (T.record k t).entries ↔ e ∈ T.entries ∨ e = (k, t)) := by
  have hunmapped : T.contains k = false → T.get? k = none := fun hk =>
    not_contains_iff.mp (Bool.eq_false_iff.mp hk)
  refine ⟨fun S => Recorder.runs_iff_eq_record hT k t, fun hk => if_pos hk,
    fun hk path hpath => ?_, fun hk hno e => ?_⟩
  · refine ⟨hpath.nodup hT, fun i hi => hpath.contains hi, fun e => ?_⟩
    exact hpath.mem_entries_record hT (hunmapped hk)
  · rw [record_of_no_path (hunmapped hk) hno]
    exact mem_entries_insert (hunmapped hk)

/-- `U` and `W` stand for `V`, which stands for `T`.  Beside this, `S` stands for `List<U>`. -/
def forked : Table :=
  empty.insertAll
    [(⟨.type "Left", "U"⟩, .ofKey ⟨.type "Stem", "V"⟩), (⟨.type "Right", "W"⟩, .ofKey ⟨.type "Stem", "V"⟩),
      (⟨.type "Stem", "V"⟩, .var ⟨.type "Node", "T"⟩ [.plain "Number"]),
      (⟨.type "Sack", "S"⟩, .applied none (.plain "List") [.ofKey ⟨.type "Left", "U"⟩])]

theorem unlooped_forked : forked.Unlooped := by
  let rank : VarKey → Nat := fun k => if k.name = "T" then 0 else if k.name = "V" then 1 else 2
  refine unlooped_of_rank rank fun k j hkj => ?_
  obtain ⟨bounds, hk⟩ := links_iff.mp hkj
  have hdown : ∀ e ∈ forked.entries, ∀ j ∈ e.2.key?, rank j < rank e.1 := by decide
  exact hdown _ (mem_of_get? hk) j rfl

/-- If `T` is given `W`, the path from `W` over `V` is dropped; `U` keeps its entry, although it leads to `T`
over `V` as well.  If `T` is given `S`, this is recorded: the entry of `S` mentions `U`, but is no variable.
`V` stands for `T` already, so nothing is recorded for it. -/
theorem record_effect_forked :
    let T : VarKey := ⟨.type "Node", "T"⟩
    let U : VarKey := ⟨.type "Left", "U"⟩
    let V : VarKey := ⟨.type "Stem", "V"⟩
    let W : VarKey := ⟨.type "Right", "W"⟩
    let S : VarKey := ⟨.type "Sack", "S"⟩
    forked.Unlooped ∧
      (forked.contains V = true ∧ forked.record V (.plain "String") = forked) ∧
      (forked.contains T = false ∧ forked.Path T (.ofKey W) [W, V] ∧
        (∀ e, e ∈ (forked.record T (.ofKey W)).entries ↔ e ∈ forked.entries ∧ e.1 ∉ [W, V]) ∧
        (U, .ofKey V) ∈ (forked.record T (.ofKey W)).entries ∧
        Recorder.Runs ⟨forked, [(T, .ofKey W)], .idle⟩ ⟨forked.record T (.ofKey W), [], .idle⟩) ∧
      (∀ path, ¬ forked.Path T (.ofKey S) path) ∧
      ∀ e, e ∈ (forked.record T (.ofKey S)).entries ↔ e ∈ forked.entries ∨ e = (T, .ofKey S) := by
  intro T U V W S
  obtain ⟨hruns, -, hdrop, -⟩ := record_effect forked unlooped_forked T (.ofKey W)
  obtain ⟨-, -, -, hadd⟩ := record_effect forked unlooped_forked T (.ofKey S)
  obtain ⟨-, hmapped, -, -⟩ := record_effect forked unlooped_forked V (.plain "String")
  have hpath : forked.Path T (.ofKey W) [W, V] := .next rfl rfl (.next rfl rfl (.here rfl))
  have hno : ∀ path, ¬ forked.Path T (.ofKey S) path := by
    intro path h
    cases h with
    | here hk => exact absurd hk (by decide)
    | next hj hu h =>
      cases hj
      cases hu
      obtain ⟨j, hj⟩ := h.exists_key
      cases hj
  obtain ⟨-, -, hrest⟩ := hdrop rfl _ hpath
  refine ⟨unlooped_forked, ⟨rfl, hmapped rfl⟩, ⟨rfl, hpath, hrest, ?_, (hruns _).mpr rfl⟩, hno,
    hadd rfl hno⟩
  exact (hrest _).mpr ⟨get?_eq_some_iff.mp rfl, by decide⟩

end Generics.Table
