import Generics.Table

/-!
# Generics.Table.Record: arguments of parameters, without cycles of variables

`record` notes that a parameter is given an argument.  Arguments are often variables, the parameters
of another class, so a table grows chains of variables; `trail` follows such a chain.  An entry that
would close a chain to a cycle is not added, and the chain is dropped.
-/

namespace Generics

namespace Table

/-- The keys met by following variables from `k`: `k`, the variable that `k` is mapped to, the one
that this is mapped to, and so on.  An entry is followed once. -/
def trail (T : Table) (k : VarKey) : List VarKey :=
  match _h : T.get? k with
  | some (.var j _) => k :: (T.erase k).trail j
  | _ => [k]
  termination_by T.size
  decreasing_by exact size_erase_lt _h

/-- Records that the parameter `k` is given the argument `t`, unless `k` is mapped already.  If
following variables from the argument leads back to `k`, the entries on that way are dropped and
nothing is recorded, so that no cycle of variables arises. -/
def record (T : Table) (k : VarKey) (t : Ty) : Table :=
  if T.contains k then T
  else match t.key? with
    | none => T.insert k t
    | some j =>
      let links := T.trail j
      if k ∈ links then links.foldl erase T else T.insert k t

/-- Records the arguments of several parameters in order. -/
def recordAll (T : Table) (es : List (VarKey × Ty)) : Table :=
  es.foldl (fun S e => S.record e.1 e.2) T

end Table

end Generics
