import Generics.Json
import Generics.Unifier
import Generics.Workload

/-!
# Generics.Report: how much work unification does

A report measures three unifications, the kernels, by their traces: how many steps they take, how
many of these bind a variable, and how many there are of each kind.
-/

namespace Generics

/-- What the trace of a unification shows. -/
structure Measurement where
  name : String
  steps : Nat
  bindings : Nat
  /-- The kinds of steps that occur and how often, in the order of their texts. -/
  actions : List (Action × Nat)
  deriving Inhabited

/-- A kernel whose types do not fit together. -/
structure KernelClash where
  name : String
  clash : Clash
  deriving Inhabited

def KernelClash.message (k : KernelClash) : String :=
  "failed to unify kernel " ++ quoted k.name ++ ": " ++ k.clash.message

namespace Measurement

/-- How often the actions of a list occur, without those that do not. -/
def tally (actions : List Action) : List (Action × Nat) :=
  (Action.all.map fun a => (a, actions.count a)).filter fun e => decide (0 < e.2)

/-- Records every step: the limit is the largest 64-bit word. -/
def tracing : Tracing := { record := true, limit := 18446744073709551615 }

/-- Measures the unification of a formal with an actual type. -/
def ofKernel (name : String) (formal actual : Ty) : Except KernelClash Measurement :=
  match Unifier.unify { tracing } formal actual with
  | (.error c, _) => .error ⟨name, c⟩
  | (.ok (), u) =>
    let actions := u.trace.toList.map fun s => s.decision.action
    .ok { name, steps := u.trace.size, bindings := actions.count .bind, actions := tally actions }

def json (m : Measurement) : Json :=
  .object [
    ("name", .string m.name),
    ("steps", .number m.steps),
    ("bindings", .number m.bindings),
    ("actions", .object (m.actions.map fun e => (e.1.render, .number e.2)))]

end Measurement

/-- The measurements of all kernels. -/
structure Report where
  kernels : List Measurement
  deriving Inhabited

namespace Report

def totalSteps (r : Report) : Nat := r.kernels.foldr (fun m n => m.steps + n) 0

def totalBindings (r : Report) : Nat := r.kernels.foldr (fun m n => m.bindings + n) 0

def json (r : Report) : Json :=
  .object [
    ("kernels", .array (r.kernels.map Measurement.json)),
    ("total_steps", .number r.totalSteps),
    ("total_bindings", .number r.totalBindings)]

/-- The text of a report. -/
def render (r : Report) : String := r.json.render

/-- The names of the kernels, with their formal and actual types. -/
def kernelInputs : List (String × Ty × Ty) :=
  let map (k v : Ty) : Ty := .applied none (.plain "Map") [k, v]
  let list (e : Ty) : Ty := .applied none (.plain "List") [e]
  let key (name : String) : Ty := .ofKey ⟨.type "Map", name⟩
  [("map_entry", map (key "K") (key "V"), map (.plain "String") (.plain "Integer")),
    ("wildcard_list", list .any, list (.plain "String")),
    ("nested_pairs_16", Workload.pairs 16)]

/-- The report on all kernels. -/
def build : Except KernelClash Report :=
  (kernelInputs.mapM fun (name, formal, actual) => Measurement.ofKernel name formal actual).map
    Report.mk

/-- What a run of the command line leaves: an exit code, two streams, and at most one file. -/
structure Outcome where
  exit : UInt32 := 0
  stdout : String := ""
  stderr : String := ""
  /-- The path of the file and its text. -/
  file : Option (String × String) := none
  deriving Inhabited

/-- Without a path the report is a line of output, with one it is the text of that file. -/
def outcome (path : Option String) : Outcome :=
  match build, path with
  | .error e, _ => { exit := 1, stderr := e.message ++ "\n" }
  | .ok r, none => { stdout := r.render ++ "\n" }
  | .ok r, some p => { file := some (p, r.render) }

end Report

end Generics
