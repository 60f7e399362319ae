import Generics.Ty

/-!
# Generics.Ty.Text: the text of a type

Types are written with angle brackets, `Map<String, ? extends Number>`.  A wildcard shows its lower
bounds, then its upper bounds without the top class; a variable shows its bare name.
-/

namespace Generics.Ty

/-- Type arguments in angle brackets; nothing if there are none. -/
def bracketed (args : List String) : String :=
  if args.isEmpty then "" else "<" ++ ", ".intercalate args ++ ">"

/-- The bounds of a wildcard behind the word that introduces them; nothing if there are none. -/
def boundClause (word : String) (bounds : List String) : String :=
  if bounds.isEmpty then "" else " " ++ word ++ " " ++ " & ".intercalate bounds

mutual

/-- The text of a type. -/
def render : Ty → String
  | nominal c => c.render
  | applied owner raw args => renderOwner owner ++ raw.render ++ bracketed (renderEach args)
  | array c => render c ++ "[]"
  | wildcard _ upper lower =>
    "?" ++ boundClause "super" (renderEach lower) ++ boundClause "extends" (renderProper upper)
  | var k _ => k.render

/-- An owner is followed by a dot. -/
def renderOwner : Option Ty → String
  | none => ""
  | some o => render o ++ "."

/-- The texts of the types of a list. -/
def renderEach : List Ty → List String
  | [] => []
  | t :: ts => render t :: renderEach ts

/-- The texts of the types of a list other than the top class. -/
def renderProper : List Ty → List String
  | [] => []
  | t :: ts => if t.isTop then renderProper ts else render t :: renderProper ts

end

@[simp] theorem renderEach_eq_map (ts : List Ty) : renderEach ts = ts.map render := by
  induction ts with
  | nil => rfl
  | cons t ts ih => rw [renderEach, ih, List.map_cons]

theorem renderProper_eq_map (ts : List Ty) :
    renderProper ts = (ts.filter fun t => !t.isTop).map render := by
  induction ts with
  | nil => rfl
  | cons t ts ih =>
    rw [renderProper, ih]
    cases h : t.isTop <;> simp [h]

end Generics.Ty
