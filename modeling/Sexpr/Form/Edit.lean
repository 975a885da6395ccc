import Sexpr.Form.Basic

/-!
# Editing a form

A path names a form inside a form by the indices to descend through. An edit changes the form a path
leads to and reports what came of it; where it cannot be carried out, nothing changes.
-/

namespace Sexpr

/-- A change to one form. All but the first two apply to lists only. -/
inductive Edit where
  /-- Put another form in its place. -/
  | replace (new : Form)
  /-- Make it the operand of a tag. -/
  | tag (name : String)
  /-- Append an element. -/
  | push (element : Form)
  /-- Remove the last element. -/
  | pop
  /-- Turn the order of the elements around. -/
  | reverse
  /-- Remove all elements. -/
  | clear
deriving Inhabited

/-- What came of an edit. -/
inductive EditResult where
  | done
  /-- The form that was taken out. -/
  | removed (f : Form)
  /-- There was nothing to take out. -/
  | empty
  | notAList
  | noSuchForm
deriving Inhabited

/-- Carries out an edit on the form itself. -/
def Edit.apply (edit : Edit) (f : Form) : EditResult × Form :=
  match edit, f with
  | .replace new, _ => (.done, new)
  | .tag name, f => (.done, .tagged name f)
  | _, .atom a => (.notAList, .atom a)
  | .push e, .list es => (.done, .list (es ++ [e]))
  | .pop, .list es =>
    match es.getLast? with
    | some e => (.removed e, .list es.dropLast)
    | none => (.empty, .list es)
  | .reverse, .list es => (.done, .list es.reverse)
  | .clear, .list _ => (.done, .list [])

namespace Form

/-- The form a path leads to. -/
def get? (f : Form) : List Nat → Option Form
  | [] => some f
  | i :: path =>
    match f with
    | .list es =>
      match es[i]? with
      | some e => e.get? path
      | none => none
    | .atom _ => none

/-- Carries out an edit on the form a path leads to. -/
def edit (edit : Edit) (f : Form) : List Nat → EditResult × Form
  | [] => edit.apply f
  | i :: path =>
    match f with
    | .list es =>
      match es[i]? with
      | some e =>
        let (result, changed) := Form.edit edit e path
        (result, .list (es.set i changed))
      | none => (.noSuchForm, .list es)
    | .atom a => (.noSuchForm, .atom a)

/-- A path that leads nowhere leaves the form as it is. -/
theorem edit_of_get?_eq_none (edit : Edit) {f : Form} {path : List Nat} (h : f.get? path = none) :
    f.edit edit path = (.noSuchForm, f) := by
  induction path generalizing f with
  | nil => simp [get?] at h
  | cons i path ih =>
    cases f with
    | atom a => rfl
    | list es =>
      cases hi : es[i]? with
      | none => simp [Form.edit, hi]
      | some e =>
        simp only [get?, hi] at h
        obtain ⟨hlt, rfl⟩ := List.getElem?_eq_some_iff.1 hi
        simp [Form.edit, hi, ih h]

end Form

end Sexpr
