import Sexpr.Form.Basic

/-!
# The shape of a form

What can be said of a form without looking at its text: how deeply its lists nest, which atoms it
holds from left to right, how many lists it is made of, and whether a marker occurs in it.
-/

namespace Sexpr

namespace Form

mutual

/-- How many lists are open around the innermost one. An atom has depth 0, an empty list depth 1. -/
def depth : Form → Nat
  | .atom _ => 0
  | .list es => 1 + depthAll es

/-- The depth of the deepest form of a sequence. -/
def depthAll : List Form → Nat
  | [] => 0
  | e :: es => max e.depth (depthAll es)

end

mutual

/-- The atoms of a form from left to right. -/
def atoms : Form → List Atom
  | .atom a => [a]
  | .list es => atomsAll es

/-- The atoms of a sequence of forms from left to right. -/
def atomsAll : List Form → List Atom
  | [] => []
  | e :: es => e.atoms ++ atomsAll es

end

mutual

/-- The number of lists a form is made of. -/
def listCount : Form → Nat
  | .atom _ => 0
  | .list es => 1 + listCountAll es

/-- The number of lists in a sequence of forms. -/
def listCountAll : List Form → Nat
  | [] => 0
  | e :: es => e.listCount + listCountAll es

end

/-- A marker occurs in a form: the form is one, or it is a list with an element that holds one. -/
inductive HasMarker : Form → Prop where
  | here (m : Marker) : HasMarker (marker m)
  | inside {es : List Form} {e : Form} (mem : e ∈ es) (h : HasMarker e) : HasMarker (.list es)

theorem hasMarker_atom_iff {a : Atom} : HasMarker (.atom a) ↔ ∃ m, a = .marker m := by
  constructor
  · intro h
    cases h with
    | here m => exact ⟨m, rfl⟩
  · rintro ⟨m, rfl⟩
    exact .here m

theorem hasMarker_list_iff {es : List Form} : HasMarker (.list es) ↔ ∃ e ∈ es, e.HasMarker := by
  constructor
  · intro h
    cases h with
    | inside mem h => exact ⟨_, mem, h⟩
  · rintro ⟨e, mem, h⟩
    exact .inside mem h

theorem depthAll_append (l r : List Form) : depthAll (l ++ r) = max (depthAll l) (depthAll r) := by
  induction l with
  | nil => simp [depthAll]
  | cons e l ih => simp [depthAll, ih, Nat.max_assoc]

theorem depth_tagged (tag : String) (f : Form) : (tagged tag f).depth = f.depth + 1 := by
  simp [tagged, symbol, depth, depthAll, Nat.add_comm]

theorem atomsAll_append (l r : List Form) : atomsAll (l ++ r) = atomsAll l ++ atomsAll r := by
  induction l with
  | nil => rfl
  | cons e l ih => simp [atomsAll, ih]

theorem mem_atomsAll {a : Atom} {es : List Form} : a ∈ atomsAll es ↔ ∃ e ∈ es, a ∈ e.atoms := by
  induction es with
  | nil => simp [atomsAll]
  | cons e es ih => simp [atomsAll, ih]

end Form

/-- How deeply the lists of a program nest. -/
def Program.depth (p : Program) : Nat := Form.depthAll p

end Sexpr
