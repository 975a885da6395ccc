import Mathlib.Logic.Function.Iterate
import Sexpr.Form.Shape

/-!
# The search for a marker

Whether a form holds a marker is found out with a stack of the forms that have still to be looked
at: a list is replaced by its elements, so the stack grows and shrinks, and the first marker that
comes up ends the search. One turn after the other, a search keeps to the same answer and comes
closer to it.

* `Search.finds_turn`, `Search.left_turn_le`: what a turn keeps, and what it uses up;
* `Search.exists_answer`: a search ends within the turns that are left to it;
* `anyMarker_iff_exists`: it finds a marker exactly if one of the forms on the stack has one;
* `containsMarker_search`: **from a single form, the search ends with whether the form has a
  marker**.
-/

namespace Sexpr

namespace Form

/-- How far a search has come. -/
inductive Search where
  /-- Forms that have still to be looked at, the next one first. -/
  | pending (forms : List Form)
  /-- Whether a marker was found. -/
  | answer (found : Bool)

namespace Search

/-- One turn: the form on top of the stack is looked at. A marker is the answer, whatever else is on
the stack; any other atom is dropped; a list is replaced by its elements, the last one on top. -/
def turn : Search → Search
  | .pending [] => .answer false
  | .pending (.atom (.marker _) :: _) => .answer true
  | .pending (.atom _ :: forms) => .pending forms
  | .pending (.list es :: forms) => .pending (es.reverseAux forms)
  | .answer found => .answer found

/-- There is a marker to be found, or it has been found. -/
def Finds : Search → Prop
  | .pending forms => ∃ f ∈ forms, f.HasMarker
  | .answer found => found = true

/-- A bound on the turns before the answer: one for every atom and list on the stack, and one to see
that the stack is empty. -/
def left : Search → Nat
  | .pending forms => sizeAll forms + 1
  | .answer _ => 0

/-- What the search comes to. -/
def result : Search → Bool
  | .pending forms => anyMarker forms
  | .answer found => found

/-! ## One turn -/

/-- A turn loses no marker that is still to be found, and makes none up. -/
theorem finds_turn (s : Search) : s.turn.Finds ↔ s.Finds := by
  fun_cases turn s with
  | case1 => simp [Finds]
  | case2 m forms =>
    simp only [Finds, true_iff]
    exact ⟨.marker m, List.mem_cons_self, .here m⟩
  | case3 a forms ha =>
    have hno : ¬ HasMarker (.atom a) := by
      rw [hasMarker_atom_iff]
      rintro ⟨m, rfl⟩
      exact ha m rfl
    simp [Finds, hno]
  | case4 es forms =>
    -- The order in which the elements come up does not matter to what there is to be found.
    simp only [Finds, List.reverseAux_eq, List.mem_append, List.mem_reverse, List.mem_cons,
      or_and_right, exists_or, exists_eq_left, hasMarker_list_iff]
  | case5 found => rfl

/-- A turn makes the stack smaller, even one that puts all elements of a list on it: the list itself
counts as well. -/
theorem left_turn_le (s : Search) : s.turn.left ≤ s.left - 1 := by
  fun_cases turn s with
  | case1 | case2 | case5 => simp [left]
  | case3 a forms ha =>
    simp only [left, sizeAll, size]
    omega
  | case4 es forms =>
    simp only [left, sizeAll, size, List.reverseAux_eq, sizeAll_append, sizeAll_reverse]
    omega

/-- The stack walk takes the same turns. -/
theorem result_turn (s : Search) : s.turn.result = s.result := by
  fun_cases turn s with
  | case1 | case2 | case3 | case4 => simp [result, anyMarker]
  | case5 found => rfl

/-! ## Turn after turn -/

/-- What a turn leaves as it is stays as it is, turn after turn. -/
theorem iterate_eq_of_turn {α : Type} {what : Search → α} (h : ∀ s, what s.turn = what s) (n : Nat)
    (s : Search) : what (turn^[n] s) = what s := by
  induction n generalizing s with
  | zero => rfl
  | succ n ih => rw [Function.iterate_succ_apply, ih, h]

theorem finds_iterate (n : Nat) (s : Search) : (turn^[n] s).Finds ↔ s.Finds :=
  iff_of_eq (iterate_eq_of_turn (fun s => propext (finds_turn s)) n s)

theorem result_iterate (n : Nat) (s : Search) : (turn^[n] s).result = s.result :=
  iterate_eq_of_turn result_turn n s

theorem left_iterate_le (n : Nat) (s : Search) : (turn^[n] s).left ≤ s.left - n := by
  induction n generalizing s with
  | zero => exact Nat.le_refl _
  | succ n ih =>
    rw [Function.iterate_succ_apply]
    have hturn := left_turn_le s
    have hrun := ih s.turn
    omega

/-- A search ends within the turns that are left to it. -/
theorem exists_answer (s : Search) : ∃ found, turn^[s.left] s = .answer found := by
  have hleft := left_iterate_le s.left s
  cases hend : turn^[s.left] s with
  | answer found => exact ⟨found, rfl⟩
  | pending forms =>
    rw [hend, left] at hleft
    omega

/-- What it ends with is whether there is a marker to be found. -/
theorem answer_result (s : Search) :
    turn^[s.left] s = .answer s.result ∧ (s.result = true ↔ s.Finds) := by
  obtain ⟨found, hend⟩ := s.exists_answer
  have hresult := result_iterate s.left s
  have hfinds := finds_iterate s.left s
  rw [hend] at hresult hfinds
  obtain rfl : found = s.result := hresult
  exact ⟨hend, hfinds⟩

end Search

/-- The stack walk finds a marker exactly if one of the forms on the stack has one. -/
theorem anyMarker_iff_exists (pending : List Form) :
    anyMarker pending = true ↔ ∃ f ∈ pending, f.HasMarker :=
  (Search.answer_result (.pending pending)).2

/-- **The search for a marker ends, and finds one exactly if the form has one.** There is an answer
behind one turn for every atom and list of the form and one for the empty stack. -/
theorem containsMarker_search (f : Form) :
    Search.turn^[f.size + 1] (.pending [f]) = .answer f.containsMarker ∧
      (f.containsMarker = true ↔ f.HasMarker) := by
  obtain ⟨hend, -⟩ := Search.answer_result (.pending [f])
  constructor
  · have hleft : Search.left (.pending [f]) = f.size + 1 := by simp [Search.left, sizeAll]
    rw [← hleft]
    exact hend
  · rw [containsMarker, anyMarker_iff_exists]
    simp

/-- The last element is looked at first, and none of the others. -/
example : Search.turn^[2] (.pending [.list [.list [.symbol "a"], .marker .quote]]) = .answer true :=
  rfl

end Form

end Sexpr
