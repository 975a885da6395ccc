import Sexpr.Proofs.Form.Applied

/-!
# What expansion leaves as it was

Expansion moves nothing and drops nothing. A marker gives way to the symbol of its tag, on the spot,
and to one more list, which takes in the element behind it.

* `Form.atomsAll_appliedAll`: the atoms and their order;
* `Form.listCountAll_appliedAll`: a list more for every marker;
* `Form.length_appliedAll`: an element less for every marker of the sequence itself;
* `Program.expand_conserves`: **all three hold of whatever can be expanded**.
-/

namespace Sexpr

/-- The marker that an atom is, if it is one. -/
def Atom.asMarker? : Atom → Option Marker
  | .marker m => some m
  | _ => none

namespace Program

variable {es : List Form}

/-- The markers of a program from left to right, however deep inside of lists. -/
def markers (p : Program) : List Marker := (Form.atomsAll p).filterMap Atom.asMarker?

theorem markers_list (fs : List Form) : markers (.list fs :: es) = markers fs ++ markers es := by
  rw [markers, Form.atomsAll, Form.atoms, List.filterMap_append]
  rfl

theorem markers_marker (m : Marker) : markers (.marker m :: es) = m :: markers es := rfl

theorem markers_atom {a : Atom} (ha : (Form.atom a).isMarker = false) :
    markers (.atom a :: es) = markers es := by
  cases a with
  | marker m => cases ha
  | integer n | symbol name | text raw => rfl

end Program

namespace Form

/-- There is one more list for every marker. -/
theorem listCountAll_appliedAll (backquote : BackquoteTag) (es : List Form)
    (h : ∀ m, ¬ Program.Dangles es m) :
    listCountAll (appliedAll backquote es) = listCountAll es + (Program.markers es).length := by
  refine appliedAll_induction backquote ?nil ?list ?marker ?atom es h
  case nil => rfl
  case list =>
    intro fs es hfs hes
    rw [appliedAll_list, Program.markers_list, List.length_append]
    simp only [listCountAll, listCount, hfs, hes]
    omega
  case marker =>
    intro m es x xs hx hes
    rw [hx] at hes
    rw [appliedAll_marker hx, Program.markers_marker, List.length_cons]
    simp only [listCountAll, listCount, tagged, symbol, Form.marker] at hes ⊢
    omega
  case atom =>
    intro a es ha hes
    rw [appliedAll_atom ha, Program.markers_atom ha]
    simp only [listCountAll, listCount, hes]
    omega

/-- The markers of a sequence are no elements of it any more. -/
theorem length_appliedAll (backquote : BackquoteTag) (es : List Form)
    (h : ∀ m, ¬ Program.Dangles es m) :
    (appliedAll backquote es).length + es.countP isMarker = es.length := by
  refine appliedAll_induction backquote ?nil ?list ?marker ?atom es h
  case nil => rfl
  case list =>
    intro fs es _ hes
    rw [appliedAll_list, List.countP_cons_of_neg (by simp [isMarker, asMarker?])]
    simp only [List.length_cons]
    omega
  case marker =>
    intro m es x xs hx hes
    rw [hx] at hes
    rw [appliedAll_marker hx, List.countP_cons_of_pos (isMarker_iff.2 ⟨m, rfl⟩)]
    simp only [List.length_cons] at hes ⊢
    omega
  case atom =>
    intro a es ha hes
    rw [appliedAll_atom ha, List.countP_cons_of_neg (by simp [ha])]
    simp only [List.length_cons]
    omega

end Form

namespace Program

/-- **Expansion loses, duplicates and moves nothing.** The atoms are the same, in the same order,
but for a tag in the place of each marker; there is one more list for every marker; and of the forms
at the top those are left that are no markers. -/
theorem expand_conserves {backquote : BackquoteTag} {limit : Nat} {p q : Program}
    (h : Program.expand backquote limit p = .ok q) :
    Form.atomsAll q = (Form.atomsAll p).map (Atom.applied backquote) ∧
      Form.listCountAll q = Form.listCountAll p + p.markers.length ∧
      q.length + p.countP Form.isMarker = p.length := by
  obtain ⟨⟨-, hdangles⟩, rfl⟩ := (outcome_expand backquote limit p).eq_ok_iff.1 h
  exact ⟨Form.atomsAll_appliedAll backquote p hdangles,
    Form.listCountAll_appliedAll backquote p hdangles, Form.length_appliedAll backquote p hdangles⟩

/-- Two markers at the top, side by side, and one inside of a list. -/
theorem expand_conserves_run :
    let p : Program := [.marker .quasiquote, .marker .function,
      .list [.symbol "a", .marker .unquote, .integer 1], .text "\"b\""]
    let q : Program := [.tagged "quasiquote" (.tagged "function"
      (.list [.symbol "a", .tagged "unquote" (.integer 1)])), .text "\"b\""]
    Program.expand .quasiquote 2 p = .ok q ∧
      Form.atomsAll q = (Form.atomsAll p).map (Atom.applied .quasiquote) ∧
      Form.listCountAll q = Form.listCountAll p + p.markers.length ∧
      q.length + p.countP Form.isMarker = p.length := by
  intro p q
  have h : Program.expand .quasiquote 2 p = .ok q := rfl
  exact ⟨h, expand_conserves h⟩

end Program

end Sexpr
