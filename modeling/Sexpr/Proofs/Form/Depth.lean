import Mathlib.Tactic.Ring
import Sexpr.Proofs.Form.Applied

/-!
# How deep expansion makes a program

The limit holds for lists and for runs of markers one by one. A list inside of `k` others may still
have `limit - k` markers in front, and each of them becomes a list around it. So an expanded program
may nest deeper than the limit, by a run at every level.

* `Form.depthAll_appliedAll_le`: a run makes its operand deeper by its own length and no more;
* `Program.depthAll_appliedAll_le_deepest`: level by level, that gives the bound `Program.deepest`;
* `Program.nested`: a program with the longest run there may be in front of every list;
* `Program.depth_expand_le`: **the bound holds for whatever can be expanded, and is reached**.
-/

namespace Sexpr

namespace Form

variable {backquote : BackquoteTag} {es : List Form} {d left room : Nat}

/-- The first form that comes out is deeper than the elements by the markers in front. -/
theorem depth_head?_appliedAll_le (hfirst : ¬ OverrunsFirst left es)
    (hd : ∀ e ∈ es, (e.applied backquote).depth ≤ d) :
    ∀ x ∈ (appliedAll backquote es).head?, x.depth ≤ left + d := by
  -- Each marker in front takes one off `left` and puts one list around what comes behind it.
  induction es generalizing left with
  | nil => simp [appliedAll]
  | cons e es ih =>
    obtain ⟨he, hes⟩ := List.forall_mem_cons.1 hd
    rw [appliedAll]
    cases hm : e.isMarker with
    | false =>
      rw [applyOnto_of_not_marker (by simpa using hm)]
      rintro _ ⟨⟩
      omega
    | true =>
      obtain ⟨m, rfl⟩ := isMarker_iff.1 hm
      rw [overrunsFirst_cons, not_and_or, not_or] at hfirst
      obtain ⟨hleft, hrest⟩ := hfirst.resolve_left (by simp [hm])
      have hhead := ih hrest hes
      cases happ : appliedAll backquote es with
      | nil =>
        rintro _ ⟨⟩
        omega
      | cons x xs =>
        rintro _ ⟨⟩
        have hx := hhead x (by simp [happ])
        rw [depth_tagged]
        omega

/-- Runs of no more than `room` markers make a sequence deeper by no more than `room`. -/
theorem depthAll_appliedAll_le (hruns : ¬ Overruns room es)
    (hd : ∀ e ∈ es, (e.applied backquote).depth ≤ d) :
    depthAll (appliedAll backquote es) ≤ room + d := by
  induction es with
  | nil => exact Nat.zero_le _
  | cons e es ih =>
    rw [overruns_cons, not_or] at hruns
    have hhead := depth_head?_appliedAll_le hruns.1 hd
    have hrest := ih hruns.2 (List.forall_mem_cons.1 hd).2
    rw [appliedAll] at hhead ⊢
    unfold applyOnto at hhead ⊢
    split at hhead
    · rename_i m x xs _ happ
      rw [happ, depthAll] at hrest
      simp only [depthAll, Nat.max_le]
      exact ⟨hhead _ rfl, (Nat.max_le.1 hrest).2⟩
    · simp only [depthAll, Nat.max_le]
      exact ⟨hhead _ rfl, hrest⟩

/-- With no more than `room` markers in all there is no longer run. -/
theorem not_overruns_of_countP_le (h : es.countP isMarker ≤ room) : ¬ Overruns room es := by
  rintro ⟨run, hinfix, hrun, hlen⟩
  have hcount := hinfix.sublist.countP_le (p := isMarker)
  rw [List.countP_eq_length.2 hrun] at hcount
  omega

end Form

namespace Program

/-! ## The bound -/

/-- How deep a sequence may come out where `room` more lists may be opened: as many markers stand in
front of a list, whose elements have room for one list less. -/
def deepest : Nat → Nat
  | 0 => 0
  | room + 1 => (room + 1) + (1 + deepest room)

theorem deepest_eq (room : Nat) : deepest room = room * (room + 3) / 2 := by
  have htwice : 2 * deepest room = room * (room + 3) := by
    induction room with
    | zero => rfl
    | succ room ih =>
      calc 2 * deepest (room + 1)
        _ = 2 * deepest room + 2 * (room + 2) := by rw [deepest]; ring
        _ = room * (room + 3) + 2 * (room + 2) := by rw [ih]
        _ = (room + 1) * (room + 1 + 3) := by ring
  omega

theorem depthAll_appliedAll_le_deepest (backquote : BackquoteTag) {room : Nat} {p : Program}
    (h : ¬ p.TooDeep room) : Form.depthAll (Form.appliedAll backquote p) ≤ deepest room := by
  induction room generalizing p with
  | zero =>
    rw [tooDeep_iff, not_or] at h
    rw [deepest, ← Nat.zero_add 0]
    refine Form.depthAll_appliedAll_le h.1 fun e he => ?_
    cases e with
    | atom a => exact Nat.le_refl _
    -- No list may be opened here any more.
    | list es => exact absurd ⟨es, he, .inl rfl⟩ h.2
  | succ room ih =>
    rw [tooDeep_iff, not_or] at h
    refine Form.depthAll_appliedAll_le h.1 fun e he => ?_
    cases e with
    | atom a => exact Nat.zero_le _
    | list es =>
      have hes : ¬ TooDeep room es := fun hdeep => h.2 ⟨es, he, .inr hdeep⟩
      rw [Form.applied, Form.depth]
      exact Nat.add_le_add_left (ih hes) 1

/-! ## A program that reaches it -/

/-- Lists inside of one another, `room` of them, each with a run of quotes in front that just
fits. -/
def nested : Nat → Program
  | 0 => []
  | room + 1 => List.replicate (room + 1) (.marker .quote) ++ [.list (nested room)]

theorem eq_of_list_mem_nested {room : Nat} {es : List Form} (h : .list es ∈ nested (room + 1)) :
    es = nested room := by
  simpa [nested, Form.marker] using h

theorem not_tooDeep_nested (room : Nat) : ¬ (nested room).TooDeep room := by
  induction room with
  | zero =>
    rw [tooDeep_iff]
    simp [nested, Form.not_overruns_nil]
  | succ room ih =>
    rw [tooDeep_iff, not_or]
    constructor
    · refine Form.not_overruns_of_countP_le ?_
      simp [nested, List.countP_append, List.countP_replicate, Form.isMarker, Form.asMarker?,
        Form.marker]
    · rintro ⟨es, hmem, hzero | hdeep⟩
      · cases hzero
      · obtain rfl := eq_of_list_mem_nested hmem
        exact ih hdeep

theorem not_dangles_nested (room : Nat) (m : Marker) : ¬ (nested room).Dangles m := by
  induction room with
  | zero =>
    rw [dangles_iff]
    simp [nested]
  | succ room ih =>
    rw [dangles_iff, not_or]
    constructor
    · simp [nested, Form.marker]
    · rintro ⟨es, hmem, hdangles⟩
      obtain rfl := eq_of_list_mem_nested hmem
      exact ih hdangles

/-- A run in front of a single list makes one form, deeper by the length of the run. -/
theorem exists_appliedAll_replicate (backquote : BackquoteTag) (n : Nat) (es : List Form) :
    ∃ x, Form.appliedAll backquote (List.replicate n (.marker .quote) ++ [.list es]) = [x] ∧
      x.depth = n + (Form.applied backquote (.list es)).depth := by
  induction n with
  | zero => exact ⟨_, rfl, by simp⟩
  | succ n ih =>
    obtain ⟨x, hx, hdepth⟩ := ih
    refine ⟨.tagged (Marker.quote.tagWith backquote) x, ?_, ?_⟩
    · rw [List.replicate_succ, List.cons_append, Form.appliedAll, hx]
      rfl
    · rw [Form.depth_tagged, hdepth]
      omega

theorem depthAll_appliedAll_nested (backquote : BackquoteTag) (room : Nat) :
    Form.depthAll (Form.appliedAll backquote (nested room)) = deepest room := by
  induction room with
  | zero => rfl
  | succ room ih =>
    obtain ⟨x, hx, hdepth⟩ := exists_appliedAll_replicate backquote (room + 1) (nested room)
    rw [Form.applied, Form.depth, ih] at hdepth
    rw [nested, hx, Form.depthAll, Form.depthAll, Nat.max_zero, hdepth, deepest]

/-- **What can be expanded under a limit comes out at most `limit * (limit + 3) / 2` deep**, and for
every limit there is a program that comes out exactly that deep. -/
theorem depth_expand_le (backquote : BackquoteTag) (limit : Nat) :
    (∀ p q, Program.expand backquote limit p = .ok q → q.depth ≤ limit * (limit + 3) / 2) ∧
      ∃ p q, Program.expand backquote limit p = .ok q ∧ q.depth = limit * (limit + 3) / 2 := by
  rw [← deepest_eq]
  constructor
  · intro p q h
    obtain ⟨⟨hdeep, -⟩, rfl⟩ := (outcome_expand backquote limit p).eq_ok_iff.1 h
    exact depthAll_appliedAll_le_deepest backquote hdeep
  · refine ⟨nested limit, Form.appliedAll backquote (nested limit), ?_, ?_⟩
    · exact (outcome_expand backquote limit _).eq_ok_iff.2
        ⟨⟨not_tooDeep_nested limit, not_dangles_nested limit⟩, rfl⟩
    · exact depthAll_appliedAll_nested backquote limit

end Program

end Sexpr
