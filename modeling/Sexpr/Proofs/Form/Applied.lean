import Sexpr.Proofs.Form.Expansion

/-!
# The program that expansion gives

What a program is made of once its markers have been applied, whether or not it can be expanded:

* `Form.atomsAll_appliedAll`: the same atoms in the same order, with a tag for each marker;
* `Program.forall_not_dangles_iff`: no marker is left over exactly if none is the last of its
  sequence;
* `Program.TooDeep.lt_depth`: lists and runs of markers all become nesting, so a program whose
  expansion fits under a limit fits under it itself;
* `Form.appliedAll_eq_self`: without markers nothing changes.
-/

namespace Sexpr

namespace Form

variable {backquote : BackquoteTag} {e f : Form} {es : List Form}

theorem applyOnto_of_not_marker (h : f.isMarker = false) :
    applyOnto backquote f es = f :: es := by
  have hnone : f.asMarker? = none := by simpa [isMarker] using h
  simp [applyOnto, hnone]

theorem depthAll_le_applyOnto (backquote : BackquoteTag) (f : Form) (es : List Form) :
    depthAll es ≤ depthAll (applyOnto backquote f es) := by
  unfold applyOnto
  split
  · simp only [depthAll, depth_tagged]
    omega
  · simp only [depthAll]
    omega

theorem mem_atomsAll_applyOnto {a : Atom} (f : Form) (h : a ∈ atomsAll es) :
    a ∈ atomsAll (applyOnto backquote f es) := by
  unfold applyOnto
  split
  · simp only [atomsAll, List.mem_append] at h
    simp [atomsAll, atoms, tagged, symbol, h]
  · simp [atomsAll, h]

theorem appliedAll_ne_nil (backquote : BackquoteTag) (h : es ≠ []) :
    appliedAll backquote es ≠ [] := by
  cases es with
  | nil => exact absurd rfl h
  | cons e es =>
    rw [appliedAll]
    unfold applyOnto
    split <;> simp

theorem getLast?_ne_of_cons (h : ∀ m, (e :: es).getLast? ≠ some (.marker m)) :
    ∀ m, es.getLast? ≠ some (.marker m) := by
  intro m hm
  refine h m ?_
  rw [List.getLast?_cons, hm]
  rfl

/-! ## What stands in a sequence is part of what comes out -/

theorem depth_applied_le (backquote : BackquoteTag) (he : e ∈ es) (hm : e.isMarker = false) :
    (e.applied backquote).depth ≤ depthAll (appliedAll backquote es) := by
  induction es with
  | nil => cases he
  | cons x es ih =>
    rw [appliedAll]
    rcases List.mem_cons.1 he with rfl | he
    · rw [applyOnto_of_not_marker (by simpa using hm), depthAll]
      omega
    · exact Nat.le_trans (ih he) (depthAll_le_applyOnto _ _ _)

theorem mem_atomsAll_applied {a : Atom} (he : e ∈ es) (hm : e.isMarker = false)
    (ha : a ∈ (e.applied backquote).atoms) : a ∈ atomsAll (appliedAll backquote es) := by
  induction es with
  | nil => cases he
  | cons x es ih =>
    rw [appliedAll]
    rcases List.mem_cons.1 he with rfl | he
    · rw [applyOnto_of_not_marker (by simpa using hm), atomsAll]
      exact List.mem_append_left _ ha
    · exact mem_atomsAll_applyOnto _ (ih he)

theorem mem_atomsAll_of_getLast? {m : Marker} (h : es.getLast? = some (.marker m)) :
    .marker m ∈ atomsAll (appliedAll backquote es) := by
  induction es with
  | nil => cases h
  | cons e es ih =>
    rw [appliedAll]
    cases es with
    | nil =>
      cases h
      simp [appliedAll, applied, applyOnto, atomsAll, atoms, asMarker?]
    | cons x xs => exact mem_atomsAll_applyOnto _ (ih h)

/-! ## Depth -/

theorem depthAll_le_iff {n : Nat} : depthAll es ≤ n ↔ ∀ e ∈ es, e.depth ≤ n := by
  induction es with
  | nil => simp [depthAll]
  | cons e es ih => simp only [depthAll, Nat.max_le, ih, List.forall_mem_cons]

/-- Applying markers makes no form less deep. -/
theorem depth_le_depth_applied (backquote : BackquoteTag) (f : Form) :
    f.depth ≤ (f.applied backquote).depth := by
  induction f using Form.induction with
  | atom a => exact Nat.le_refl _
  | list es ih =>
    rw [applied, depth, depth]
    refine Nat.add_le_add_left (depthAll_le_iff.2 fun e he => ?_) 1
    cases hm : e.isMarker with
    | false => exact Nat.le_trans (ih e he) (depth_applied_le _ he hm)
    | true =>
      obtain ⟨m, rfl⟩ := isMarker_iff.1 hm
      exact Nat.zero_le _

theorem depthAll_le_depthAll_applied (backquote : BackquoteTag) (es : List Form) :
    depthAll es ≤ depthAll (appliedAll backquote es) := by
  have h := depth_le_depth_applied backquote (.list es)
  rw [applied, depth, depth] at h
  omega

/-- A run of markers in front nests that deep. -/
theorem OverrunsFirst.lt_depth {left : Nat} (h : OverrunsFirst left es) (backquote : BackquoteTag)
    (hlast : ∀ m, es.getLast? ≠ some (.marker m)) :
    ∃ x xs, appliedAll backquote es = x :: xs ∧ left < x.depth := by
  induction es generalizing left with
  | nil => exact absurd h not_overrunsFirst_nil
  | cons e es ih =>
    obtain ⟨he, hrest⟩ := overrunsFirst_cons.1 h
    obtain ⟨m, rfl⟩ := isMarker_iff.1 he
    have hne : es ≠ [] := by
      rintro rfl
      exact hlast m rfl
    obtain ⟨x, xs, hx⟩ := List.exists_cons_of_ne_nil (appliedAll_ne_nil backquote hne)
    refine ⟨.tagged (m.tagWith backquote) x, xs, ?_, ?_⟩
    · rw [appliedAll, hx]
      rfl
    rw [depth_tagged]
    rcases hrest with hzero | hfirst
    · omega
    · obtain ⟨y, ys, hy, hlt⟩ := ih hfirst (getLast?_ne_of_cons hlast)
      rw [hx] at hy
      cases hy
      omega

theorem Overruns.lt_depth {room : Nat} (h : Overruns room es) (backquote : BackquoteTag)
    (hlast : ∀ m, es.getLast? ≠ some (.marker m)) :
    room < depthAll (appliedAll backquote es) := by
  induction es with
  | nil => exact absurd h not_overruns_nil
  | cons e es ih =>
    rcases overruns_cons.1 h with hfirst | htail
    · obtain ⟨x, xs, hx, hlt⟩ := hfirst.lt_depth backquote hlast
      rw [hx, depthAll]
      omega
    · rw [appliedAll]
      exact Nat.lt_of_lt_of_le (ih htail (getLast?_ne_of_cons hlast)) (depthAll_le_applyOnto _ _ _)

end Form

namespace Program

/-- A sequence inside a program is as deep in what comes out as it was, at least. -/
theorem HasSequence.add_depth_le {p : Program} {k : Nat} {es : List Form} (h : p.HasSequence k es)
    (backquote : BackquoteTag) :
    k + Form.depthAll (Form.appliedAll backquote es)
      ≤ Form.depthAll (Form.appliedAll backquote p) := by
  induction h with
  | self p => omega
  | @inside p k es fs mem _ ih =>
    have hle := Form.depth_applied_le backquote mem rfl
    rw [Form.applied, Form.depth] at hle
    omega

theorem HasSequence.mem_atomsAll {p : Program} {k : Nat} {es : List Form} (h : p.HasSequence k es)
    {backquote : BackquoteTag} {a : Atom} (ha : a ∈ Form.atomsAll (Form.appliedAll backquote es)) :
    a ∈ Form.atomsAll (Form.appliedAll backquote p) := by
  induction h with
  | self p => exact ha
  | @inside p k es fs mem _ ih =>
    refine Form.mem_atomsAll_applied mem rfl ?_
    rw [Form.applied, Form.atoms]
    exact ih ha

/-- What nests too deeply still does when the markers have been applied. -/
theorem TooDeep.lt_depth {limit : Nat} {p : Program} (h : p.TooDeep limit)
    (hdangles : ∀ m, ¬ p.Dangles m) (backquote : BackquoteTag) :
    limit < Form.depthAll (Form.appliedAll backquote p) := by
  obtain ⟨k, es, hseq, hdeep⟩ := h
  have hle := hseq.add_depth_le backquote
  rcases hdeep with hk | hover
  · omega
  · have hlt := hover.lt_depth backquote fun m hm => hdangles m ⟨k, es, hseq, hm⟩
    omega

theorem Dangles.mem_applied {p : Program} {m : Marker} (h : p.Dangles m)
    (backquote : BackquoteTag) : .marker m ∈ Form.atomsAll (Form.appliedAll backquote p) := by
  obtain ⟨k, es, hseq, hlast⟩ := h
  exact hseq.mem_atomsAll (Form.mem_atomsAll_of_getLast? hlast)

theorem Dangles.of_list {p : Program} {es : List Form} {m : Marker} (mem : .list es ∈ p)
    (h : Dangles es m) : p.Dangles m := dangles_iff.2 (.inr ⟨es, mem, h⟩)

theorem Dangles.of_cons {e : Form} {es : List Form} {m : Marker} (h : Dangles es m) :
    Dangles (e :: es) m := by
  rcases dangles_iff.1 h with hlast | ⟨fs, mem, hfs⟩
  · refine dangles_iff.2 (.inl ?_)
    rw [List.getLast?_cons, hlast]
    rfl
  · exact .of_list (List.mem_cons_of_mem _ mem) hfs

end Program

/-! ## Atoms -/

/-- An atom where markers have been applied: a marker gives way to its tag. -/
def Atom.applied (backquote : BackquoteTag) : Atom → Atom
  | .marker m => .symbol (m.tagWith backquote)
  | a => a

theorem Atom.applied_ne_marker (backquote : BackquoteTag) (a : Atom) (m : Marker) :
    a.applied backquote ≠ .marker m := by
  cases a <;> simp [Atom.applied]

theorem Atom.applied_of_not_marker {backquote : BackquoteTag} {a : Atom}
    (h : (Form.atom a).isMarker = false) : a.applied backquote = a := by
  cases a with
  | marker m => cases h
  | integer n | symbol name | text raw => rfl

namespace Form

section

variable {backquote : BackquoteTag} {es : List Form}

theorem appliedAll_list (fs : List Form) : appliedAll backquote (.list fs :: es)
    = .list (appliedAll backquote fs) :: appliedAll backquote es := by
  rw [appliedAll, applyOnto_of_not_marker rfl, applied]

theorem appliedAll_marker {m : Marker} {x : Form} {xs : List Form}
    (h : appliedAll backquote es = x :: xs) :
    appliedAll backquote (.marker m :: es) = .tagged (m.tagWith backquote) x :: xs := by
  rw [appliedAll, h]
  rfl

theorem appliedAll_atom {a : Atom} (ha : (Form.atom a).isMarker = false) :
    appliedAll backquote (.atom a :: es) = .atom a :: appliedAll backquote es := by
  rw [appliedAll, applied, applyOnto_of_not_marker ha]

end

/-- To show a fact of a sequence with no marker left over, go through it from the last element to
the first: behind a marker something has come out, which is its operand. -/
@[elab_as_elim]
theorem appliedAll_induction (backquote : BackquoteTag) {motive : List Form → Prop}
    (nil : motive [])
    (list : ∀ fs es, motive fs → motive es → motive (.list fs :: es))
    (marker : ∀ m es x xs, appliedAll backquote es = x :: xs → motive es →
      motive (.marker m :: es))
    (atom : ∀ a es, (Form.atom a).isMarker = false → motive es → motive (.atom a :: es)) :
    ∀ es : List Form, (∀ m, ¬ Program.Dangles es m) → motive es
  | [], _ => nil
  | .list fs :: es, h =>
    list fs es
      (appliedAll_induction backquote nil list marker atom fs fun m hm =>
        h m (.of_list List.mem_cons_self hm))
      (appliedAll_induction backquote nil list marker atom es fun m hm => h m hm.of_cons)
  | .atom a :: es, h => by
    have hes := appliedAll_induction backquote nil list marker atom es fun m hm => h m hm.of_cons
    cases ha : (Form.atom a).isMarker with
    | false => exact atom a es ha hes
    | true =>
      obtain ⟨m, hm⟩ := isMarker_iff.1 ha
      have hne : es ≠ [] := by
        rintro rfl
        exact h m ⟨0, _, .self _, congrArg some hm⟩
      obtain ⟨x, xs, hx⟩ := List.exists_cons_of_ne_nil (appliedAll_ne_nil backquote hne)
      rw [hm]
      exact marker m es x xs hx hes

/-- Atoms stay where they are, and a tag stands where a marker stood. -/
theorem atomsAll_appliedAll (backquote : BackquoteTag) (es : List Form)
    (h : ∀ m, ¬ Program.Dangles es m) :
    atomsAll (appliedAll backquote es) = (atomsAll es).map (Atom.applied backquote) := by
  refine appliedAll_induction backquote ?nil ?list ?marker ?atom es h
  case nil => rfl
  case list =>
    intro fs es hfs hes
    rw [appliedAll_list, atomsAll, atoms, hfs, hes, atomsAll, atoms, List.map_append]
  case marker =>
    intro m es x xs hx hes
    rw [appliedAll_marker hx, atomsAll, atomsAll, List.map_append, ← hes, hx]
    simp [atomsAll, atoms, tagged, symbol, Form.marker, Atom.applied]
  case atom =>
    intro a es ha hes
    rw [appliedAll_atom ha, atomsAll, atomsAll, List.map_append, hes, atoms, List.map_singleton,
      Atom.applied_of_not_marker ha]

/-- Where there are no markers nothing is applied. -/
theorem appliedAll_eq_self (backquote : BackquoteTag) :
    ∀ es : List Form, (∀ m, .marker m ∉ atomsAll es) → appliedAll backquote es = es
  | [], _ => rfl
  | .list fs :: es, h => by
    have hfs := appliedAll_eq_self backquote fs fun m hm => h m (by simp [atomsAll, atoms, hm])
    have hes := appliedAll_eq_self backquote es fun m hm => h m (by simp [atomsAll, hm])
    rw [appliedAll_list, hfs, hes]
  | .atom a :: es, h => by
    have hes := appliedAll_eq_self backquote es fun m hm => h m (by simp [atomsAll, hm])
    cases a with
    | marker m => exact absurd (by simp [atomsAll, atoms]) (h m)
    | integer n | symbol name | text raw => rw [appliedAll_atom rfl, hes]

end Form

/-- A marker is left over exactly if it has nothing behind it. -/
theorem Program.forall_not_dangles_iff (backquote : BackquoteTag) (p : Program) :
    (∀ m, ¬ p.Dangles m) ↔ ∀ m, .marker m ∉ Form.atomsAll (Form.appliedAll backquote p) := by
  constructor
  · intro h m hm
    rw [Form.atomsAll_appliedAll backquote p h] at hm
    obtain ⟨a, -, ha⟩ := List.mem_map.1 hm
    exact Atom.applied_ne_marker backquote a m ha
  · intro h m hm
    exact h m (hm.mem_applied backquote)

end Sexpr
