import Sexpr.Proofs.Form.Applied
import Sexpr.Proofs.Form.Search

/-!
# Expanding what has been expanded

An expanded program holds no markers, so expanding it once more can change nothing; all that can
happen is that it nests too deeply. And it may: the lists of an operand and the markers in front of
it are held against the limit one by one, but stand inside of one another once the markers have been
applied.

* `Program.tooDeep_iff_lt_depth`, `Program.expand_of_no_marker`: without markers only depth counts;
* `Program.expand_again_iff`: **expanding once more changes nothing exactly if the expanded program
  nests no deeper than allowed**, and fails by the limit otherwise;
* `Program.expand_again_quoted_list`: one marker in front of one list is enough for that;
* `Program.expand_of_expanded`: **an expanded program holds no marker, and expands to itself under
  whatever options, as long as it fits**.
-/

namespace Sexpr

namespace Form

/-- A marker occurs in a form exactly if it is one of its atoms. -/
theorem hasMarker_iff_mem_atoms {f : Form} : f.HasMarker ↔ ∃ m, .marker m ∈ f.atoms := by
  induction f using Form.induction with
  | atom a => simp [hasMarker_atom_iff, atoms, eq_comm]
  | list es ih =>
    rw [hasMarker_list_iff, atoms]
    simp only [mem_atomsAll]
    constructor
    · rintro ⟨e, he, hmarker⟩
      obtain ⟨m, hm⟩ := (ih e he).1 hmarker
      exact ⟨m, e, he, hm⟩
    · rintro ⟨m, e, he, hm⟩
      exact ⟨e, he, (ih e he).2 ⟨m, hm⟩⟩

theorem containsMarker_eq_false_iff {f : Form} :
    f.containsMarker = false ↔ ∀ m, .marker m ∉ f.atoms := by
  rw [← Bool.not_eq_true, containsMarker, anyMarker_iff_exists]
  simp [hasMarker_iff_mem_atoms]

end Form

namespace Program

/-- A sequence inside the rest of a program is one inside the program. -/
theorem exists_hasSequence_cons {k : Nat} {e : Form} {es : List Form}
    (h : ∃ fs, HasSequence es k fs) : ∃ fs, HasSequence (e :: es) k fs := by
  obtain ⟨fs, hseq⟩ := h
  cases hseq with
  | self => exact ⟨e :: es, .self _⟩
  | inside mem hseq => exact ⟨fs, .inside (List.mem_cons_of_mem _ mem) hseq⟩

/-- Some sequence is enclosed by as many lists as the program nests deep. -/
theorem exists_hasSequence_depth : ∀ p : Program, ∃ es, p.HasSequence (Form.depthAll p) es
  | [] => ⟨[], .self []⟩
  | .atom a :: es => by
    have hdepth : Form.depthAll (.atom a :: es) = Form.depthAll es := by
      simp [Form.depthAll, Form.depth]
    rw [hdepth]
    exact exists_hasSequence_cons (exists_hasSequence_depth es)
  | .list fs :: es => by
    by_cases hle : Form.depthAll es ≤ 1 + Form.depthAll fs
    · have hdepth : Form.depthAll (.list fs :: es) = Form.depthAll fs + 1 := by
        simp only [Form.depthAll, Form.depth]
        omega
      obtain ⟨gs, hseq⟩ := exists_hasSequence_depth fs
      rw [hdepth]
      exact ⟨gs, .inside List.mem_cons_self hseq⟩
    · have hdepth : Form.depthAll (.list fs :: es) = Form.depthAll es := by
        simp only [Form.depthAll, Form.depth]
        omega
      rw [hdepth]
      exact exists_hasSequence_cons (exists_hasSequence_depth es)

variable {limit : Nat} {p q : Program}

theorem tooDeep_of_lt_depth (h : limit < p.depth) : p.TooDeep limit := by
  obtain ⟨es, hseq⟩ := exists_hasSequence_depth p
  exact ⟨_, es, hseq, .inl h⟩

/-- Where there are no markers none is left over. -/
theorem not_dangles_of_no_marker (hfree : ∀ m, .marker m ∉ Form.atomsAll p) (m : Marker) :
    ¬ p.Dangles m := by
  refine (forall_not_dangles_iff .quote p).2 ?_ m
  rw [Form.appliedAll_eq_self .quote p hfree]
  exact hfree

/-- Where there are no markers, only lists can nest too deeply. -/
theorem tooDeep_iff_lt_depth (hfree : ∀ m, .marker m ∉ Form.atomsAll p) :
    p.TooDeep limit ↔ limit < p.depth := by
  constructor
  · intro h
    have hlt := h.lt_depth (not_dangles_of_no_marker hfree) .quote
    rwa [Form.appliedAll_eq_self .quote p hfree] at hlt
  · exact tooDeep_of_lt_depth

/-- A program without markers expands to itself if it nests no deeper than allowed. -/
theorem expand_of_no_marker (backquote : BackquoteTag) (limit : Nat)
    (hfree : ∀ m, .marker m ∉ Form.atomsAll p) : Program.expand backquote limit p =
      if p.depth ≤ limit then .ok p else .error (.recursionLimitExceeded limit) := by
  have h := outcome_expand backquote limit p
  rw [Form.appliedAll_eq_self backquote p hfree] at h
  generalize Program.expand backquote limit p = result at h ⊢
  cases h with
  | expanded hdeep _ =>
    have hle : p.depth ≤ limit := by
      rw [tooDeep_iff_lt_depth hfree] at hdeep
      omega
    rw [if_pos hle]
  | tooDeep hdeep =>
    have hlt : ¬ p.depth ≤ limit := by
      rw [tooDeep_iff_lt_depth hfree] at hdeep
      omega
    rw [if_neg hlt]
  | dangling hdangles => exact absurd hdangles (not_dangles_of_no_marker hfree _)

/-- Expansion leaves no marker. -/
theorem no_marker_of_expand {backquote : BackquoteTag}
    (h : Program.expand backquote limit p = .ok q) : ∀ m, .marker m ∉ Form.atomsAll q := by
  obtain ⟨⟨-, hdangles⟩, rfl⟩ := (outcome_expand _ _ _).eq_ok_iff.1 h
  exact (forall_not_dangles_iff backquote p).1 hdangles

/-- **Expanding once more changes nothing exactly if the expanded program nests no deeper than
allowed.** If it nests deeper the limit is exceeded, though it was kept to the first time. -/
theorem expand_again_iff {backquote : BackquoteTag}
    (h : Program.expand backquote limit p = .ok q) :
    (Program.expand backquote limit q = .ok q ↔ q.depth ≤ limit) ∧
      (limit < q.depth →
        Program.expand backquote limit q = .error (.recursionLimitExceeded limit)) := by
  have hfree := no_marker_of_expand h
  rw [expand_of_no_marker backquote limit hfree]
  constructor
  · constructor
    · intro heq
      by_contra hlt
      rw [if_neg hlt] at heq
      cases heq
    · intro hle
      rw [if_pos hle]
  · intro hlt
    rw [if_neg (by omega)]

theorem expand_again_quoted_symbol :
    Program.expand .quote 1 [.marker .quote, .symbol "a"] = .ok [.tagged "quote" (.symbol "a")] ∧
      Program.expand .quote 1 [.tagged "quote" (.symbol "a")]
        = .ok [.tagged "quote" (.symbol "a")] := by
  have h : Program.expand .quote 1 [.marker .quote, .symbol "a"]
      = .ok [.tagged "quote" (.symbol "a")] := rfl
  exact ⟨h, (expand_again_iff h).1.2 (by decide)⟩

/-- The list and the marker in front of it both keep to a limit of 1, but not the list of the two.
-/
theorem expand_again_quoted_list :
    Program.expand .quote 1 [.marker .quote, .list [.symbol "a"]]
      = .ok [.tagged "quote" (.list [.symbol "a"])] ∧
    Program.expand .quote 1 [.tagged "quote" (.list [.symbol "a"])]
      = .error (.recursionLimitExceeded 1) :=
  ⟨rfl, rfl⟩

/-- **What has been expanded holds no marker and is a fixed point wherever it fits.** With other
tags and other limits as well, nothing but the depth decides whether it can be expanded, and nothing
changes if it can. -/
theorem expand_of_expanded {backquote : BackquoteTag}
    (h : Program.expand backquote limit p = .ok q) :
    (∀ f ∈ q, f.containsMarker = false) ∧
      ∀ backquote' limit', Program.expand backquote' limit' q =
        if q.depth ≤ limit' then .ok q else .error (.recursionLimitExceeded limit') := by
  have hfree := no_marker_of_expand h
  constructor
  · intro f hf
    refine Form.containsMarker_eq_false_iff.2 fun m hm => ?_
    exact hfree m (Form.mem_atomsAll.2 ⟨f, hf, hm⟩)
  · intro backquote' limit'
    exact expand_of_no_marker backquote' limit' hfree

theorem expand_of_expanded_quoted_list :
    let q : Program := [.tagged "quote" (.list [.symbol "a"])]
    Program.expand .quote 1 [.marker .quote, .list [.symbol "a"]] = .ok q ∧
      (∀ f ∈ q, f.containsMarker = false) ∧
      ∀ backquote limit, Program.expand backquote limit q =
        if q.depth ≤ limit then .ok q else .error (.recursionLimitExceeded limit) := by
  intro q
  have h : Program.expand .quote 1 [.marker .quote, .list [.symbol "a"]] = .ok q := rfl
  exact ⟨h, expand_of_expanded h⟩

end Program

end Sexpr
