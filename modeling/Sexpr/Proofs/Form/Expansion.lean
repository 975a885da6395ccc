import Sexpr.Form.Expander
import Sexpr.Form.Shape
import Mathlib.Data.List.DropRight
import Mathlib.Data.List.TakeWhile

/-!
# What expansion gives, and when

The expander walks a program twice: lists are expanded from left to right, then the markers of the
sequence that holds them are collected and applied. Here the result is stated on its own, as a fold
from the right over every sequence (`Form.applied`), next to what can go wrong: a sequence that ends
with a marker, a list inside of too many others, and a run of markers too long for its place.

* `Expander.outcome_fuse`: applying the markers of one sequence;
* `Expander.outcome_sequence`, `Expander.outcome_list`: a sequence with its lists, and a list;
* `Program.expand_eq_ok_iff_applied`: **expansion succeeds exactly if nothing can go wrong, and then
  gives the fold**; an error names something that did go wrong.
-/

namespace Sexpr

namespace Form

/-- Puts a form in front of an expanded sequence. A marker takes the first element as its
operand. -/
def applyOnto (backquote : BackquoteTag) (f : Form) (es : List Form) : List Form :=
  match f.asMarker?, es with
  | some m, operand :: es => .tagged (m.tagWith backquote) operand :: es
  | _, es => f :: es

mutual

/-- A form with the markers inside its lists applied. -/
def applied (backquote : BackquoteTag) : Form → Form
  | .atom a => .atom a
  | .list es => .list (appliedAll backquote es)

/-- A sequence with its markers applied, from the last element to the first. -/
def appliedAll (backquote : BackquoteTag) : List Form → List Form
  | [] => []
  | e :: es => applyOnto backquote (e.applied backquote) (appliedAll backquote es)

end

/-- A maximal run of markers in a sequence: one marker at least, and none next to it on either
side. -/
def IsRun (es run : List Form) : Prop :=
  ∃ before after, es = before ++ run ++ after ∧ run ≠ [] ∧ (∀ e ∈ run, e.isMarker = true) ∧
    (∀ e ∈ before.getLast?, e.isMarker = false) ∧ ∀ e ∈ after.head?, e.isMarker = false

end Form

namespace Program

/-- A sequence of a program, with the number of lists that enclose it: the program itself, or the
elements of a list inside it. -/
inductive HasSequence : Program → Nat → List Form → Prop where
  | self (p : Program) : HasSequence p 0 p
  | inside {p : Program} {k : Nat} {es fs : List Form} (mem : .list es ∈ p)
    (h : HasSequence es k fs) : HasSequence p (k + 1) fs

/-- No list is nested more than `limit` deep. -/
def NestsWithin (limit : Nat) (p : Program) : Prop :=
  ∀ k es, p.HasSequence k es → k ≤ limit

/-- Neither the program nor a list inside it ends with a marker. -/
def MarkersApply (p : Program) : Prop :=
  ∀ k es, p.HasSequence k es → ∀ m, es.getLast? ≠ some (.marker m)

/-- Every maximal run of markers is no longer than the limit leaves room for at its place. -/
def RunsWithin (limit : Nat) (p : Program) : Prop :=
  ∀ k es, p.HasSequence k es → ∀ run, Form.IsRun es run → k + run.length ≤ limit

end Program

/-! ## Runs of markers -/

namespace Form

@[simp] theorem isMarker_applied (backquote : BackquoteTag) (f : Form) :
    (f.applied backquote).isMarker = f.isMarker := by
  cases f with
  | atom a => rfl
  | list es => rfl

theorem applied_eq_marker {backquote : BackquoteTag} {f : Form} {m : Marker} :
    f.applied backquote = .marker m ↔ f = .marker m := by
  cases f <;> simp [applied, marker]

theorem getLast?_map_applied {backquote : BackquoteTag} {es : List Form} {m : Marker} :
    (es.map (applied backquote)).getLast? = some (.marker m) ↔ es.getLast? = some (.marker m) := by
  rw [List.getLast?_map, Option.map_eq_some_iff]
  simp [applied_eq_marker]

theorem appliedAll_eq_foldr (backquote : BackquoteTag) (es : List Form) :
    appliedAll backquote es = (es.map (applied backquote)).foldr (applyOnto backquote) [] := by
  induction es with
  | nil => rfl
  | cons e es ih => rw [appliedAll, ih, List.map_cons, List.foldr_cons]

/-- More than `room` markers stand side by side. -/
def Overruns (room : Nat) (es : List Form) : Prop :=
  ∃ run, run <:+: es ∧ (∀ e ∈ run, e.isMarker = true) ∧ room < run.length

/-- More than `left` markers stand in front. -/
def OverrunsFirst (left : Nat) (es : List Form) : Prop :=
  ∃ run, run <+: es ∧ (∀ e ∈ run, e.isMarker = true) ∧ left < run.length

/-- Markers side by side are part of a maximal run. -/
theorem overruns_iff_isRun {room : Nat} {es : List Form} :
    Overruns room es ↔ ∃ run, IsRun es run ∧ room < run.length := by
  constructor
  · rintro ⟨run, ⟨before, after, rfl⟩, hrun, hlen⟩
    refine ⟨before.rtakeWhile isMarker ++ run ++ after.takeWhile isMarker,
      ⟨before.rdropWhile isMarker, after.dropWhile isMarker, ?_, ?_, ?_, ?_, ?_⟩, ?_⟩
    · conv_lhs => rw [← List.rdropWhile_append_rtakeWhile (p := isMarker) (l := before),
        ← List.takeWhile_append_dropWhile (p := isMarker) (l := after)]
      simp only [List.append_assoc]
    · have hne : run ≠ [] := List.ne_nil_of_length_pos (by omega)
      simp [hne]
    · intro e he
      simp only [List.mem_append] at he
      rcases he with (he | he) | he
      · exact List.mem_rtakeWhile_imp he
      · exact hrun e he
      · exact List.mem_takeWhile_imp he
    · intro e he
      have hne : before.rdropWhile isMarker ≠ [] := by
        rintro heq
        rw [heq] at he
        cases he
      have hlast := List.rdropWhile_last_not isMarker before hne
      rw [List.getLast?_eq_getLast_of_ne_nil hne] at he
      cases he
      simpa using hlast
    · intro e he
      have hhead := List.head?_dropWhile_not isMarker after
      rw [he] at hhead
      exact hhead
    · simp only [List.length_append]
      omega
  · rintro ⟨run, ⟨before, after, rfl, -, hrun, -, -⟩, hlen⟩
    exact ⟨run, ⟨before, after, rfl⟩, hrun, hlen⟩

theorem overruns_map_applied {backquote : BackquoteTag} {room : Nat} {es : List Form} :
    Overruns room (es.map (applied backquote)) ↔ Overruns room es := by
  constructor
  · rintro ⟨run, hinfix, hrun, hlen⟩
    obtain ⟨raw, hraw, rfl⟩ := List.infix_map_iff.1 hinfix
    refine ⟨raw, hraw, fun e he => ?_, by simpa using hlen⟩
    simpa using hrun _ (List.mem_map_of_mem he)
  · rintro ⟨run, hinfix, hrun, hlen⟩
    refine ⟨run.map (applied backquote), hinfix.map _, fun e he => ?_, by simpa using hlen⟩
    obtain ⟨raw, hraw, rfl⟩ := List.mem_map.1 he
    simpa using hrun raw hraw

section

variable {e : Form} {es : List Form} {left room : Nat}

theorem not_overruns_nil : ¬ Overruns room [] := by
  rintro ⟨run, hinfix, -, hlen⟩
  rw [List.infix_nil.1 hinfix] at hlen
  cases hlen

theorem not_overrunsFirst_nil : ¬ OverrunsFirst left [] := by
  rintro ⟨run, hprefix, -, hlen⟩
  rw [List.prefix_nil.1 hprefix] at hlen
  cases hlen

theorem overruns_cons :
    Overruns room (e :: es) ↔ OverrunsFirst room (e :: es) ∨ Overruns room es := by
  constructor
  · rintro ⟨run, hinfix, hrun⟩
    rcases List.infix_cons_iff.1 hinfix with hprefix | hinfix
    · exact .inl ⟨run, hprefix, hrun⟩
    · exact .inr ⟨run, hinfix, hrun⟩
  · rintro (⟨run, hprefix, hrun⟩ | ⟨run, hinfix, hrun⟩)
    · exact ⟨run, hprefix.isInfix, hrun⟩
    · exact ⟨run, List.infix_cons hinfix, hrun⟩

theorem overrunsFirst_cons : OverrunsFirst left (e :: es) ↔
    e.isMarker = true ∧ (left = 0 ∨ OverrunsFirst (left - 1) es) := by
  constructor
  · rintro ⟨run, hprefix, hrun, hlen⟩
    rcases List.prefix_cons_iff.1 hprefix with rfl | ⟨tail, rfl, htail⟩
    · cases hlen
    · refine ⟨hrun e List.mem_cons_self, ?_⟩
      rw [List.length_cons] at hlen
      by_cases hleft : left = 0
      · exact .inl hleft
      · exact .inr ⟨tail, htail, fun f hf => hrun f (List.mem_cons_of_mem _ hf), by omega⟩
  · rintro ⟨he, rfl | ⟨run, hprefix, hrun, hlen⟩⟩
    · exact ⟨[e], by simp, by simpa using he, by simp⟩
    · refine ⟨e :: run, by simpa using hprefix, ?_, by rw [List.length_cons]; omega⟩
      intro f hf
      rcases List.mem_cons.1 hf with rfl | hf
      · exact he
      · exact hrun f hf

theorem OverrunsFirst.mono (h : OverrunsFirst room es) (hle : left ≤ room) :
    OverrunsFirst left es := by
  obtain ⟨run, hprefix, hrun, hlen⟩ := h
  exact ⟨run, hprefix, hrun, by omega⟩

theorem OverrunsFirst.overruns (h : OverrunsFirst room es) : Overruns room es := by
  obtain ⟨run, hprefix, hrun⟩ := h
  exact ⟨run, hprefix.isInfix, hrun⟩

theorem overruns_cons_marker (he : e.isMarker = true) (hleft : left + 1 ≤ room) :
    OverrunsFirst left es ∨ Overruns room es ↔
      OverrunsFirst (left + 1) (e :: es) ∨ Overruns room (e :: es) := by
  constructor
  · rintro (h | h)
    · exact .inl (overrunsFirst_cons.2 ⟨he, .inr h⟩)
    · exact .inr (overruns_cons.2 (.inr h))
  · intro h
    have hor : OverrunsFirst (left + 1) (e :: es) ∨ Overruns room es := by
      rcases h with h | h
      · exact .inl h
      rcases overruns_cons.1 h with h | h
      · exact .inl (h.mono hleft)
      · exact .inr h
    rcases hor with h | h
    · rcases (overrunsFirst_cons.1 h).2 with hzero | h
      · omega
      · exact .inl h
    · exact .inr h

theorem overruns_cons_other (he : e.isMarker = false) :
    OverrunsFirst room es ∨ Overruns room es ↔
      OverrunsFirst left (e :: es) ∨ Overruns room (e :: es) := by
  have hno : ∀ n, ¬ OverrunsFirst n (e :: es) := by
    intro n h
    rw [(overrunsFirst_cons.1 h).1] at he
    cases he
  constructor
  · rintro (h | h)
    · exact .inr (overruns_cons.2 (.inr h.overruns))
    · exact .inr (overruns_cons.2 (.inr h))
  · rintro (h | h)
    · exact absurd h (hno left)
    · exact .inr ((overruns_cons.1 h).resolve_left (hno room))

end

theorem eq_marker_of_asMarker? {f : Form} {m : Marker} (h : f.asMarker? = some m) :
    f = .marker m := by
  cases f with
  | atom a => cases a <;> simp_all [asMarker?, marker]
  | list es => cases h

theorem getLast?_append_cons_iff {e : Form} (he : e.isMarker = false) (front es : List Form)
    (m : Marker) : es.getLast? = some (.marker m) ↔
      (front ++ e :: es).getLast? = some (.marker m) := by
  cases es with
  | nil =>
    simp only [List.getLast?_nil, reduceCtorEq, List.getLast?_concat, Option.some.injEq, false_iff]
    rintro rfl
    cases he
  | cons f fs => simp

end Form

/-! ## One sequence -/

/-- What has become of expanding something: its value if nothing can go wrong, or an error that
tells what did, lists or runs that nest too deeply or a marker with nothing behind it. -/
inductive Expander.Outcome {α : Type} (limit : Nat) (deep : Prop) (dangles : Marker → Prop)
    (value : α) : Except ExpandError α → Prop where
  | expanded (hdeep : ¬ deep) (hdangles : ∀ m, ¬ dangles m) :
    Outcome limit deep dangles value (.ok value)
  | tooDeep (h : deep) : Outcome limit deep dangles value (.error (.recursionLimitExceeded limit))
  | dangling {m : Marker} (h : dangles m) :
    Outcome limit deep dangles value (.error (.danglingMarker m))

namespace Expander

variable {α : Type} {limit : Nat} {deep deep' : Prop} {dangles dangles' : Marker → Prop} {value : α}
  {result : Except ExpandError α}

theorem Outcome.congr (h : Outcome limit deep dangles value result) (hdeep : deep ↔ deep')
    (hdangles : ∀ m, dangles m ↔ dangles' m) : Outcome limit deep' dangles' value result := by
  cases h with
  | expanded h₁ h₂ => exact .expanded (hdeep.not.1 h₁) fun m => (hdangles m).not.1 (h₂ m)
  | tooDeep h => exact .tooDeep (hdeep.1 h)
  | dangling h => exact .dangling ((hdangles _).1 h)

theorem Outcome.eq_ok_iff (h : Outcome limit deep dangles value result) {v : α} :
    result = .ok v ↔ (¬ deep ∧ ∀ m, ¬ dangles m) ∧ v = value := by
  cases h with
  | expanded hdeep hdangles =>
    simp only [Except.ok.injEq]
    exact ⟨fun heq => ⟨⟨hdeep, hdangles⟩, heq.symm⟩, fun h => h.2.symm⟩
  | tooDeep h => simp [h]
  | @dangling m h =>
    simp only [reduceCtorEq, false_iff, not_and]
    exact fun hno => absurd h (hno.2 m)

/-- Applying markers writes to the log and leaves everything else. -/
theorem exists_log_applyRun (x : Expander) (run : List Marker) (f : Form) :
    ∃ log, (x.applyRun run f).2 = { x with log } := by
  induction run generalizing x f with
  | nil => exact ⟨x.log, rfl⟩
  | cons m run ih =>
    obtain ⟨log, hlog⟩ := ih (x.record (.fusedMarker m)) (.tagged (x.tag m) f)
    exact ⟨log, hlog⟩

theorem exists_log_fuse_go (x : Expander) (left : Nat) (run : List Marker) (fused es : List Form) :
    ∃ log, (fuse.go x left run fused es).2 = { x with log } := by
  fun_induction fuse.go x left run fused es with
  | case1 x | case2 x | case3 x => exact ⟨x.log, rfl⟩
  | case4 x run fused e es m hm left ih => exact ih
  | case5 x left run fused e es hm f y hy ih =>
    obtain ⟨log, hlog⟩ := exists_log_applyRun x run e
    obtain ⟨log', hlog'⟩ := ih
    rw [hy] at hlog
    obtain rfl : y = { x with log } := hlog
    exact ⟨log', hlog'⟩

theorem applyRun_eq_foldr (x : Expander) (run : List Marker) (f : Form) (es : List Form) :
    (run.reverse.map Form.marker).foldr (Form.applyOnto x.backquote) (f :: es)
      = (x.applyRun run f).1 :: es := by
  induction run generalizing x f with
  | nil => rfl
  | cons m run ih =>
    rw [List.reverse_cons, List.map_append, List.foldr_append]
    exact ih (x.record (.fusedMarker m)) (.tagged (x.tag m) f)

theorem outcome_fuse_go (x : Expander) (left : Nat) (run : List Marker) (fused es : List Form)
    (hleft : left ≤ x.room) :
    Outcome x.maxDepth (Form.OverrunsFirst left es ∨ Form.Overruns x.room es)
      (fun m => (run.reverse.map Form.marker ++ es).getLast? = some (.marker m))
      (fused.reverse ++
        (run.reverse.map Form.marker ++ es).foldr (Form.applyOnto x.backquote) [])
      (fuse.go x left run fused es).1 := by
  fun_induction fuse.go x left run fused es with
  | case1 x left fused =>
    simp only [List.reverse_nil, List.map_nil, List.foldr_nil, List.append_nil]
    refine .expanded ?_ (by simp)
    exact not_or.2 ⟨Form.not_overrunsFirst_nil, Form.not_overruns_nil⟩
  | case2 x left fused m run => exact .dangling (by simp)
  | case3 x run fused e es m hm =>
    have he : e.isMarker = true := by simp [Form.isMarker, hm]
    exact .tooDeep (.inl (Form.overrunsFirst_cons.2 ⟨he, .inl rfl⟩))
  | case4 x run fused e es m hm left ih =>
    obtain rfl := Form.eq_marker_of_asMarker? hm
    have heq : (m :: run).reverse.map Form.marker ++ es
        = run.reverse.map Form.marker ++ Form.marker m :: es := by simp
    rw [heq] at ih
    exact (ih (by omega)).congr (Form.overruns_cons_marker rfl hleft) fun _ => Iff.rfl
  | case5 x left run fused e es hm f y hy ih =>
    have he : e.isMarker = false := by simp [Form.isMarker, hm]
    obtain ⟨log, hlog⟩ := exists_log_applyRun x run e
    rw [hy] at hlog
    obtain rfl : y = { x with log } := hlog
    have hcons : Form.applyOnto x.backquote e (es.foldr (Form.applyOnto x.backquote) [])
        = e :: es.foldr (Form.applyOnto x.backquote) [] := by
      simp [Form.applyOnto, hm]
    have hfold : (run.reverse.map Form.marker ++ e :: es).foldr (Form.applyOnto x.backquote) []
        = f :: es.foldr (Form.applyOnto x.backquote) [] := by
      rw [List.foldr_append, List.foldr_cons, hcons, applyRun_eq_foldr, hy]
    rw [hfold]
    refine Outcome.congr ?_ (Form.overruns_cons_other he) (Form.getLast?_append_cons_iff he _ es)
    simpa using ih (Nat.le_refl _)

theorem outcome_fuse (x : Expander) (es : List Form) :
    Outcome x.maxDepth (Form.Overruns x.room es) (fun m => es.getLast? = some (.marker m))
      (es.foldr (Form.applyOnto x.backquote) []) (x.fuse es).1 := by
  refine (outcome_fuse_go x x.room [] [] es (Nat.le_refl _)).congr ?_ fun _ => Iff.rfl
  exact ⟨fun h => h.elim Form.OverrunsFirst.overruns id, .inr⟩

end Expander

/-! ## Sequences with their lists -/

namespace Program

/-- A list is nested too deeply, or a run of markers is too long for its place. -/
def TooDeep (limit : Nat) (p : Program) : Prop :=
  ∃ k es, p.HasSequence k es ∧ (limit < k ∨ Form.Overruns (limit - k) es)

/-- The program or a list inside it ends with this marker. -/
def Dangles (p : Program) (m : Marker) : Prop :=
  ∃ k es, p.HasSequence k es ∧ es.getLast? = some (.marker m)

theorem tooDeep_iff {limit : Nat} {p : Program} : p.TooDeep limit ↔
    Form.Overruns limit p ∨ ∃ es, .list es ∈ p ∧ (limit = 0 ∨ TooDeep (limit - 1) es) := by
  constructor
  · rintro ⟨k, fs, hseq, hdeep⟩
    cases hseq with
    | self => exact .inl (hdeep.resolve_left (Nat.not_lt_zero _))
    | @inside _ k es _ mem hseq =>
      refine .inr ⟨es, mem, ?_⟩
      by_cases hzero : limit = 0
      · exact .inl hzero
      refine .inr ⟨k, fs, hseq, hdeep.imp (by omega) ?_⟩
      rw [Nat.sub_sub, Nat.add_comm 1 k]
      exact id
  · rintro (h | ⟨es, mem, hzero | ⟨k, fs, hseq, hdeep⟩⟩)
    · exact ⟨0, p, .self p, .inr h⟩
    · exact ⟨1, es, .inside mem (.self es), .inl (by omega)⟩
    · refine ⟨k + 1, fs, .inside mem hseq, hdeep.imp (by omega) ?_⟩
      rw [Nat.sub_sub, Nat.add_comm 1 k]
      exact id

theorem dangles_iff {p : Program} {m : Marker} : p.Dangles m ↔
    p.getLast? = some (.marker m) ∨ ∃ es, .list es ∈ p ∧ Dangles es m := by
  constructor
  · rintro ⟨k, fs, hseq, hlast⟩
    cases hseq with
    | self => exact .inl hlast
    | @inside _ k es _ mem hseq => exact .inr ⟨es, mem, k, fs, hseq, hlast⟩
  · rintro (h | ⟨es, mem, k, fs, hseq, hlast⟩)
    · exact ⟨0, p, .self p, h⟩
    · exact ⟨k + 1, fs, .inside mem hseq, hlast⟩

theorem not_tooDeep_iff {limit : Nat} {p : Program} :
    ¬ p.TooDeep limit ↔ p.NestsWithin limit ∧ p.RunsWithin limit := by
  constructor
  · intro h
    have hnests : p.NestsWithin limit := by
      intro k es hseq
      by_contra hk
      exact h ⟨k, es, hseq, .inl (by omega)⟩
    refine ⟨hnests, ?_⟩
    intro k es hseq run hrun
    have hk := hnests k es hseq
    by_contra hlen
    exact h ⟨k, es, hseq, .inr (Form.overruns_iff_isRun.2 ⟨run, hrun, by omega⟩)⟩
  · rintro ⟨hnests, hruns⟩ ⟨k, es, hseq, hdeep | hover⟩
    · have := hnests k es hseq
      omega
    · obtain ⟨run, hrun, hlen⟩ := Form.overruns_iff_isRun.1 hover
      have := hruns k es hseq run hrun
      omega

end Program

namespace Expander

mutual

/-- Expanding a form writes to the log and leaves everything else, whether it succeeds or not. -/
theorem exists_log_expand (x : Expander) : ∀ f : Form, ∃ log, (x.expand f).2 = { x with log }
  | .atom a => ⟨x.log, by cases a <;> rfl⟩
  | .list es => by
    rw [expand]
    split
    · exact ⟨x.log, rfl⟩
    · rename_i room hroom
      obtain ⟨log, hlog⟩ := exists_log_sequence (x.withRoom room) [] es
      rcases hs : (x.withRoom room).sequence [] es with ⟨result, y⟩
      rw [hs] at hlog
      obtain rfl : y = { x.withRoom room with log } := hlog
      refine ⟨log, ?_⟩
      cases result <;> simp [leave, withRoom, hroom]

theorem exists_log_sequence (x : Expander) (done : List Form) :
    ∀ es : List Form, ∃ log, (x.sequence done es).2 = { x with log }
  | [] => by
    rw [sequence, fuse]
    exact exists_log_fuse_go x x.room [] [] done.reverse
  | e :: es => by
    rw [sequence]
    split
    · obtain ⟨log, hlog⟩ := exists_log_expand x e
      rcases hs : x.expand e with ⟨result, y⟩
      rw [hs] at hlog
      obtain rfl : y = { x with log } := hlog
      cases result with
      | error err => exact ⟨log, rfl⟩
      | ok f => exact exists_log_sequence { x with log } (f :: done) es
    · exact exists_log_sequence x (e :: done) es

end

/-- How a list comes out when it is expanded. -/
abbrev ListOutcome (x : Expander) (es : List Form) : Except ExpandError Form → Prop :=
  Outcome x.maxDepth (x.room = 0 ∨ Program.TooDeep (x.room - 1) es) (Program.Dangles es)
    (.list (Form.appliedAll x.backquote es))

theorem exists_list_cons {P : List Form → Prop} {fs es : List Form} (h : ¬ P fs) :
    (∃ gs, .list gs ∈ es ∧ P gs) ↔ ∃ gs, .list gs ∈ .list fs :: es ∧ P gs := by
  constructor
  · rintro ⟨gs, hmem, hgs⟩
    exact ⟨gs, List.mem_cons_of_mem _ hmem, hgs⟩
  · rintro ⟨gs, hmem, hgs⟩
    rcases List.mem_cons.1 hmem with heq | hmem
    · cases heq
      exact absurd hgs h
    · exact ⟨gs, hmem, hgs⟩

theorem outcome_sequence_done (x : Expander) {es : List Form}
    (ih : ∀ fs, .list fs ∈ es → ∀ log, x.ListOutcome fs (expand { x with log } (.list fs)).1)
    (done : List Form) :
    Outcome x.maxDepth
      (Form.Overruns x.room (done.reverse ++ es.map (Form.applied x.backquote)) ∨
        ∃ fs, .list fs ∈ es ∧ (x.room = 0 ∨ Program.TooDeep (x.room - 1) fs))
      (fun m => (done.reverse ++ es.map (Form.applied x.backquote)).getLast? = some (.marker m) ∨
        ∃ fs, .list fs ∈ es ∧ Program.Dangles fs m)
      ((done.reverse ++ es.map (Form.applied x.backquote)).foldr (Form.applyOnto x.backquote) [])
      (x.sequence done es).1 := by
  induction es generalizing x done with
  | nil =>
    rw [sequence]
    refine Outcome.congr ?_ (or_iff_left ?_).symm fun m => (or_iff_left ?_).symm
    · simpa using outcome_fuse x done.reverse
    · rintro ⟨fs, hmem, -⟩
      cases hmem
    · rintro ⟨fs, hmem, -⟩
      cases hmem
  | cons e es hes =>
    have ih' : ∀ fs, .list fs ∈ es → ∀ log, x.ListOutcome fs (expand { x with log } (.list fs)).1 :=
      fun fs hmem => ih fs (List.mem_cons_of_mem _ hmem)
    have hcons : ∀ f : Form, (f :: done).reverse ++ es.map (Form.applied x.backquote)
        = done.reverse ++ f :: es.map (Form.applied x.backquote) := by simp
    rw [sequence, List.map_cons]
    cases e with
    | atom a =>
      have h := hes x ih' (.atom a :: done)
      rw [hcons] at h
      refine h.congr ?_ ?_
      · simp [Form.applied]
      · simp [Form.applied]
    | list fs =>
      obtain ⟨log, hlog⟩ := exists_log_expand x (.list fs)
      have hfs := ih fs List.mem_cons_self x.log
      simp only [Form.isList, Form.asList?, Option.isSome_some, if_true]
      rcases hs : x.expand (.list fs) with ⟨result, y⟩
      rw [hs] at hlog hfs
      obtain rfl : y = { x with log } := hlog
      cases hfs with
      | tooDeep h => exact .tooDeep (.inr ⟨fs, List.mem_cons_self, h⟩)
      | dangling h => exact .dangling (.inr ⟨fs, List.mem_cons_self, h⟩)
      | expanded hdeep hdangles =>
        have h := hes { x with log } ih' (.list (Form.appliedAll x.backquote fs) :: done)
        rw [hcons] at h
        exact h.congr (or_congr_right (exists_list_cons hdeep))
          fun m => or_congr_right (exists_list_cons (hdangles m))

/-- A sequence expands if its lists do, no run of its markers is too long and none is left over. -/
theorem outcome_sequence (x : Expander) {es : List Form}
    (ih : ∀ fs, .list fs ∈ es → ∀ log, x.ListOutcome fs (expand { x with log } (.list fs)).1) :
    Outcome x.maxDepth (Program.TooDeep x.room es) (Program.Dangles es)
      (Form.appliedAll x.backquote es) (x.sequence [] es).1 := by
  have h := x.outcome_sequence_done ih []
  rw [List.reverse_nil, List.nil_append, ← Form.appliedAll_eq_foldr] at h
  refine h.congr ?_ fun m => ?_
  · rw [Program.tooDeep_iff, Form.overruns_map_applied]
  · rw [Program.dangles_iff, Form.getLast?_map_applied]

/-- A list expands if there is room for it and the sequence of its elements expands. -/
theorem outcome_list (x : Expander) (es : List Form) :
    x.ListOutcome es (x.expand (.list es)).1 := by
  suffices h : ∀ f : Form, ∀ es, f = .list es → ∀ x : Expander,
      x.ListOutcome es (x.expand (.list es)).1 from h _ es rfl x
  intro f
  induction f using Form.induction with
  | atom a => nofun
  | list fs ih =>
    rintro es heq x
    cases heq
    rw [expand]
    split
    · rename_i hroom
      exact .tooDeep (.inl hroom)
    · rename_i room hroom
      have h := (x.withRoom room).outcome_sequence fun gs hmem log =>
        ih _ hmem gs rfl { x.withRoom room with log }
      have hdeep : Program.TooDeep room fs ↔ x.room = 0 ∨ Program.TooDeep (x.room - 1) fs := by
        simp [hroom]
      rcases hs : (x.withRoom room).sequence [] fs with ⟨result, y⟩
      rw [hs] at h
      cases h with
      | expanded h₁ h₂ => exact .expanded (hdeep.not.1 h₁) h₂
      | tooDeep h => exact .tooDeep (hdeep.1 h)
      | dangling h => exact .dangling h

/-- A program expands, from a fresh start, as the sequence of its forms. -/
theorem outcome_expandProgram (x : Expander) (hroom : x.room = x.maxDepth) (p : Program) :
    Outcome x.maxDepth (p.TooDeep x.maxDepth) p.Dangles (Form.appliedAll x.backquote p)
      (x.expandProgram p).1 := by
  have h := x.outcome_sequence fun fs (_ : .list fs ∈ p) log => outcome_list { x with log } fs
  rw [hroom] at h
  rw [expandProgram]
  rcases hs : x.sequence [] p with ⟨result, y⟩
  rw [hs] at h
  cases result <;> exact h

end Expander

theorem Program.outcome_expand (backquote : BackquoteTag) (limit : Nat) (p : Program) :
    Expander.Outcome limit (p.TooDeep limit) p.Dangles (Form.appliedAll backquote p)
      (Program.expand backquote limit p) :=
  Expander.outcome_expandProgram { backquote, maxDepth := limit } rfl p

/-- **Expansion succeeds exactly if no list nests too deeply, no sequence ends with a marker and
every run of markers fits in its place, and gives the program with its markers applied from the
right.** A limit that was exceeded is the one given, and exceeded by a list or by a run; a dangling
marker is the last element of a sequence. -/
theorem Program.expand_eq_ok_iff_applied (backquote : BackquoteTag) (limit : Nat) (p : Program) :
    (∀ q, Program.expand backquote limit p = .ok q ↔
      (p.NestsWithin limit ∧ p.MarkersApply ∧ p.RunsWithin limit) ∧
        q = Form.appliedAll backquote p) ∧
    (∀ l, Program.expand backquote limit p = .error (.recursionLimitExceeded l) →
      l = limit ∧ ¬ (p.NestsWithin limit ∧ p.RunsWithin limit)) ∧
    ∀ m, Program.expand backquote limit p = .error (.danglingMarker m) →
      ∃ k es, p.HasSequence k es ∧ es.getLast? = some (.marker m) := by
  have h := Program.outcome_expand backquote limit p
  have happly : (∀ m, ¬ p.Dangles m) ↔ p.MarkersApply :=
    ⟨fun h k es hseq m hlast => h m ⟨k, es, hseq, hlast⟩,
      fun h m ⟨k, es, hseq, hlast⟩ => h k es hseq m hlast⟩
  refine ⟨?_, ?_, ?_⟩
  · intro q
    rw [h.eq_ok_iff, Program.not_tooDeep_iff, happly]
    tauto
  · intro l hl
    rw [hl] at h
    cases h with
    | tooDeep hdeep => exact ⟨rfl, fun hno => Program.not_tooDeep_iff.2 hno hdeep⟩
  · intro m hm
    rw [hm] at h
    cases h with
    | dangling hdangles => exact hdangles

end Sexpr
