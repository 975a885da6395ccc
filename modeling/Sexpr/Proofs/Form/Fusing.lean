import Mathlib.Data.List.Perm.Basic
import Mathlib.Data.List.ReduceOption
import Sexpr.Proofs.Form.Conservation
import Sexpr.Proofs.Form.Passes

/-!
# The order in which markers are applied

The expander records each marker that it applies. A sequence is gone over twice, so the markers
inside its lists come first, list by list, and then its own runs from left to right. Inside a run
the last marker is applied first.

* `Expander.log_fuse`: the markers of one sequence;
* `Expander.log_expandProgram`: **an expansion that succeeds records the markers of the program in
  that order**, nested sequences in the same way;
* `Program.fusing_perm`: that order has every marker exactly once.
-/

namespace Sexpr

namespace Form

/-- The runs of markers in a sequence from left to right. Where two other elements stand side by
side the run between them is empty. -/
def runs (es : List Form) : List (List Marker) :=
  ((es.map asMarker?).splitOn none).map List.reduceOption

/-- The markers of a sequence itself: run by run, and each run from its last marker to its first. -/
def runMarkers (es : List Form) : List Marker := (runs es).flatMap List.reverse

mutual

/-- The markers inside a form in the order in which they are applied: for a list, those inside its
elements come before its own. -/
def fusing : Form → List Marker
  | .atom _ => []
  | .list es => fusingAll es ++ runMarkers es

/-- The markers inside the elements of a sequence, one element behind the other. -/
def fusingAll : List Form → List Marker
  | [] => []
  | e :: es => e.fusing ++ fusingAll es

end

end Form

/-- The markers of a program in the order in which they are applied. The program is one sequence. -/
def Program.fusing (p : Program) : List Marker := Form.fusingAll p ++ Form.runMarkers p

/-! ## The runs of a sequence -/

namespace Form

/-- It only matters where the markers stand. -/
theorem runMarkers_congr {es fs : List Form} (h : es.map asMarker? = fs.map asMarker?) :
    runMarkers es = runMarkers fs := by
  rw [runMarkers, runs, h]
  rfl

theorem map_asMarker?_markers (run : List Marker) :
    (run.map Form.marker).map asMarker? = run.map some := by
  rw [List.map_map]
  rfl

/-- A run in front of another element is applied before the others, from its end. -/
theorem runMarkers_append_cons {e : Form} (he : e.asMarker? = none) (run : List Marker)
    (es : List Form) :
    runMarkers (run.map Form.marker ++ e :: es) = run.reverse ++ runMarkers es := by
  have hnone : none ∉ run.map some := by simp
  have hrun : (run.map some).reduceOption = run := by simp [List.reduceOption]
  rw [runMarkers, runs, List.map_append, List.map_cons, he, map_asMarker?_markers,
    List.splitOn_append_cons_self_of_not_mem hnone, List.map_cons, List.flatMap_cons, hrun]
  rfl

/-- Nothing is lost where the runs are parted. -/
theorem flatten_reduceOption_splitOn (l : List (Option Marker)) :
    ((l.splitOn none).map List.reduceOption).flatten = l.reduceOption := by
  induction l with
  | nil => rfl
  | cons m? l ih =>
    rw [List.splitOn_cons_eq_if_modifyHead]
    cases m? with
    | none => simpa using ih
    | some m =>
      obtain ⟨run, others, hsplit⟩ := List.exists_cons_of_ne_nil (List.splitOn_ne_nil none l)
      rw [hsplit] at ih ⊢
      simpa using ih

/-- The runs hold each marker of the sequence once. -/
theorem runMarkers_perm (es : List Form) : (runMarkers es).Perm (es.filterMap asMarker?) := by
  have hflatten : (runs es).flatten = es.filterMap asMarker? := by
    rw [runs, flatten_reduceOption_splitOn, List.reduceOption, List.filterMap_map]
    rfl
  rw [← hflatten, ← List.flatMap_id]
  exact List.Perm.flatMap_left _ fun run _ => List.reverse_perm run

end Form

/-! ## What the expander records -/

namespace Expander

theorem log_applyRun (x : Expander) (run : List Marker) (f : Form) :
    (x.applyRun run f).2.log.toList = x.log.toList ++ run.map .fusedMarker := by
  induction run generalizing x f with
  | nil => simp [applyRun]
  | cons m run ih =>
    rw [applyRun, apply, ih]
    simp [record]

theorem log_fuse_go {x : Expander} {left : Nat} {run : List Marker} {fused es q : List Form}
    (h : (fuse.go x left run fused es).1 = .ok q) :
    (fuse.go x left run fused es).2.log.toList = x.log.toList
      ++ (Form.runMarkers (run.reverse.map Form.marker ++ es)).map .fusedMarker := by
  fun_induction fuse.go x left run fused es with
  | case1 x left fused => simp [Form.runMarkers, Form.runs]
  | case2 x left fused m run => cases h
  | case3 x run fused e es m hm => cases h
  | case4 x run fused e es m hm left ih =>
    obtain rfl := Form.eq_marker_of_asMarker? hm
    rw [ih h]
    simp
  | case5 x left run fused e es hm f y hy ih =>
    have hlog := log_applyRun x run e
    rw [hy] at hlog
    rw [ih h, hlog, Form.runMarkers_append_cons hm]
    simp

/-- A sequence whose markers can be applied records them run by run. -/
theorem log_fuse {x : Expander} {es q : List Form} (h : (x.fuse es).1 = .ok q) :
    (x.fuse es).2.log.toList = x.log.toList ++ (Form.runMarkers es).map .fusedMarker :=
  log_fuse_go h

/-- Expanding a list leaves the expander that its elements leave, with the room given back. -/
theorem expand_list_snd {x : Expander} {room : Nat} (hroom : x.room = room + 1) (es : List Form) :
    (x.expand (.list es)).2 = ((x.withRoom room).sequence [] es).2.leave := by
  rw [expand]
  simp only [hroom]
  rcases (x.withRoom room).sequence [] es with ⟨result, y⟩
  cases result <;> rfl

/-- A list that can be expanded comes out as a list, and there was room for it. -/
theorem exists_of_expand_list {x : Expander} {es : List Form} {f : Form}
    (h : (x.expand (.list es)).1 = .ok f) :
    ∃ room fused, x.room = room + 1 ∧ ((x.withRoom room).sequence [] es).1 = .ok fused ∧
      f = .list fused := by
  by_cases hroom : x.room = 0
  · rw [expand_list_zero hroom] at h
    cases h
  · obtain ⟨room, hroom⟩ := Nat.exists_eq_succ_of_ne_zero hroom
    rw [expand_list_succ hroom] at h
    cases hsequence : ((x.withRoom room).sequence [] es).1 with
    | error e =>
      rw [hsequence] at h
      cases h
    | ok fused =>
      rw [hsequence] at h
      cases h
      exact ⟨room, fused, hroom, hsequence, rfl⟩

mutual

/-- A form that can be expanded records the markers inside it. -/
theorem log_expand (x : Expander) : ∀ {f g : Form}, (x.expand f).1 = .ok g →
    (x.expand f).2.log.toList = x.log.toList ++ f.fusing.map .fusedMarker
  | .atom a, _, _ => by cases a <;> simp [expand, Form.fusing]
  | .list es, _, h => by
    obtain ⟨room, fused, hroom, hsequence, rfl⟩ := exists_of_expand_list h
    rw [expand_list_snd hroom]
    exact log_sequence (x.withRoom room) [] hsequence

/-- A sequence that can be expanded records the markers inside its lists, then its own, those among
the elements passed already included. -/
theorem log_sequence (x : Expander) (done : List Form) : ∀ {es q : List Form},
    (x.sequence done es).1 = .ok q → (x.sequence done es).2.log.toList = x.log.toList
      ++ (Form.fusingAll es ++ Form.runMarkers (done.reverse ++ es)).map .fusedMarker
  | [], _, h => by
    rw [sequence] at h ⊢
    simpa [Form.fusingAll] using log_fuse h
  | .atom a :: es, _, h => by
    have hsequence := log_sequence x (.atom a :: done) h
    rw [List.reverse_cons, List.append_assoc] at hsequence
    exact hsequence
  | .list fs :: es, _, h => by
    rw [sequence] at h ⊢
    simp only [Form.isList, Form.asList?, Option.isSome_some, if_true] at h ⊢
    rcases hs : x.expand (.list fs) with ⟨result, y⟩
    rw [hs] at h
    cases result with
    | error e => cases h
    | ok f =>
      have hfst : (x.expand (.list fs)).1 = .ok f := by rw [hs]
      have hlist := log_expand x hfst
      obtain ⟨-, fused, -, -, rfl⟩ := exists_of_expand_list hfst
      -- The list stands where it stood, so the runs around it are the same.
      have hruns : Form.runMarkers ((Form.list fused :: done).reverse ++ es)
          = Form.runMarkers (done.reverse ++ .list fs :: es) :=
        Form.runMarkers_congr (by simp [Form.asMarker?])
      rw [hs] at hlist
      simp only at h ⊢
      rw [log_sequence y (.list fused :: done) h, hlist, hruns, Form.fusingAll]
      simp

end

/-- **An expansion that succeeds records the markers of the program in the order of `fusing`**, and
then the number of forms that are left. -/
theorem log_expandProgram {x : Expander} {p q : Program} (h : (x.expandProgram p).1 = .ok q) :
    (x.expandProgram p).2.log.toList
      = x.log.toList ++ p.fusing.map .fusedMarker ++ [.expandedProgram q.length] := by
  rw [expandProgram_fst] at h
  have hsequence := log_sequence x [] h
  rw [expandProgram]
  rcases hs : x.sequence [] p with ⟨result, y⟩
  rw [hs] at h hsequence
  cases h
  simp only [record, Array.toList_push]
  rw [hsequence]
  rfl

end Expander

/-! ## Every marker once -/

/-- The markers of a sequence are those inside its lists and its own. -/
theorem Form.markers_perm {es : List Form}
    (ih : ∀ fs, .list fs ∈ es → (Program.fusing fs).Perm (Program.markers fs)) :
    (fusingAll es ++ es.filterMap asMarker?).Perm (Program.markers es) := by
  induction es with
  | nil => exact .refl _
  | cons e es hes =>
    have hrest := hes fun fs hmem => ih fs (List.mem_cons_of_mem _ hmem)
    cases e with
    | list fs =>
      have hlist : (Form.list fs).fusing.Perm (Program.markers fs) := ih fs List.mem_cons_self
      rw [Program.markers_list, fusingAll, List.append_assoc]
      exact hlist.append hrest
    | atom a =>
      cases a with
      | marker m => exact List.perm_middle.trans (hrest.cons m)
      | integer n | symbol name | text raw => exact hrest

/-- **The order in which markers are applied has every marker of the program exactly once.** -/
theorem Program.fusing_perm (p : Program) : p.fusing.Perm p.markers := by
  suffices h : ∀ f : Form, ∀ es, f = .list es → (Program.fusing es).Perm (Program.markers es) from
    h _ p rfl
  intro f
  induction f using Form.induction with
  | atom a => nofun
  | list es ih =>
    intro _ heq
    cases heq
    exact ((Form.runMarkers_perm es).append_left _).trans
      (Form.markers_perm fun fs hmem => ih _ hmem fs rfl)

end Sexpr
