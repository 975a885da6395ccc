import Sexpr.Proofs.Form.Expansion

/-!
# Sequences in a row

An expander goes over a sequence twice, first for its lists and then for its markers. Either pass
takes the elements from left to right, and what comes of them depends neither on the log nor on
those before them, as long as no marker is left waiting for its operand. So a sequence behind one
that has been expanded comes out as it does on its own, its error included:

* `Expander.fuse_append`: the second pass over two sequences in a row;
* `Expander.sequence_behind`, `Expander.expand_log`: both passes behind elements that are done;
* `Program.expand_append`: two programs in a row.
-/

namespace Sexpr

namespace Expander

/-! ## The second pass -/

theorem applyRun_log (x : Expander) (log : Log) (run : List Marker) (f : Form) :
    (applyRun { x with log } run f).1 = (x.applyRun run f).1 := by
  have h := applyRun_eq_foldr { x with log } run f []
  rw [applyRun_eq_foldr x run f []] at h
  exact (List.cons.inj h).1.symm

/-- Neither the log nor the elements done in front have a part in what comes next. -/
theorem fuse_go_behind (x : Expander) (log : Log) (left : Nat) (run : List Marker)
    (fused front es : List Form) :
    (fuse.go { x with log } left run (fused ++ front) es).1
      = (fuse.go x left run fused es).1.map (front.reverse ++ ·) := by
  fun_induction fuse.go x left run fused es generalizing log with
  | case1 x left fused => simp [fuse.go, Except.map]
  | case2 x left fused m run => rfl
  | case3 x run fused e es m hm =>
    rw [fuse.go, hm]
    rfl
  | case4 x run fused e es m hm left ih =>
    rw [fuse.go, hm]
    exact ih log
  | case5 x left run fused e es hm f y hy ih =>
    obtain ⟨log', hy'⟩ := exists_log_applyRun x run e
    obtain ⟨log'', hz⟩ := exists_log_applyRun { x with log } run e
    have hf := applyRun_log x log run e
    rw [hy] at hy' hf
    obtain rfl : y = { x with log := log' } := hy'
    -- Both runs apply the markers to the same form; the states behind differ in the log alone.
    have happly : applyRun { x with log } run e = (f, { x with log := log'' }) := Prod.ext hf hz
    rw [fuse.go, hm]
    simp only [happly]
    exact ih log''

/-- Nothing in front changes nothing. -/
theorem map_nil_append (result : Except ExpandError (List Form)) :
    result.map ([] ++ ·) = result := by
  cases result <;> rfl

theorem fuse_log (x : Expander) (log : Log) (es : List Form) :
    (fuse { x with log } es).1 = (x.fuse es).1 :=
  (fuse_go_behind x log x.room [] [] [] es).trans (map_nil_append _)

/-- The loop, when it has come to the end of a sequence, stands where it starts on the next one: no
marker is waiting, so all the room is left for a run of markers. -/
theorem fuse_go_append {x : Expander} {left : Nat} {run : List Marker} {fused es q : List Form}
    (h : (fuse.go x left run fused es).1 = .ok q) (hleft : run = [] → left = x.room)
    (fs : List Form) :
    (fuse.go x left run fused (es ++ fs)).1 = (x.fuse fs).1.map (q ++ ·) := by
  fun_induction fuse.go x left run fused es with
  | case1 x left fused =>
    cases h
    rw [List.nil_append, hleft rfl]
    exact fuse_go_behind x x.log x.room [] [] fused fs
  | case2 x left fused m run => cases h
  | case3 x run fused e es m hm => cases h
  | case4 x run fused e es m hm left ih =>
    rw [List.cons_append, fuse.go, hm]
    exact ih h fun hnil => absurd hnil (List.cons_ne_nil m run)
  | case5 x left run fused e es hm f y hy ih =>
    obtain ⟨log, hlog⟩ := exists_log_applyRun x run e
    rw [hy] at hlog
    obtain rfl : y = { x with log } := hlog
    rw [List.cons_append, fuse.go, hm]
    simp only [hy]
    rw [ih h fun _ => rfl, fuse_log]

/-- Behind a sequence that fuses well, the markers of another apply as they do on their own. -/
theorem fuse_append {x : Expander} {es q : List Form} (h : (x.fuse es).1 = .ok q)
    (fs : List Form) : (x.fuse (es ++ fs)).1 = (x.fuse fs).1.map (q ++ ·) :=
  fuse_go_append h (fun _ => rfl) fs

/-! ## Both passes -/

theorem expand_list_zero {x : Expander} (hroom : x.room = 0) (es : List Form) :
    (x.expand (.list es)).1 = .error (.recursionLimitExceeded x.maxDepth) := by
  rw [expand]
  simp only [hroom]

theorem expand_list_succ {x : Expander} {room : Nat} (hroom : x.room = room + 1)
    (es : List Form) :
    (x.expand (.list es)).1 = ((x.withRoom room).sequence [] es).1.map .list := by
  rw [expand]
  simp only [hroom]
  rcases (x.withRoom room).sequence [] es with ⟨result, y⟩
  cases result <;> rfl

/-- A list is expanded first, and an error of it is an error of the sequence. -/
theorem sequence_list (x : Expander) (fs : List Form) : ∃ log, ∀ done es,
    (x.sequence done (.list fs :: es)).1 =
      match (x.expand (.list fs)).1 with
      | .ok f => (sequence { x with log } (f :: done) es).1
      | .error e => .error e := by
  obtain ⟨log, hlog⟩ := exists_log_expand x (.list fs)
  refine ⟨log, fun done es => ?_⟩
  rw [sequence]
  simp only [Form.isList, Form.asList?, Option.isSome_some, if_true]
  rcases hs : x.expand (.list fs) with ⟨result, y⟩
  rw [hs] at hlog
  obtain rfl : y = { x with log } := hlog
  cases result <;> rfl

mutual

/-- The log has no part in what a form expands to. -/
theorem expand_log (x : Expander) (log : Log) :
    ∀ f : Form, (expand { x with log } f).1 = (x.expand f).1
  | .atom a => by cases a <;> rfl
  | .list es => by
    by_cases hroom : x.room = 0
    · rw [expand_list_zero hroom]
      exact expand_list_zero (x := { x with log }) hroom es
    · obtain ⟨room, hroom⟩ := Nat.exists_eq_succ_of_ne_zero hroom
      have hnil : ((x.withRoom room).fuse [].reverse).1 = .ok [] := rfl
      have h := sequence_behind (x.withRoom room) log [] hnil es
      rw [map_nil_append] at h
      rw [expand_list_succ hroom, ← h]
      exact expand_list_succ (x := { x with log }) hroom es

/-- Behind elements that are done and fuse well, a sequence comes out as it does on its own. -/
theorem sequence_behind (x : Expander) (log : Log) (done : List Form) {old q : List Form}
    (h : (x.fuse old.reverse).1 = .ok q) : ∀ es : List Form,
    (sequence { x with log } (done ++ old) es).1 = (x.sequence done es).1.map (q ++ ·)
  | [] => by
    rw [sequence, sequence, fuse_log, List.reverse_append, fuse_append h]
  | .atom a :: es => sequence_behind x log (.atom a :: done) h es
  | .list fs :: es => by
    obtain ⟨log₁, h₁⟩ := sequence_list { x with log } fs
    obtain ⟨log₂, h₂⟩ := sequence_list x fs
    rw [h₁, h₂, expand_log x log (.list fs)]
    cases (x.expand (.list fs)).1 with
    | error e => rfl
    | ok f =>
      have hold : (fuse { x with log := log₂ } old.reverse).1 = .ok q := (fuse_log ..).trans h
      exact sequence_behind { x with log := log₂ } log₁ (f :: done) hold es

end

/-- When a sequence expands well, its elements are done, and those behind it are taken from there.
-/
theorem exists_done_of_sequence {x : Expander} {done es q : List Form}
    (h : (x.sequence done es).1 = .ok q) :
    ∃ old log, (x.fuse old.reverse).1 = .ok q ∧
      ∀ fs, (x.sequence done (es ++ fs)).1 = (sequence { x with log } old fs).1 := by
  induction es generalizing x done with
  | nil =>
    rw [sequence] at h
    exact ⟨done, x.log, h, fun fs => rfl⟩
  | cons e es ih =>
    cases e with
    | atom a => exact ih h
    | list gs =>
      obtain ⟨log, hlist⟩ := sequence_list x gs
      rw [hlist] at h
      cases hgs : (x.expand (.list gs)).1 with
      | error e =>
        rw [hgs] at h
        cases h
      | ok f =>
        rw [hgs] at h
        obtain ⟨old, log', hold, htaken⟩ := ih h
        refine ⟨old, log', (fuse_log x log _).symm.trans hold, fun fs => ?_⟩
        rw [List.cons_append, hlist, hgs]
        exact htaken fs

/-- Behind a sequence that expands well, another comes out as it does on its own. -/
theorem sequence_append {x : Expander} {es q : List Form} (h : (x.sequence [] es).1 = .ok q)
    (fs : List Form) :
    (x.sequence [] (es ++ fs)).1 = (x.sequence [] fs).1.map (q ++ ·) := by
  obtain ⟨old, log, hold, htaken⟩ := exists_done_of_sequence h
  rw [htaken]
  exact sequence_behind x log [] hold fs

theorem expandProgram_fst (x : Expander) (p : Program) :
    (x.expandProgram p).1 = (x.sequence [] p).1 := by
  rw [expandProgram]
  rcases x.sequence [] p with ⟨result, y⟩
  cases result <;> rfl

/-- The log has no part in what a program expands to. -/
theorem expandProgram_log (x : Expander) (log : Log) (p : Program) :
    (expandProgram { x with log } p).1 = (x.expandProgram p).1 := by
  have hnil : (x.fuse [].reverse).1 = .ok [] := rfl
  rw [expandProgram_fst, expandProgram_fst, ← map_nil_append (x.sequence [] p).1]
  exact sequence_behind x log [] hnil p

end Expander

/-- Behind a program that can be expanded, another expands as it does on its own, or fails as it
does. -/
theorem Program.expand_append {backquote : BackquoteTag} {limit : Nat} {p q : Program}
    (h : Program.expand backquote limit p = .ok q) (r : Program) :
    Program.expand backquote limit (p ++ r) = (Program.expand backquote limit r).map (q ++ ·) := by
  simp only [Program.expand, Expander.expandProgram_fst] at h ⊢
  exact Expander.sequence_append h r

end Sexpr
