import Sexpr.Proofs.Token.Place
import Sexpr.Proofs.Token.Turns

/-!
# How far a scanner has come

Whichever way a scanner is asked, and however often, it has consumed whole characters from the front
of its text, and its byte offset, line and column are three counts of these characters. Failing and
coming to the end are no exceptions: they consume what is left.

* `Scanner.Consumed.ask`: a turn consumes more, and a lexeme its gap and its own characters;
* `Scanner.Consumed.after`: so do any number of turns;
* `Location.behind_precedes`: characters further on have later locations;
* `Scanner.position_after_turns`: **the three counts agree with the text after any number of
  turns**, so the offset lies between two characters, locations only grow, and the lexemes come to
  an end.
-/

namespace Sexpr

/-! ## The order of locations -/

namespace Location

/-- A location comes before another one: it is in an earlier line, or further to the left in the
same line. -/
def Precedes (a b : Location) : Prop := a.line < b.line ∨ a.line = b.line ∧ a.column < b.column

theorem rtakeWhile_append_line (before : List Char) {more : List Char} (h : '\n' ∉ more) :
    (before ++ more).rtakeWhile (· != '\n') = before.rtakeWhile (· != '\n') ++ more := by
  have hmore : ∀ c ∈ more.reverse, (c != '\n') = true := by
    intro c hc
    simp only [bne_iff_ne, ne_eq]
    rintro rfl
    exact h (List.mem_reverse.1 hc)
  rw [List.rtakeWhile, List.reverse_append, List.takeWhile_append_of_pos hmore,
    List.reverse_append, List.reverse_reverse]
  rfl

/-- A newline in between makes a later line, and other characters a later column. -/
theorem behind_precedes (before : List Char) {more : List Char} (h : more ≠ []) :
    (behind before).Precedes (behind (before ++ more)) := by
  by_cases hnewline : '\n' ∈ more
  · have hcount := List.count_pos_iff.2 hnewline
    left
    simp only [behind, List.count_append]
    omega
  · have hlength := List.length_pos_iff.2 h
    have hcount := List.count_eq_zero_of_not_mem hnewline
    right
    simp only [behind, List.count_append, rtakeWhile_append_line before hnewline,
      List.length_append]
    omega

end Location

/-! ## What has been consumed -/

/-- There are no more lexemes and errors than characters. -/
theorem length_entries_scanFrom_le (comments : Bool) (p : Position) (cs : List Char) :
    (entries (scanFrom comments p cs)).length ≤ cs.length := by
  have hgap := congrArg List.length (Token.splitGap_append comments cs)
  rw [List.length_append] at hgap
  fun_induction scanFrom comments p cs with
  | case1 p cs hscan => exact Nat.zero_le _
  | case2 p cs t rest hscan ih =>
    have hlt := Token.length_lt_of_scan hscan
    have hrest := congrArg List.length (Token.splitGap_append comments rest)
    rw [List.length_append] at hrest
    have hle := ih hrest
    show (_ :: entries _).length ≤ cs.length
    rw [List.length_cons]
    omega
  | case3 p cs hscan =>
    have hne : (Token.splitGap comments cs).2 ≠ [] := by
      intro hnil
      rw [hnil] at hscan
      cases hscan
    have hpos := List.length_pos_iff.2 hne
    show [_].length ≤ cs.length
    rw [List.length_singleton]
    omega

namespace Scanner

/-- A scanner of a text has consumed the characters `p` from its front, and has counted them. -/
structure Consumed (s : Scanner) (comments : Bool) (text : String) (p : List Char) : Prop where
  comments_eq : s.comments = comments
  text_eq : p ++ s.rest = text.toList
  offset_eq : s.position.offset = (String.ofList p).utf8ByteSize
  location_eq : s.position.toLocation = Location.behind p

/-- A lexeme takes up these characters behind the characters `p`: a gap and those of its token. Its
location is that of the first character of the token. -/
def TakesUp (comments : Bool) (p taken : List Char) (x : Lexeme) : Prop :=
  ∃ gap, Gap comments gap ∧ taken = gap ++ x.token.text.toList ∧ x.token.text.toList ≠ [] ∧
    x.location = some (Location.behind (p ++ gap))

variable {s : Scanner} {comments : Bool} {text : String} {p : List Char}

theorem consumed_start (comments : Bool) (text : String) (log : Log) :
    (start comments text log).Consumed comments text [] :=
  ⟨rfl, rfl, rfl, rfl⟩

namespace Consumed

/-- The three counts together are the position behind the characters consumed. -/
theorem position_eq (h : s.Consumed comments text p) : s.position = Position.advance {} p := by
  have hoffset := Position.offset_advance {} p
  have hlocation := Position.toLocation_advance p
  rw [Nat.zero_add, ← h.offset_eq] at hoffset
  rw [← h.location_eq] at hlocation
  rcases hs : s.position with ⟨location, offset⟩
  rcases ha : Position.advance {} p with ⟨location', offset'⟩
  simp_all

theorem of_position_eq (hcomments : s.comments = comments) (htext : p ++ s.rest = text.toList)
    (hposition : s.position = Position.advance {} p) : s.Consumed comments text p where
  comments_eq := hcomments
  text_eq := htext
  offset_eq := by rw [hposition, Position.offset_advance, Nat.zero_add]
  location_eq := by rw [hposition, Position.toLocation_advance]

/-- Every way to come to a lexeme, to the end or to an error consumes the characters that it moves
the position past. -/
theorem nextLexeme (h : s.Consumed comments text p) : ∃ taken,
    s.nextLexeme.2.Consumed comments text (p ++ taken) ∧
      ∀ x, s.nextLexeme.1 = .ok (some x) → TakesUp comments p taken x := by
  obtain rfl := h.comments_eq
  have hgap := Token.splitGap_append s.comments s.rest
  have hposition := h.position_eq
  rw [Scanner.nextLexeme]
  cases hscan : Token.scan s.comments (Token.splitGap s.comments s.rest).2 with
  | finished =>
    rw [Token.eq_nil_of_scan_finished hscan, List.append_nil] at hgap
    simp only [hscan]
    refine ⟨s.rest, of_position_eq rfl ?_ ?_, by simp⟩
    · rw [List.append_nil, h.text_eq]
    · rw [Position.advance_append, ← hposition, hgap]
  | found t behind =>
    have hfound := Token.scan_append hscan
    obtain ⟨hg, -, -⟩ := found_spec hscan
    simp only [hscan]
    refine ⟨(Token.splitGap s.comments s.rest).1 ++ t.text.toList, of_position_eq rfl ?_ ?_, ?_⟩
    · show p ++ (_ ++ t.text.toList) ++ behind = text.toList
      rw [List.append_assoc, List.append_assoc, hfound, hgap, h.text_eq]
    · rw [Position.advance_append, Position.advance_append, ← hposition]
    · intro x hx
      cases hx
      refine ⟨_, hg, rfl, Token.text_ne_nil_of_scan hscan, ?_⟩
      rw [← Position.toLocation_advance, Position.advance_append, ← hposition]
  | unterminated =>
    simp only [hscan]
    refine ⟨s.rest, of_position_eq rfl ?_ ?_, by simp⟩
    · rw [List.append_nil, h.text_eq]
    · rw [← Position.advance_append, hgap, Position.advance_append, ← hposition]

/-- A turn consumes more of the text, and if it yields a lexeme, what the lexeme takes up. -/
theorem ask (h : s.Consumed comments text p) (method : Method) : ∃ taken,
    (s.ask method).2.Consumed comments text (p ++ taken) ∧
      ∀ x, (s.ask method).1 = .ok (some x) → TakesUp comments p taken x := by
  cases method with
  | nextLexeme => exact h.nextLexeme
  | next =>
    rw [Scanner.ask, next]
    by_cases hfailed : s.failed = true
    · rw [if_pos hfailed]
      exact ⟨[], by rwa [List.append_nil], by simp⟩
    · rw [if_neg hfailed]
      obtain ⟨taken, hconsumed, htakes⟩ := h.nextLexeme
      rcases hstep : s.nextLexeme with ⟨_ | lexeme?, t⟩
      · rw [hstep] at hconsumed
        exact ⟨taken, ⟨hconsumed.1, hconsumed.2, hconsumed.3, hconsumed.4⟩, by simp⟩
      · rw [hstep] at hconsumed htakes
        exact ⟨taken, hconsumed, htakes⟩

/-- Any number of turns consume more of the text. -/
theorem after (h : s.Consumed comments text p) (methods : List Method) :
    ∃ taken, (s.after methods).Consumed comments text (p ++ taken) := by
  induction methods generalizing s p with
  | nil => exact ⟨[], by rwa [List.append_nil]⟩
  | cons method methods ih =>
    obtain ⟨taken, hask, -⟩ := h.ask method
    obtain ⟨more, hafter⟩ := ih hask
    exact ⟨taken ++ more, by rwa [← List.append_assoc]⟩

/-- A lexeme that is found later has a later location. -/
theorem precedes (h : s.Consumed comments text p) {method method' : Method} {x y : Lexeme}
    (hx : (s.ask method).1 = .ok (some x)) (more : List Method)
    (hy : (((s.ask method).2.after more).ask method').1 = .ok (some y)) :
    ∃ here there, x.location = some here ∧ y.location = some there ∧ here.Precedes there := by
  obtain ⟨taken, hask, htakes⟩ := h.ask method
  obtain ⟨between, hafter⟩ := hask.after more
  obtain ⟨taken', -, htakes'⟩ := hafter.ask method'
  obtain ⟨gap, -, rfl, hne, hhere⟩ := htakes x hx
  obtain ⟨gap', -, -, -, hthere⟩ := htakes' y hy
  refine ⟨_, _, hhere, hthere, ?_⟩
  have hlater := Location.behind_precedes (p ++ gap)
    (List.append_ne_nil_of_left_ne_nil hne (between ++ gap'))
  simpa only [List.append_assoc] using hlater

/-- The offset is that of a place between two characters, and what is left is the text from there
on. -/
theorem exists_pos (h : s.Consumed comments text p) : ∃ pos : text.Pos,
    pos.offset.byteIdx = s.position.offset ∧ (text.sliceFrom pos).copy = String.ofList s.rest := by
  have htext : text = String.ofList p ++ String.ofList s.rest := by
    rw [← String.ofList_append, h.text_eq, String.ofList_toList]
  have hsplits := String.Pos.splits_ofEqAppend htext
  refine ⟨String.Pos.ofEqAppend htext, ?_, hsplits.copy_sliceFrom_eq⟩
  rw [hsplits.offset_eq_rawEndPos, h.offset_eq]
  rfl

end Consumed

/-- **Asked in whatever turns, a scanner has consumed whole characters from the front of its text**:
its offset is the number of their bytes, its line is one more than their newlines, and its column is
one more than the characters behind the last newline. So what is left is the text from that offset
on. A turn that yields a lexeme consumes characters, the lexeme has the location of its own first
one, and a lexeme of any later turn has a later location. There are no more lexemes than characters:
behind as many turns nothing is yielded. -/
theorem position_after_turns (comments : Bool) (text : String) (log : Log)
    (methods : List Method) :
    let s := (start comments text log).after methods
    ∃ p, s.Consumed comments text p ∧
      (∃ pos : text.Pos, pos.offset.byteIdx = s.position.offset ∧
        (text.sliceFrom pos).copy = String.ofList s.rest) ∧
      (∀ method, ∃ taken, (s.ask method).2.Consumed comments text (p ++ taken) ∧
        ∀ x, (s.ask method).1 = .ok (some x) → TakesUp comments p taken x ∧
          ∀ more method' y, (((s.ask method).2.after more).ask method').1 = .ok (some y) →
            ∃ here there, x.location = some here ∧ y.location = some there ∧
              here.Precedes there) ∧
      (text.length ≤ methods.length → ∀ method, (s.ask method).1 = .ok none) := by
  intro s
  obtain ⟨p, hp⟩ := (consumed_start comments text log).after methods
  refine ⟨p, hp, hp.exists_pos, ?_, ?_⟩
  · intro method
    obtain ⟨taken, hask, htakes⟩ := hp.ask method
    exact ⟨taken, hask, fun x hx => ⟨htakes x hx, fun more method' y hy => hp.precedes hx more hy⟩⟩
  · intro hle method
    have hlength : ((start comments text log).yields).length ≤ methods.length :=
      Nat.le_trans (length_entries_scanFrom_le comments {} text.toList)
        (Nat.le_trans (Nat.le_of_eq text.length_toList) hle)
    rw [ask_after (fun hfailed => by cases hfailed), List.getElem?_eq_none hlength]
    rfl

/-- A character of two bytes, a marker of two characters in the second line, and quoted text that is
never closed. -/
theorem position_after_turns_multibyte :
    let text := "\u00e9\n,@x \""
    let s := (start false text).after [.next]
    (∃ x y, (s.ask .nextLexeme).1 = .ok (some x) ∧
      (((s.ask .nextLexeme).2.after []).ask .next).1 = .ok (some y) ∧
      ∃ here there, x.location = some here ∧ y.location = some there ∧ here.Precedes there) ∧
    text.length ≤ (List.replicate 7 Method.next).length ∧
      (((start false text).after (List.replicate 7 .next)).ask .nextLexeme).1 = .ok none := by
  intro text s
  have htext : "\u00e9\n,@x \"".toList = ['\u00e9', '\n', ',', '@', 'x', ' ', '"'] := rfl
  have hs : s = after { comments := false, rest := ['\u00e9', '\n', ',', '@', 'x', ' ', '"'] }
      [.next] := by
    show after (start false "\u00e9\n,@x \"") [.next] = _
    rw [start, htext]
  have hx : (s.ask .nextLexeme).1 = .ok (some ⟨.marker .unquoteSplicing, some ⟨2, 1⟩⟩) := by
    rw [hs]
    with_unfolding_all rfl
  have hy : (((s.ask .nextLexeme).2.after []).ask .next).1
      = .ok (some ⟨.atom "x", some ⟨2, 3⟩⟩) := by
    rw [hs]
    with_unfolding_all rfl
  have hlength : text.length ≤ (List.replicate 7 Method.next).length := by decide
  obtain ⟨p, -, -, hask, -⟩ := position_after_turns false text #[] [.next]
  obtain ⟨taken, -, hlater⟩ := hask .nextLexeme
  obtain ⟨p', -, -, -, hend⟩ := position_after_turns false text #[] (List.replicate 7 .next)
  exact ⟨⟨_, _, hx, hy, (hlater _ hx).2 [] .next _ hy⟩, hlength, hend hlength .nextLexeme⟩

end Scanner

end Sexpr
