import Sexpr.Proofs.Token.Layout

/-!
# Two ways of asking a scanner, in turns

`next` and `nextLexeme` go on with the same text, but only `next` knows that the scanner has failed.
That makes no difference: a failure takes all of the text that is left, so behind it both find
nothing. Whichever way a scanner is asked, and in whatever turns, it yields the same sequence.

* `Scanner.ask_spec`: either way of asking takes the first entry of what is still to be yielded;
* `Scanner.yields_after`: any number of turns takes that many entries;
* `Scanner.reply_after_turns`: **the n-th turn yields the n-th entry of one sequence**, the lexemes,
  then the error if there is one, then nothing for good.
-/

namespace Sexpr

/-- What is yielded one by one where lexemes are found and then perhaps an error, up to the end. -/
def entries (found : List Lexeme × Option ScanError) : List (Except ScanError (Option Lexeme)) :=
  found.1.map (fun x => .ok (some x)) ++ found.2.toList.map .error

/-- If no lexeme comes first, nothing comes behind it. -/
theorem tail_entries {found : List Lexeme × Option ScanError}
    (h : ∀ x, (entries found).head?.getD (.ok none) ≠ .ok (some x)) :
    (entries found).tail = [] := by
  obtain ⟨xs, e?⟩ := found
  cases xs with
  | nil => cases e? <;> rfl
  | cons x xs => exact absurd rfl (h x)

theorem scanFrom_nil (comments : Bool) (p : Position) : scanFrom comments p [] = ([], none) :=
  scanFrom_finished rfl

namespace Scanner

/-- A way of asking a scanner for a lexeme. -/
inductive Method where
  | next
  | nextLexeme

/-- What a scanner yields if it is asked this way, and the scanner afterwards. -/
def ask (s : Scanner) : Method → Except ScanError (Option Lexeme) × Scanner
  | .next => s.next
  | .nextLexeme => s.nextLexeme

/-- The scanner after it has been asked several times. -/
def after (s : Scanner) (methods : List Method) : Scanner :=
  methods.foldl (fun s method => (s.ask method).2) s

/-- What is still to be yielded before the end. -/
def yields (s : Scanner) : List (Except ScanError (Option Lexeme)) :=
  entries (scanFrom s.comments s.position s.rest)

/-- A scanner that knows of a failure is at the end of the text. -/
def Settled (s : Scanner) : Prop := s.failed = true → s.rest = []

theorem yields_nil {s : Scanner} (h : s.rest = []) : s.yields = [] := by
  rw [yields, h, scanFrom_nil]
  rfl

/-- One step without a look at failures. -/
theorem nextLexeme_spec {s : Scanner} (hs : s.Settled) :
    s.nextLexeme.1 = s.yields.head?.getD (.ok none) ∧ s.nextLexeme.2.yields = s.yields.tail ∧
      s.nextLexeme.2.Settled ∧ ∀ e, s.nextLexeme.1 = .error e → s.nextLexeme.2.rest = [] := by
  rw [nextLexeme]
  cases hscan : Token.scan s.comments (Token.splitGap s.comments s.rest).2 with
  | finished =>
    simp only [hscan, yields, scanFrom_finished hscan, scanFrom_nil]
    exact ⟨rfl, rfl, fun _ => rfl, fun e he => by cases he⟩
  | found t behind =>
    simp only [hscan, yields, scanFrom_found hscan]
    refine ⟨rfl, rfl, fun hfailed => ?_, fun e he => by cases he⟩
    -- The text of a scanner that knows of a failure is empty, and no token is found in it.
    rw [hs hfailed] at hscan
    cases hscan
  | unterminated =>
    simp only [hscan, yields, scanFrom_unterminated hscan, scanFrom_nil]
    exact ⟨rfl, rfl, fun _ => rfl, fun _ _ => trivial⟩

/-- Either way of asking yields the first entry and leaves the others. -/
theorem ask_spec {s : Scanner} (hs : s.Settled) (method : Method) :
    (s.ask method).1 = s.yields.head?.getD (.ok none) ∧ (s.ask method).2.yields = s.yields.tail ∧
      (s.ask method).2.Settled := by
  obtain ⟨hyield, hrest, hsettled, herror⟩ := nextLexeme_spec hs
  cases method with
  | nextLexeme => exact ⟨hyield, hrest, hsettled⟩
  | next =>
    rw [ask, next]
    by_cases hfailed : s.failed = true
    · rw [if_pos hfailed, yields_nil (hs hfailed)]
      exact ⟨rfl, rfl, hs⟩
    · rw [if_neg hfailed]
      rcases hstep : s.nextLexeme with ⟨_ | lexeme?, t⟩
      · rw [hstep] at hyield hrest herror
        exact ⟨hyield, hrest, fun _ => herror _ rfl⟩
      · rw [hstep] at hyield hrest hsettled
        exact ⟨hyield, hrest, hsettled⟩

/-- Behind a turn that yields no lexeme nothing is left. -/
theorem yields_ask_eq_nil {s : Scanner} (hs : s.Settled) {method : Method}
    (h : ∀ x, (s.ask method).1 ≠ .ok (some x)) : (s.ask method).2.yields = [] := by
  obtain ⟨hyield, hrest, -⟩ := ask_spec hs method
  rw [hrest]
  exact tail_entries fun x => hyield ▸ h x

/-- Each turn takes one entry. -/
theorem yields_after {s : Scanner} (hs : s.Settled) (methods : List Method) :
    (s.after methods).yields = s.yields.drop methods.length ∧ (s.after methods).Settled := by
  induction methods generalizing s with
  | nil => exact ⟨rfl, hs⟩
  | cons method methods ih =>
    obtain ⟨-, hrest, hsettled⟩ := ask_spec hs method
    obtain ⟨hyields, hafter⟩ := ih hsettled
    refine ⟨?_, hafter⟩
    rw [List.length_cons, ← List.drop_tail, ← hrest]
    exact hyields

theorem ask_after {s : Scanner} (hs : s.Settled) (methods : List Method) (method : Method) :
    ((s.after methods).ask method).1 = s.yields[methods.length]?.getD (.ok none) := by
  obtain ⟨hyields, hsettled⟩ := yields_after hs methods
  rw [(ask_spec hsettled method).1, hyields, List.head?_drop]

/-- **Asked in whatever turns, a scanner yields one sequence**: the n-th turn, either way, yields
its n-th entry. First come the lexemes, then the error if there is one, then nothing: behind a turn
that yields no lexeme all turns yield nothing. The lexemes of the text are those of the sequence,
unless it ends with the error. -/
theorem reply_after_turns (comments : Bool) (text : String) (log : Log) (methods : List Method)
    (method : Method) :
    let found := (start comments text).drain.1
    let s := (start comments text log).after methods
    (s.ask method).1 = (entries found)[methods.length]?.getD (.ok none) ∧
    ((∀ x, (s.ask method).1 ≠ .ok (some x)) → ∀ more method',
      (((s.ask method).2.after more).ask method').1 = .ok none) ∧
    lexemes comments text =
      match found with
      | (xs, none) => .ok xs
      | (_, some e) => .error e := by
  intro found s
  have hfound : found = scanFrom comments {} text.toList := drain_start_eq comments text #[]
  have hstart : (start comments text log).Settled := nofun
  have hyields : (start comments text log).yields = entries found := by rw [hfound]; rfl
  obtain ⟨-, hs⟩ := yields_after hstart methods
  refine ⟨?_, ?_, by rw [hfound]; exact lexemes_eq comments text⟩
  · rw [← hyields]
    exact ask_after hstart methods method
  · intro hlast more method'
    obtain ⟨-, -, hsettled⟩ := ask_spec hs method
    rw [ask_after hsettled, yields_ask_eq_nil hs hlast]
    rfl

/-- `nextLexeme` meets the quoted text that is never closed, and `next`, which has not seen that,
finds nothing behind it. -/
theorem reply_after_turns_unclosed :
    (((start false "a \"b").after [.next]).ask .nextLexeme).1
      = .error (.unterminatedString ⟨1, 3⟩) ∧
    ∀ more, (((((start false "a \"b").after [.next]).ask .nextLexeme).2.after more).ask .next).1
      = .ok none := by
  have hfailed : (((start false "a \"b").after [.next]).ask .nextLexeme).1
      = .error (.unterminatedString ⟨1, 3⟩) := by
    with_unfolding_all rfl
  refine ⟨hfailed, fun more => ?_⟩
  refine (reply_after_turns false "a \"b" #[] [.next] .nextLexeme).2.1 (fun x hx => ?_) more .next
  cases hfailed.symm.trans hx

end Scanner

end Sexpr
