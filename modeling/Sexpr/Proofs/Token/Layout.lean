import Mathlib.Data.List.Chain
import Sexpr.Proofs.Token.Grammar

/-!
# A text as gaps and tokens

A layout is a sequence of tokens, each with the gap in front of it, and a gap at the end. It is
valid if its gaps are gaps, its tokens are well formed, and a gap stands between two tokens that
need one. The main statement is `lexemes_eq_ok_iff_layout`: a text has the tokens of its one valid
layout, and has no tokens if it has no such layout.

For that the scanner is first taken as a function of the text alone, `scanFrom`.
-/

namespace Sexpr

/-! ## The scanner as a function of the text -/

/-- The lexemes of a text whose first character stands at a position, and the error behind them if
there is one. -/
def scanFrom (comments : Bool) (p : Position) (cs : List Char) : List Lexeme × Option ScanError :=
  match _h : Token.scan comments (Token.splitGap comments cs).2 with
  | .finished => ([], none)
  | .found t rest =>
    (scanFrom comments ((p.advance (Token.splitGap comments cs).1).advance t.text.toList) rest).map
      ({ token := t, location := (p.advance (Token.splitGap comments cs).1).toLocation } :: ·) id
  | .unterminated =>
    ([], some (.unterminatedString (p.advance (Token.splitGap comments cs).1).toLocation))
termination_by cs.length
decreasing_by
  have hlt := Token.length_lt_of_scan _h
  have hgap := congrArg List.length (Token.splitGap_append comments cs)
  rw [List.length_append] at hgap
  omega

section

variable {comments : Bool} {p : Position} {cs rest : List Char} {t : Token}

theorem scanFrom_finished (h : Token.scan comments (Token.splitGap comments cs).2 = .finished) :
    scanFrom comments p cs = ([], none) := by
  rw [scanFrom]
  split <;> simp_all

theorem scanFrom_found (h : Token.scan comments (Token.splitGap comments cs).2 = .found t rest) :
    scanFrom comments p cs =
      (scanFrom comments ((p.advance (Token.splitGap comments cs).1).advance t.text.toList)
        rest).map
          ({ token := t, location := (p.advance (Token.splitGap comments cs).1).toLocation } :: ·)
          id := by
  rw [scanFrom]
  split <;> simp_all

theorem scanFrom_unterminated
    (h : Token.scan comments (Token.splitGap comments cs).2 = .unterminated) :
    scanFrom comments p cs = ([], some (.unterminatedString
      (p.advance (Token.splitGap comments cs).1).toLocation)) := by
  rw [scanFrom]
  split <;> simp_all

/-- What is found behind the gap in front is a well-formed token that nothing goes on. -/
theorem found_spec (h : Token.scan comments (Token.splitGap comments cs).2 = .found t rest) :
    Gap comments (Token.splitGap comments cs).1 ∧ t.WellFormed comments ∧
      Token.EndsBefore comments t rest := by
  obtain ⟨c, ds, heq⟩ : ∃ c ds, (Token.splitGap comments cs).2 = c :: ds := by
    refine List.exists_cons_of_ne_nil ?_
    rw [← Token.scan_append h]
    simp [Token.text_ne_nil_of_scan h]
  obtain ⟨hg, hc⟩ := gap_splitGap heq
  rw [heq] at h
  exact ⟨hg, Token.wellFormed_of_scan hc h⟩

end

namespace Scanner

/-- One step of a scanner that has not failed, by what stands behind the gap. -/
theorem next_eq (s : Scanner) (hs : s.failed = false) : s.next =
    match Token.scan s.comments (Token.splitGap s.comments s.rest).2 with
    | .finished => (.ok none, { s with
        rest := []
        position := s.position.advance (Token.splitGap s.comments s.rest).1 })
    | .found t behind =>
      let first := s.position.advance (Token.splitGap s.comments s.rest).1
      (.ok (some { token := t, location := first.toLocation }), { s with
        rest := behind
        position := first.advance t.text.toList
        log := s.log.push (.token t.text first.toLocation) })
    | .unterminated =>
      let first := s.position.advance (Token.splitGap s.comments s.rest).1
      (.error (.unterminatedString first.toLocation), { s with
        rest := []
        position := first.advance (Token.splitGap s.comments s.rest).2
        failed := true }) := by
  obtain ⟨comments, rest, position, failed, log⟩ := s
  cases hs
  simp only [next, nextLexeme, Bool.false_eq_true, if_false]
  cases Token.scan comments (Token.splitGap comments rest).2 <;> rfl

theorem drain_go_eq (s : Scanner) (found : List Lexeme) (hs : s.failed = false) :
    (drain.go s found).1 = (found.reverse ++ (scanFrom s.comments s.position s.rest).1,
      (scanFrom s.comments s.position s.rest).2) := by
  fun_induction drain.go s found with
  | case1 s found x t h ih =>
    rw [next_eq s hs] at h
    split at h
    · cases h
    · rename_i hscan
      cases h
      rw [ih hs, scanFrom_found hscan]
      simp
    · cases h
  | case2 s found t h =>
    rw [next_eq s hs] at h
    split at h <;> cases h
    rename_i hscan
    simp [scanFrom_finished hscan]
  | case3 s found e t h =>
    rw [next_eq s hs] at h
    split at h <;> cases h
    rename_i hscan
    simp [scanFrom_unterminated hscan]

end Scanner

/-- All that the scanner yields is what is found from the first character on. The log that it goes
on with has no part in it. -/
theorem Scanner.drain_start_eq (comments : Bool) (text : String) (log : Log) :
    (Scanner.start comments text log).drain.1 = scanFrom comments {} text.toList :=
  Scanner.drain_go_eq (Scanner.start comments text log) [] rfl

/-- The lexemes of a text are those found from its first character on, unless an error ends them. -/
theorem Scanner.collect_start_eq (comments : Bool) (text : String) (log : Log) :
    (Scanner.start comments text log).collect.1 =
      match scanFrom comments {} text.toList with
      | (xs, none) => .ok xs
      | (_, some e) => .error e := by
  rw [Scanner.collect, ← Scanner.drain_start_eq comments text log]
  rcases (Scanner.start comments text log).drain with ⟨⟨xs, e⟩, s⟩
  cases e <;> rfl

theorem lexemes_eq (comments : Bool) (text : String) : lexemes comments text =
    match scanFrom comments {} text.toList with
    | (xs, none) => .ok xs
    | (_, some e) => .error e := Scanner.collect_start_eq comments text #[]

/-! ## Layouts -/

/-- Tokens with the gaps around them. -/
structure Layout where
  /-- Each token with the gap in front of it. -/
  items : List (List Char × Token)
  /-- The gap at the end. -/
  trailing : List Char

namespace Layout

def tokens (l : Layout) : List Token := l.items.map Prod.snd

/-- The gaps and the tokens written one behind the other. -/
def text (l : Layout) : List Char :=
  l.items.flatMap (fun i => i.1 ++ i.2.text.toList) ++ l.trailing

structure Valid (comments : Bool) (l : Layout) : Prop where
  gap : ∀ i ∈ l.items, Gap comments i.1
  token : ∀ i ∈ l.items, i.2.WellFormed comments
  trailing : FinalGap comments l.trailing
  apart : l.items.IsChain fun i j => Token.NeedsGap comments i.2 j.2 → j.1 ≠ []

/-- The layout with one more token in front. -/
def cons (g : List Char) (t : Token) (l : Layout) : Layout := ⟨(g, t) :: l.items, l.trailing⟩

@[elab_as_elim]
theorem induction {motive : Layout → Prop} (nil : ∀ g, motive ⟨[], g⟩)
    (cons : ∀ g t l, motive l → motive (cons g t l)) (l : Layout) : motive l := by
  obtain ⟨items, trailing⟩ := l
  induction items with
  | nil => exact nil trailing
  | cons i items ih => exact cons i.1 i.2 ⟨items, trailing⟩ ih

variable {comments : Bool} {g : List Char} {t : Token} {l r : Layout}

theorem text_cons : (cons g t l).text = g ++ (t.text.toList ++ l.text) := by
  simp [cons, text]

theorem tokens_cons : (cons g t l).tokens = t :: l.tokens := rfl

theorem Valid.tail (h : (cons g t l).Valid comments) : l.Valid comments :=
  ⟨fun i hi => h.gap i (List.mem_cons_of_mem _ hi),
    fun i hi => h.token i (List.mem_cons_of_mem _ hi), h.trailing, (List.isChain_cons.1 h.apart).2⟩

/-- A token ends in front of a layout exactly if the gap there is not missing. -/
theorem endsBefore_text_iff (hl : l.Valid comments) : Token.EndsBefore comments t l.text ↔
    ∀ i ∈ l.items.head?, Token.NeedsGap comments t i.2 → i.1 ≠ [] := by
  induction l using Layout.induction generalizing t with
  | nil trailing =>
    refine ⟨fun _ => by simp, fun _ => ?_⟩
    have htrailing := hl.trailing
    cases trailing with
    | nil => exact Token.endsBefore_nil
    | cons c cs => exact Token.endsBefore_of_startsGap (htrailing.startsGap_head rfl) cs
  | cons g u l ih =>
    have hg := hl.gap (g, u) (by simp [cons])
    have hu := hl.token (g, u) (by simp [cons])
    have hbefore := (ih hl.tail).2 (List.isChain_cons.1 hl.apart).1
    rw [text_cons]
    cases g with
    | nil =>
      rw [List.nil_append, Token.endsBefore_token_iff hu hbefore]
      simp [cons]
    | cons c g =>
      refine ⟨fun _ => by simp [cons], fun _ => ?_⟩
      exact Token.endsBefore_of_startsGap (hg.startsGap_head rfl) _

/-- A layout is valid step by step: the token in front ends where the rest of the text begins. -/
theorem valid_cons_iff : (cons g t l).Valid comments ↔
    Gap comments g ∧ t.WellFormed comments ∧ Token.EndsBefore comments t l.text ∧
      l.Valid comments := by
  constructor
  · intro h
    exact ⟨h.gap (g, t) (by simp [cons]), h.token (g, t) (by simp [cons]),
      (endsBefore_text_iff h.tail).2 (List.isChain_cons.1 h.apart).1, h.tail⟩
  · rintro ⟨hg, ht, hbefore, hl⟩
    refine ⟨?_, ?_, hl.trailing, List.isChain_cons.2 ⟨?_, hl.apart⟩⟩
    · rintro i (_ | ⟨_, hi⟩)
      · exact hg
      · exact hl.gap i hi
    · rintro i (_ | ⟨_, hi⟩)
      · exact ht
      · exact hl.token i hi
    · exact (endsBefore_text_iff hl).1 hbefore

/-! ## A text scans to the tokens of its layout -/

theorem splitGap_text (h : (cons g t l).Valid comments) :
    Token.splitGap comments (cons g t l).text = (g, t.text.toList ++ l.text) := by
  obtain ⟨hg, ht, -, -⟩ := valid_cons_iff.1 h
  obtain ⟨c, cs, heq, hc⟩ := ht.exists_head
  rw [text_cons, heq, List.cons_append]
  exact splitGap_append_eq hg hc _

theorem scan_text (h : (cons g t l).Valid comments) :
    Token.scan comments (Token.splitGap comments (cons g t l).text).2 = .found t l.text := by
  obtain ⟨-, ht, hbefore, -⟩ := valid_cons_iff.1 h
  rw [splitGap_text h]
  exact Token.scan_text_append ht hbefore

theorem splitGap_text_nil (h : (⟨[], g⟩ : Layout).Valid comments) :
    Token.splitGap comments (⟨[], g⟩ : Layout).text = (g, []) := splitGap_final h.trailing

/-- The lexemes of tokens with gaps in front of them, from a position on. -/
def lexemesAt (p : Position) : List (List Char × Token) → List Lexeme
  | [] => []
  | (g, t) :: items =>
    { token := t, location := (p.advance g).toLocation } ::
      lexemesAt ((p.advance g).advance t.text.toList) items

theorem tokens_lexemesAt (p : Position) (items : List (List Char × Token)) :
    (lexemesAt p items).map Lexeme.token = items.map Prod.snd := by
  induction items generalizing p with
  | nil => rfl
  | cons i items ih => rw [lexemesAt, List.map_cons, ih, List.map_cons]

/-- Every valid layout scans to its own lexemes, wherever its text begins. -/
theorem scanFrom_text_eq (hl : l.Valid comments) (p : Position) :
    scanFrom comments p l.text = (lexemesAt p l.items, none) := by
  induction l using Layout.induction generalizing p with
  | nil trailing =>
    refine scanFrom_finished ?_
    rw [splitGap_text_nil hl]
    rfl
  | cons g t l ih =>
    rw [scanFrom_found (scan_text hl), splitGap_text hl, ih hl.tail]
    rfl

theorem scanFrom_text (hl : l.Valid comments) (p : Position) :
    ∃ xs, scanFrom comments p l.text = (xs, none) ∧ xs.map Lexeme.token = l.tokens :=
  ⟨_, scanFrom_text_eq hl p, tokens_lexemesAt p l.items⟩

/-- Whatever scans without an error has a valid layout with the tokens found. -/
theorem exists_of_scanFrom {p : Position} {cs : List Char} {xs : List Lexeme}
    (h : scanFrom comments p cs = (xs, none)) :
    ∃ l : Layout, l.Valid comments ∧ l.tokens = xs.map Lexeme.token ∧ l.text = cs := by
  fun_induction scanFrom comments p cs generalizing xs with
  | case1 p cs hscan =>
    cases h
    have happ := Token.splitGap_append comments cs
    rw [Token.eq_nil_of_scan_finished hscan, List.append_nil] at happ
    refine ⟨⟨[], cs⟩, ⟨by simp, by simp, ?_, .nil⟩, rfl, rfl⟩
    rw [← happ]
    exact finalGap_splitGap cs
  | case2 p cs t rest hscan ih =>
    obtain ⟨hxs, hnone⟩ := Prod.mk.inj h
    obtain ⟨l, hl, htokens, htext⟩ := ih (Prod.ext rfl hnone)
    have happ := Token.splitGap_append comments cs
    have hfound := Token.scan_append hscan
    obtain ⟨hg, ht, hbefore⟩ := found_spec hscan
    refine ⟨cons (Token.splitGap comments cs).1 t l, ?_, ?_, ?_⟩
    · exact valid_cons_iff.2 ⟨hg, ht, htext ▸ hbefore, hl⟩
    · rw [tokens_cons, htokens, ← hxs]
      rfl
    · rw [text_cons, htext, hfound, happ]
  | case3 p cs hscan => cases h

/-- A text has at most one valid layout. -/
theorem eq_of_text_eq (hl : l.Valid comments) (hr : r.Valid comments) (h : l.text = r.text) :
    l = r := by
  induction l using Layout.induction generalizing r with
  | nil g =>
    induction r using Layout.induction with
    | nil g' => exact congrArg (mk []) h
    | cons g' t' r _ =>
      have hscan := scan_text hr
      rw [← h, splitGap_text_nil hl] at hscan
      cases hscan
  | cons g t l ih =>
    have hgap := splitGap_text hl
    have hscan := scan_text hl
    rw [h] at hgap hscan
    induction r using Layout.induction with
    | nil g' =>
      rw [splitGap_text_nil hr] at hscan
      cases hscan
    | cons g' t' r _ =>
      obtain ⟨hg, -⟩ := Prod.mk.inj ((splitGap_text hr).symm.trans hgap)
      injection (scan_text hr).symm.trans hscan with htoken htext
      rw [hg, htoken, ih hl.tail hr.tail htext.symm]

end Layout

theorem exists_layout_of_lexemes {comments : Bool} {text : String} {xs : List Lexeme}
    (h : lexemes comments text = .ok xs) :
    ∃ l : Layout, l.Valid comments ∧ l.tokens = xs.map Lexeme.token ∧ l.text = text.toList := by
  rw [lexemes_eq] at h
  split at h <;> cases h
  rename_i hscan
  exact Layout.exists_of_scanFrom hscan

theorem lexemes_of_layout {comments : Bool} {text : String} {l : Layout} (hl : l.Valid comments)
    (htext : l.text = text.toList) :
    ∃ xs, lexemes comments text = .ok xs ∧ xs.map Lexeme.token = l.tokens := by
  obtain ⟨xs, hxs, htokens⟩ := Layout.scanFrom_text hl {}
  refine ⟨xs, ?_, htokens⟩
  rw [lexemes_eq, ← htext, hxs]

/-- **The scanner accepts exactly its grammar.** A text has tokens `ts` if and only if it is laid
out as gaps and the texts of these tokens, with a gap wherever two neighbours need one; and it can
be laid out in one way only. -/
theorem lexemes_eq_ok_iff_layout (comments : Bool) (text : String) :
    (∀ ts, (∃ xs, lexemes comments text = .ok xs ∧ xs.map Lexeme.token = ts) ↔
      ∃ l : Layout, l.Valid comments ∧ l.tokens = ts ∧ l.text = text.toList) ∧
    (∀ l r : Layout, l.Valid comments → r.Valid comments → l.text = text.toList →
      r.text = text.toList → l = r) := by
  refine ⟨fun ts => ⟨?_, ?_⟩, ?_⟩
  · rintro ⟨xs, hxs, rfl⟩
    exact exists_layout_of_lexemes hxs
  · rintro ⟨l, hl, rfl, htext⟩
    exact lexemes_of_layout hl htext
  · intro l r hl hr hltext hrtext
    exact Layout.eq_of_text_eq hl hr (hltext.trans hrtext.symm)

end Sexpr
