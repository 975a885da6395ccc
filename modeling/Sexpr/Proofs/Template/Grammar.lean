import Sexpr.Proofs.Text.Decimal
import Sexpr.Template.Parser

/-!
# The grammar of templates

A sequence of host tokens splits from left to right into segments, one for each element. `Leaf` says
which tokens are an element that is no list. Some of them depend on the token behind them: a minus
sign stands for itself only if no literal follows, and a run of punctuation ends where it must.
`Segments` adds the groups, whose content splits in the same way.

* `leaf_of_segment`, `segment_of_leaf`: the elements that are no lists, found and written;
* `Segments.unique`: no sequence has two splits;
* `parse_eq_ok_iff_segments`: **exactly the sequences that split are parsed**, and each token is a
  part of one element.
-/

namespace Sexpr.Template

open Decimal

/-- Whether a run of punctuation ends in front of what follows: anything but another character for
symbols or a name. -/
def stopsRun : Option HostToken → Bool
  | some (.punct c _) => !isSymbolPunct c
  | some (.ident _) => false
  | _ => true

/-- How a run of punctuation ends, given the token behind it, and what its end adds to the name: a
character that stands alone, a name, or nothing where no more characters follow. -/
inductive RunEnd : List HostToken → Option HostToken → String → Prop where
  | alone {c : Char} {next : Option HostToken} (hc : isSymbolPunct c = true) :
    RunEnd [.punct c .alone] next (String.singleton c)
  | name {next : Option HostToken} (part : String) : RunEnd [.ident part] next part
  | cut {next : Option HostToken} (h : stopsRun next = true) : RunEnd [] next ""

/-- The characters of a literal without its underscores. -/
def numerals (literal : String) : List Char := literal.toList.filter (· != '_')

/-- The tokens of an element that is no list, given the token behind them. -/
inductive Leaf : List HostToken → Option HostToken → Template → Prop where
  | name {next : Option HostToken} (part : String) : Leaf [.ident part] next (.symbol part)
  | text {next : Option HostToken} {literal : String} (h : literal.toList.head? = some '"') :
    Leaf [.literal literal] next (.text literal)
  | integer {next : Option HostToken} {literal : String} {n : Int64}
    (hdigit : ∃ d, literal.toList.head? = some d ∧ d.isDigit = true)
    (h : Denotes (numerals literal) n.toInt) : Leaf [.literal literal] next (.integer n)
  | quoted {next : Option HostToken} {spacing : Spacing} {literal name : String}
    (h : literal.toList = '"' :: name.toList ++ ['"']) :
    Leaf [.punct '#' spacing, .literal literal] next (.symbol name)
  | unquoted {next : Option HostToken} {spacing : Spacing} (t : HostToken) :
    Leaf [.punct ',' spacing, t] next (.unquoted t)
  | negative {next : Option HostToken} {literal : String} {n : Int64}
    (h : Denotes ('-' :: numerals literal) n.toInt) :
    Leaf [.punct '-' .alone, .literal literal] next (.integer n)
  | alone {next : Option HostToken} {c : Char} (hc : isSymbolPunct c = true)
    (h : c = '-' → ∀ literal, next ≠ some (.literal literal)) :
    Leaf [.punct c .alone] next (.symbol (String.singleton c))
  | run {next : Option HostToken} {c : Char} {cs : List Char} {last : List HostToken}
    {part : String} (hcs : ∀ d ∈ c :: cs, isSymbolPunct d = true) (hlast : RunEnd last next part) :
    Leaf ((c :: cs).map (.punct · .joint) ++ last) next (.symbol (String.ofList (c :: cs) ++ part))

/-- The segments of a sequence of tokens, one for each element. -/
inductive Segments : List (List HostToken) → List Template → Prop where
  | nil : Segments [] []
  | leaf {tokens : List HostToken} {segments : List (List HostToken)} {t : Template}
    {ts : List Template} (h : Leaf tokens segments.flatten.head? t) (hs : Segments segments ts) :
    Segments (tokens :: segments) (t :: ts)
  | list {inner segments : List (List HostToken)} {elements ts : List Template}
    (h : Segments inner elements) (hs : Segments segments ts) :
    Segments ([.group .parenthesis inner.flatten] :: segments) (.list elements :: ts)

/-! ## Runs of punctuation -/

/-- A run takes the characters that stand together and its end, and no more. -/
theorem exists_of_symbolRun (name : String) (ts : List HostToken) : ∃ cs last part,
    (∀ d ∈ cs, isSymbolPunct d = true) ∧ RunEnd last (symbolRun name ts).2.head? part ∧
      ts = cs.map (.punct · .joint) ++ last ++ (symbolRun name ts).2 ∧
      (symbolRun name ts).1 = name ++ String.ofList cs ++ part := by
  fun_induction symbolRun name ts with
  | case1 name c ts hc => exact ⟨[], _, _, List.forall_mem_nil _, .alone hc, rfl, by simp⟩
  | case2 name c ts hc ih =>
    obtain ⟨cs, last, part, hcs, hlast, hts, hname⟩ := ih
    refine ⟨c :: cs, last, part, List.forall_mem_cons.2 ⟨hc, hcs⟩, hlast, ?_, ?_⟩
    · rw [List.map_cons, List.cons_append, List.cons_append, ← hts]
    · rw [hname, String.push_eq_append, String.ofList_cons]
      simp only [String.append_assoc]
  | case3 name c spacing ts hc =>
    exact ⟨[], [], "", List.forall_mem_nil _, .cut (by simpa [stopsRun] using hc), rfl, by simp⟩
  | case4 name part ts => exact ⟨[], _, _, List.forall_mem_nil _, .name part, rfl, by simp⟩
  | case5 name ts hpunct hident =>
    refine ⟨[], [], "", List.forall_mem_nil _, .cut ?_, rfl, by simp⟩
    cases ts with
    | nil => rfl
    | cons t ts =>
      cases t with
      | ident part => exact absurd rfl (hident part ts)
      | punct c spacing => exact absurd rfl (hpunct c spacing ts)
      | literal | group => rfl

theorem symbolRun_of_stopsRun {rest : List HostToken} (h : stopsRun rest.head? = true)
    (name : String) : symbolRun name rest = (name, rest) := by
  cases rest with
  | nil => rfl
  | cons t rest =>
    cases t with
    | ident part => cases h
    | punct c spacing =>
      have hc : isSymbolPunct c = false := by simpa [stopsRun] using h
      simp [symbolRun, hc]
    | literal | group => rfl

/-- Characters that stand together, and what ends them, make one run. -/
theorem symbolRun_eq {cs : List Char} {last rest : List HostToken} {part : String}
    (hcs : ∀ d ∈ cs, isSymbolPunct d = true) (hlast : RunEnd last rest.head? part) (name : String) :
    symbolRun name (cs.map (.punct · .joint) ++ (last ++ rest))
      = (name ++ String.ofList cs ++ part, rest) := by
  induction cs generalizing name with
  | nil =>
    cases hlast with
    | alone hc => simp [symbolRun, hc]
    | name part => simp [symbolRun]
    | cut h => simpa using symbolRun_of_stopsRun h name
  | cons c cs ih =>
    obtain ⟨hc, hcs⟩ := List.forall_mem_cons.1 hcs
    rw [List.map_cons, List.cons_append, symbolRun, if_pos hc, ih hcs, String.push_eq_append,
      String.ofList_cons]
    simp only [String.append_assoc]

/-! ## Literals -/

/-- An integer literal is read as the word it denotes without its underscores. -/
theorem integerOf_eq_ok_iff {negated : Bool} {literal : String} {t : Template} :
    integerOf negated literal = .ok t ↔ ∃ n : Int64, t = .integer n ∧
      Denotes (if negated then '-' :: numerals literal else numerals literal) n.toInt := by
  simp only [← int64?_eq_some_iff, integerOf, numerals]
  split
  · rename_i n hn
    simp [hn, eq_comm]
  · rename_i hn
    simp [hn]

/-- The name that a literal in double quotes spells is what stands between them. -/
theorem unquote?_eq_some_iff {literal name : String} :
    unquote? literal = some name ↔ literal.toList = '"' :: name.toList ++ ['"'] := by
  unfold unquote?
  constructor
  · intro h
    split at h
    · rename_i cs hcs
      split at h
      · rename_i hlast
        obtain ⟨front, rfl⟩ := List.getLast?_eq_some_iff.1 (beq_iff_eq.1 hlast)
        cases h
        rw [hcs, List.dropLast_concat, String.toList_ofList]
        rfl
      · cases h
    · cases h
  · intro h
    rw [h]
    simp

/-- A literal on its own is text by its quote, or an integer by its digit. -/
theorem leaf_of_ofLiteral {literal : String} {t : Template} (h : ofLiteral literal = .ok t)
    (next : Option HostToken) : Leaf [.literal literal] next t := by
  unfold ofLiteral at h
  split at h
  · rename_i cs hcs
    cases h
    exact .text (by rw [hcs]; rfl)
  · rename_i c cs hne hcs
    split at h
    · rename_i hdigit
      obtain ⟨n, rfl, hn⟩ := integerOf_eq_ok_iff.1 h
      exact .integer ⟨c, by rw [hcs]; rfl, hdigit⟩ hn
    · cases h
  · cases h

/-! ## Elements that are no lists -/

section

variable {c : Char} {spacing : Spacing} {t : HostToken} {tokens ts rest : List HostToken}
  {element : Template}

theorem ne_of_isSymbolPunct (hc : isSymbolPunct c = true) : c ≠ '#' ∧ c ≠ ',' := by
  constructor <;> rintro rfl <;> exact absurd hc (by decide)

theorem punctSegment_hash (spacing : Spacing) (ts : List HostToken) :
    punctSegment '#' spacing ts = hashSegment ts := by
  unfold punctSegment
  rw [if_pos rfl]

theorem punctSegment_joint (hc : isSymbolPunct c = true) (ts : List HostToken) :
    punctSegment c .joint ts = .ok (.complete (.symbol (symbolRun (String.singleton c) ts).1),
      (symbolRun (String.singleton c) ts).2) := by
  obtain ⟨hhash, hcomma⟩ := ne_of_isSymbolPunct hc
  unfold punctSegment
  rw [if_neg hhash, if_neg hcomma, if_pos hc]

theorem punctSegment_minus (literal : String) (ts : List HostToken) :
    punctSegment '-' .alone (.literal literal :: ts)
      = (integerOf true literal).map fun n => (.complete n, ts) := by
  have hminus : isSymbolPunct '-' = true := by decide
  obtain ⟨hhash, hcomma⟩ := ne_of_isSymbolPunct hminus
  unfold punctSegment
  rw [if_neg hhash, if_neg hcomma, if_pos hminus]
  cases h : integerOf true literal <;> simp [h, Except.map]

theorem punctSegment_alone (hc : isSymbolPunct c = true)
    (h : c = '-' → ∀ literal, ts.head? ≠ some (.literal literal)) :
    punctSegment c .alone ts = .ok (.complete (.symbol (String.singleton c)), ts) := by
  obtain ⟨hhash, hcomma⟩ := ne_of_isSymbolPunct hc
  unfold punctSegment
  rw [if_neg hhash, if_neg hcomma, if_pos hc]
  split
  · contradiction
  split
  · exact absurd rfl (h rfl _)
  · rfl

theorem leaf_of_hashSegment (h : hashSegment ts = .ok (.complete element, rest))
    (spacing : Spacing) :
    ∃ tokens, .punct '#' spacing :: ts = tokens ++ rest ∧ Leaf tokens rest.head? element := by
  unfold hashSegment at h
  split at h
  · rename_i literal ts
    split at h <;> cases h
    rename_i name hname
    exact ⟨[.punct '#' spacing, .literal literal], rfl, .quoted (unquote?_eq_some_iff.1 hname)⟩
  all_goals cases h

theorem leaf_of_punctSegment (h : punctSegment c spacing ts = .ok (.complete element, rest)) :
    ∃ tokens, .punct c spacing :: ts = tokens ++ rest ∧ Leaf tokens rest.head? element := by
  by_cases hc : isSymbolPunct c = true
  · cases spacing with
    | joint =>
      obtain ⟨cs, last, part, hcs, hlast, hts, hname⟩ :=
        exists_of_symbolRun (String.singleton c) ts
      rw [punctSegment_joint hc] at h
      cases h
      refine ⟨(c :: cs).map (.punct · .joint) ++ last, ?_, ?_⟩
      · rw [List.map_cons, List.cons_append, List.cons_append, ← hts]
      · rw [hname, ← String.ofList_cons]
        exact .run (List.forall_mem_cons.2 ⟨hc, hcs⟩) hlast
    | alone =>
      -- A minus sign in front of a literal takes the literal along, or fails with it.
      by_cases hminus : c = '-' ∧ ∃ literal, ts.head? = some (.literal literal)
      · obtain ⟨rfl, literal, hhead⟩ := hminus
        obtain ⟨ts, rfl⟩ := List.head?_eq_some_iff.1 hhead
        rw [punctSegment_minus] at h
        cases hn : integerOf true literal with
        | error e =>
          rw [hn] at h
          cases h
        | ok n =>
          rw [hn] at h
          cases h
          obtain ⟨n, rfl, hdenotes⟩ := integerOf_eq_ok_iff.1 hn
          exact ⟨[.punct '-' .alone, .literal literal], rfl, .negative hdenotes⟩
      · have hno : c = '-' → ∀ literal, ts.head? ≠ some (.literal literal) :=
          fun heq literal hhead => hminus ⟨heq, literal, hhead⟩
        rw [punctSegment_alone hc hno] at h
        cases h
        exact ⟨[.punct c .alone], rfl, .alone hc hno⟩
  · unfold punctSegment at h
    split at h
    · rename_i hhash
      subst hhash
      exact leaf_of_hashSegment h spacing
    split at h
    · rename_i hcomma
      subst hcomma
      split at h <;> cases h
      exact ⟨[.punct ',' spacing, _], rfl, .unquoted _⟩
    · cases h

/-- The tokens that an element takes up are those of its kind, given the token behind them. -/
theorem leaf_of_segment (h : segment t ts = .ok (.complete element, rest)) :
    ∃ tokens, t :: ts = tokens ++ rest ∧ Leaf tokens rest.head? element := by
  unfold segment at h
  split at h
  · rename_i part
    cases h
    exact ⟨[.ident part], rfl, .name part⟩
  · rename_i literal
    split at h <;> cases h
    rename_i hliteral
    exact ⟨[.literal literal], rfl, leaf_of_ofLiteral hliteral _⟩
  · exact leaf_of_punctSegment h
  · cases h
  · cases h

/-- The tokens of an element that is no list are its segment, if the token behind them is there. -/
theorem segment_of_leaf (h : Leaf tokens rest.head? element) :
    ∃ t ts, tokens ++ rest = t :: ts ∧ segment t ts = .ok (.complete element, rest) := by
  generalize hnext : rest.head? = next at h
  cases h with
  | name part => exact ⟨_, _, rfl, rfl⟩
  | @text _ literal h =>
    obtain ⟨cs, hcs⟩ := List.head?_eq_some_iff.1 h
    exact ⟨_, _, rfl, by simp [segment, ofLiteral, hcs]⟩
  | @integer _ literal n hdigit h =>
    obtain ⟨d, hhead, hd⟩ := hdigit
    obtain ⟨cs, hcs⟩ := List.head?_eq_some_iff.1 hhead
    have hinteger : integerOf false literal = .ok (.integer n) := integerOf_eq_ok_iff.2 ⟨n, rfl, h⟩
    have hquote : d ≠ '"' := by
      rintro rfl
      cases hd
    exact ⟨_, _, rfl, by simp [segment, ofLiteral, hcs, hd, hinteger]⟩
  | @quoted _ spacing literal name h =>
    refine ⟨_, _, rfl, (punctSegment_hash spacing _).trans ?_⟩
    simp [hashSegment, unquote?_eq_some_iff.2 h]
  | unquoted t => exact ⟨_, _, rfl, rfl⟩
  | @negative _ literal n h =>
    have hinteger : integerOf true literal = .ok (.integer n) := integerOf_eq_ok_iff.2 ⟨n, rfl, h⟩
    refine ⟨_, _, rfl, ?_⟩
    show punctSegment '-' .alone (.literal literal :: ([] ++ rest)) = _
    rw [punctSegment_minus, hinteger]
    rfl
  | alone hc h => exact ⟨_, _, rfl, punctSegment_alone hc fun heq => hnext ▸ h heq⟩
  | @run _ c cs last part hcs hlast =>
    obtain ⟨hc, hcs⟩ := List.forall_mem_cons.1 hcs
    refine ⟨_, _, rfl, ?_⟩
    show punctSegment c .joint ((cs.map (.punct · .joint) ++ last) ++ rest) = _
    rw [punctSegment_joint hc, List.append_assoc, symbolRun_eq hcs (hnext ▸ hlast),
      ← String.ofList_cons]

theorem eq_of_segment_nested {content : List HostToken}
    (h : segment t ts = .ok (.nested content, rest)) :
    t = .group .parenthesis content ∧ rest = ts := by
  obtain rfl := eq_group_of_segment_nested h
  cases h
  exact ⟨rfl, rfl⟩

end

/-! ## The elements of a sequence -/

section

variable {found es inner : List Template} {element element' t : Template} {head : HostToken}
  {tokens ts content rest rest' : List HostToken} {segments segments' : List (List HostToken)}

/-- The first element of a sequence, and the tokens behind it. -/
inductive First : List HostToken → Template → List HostToken → Prop where
  | complete {head : HostToken} {ts rest : List HostToken} {element : Template}
    (h : segment head ts = .ok (.complete element, rest)) : First (head :: ts) element rest
  | nested {content ts : List HostToken} {inner : List Template}
    (h : elements [] content = .ok inner) :
    First (.group .parenthesis content :: ts) (.list inner) ts

theorem elements_of_first (h : First ts element rest) (found : List Template) :
    elements found ts = elements (element :: found) rest := by
  cases h with
  | complete h =>
    rw [elements]
    split
    all_goals
      rename_i hsegment
      rw [h] at hsegment
      cases hsegment
    rfl
  | nested h =>
    rw [elements]
    split
    all_goals
      rename_i hsegment
      cases hsegment
    rw [h]

theorem first_of_leaf (h : Leaf tokens rest.head? element) :
    First (tokens ++ rest) element rest := by
  obtain ⟨head, ts, heq, hsegment⟩ := segment_of_leaf h
  rw [heq]
  exact .complete hsegment

theorem First.unique (h : First ts element rest) (h' : First ts element' rest') :
    element = element' ∧ rest = rest' := by
  cases h with
  | complete h =>
    cases h' with
    | complete h' =>
      rw [h] at h'
      cases h'
      exact ⟨rfl, rfl⟩
    | nested => cases h
  | nested h =>
    cases h' with
    | complete h' => cases h'
    | nested h' =>
      rw [h] at h'
      cases h'
      exact ⟨rfl, rfl⟩

/-- What is parsed splits into segments, one for each element. -/
theorem exists_segments_of_elements (h : elements found ts = .ok es) :
    ∃ segments es', es = found.reverse ++ es' ∧ segments.flatten = ts ∧ Segments segments es' := by
  fun_induction elements found ts generalizing es with
  | case1 found =>
    cases h
    exact ⟨[], [], by simp, rfl, .nil⟩
  | case2 => cases h
  | case3 found head ts element rest hsegment ih =>
    obtain ⟨segments, es', rfl, rfl, hs⟩ := ih h
    obtain ⟨tokens, hts, hleaf⟩ := leaf_of_segment hsegment
    exact ⟨tokens :: segments, element :: es', by simp, hts.symm, .leaf hleaf hs⟩
  | case4 => cases h
  | case5 found head ts content rest hsegment inner hinner ihinner ih =>
    obtain ⟨segments, es', rfl, rfl, hs⟩ := ih h
    obtain ⟨segments', _, rfl, rfl, hs'⟩ := ihinner hinner
    obtain ⟨rfl, rfl⟩ := eq_of_segment_nested hsegment
    exact ⟨_ :: segments, .list _ :: es', by simp, rfl, .list hs' hs⟩

/-- Segments are parsed one by one. -/
theorem elements_of_segments (h : Segments segments es) (found : List Template) :
    elements found segments.flatten = .ok (found.reverse ++ es) := by
  induction h generalizing found with
  | nil => simp [elements]
  | leaf h _ ih =>
    rw [List.flatten_cons, elements_of_first (first_of_leaf h), ih, List.reverse_cons,
      List.append_assoc, List.singleton_append]
  | list _ _ ihinner ih =>
    rw [List.flatten_cons, List.singleton_append, elements_of_first (.nested (ihinner [])), ih,
      List.reverse_cons, List.append_assoc, List.singleton_append, List.reverse_nil,
      List.nil_append]

theorem Leaf.ne_nil {next : Option HostToken} (h : Leaf tokens next element) : tokens ≠ [] := by
  cases h <;> simp

theorem Segments.ne_nil (h : Segments segments es) : ∀ tokens ∈ segments, tokens ≠ [] := by
  induction h with
  | nil => exact List.forall_mem_nil _
  | leaf h _ ih => exact List.forall_mem_cons.2 ⟨h.ne_nil, ih⟩
  | list _ _ _ ih => exact List.forall_mem_cons.2 ⟨List.cons_ne_nil _ _, ih⟩

/-- The first segment holds the first element, whatever it is. -/
theorem Segments.uncons (h : Segments (tokens :: segments) es) : ∃ element es',
    es = element :: es' ∧ First (tokens ++ segments.flatten) element segments.flatten ∧
      Segments segments es' := by
  cases h with
  | leaf h hs => exact ⟨_, _, rfl, first_of_leaf h, hs⟩
  | list h hs => exact ⟨_, _, rfl, .nested (elements_of_segments h []), hs⟩

theorem Segments.eq_nil_of_flatten (h : Segments segments es) (hnil : segments.flatten = []) :
    segments = [] ∧ es = [] := by
  cases segments with
  | nil =>
    cases h
    exact ⟨rfl, rfl⟩
  | cons tokens segments =>
    exact absurd (List.append_eq_nil_iff.1 hnil).1 (h.ne_nil _ List.mem_cons_self)

/-- A sequence has no two splits. -/
theorem Segments.unique {es' : List Template} (h : Segments segments es)
    (h' : Segments segments' es') (heq : segments.flatten = segments'.flatten) :
    segments = segments' ∧ es = es' := by
  induction segments generalizing segments' es es' with
  | nil =>
    obtain ⟨rfl, rfl⟩ := h'.eq_nil_of_flatten heq.symm
    cases h
    exact ⟨rfl, rfl⟩
  | cons tokens segments ih =>
    cases segments' with
    | nil =>
      obtain ⟨hnil, -⟩ := h.eq_nil_of_flatten heq
      cases hnil
    | cons tokens' segments' =>
      obtain ⟨element, es, rfl, hfirst, hs⟩ := h.uncons
      obtain ⟨element', es', rfl, hfirst', hs'⟩ := h'.uncons
      rw [List.flatten_cons, List.flatten_cons] at heq
      rw [heq] at hfirst
      obtain ⟨rfl, hrest⟩ := hfirst.unique hfirst'
      obtain ⟨rfl, rfl⟩ := ih hs hs' hrest
      exact ⟨by rw [List.append_cancel_right heq], rfl⟩

theorem elements_eq_ok_iff :
    elements [] ts = .ok es ↔ ∃ segments, segments.flatten = ts ∧ Segments segments es := by
  constructor
  · intro h
    obtain ⟨segments, es', rfl, hts, hs⟩ := exists_segments_of_elements h
    exact ⟨segments, hts, hs⟩
  · rintro ⟨segments, rfl, hs⟩
    exact elements_of_segments hs []

theorem parseList_eq_ok_iff :
    parseList ts = .ok t ↔ ∃ es, t = .list es ∧ elements [] ts = .ok es := by
  unfold parseList
  cases elements [] ts <;> simp [eq_comm]

/-- A template is the first element, and there is nothing behind it. -/
theorem parse_eq_ok_iff_first : parse ts = .ok t ↔ First ts t [] := by
  have hfinish (element : Template) (rest : List HostToken) :
      parse.finish element rest = .ok t ↔ element = t ∧ rest = [] := by
    cases rest <;> simp [parse.finish]
  constructor
  · intro h
    unfold parse at h
    split at h
    · cases h
    split at h
    · cases h
    · rename_i hsegment
      obtain ⟨rfl, rfl⟩ := (hfinish _ _).1 h
      exact .complete hsegment
    · rename_i hsegment
      split at h
      · cases h
      · rename_i helement
        obtain ⟨rfl, rfl⟩ := (hfinish _ _).1 h
        obtain ⟨inner, rfl, hinner⟩ := parseList_eq_ok_iff.1 helement
        obtain ⟨rfl, rfl⟩ := eq_of_segment_nested hsegment
        exact .nested hinner
  · intro h
    cases h with
    | complete h => simp [parse, h, parse.finish]
    | nested h => simp [parse, segment, parseList, h, parse.finish]

theorem first_nil_iff : First ts t [] ↔ Segments [ts] [t] := by
  constructor
  · intro h
    have helements : elements [] ts = .ok [t] := by
      rw [elements_of_first h, elements]
      rfl
    obtain ⟨segments, rfl, hs⟩ := elements_eq_ok_iff.1 helements
    have hone : ∃ tokens, segments = [tokens] := by
      cases hs with
      | leaf _ hs =>
        cases hs
        exact ⟨_, rfl⟩
      | list _ hs =>
        cases hs
        exact ⟨_, rfl⟩
    obtain ⟨tokens, rfl⟩ := hone
    rwa [List.flatten_singleton]
  · intro h
    obtain ⟨element, es, heq, hfirst, -⟩ := h.uncons
    cases heq
    simpa using hfirst

/-- **Exactly the sequences that split into segments are parsed.** Each segment is one element of
the list, and since no sequence has two splits, every token belongs to one element. A template on
its own is a single segment. -/
theorem parse_eq_ok_iff_segments (ts : List HostToken) :
    (∀ t, parseList ts = .ok t ↔ ∃ segments es, t = .list es ∧ segments.flatten = ts ∧
      (∀ tokens ∈ segments, tokens ≠ []) ∧ Segments segments es) ∧
    (∀ segments segments' es es', Segments segments es → Segments segments' es' →
      segments.flatten = ts → segments'.flatten = ts → segments = segments' ∧ es = es') ∧
    ∀ t, parse ts = .ok t ↔ Segments [ts] [t] := by
  refine ⟨fun t => ?_, fun segments segments' es es' h h' hts hts' => ?_, fun t => ?_⟩
  · simp only [parseList_eq_ok_iff, elements_eq_ok_iff]
    constructor
    · rintro ⟨es, rfl, segments, hts, hs⟩
      exact ⟨segments, es, rfl, hts, hs.ne_nil, hs⟩
    · rintro ⟨segments, es, rfl, hts, -, hs⟩
      exact ⟨es, rfl, segments, hts, hs⟩
  · exact h.unique h' (hts.trans hts'.symm)
  · exact parse_eq_ok_iff_first.trans first_nil_iff

/-- A call with a negative argument, an operator, a symbol in quotes and a part left to the host. -/
theorem parse_eq_ok_iff_segments_call :
    parseList [.ident "f", .punct '-' .alone, .literal "1_0", .punct '<' .joint,
      .punct '=' .alone, .punct '#' .alone, .literal "\"a b\"",
      .group .parenthesis [.punct ',' .alone, .ident "x"]]
      = .ok (.list [.symbol "f", .integer (-10), .symbol "<=", .symbol "a b",
        .list [.unquoted (.ident "x")]]) := by
  have hten : Denotes ('-' :: numerals "1_0") (-10 : Int64).toInt :=
    int64?_eq_some_iff.1 (by decide +kernel)
  have hrun (next : Option HostToken) :
      Leaf [.punct '<' .joint, .punct '=' .alone] next (.symbol "<=") :=
    @Leaf.run next '<' [] _ _ (List.forall_mem_singleton.2 (by decide)) (.alone (by decide))
  have hquoted (next : Option HostToken) :
      Leaf [.punct '#' .alone, .literal "\"a b\""] next (.symbol "a b") := .quoted rfl
  have hx : Segments [[.punct ',' .alone, .ident "x"]] [.unquoted (.ident "x")] :=
    .leaf (.unquoted _) .nil
  have hsegments := Segments.leaf (.name "f") <| .leaf (.negative hten) <| .leaf (hrun _) <|
    .leaf (hquoted _) <| .list hx .nil
  exact ((parse_eq_ok_iff_segments _).1 _).2 ⟨_, _, rfl, rfl, hsegments.ne_nil, hsegments⟩

end

end Sexpr.Template
