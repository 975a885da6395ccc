import Sexpr.Template.Basic
import Sexpr.Text.Decimal

/-!
# The elements of a template

Inside a sequence of host tokens each element takes up a segment:

* a name is a symbol, and so is a run of punctuation characters that stand together, with a name at
  its end if there is one;
* a literal is quoted text or an integer, which may have `-` in front;
* `#` and a literal in double quotes is the symbol with that spelling;
* `,` and any token is left to the host;
* a group in parentheses is a list.

`Template.segment` finds the segment a sequence starts with. What is left behind it is a tail of the
sequence.
-/

namespace Sexpr

namespace Template

/-- The punctuation characters that symbols are made of. -/
def isSymbolPunct (c : Char) : Bool := "!$%&*+-./:<=>?@^~".toList.contains c

/-- The integer of a literal, with a minus sign in front if it is negated. Underscores between its
digits do not count. -/
def integerOf (negated : Bool) (literal : String) : Except TemplateError Template :=
  let digits := literal.toList.filter (· != '_')
  let cs := if negated then '-' :: digits else digits
  match Decimal.int64? cs with
  | some n => .ok (.integer n)
  | none => .error (.invalidInteger (String.ofList cs))

/-- What a literal stands for: quoted text if it starts with a double quote, and an integer if it
starts with a digit. -/
def ofLiteral (literal : String) : Except TemplateError Template :=
  match literal.toList with
  | '"' :: _ => .ok (.text literal)
  | c :: _ => if c.isDigit then integerOf false literal else .error (.unsupportedLiteral literal)
  | [] => .error (.unsupportedLiteral literal)

/-- What stands between the double quotes of a literal. -/
def unquote? (literal : String) : Option String :=
  match literal.toList with
  | '"' :: cs => if cs.getLast? == some '"' then some (String.ofList cs.dropLast) else none
  | _ => none

/-- Completes a symbol that starts with punctuation: the punctuation characters behind it belong to
it through the first that stands alone, and a name does too but ends it. -/
def symbolRun (name : String) : List HostToken → String × List HostToken
  | .punct c spacing :: ts =>
    if isSymbolPunct c then
      match spacing with
      | .alone => (name.push c, ts)
      | .joint => symbolRun (name.push c) ts
    else (name, .punct c spacing :: ts)
  | .ident part :: ts => (name ++ part, ts)
  | ts => (name, ts)

/-- What one element of a sequence takes up: a template that is complete, or the content of a list
that is still to be parsed. -/
inductive Segment where
  | complete (t : Template)
  | nested (content : List HostToken)

/-- The symbol behind `#`. -/
def hashSegment : List HostToken → Except TemplateError (Segment × List HostToken)
  | .literal spelling :: ts =>
    match unquote? spelling with
    | some name => .ok (.complete (.symbol name), ts)
    | none => .error (.expectedString spelling)
  | .punct c _ :: _ => .error (.unexpectedChar c)
  | t :: _ => .error (.unexpectedToken t)
  | [] => .error .unexpectedEnd

/-- The element that starts with a punctuation character. -/
def punctSegment (c : Char) (spacing : Spacing) (ts : List HostToken) :
    Except TemplateError (Segment × List HostToken) :=
  if c = '#' then hashSegment ts
  else if c = ',' then
    match ts with
    | t :: ts => .ok (.complete (.unquoted t), ts)
    | [] => .error .unexpectedEnd
  else if isSymbolPunct c then
    match spacing with
    | .joint =>
      let (name, rest) := symbolRun (String.singleton c) ts
      .ok (.complete (.symbol name), rest)
    | .alone =>
      match c, ts with
      | '-', .literal spelling :: ts =>
        match integerOf true spelling with
        | .ok n => .ok (.complete n, ts)
        | .error e => .error e
      | c, ts => .ok (.complete (.symbol (String.singleton c)), ts)
  else .error (.unexpectedChar c)

/-- The element that starts with a token, and the tokens behind it. -/
def segment (t : HostToken) (ts : List HostToken) :
    Except TemplateError (Segment × List HostToken) :=
  match t with
  | .ident name => .ok (.complete (.symbol name), ts)
  | .literal spelling =>
    match ofLiteral spelling with
    | .ok t => .ok (.complete t, ts)
    | .error e => .error e
  | .punct c spacing => punctSegment c spacing ts
  | .group .parenthesis content => .ok (.nested content, ts)
  | .group delimiter _ => .error (.unexpectedDelimiter delimiter)

/-! ## An element takes up tokens from the front -/

theorem symbolRun_suffix (name : String) (ts : List HostToken) :
    (symbolRun name ts).2 <:+ ts := by
  fun_induction symbolRun name ts with
  | case1 name c ts _ => exact List.suffix_cons _ _
  | case2 name c ts _ ih => exact ih.trans (List.suffix_cons _ _)
  | case3 => exact List.suffix_refl _
  | case4 name part ts => exact List.suffix_cons _ _
  | case5 => exact List.suffix_refl _

theorem hashSegment_suffix {ts rest : List HostToken} {s : Segment}
    (h : hashSegment ts = .ok (s, rest)) : rest <:+ ts := by
  unfold hashSegment at h
  split at h
  · split at h <;> cases h
    exact List.suffix_cons _ _
  all_goals cases h

theorem punctSegment_suffix {c : Char} {spacing : Spacing} {ts rest : List HostToken} {s : Segment}
    (h : punctSegment c spacing ts = .ok (s, rest)) : rest <:+ ts := by
  unfold punctSegment at h
  split at h
  · exact hashSegment_suffix h
  split at h
  · split at h <;> cases h
    exact List.suffix_cons _ _
  split at h
  · split at h
    · cases h
      exact symbolRun_suffix _ _
    · split at h
      · split at h <;> cases h
        exact List.suffix_cons _ _
      · cases h
        exact List.suffix_refl _
  · cases h

/-- What is left behind an element is a tail of the tokens. -/
theorem segment_suffix {t : HostToken} {ts rest : List HostToken} {s : Segment}
    (h : segment t ts = .ok (s, rest)) : rest <:+ ts := by
  unfold segment at h
  split at h
  · cases h; exact List.suffix_refl _
  · split at h <;> cases h
    exact List.suffix_refl _
  · exact punctSegment_suffix h
  · cases h; exact List.suffix_refl _
  · cases h

end Template

end Sexpr
