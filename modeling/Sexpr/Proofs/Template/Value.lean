import Sexpr.Form.Basic
import Sexpr.Proofs.Text.Decimal
import Sexpr.Template.Code
import Sexpr.Template.Parser

/-!
# What the code of a template builds

The code of a template is an expression of the host. `Host.value?` evaluates such expressions from
their tokens alone: it takes the calls of the functions that make a form for the constructors of
that name, and `vec!` for the list of its items. How texts are spelled, and what a part left to the
host turns into, are the host's own affair.

* `Host.integer?_integerLiteral`: the literal of a word, with or without a minus sign;
* `Host.values?_codeAllWith`: commas separate the items of a list, whatever stands in them;
* `Host.value?_codeWith`: **the code of a template builds the form that it stands for**;
* `Host.printable`: a host whose literals are those of printable texts.
-/

namespace Sexpr

/-- What the code of a template leaves to its host: the literals of texts, and the forms of the
parts that are not written out. -/
structure Host where
  /-- The literal of a text. -/
  spell : String → HostToken
  /-- The text that a token is the literal of. -/
  text? : HostToken → Option String
  /-- The literal that is spelled for a text is one of that text. -/
  text?_spell (text : String) : text? (spell text) = some text
  /-- The form that a token is turned into. -/
  part? : HostToken → Option Form

namespace Host

open Template

/-- The parts of the path at the front, and what stands behind it. -/
def splitPath : List HostToken → List String × List HostToken
  | .punct ':' .joint :: .punct ':' _ :: .ident part :: ts =>
    (part :: (splitPath ts).1, (splitPath ts).2)
  | ts => ([], ts)

/-- The word that an integer literal denotes. Its type stands behind the digits, and it may have a
minus sign in front. -/
def integer? : List HostToken → Option Int64
  | [.literal literal] => typed? [] literal
  | [.punct '-' _, .literal literal] => typed? ['-'] literal
  | _ => none
where
  typed? (sign : List Char) (literal : String) : Option Int64 :=
    match literal.toList.reverse with
    | '4' :: '6' :: 'i' :: ds => Decimal.int64? (sign ++ ds.reverse)
    | _ => none

/-- What a call builds: a form, or a list of what stands between brackets. -/
inductive Call where
  | form (f : Form)
  | list (content : List HostToken)

/-- The content of a macro call that makes a sequence of values. -/
def vec? (argument : List HostToken) : Option (List HostToken) :=
  match splitPath argument with
  | (["std", "vec"], [.punct '!' _, .group .bracket content]) => some content
  | _ => none

variable (host : Host)

/-- What one of the functions that make a form builds from its argument. -/
def construct? (function : String) (argument : List HostToken) : Option Call :=
  match function, argument with
  | "integer", argument => (integer? argument).map fun n => .form (.integer n)
  | "symbol", [t] => (host.text? t).map fun name => .form (.symbol name)
  | "text", [t] => (host.text? t).map fun raw => .form (.text raw)
  | "from", [t] => (host.part? t).map .form
  | "List", argument => (vec? argument).map .list
  | _, _ => none

/-- The call at the front, and what stands behind it. -/
def call? (ts : List HostToken) : Option (Call × List HostToken) :=
  match splitPath ts with
  | (["lisp_reader", "Form", function], .group .parenthesis argument :: rest) =>
    (host.construct? function argument).map (·, rest)
  | _ => none

/-- The call at the front of a sequence with commas, and what stands behind its comma. -/
def item? (ts : List HostToken) : Option (Call × List HostToken) :=
  match host.call? ts with
  | some (call, []) => some (call, [])
  | some (call, .punct ',' _ :: rest) => some (call, rest)
  | _ => none

/-! ## A call takes up tokens from the front -/

variable {host : Host} {function : String} {argument content ts rest : List HostToken} {c : Call}

theorem splitPath_suffix (ts : List HostToken) : (splitPath ts).2 <:+ ts := by
  fun_induction splitPath ts with
  | case1 _ part ts ih => exact ih.trans (List.suffix_append [_, _, _] ts)
  | case2 => exact List.suffix_refl _

theorem construct?_eq_list (h : host.construct? function argument = some (.list content)) :
    vec? argument = some content := by
  unfold construct? at h
  split at h
  all_goals simp at h
  exact h

theorem sizeOf_lt_of_vec? (h : vec? argument = some content) :
    sizeOf content < sizeOf argument := by
  unfold vec? at h
  split at h
  · rename_i hsplit
    cases h
    have hle := sizeOf_le_of_suffix (splitPath_suffix argument)
    rw [hsplit] at hle
    simp only [List.cons.sizeOf_spec, HostToken.group.sizeOf_spec] at hle
    omega
  · cases h

theorem exists_of_call? (h : host.call? ts = some (c, rest)) : ∃ function argument,
    .group .parenthesis argument :: rest <:+ ts ∧ host.construct? function argument = some c := by
  unfold call? at h
  split at h
  · rename_i function argument behind hsplit
    obtain ⟨c', hc, heq⟩ := Option.map_eq_some_iff.1 h
    cases heq
    exact ⟨function, argument, by simpa [hsplit] using splitPath_suffix ts, hc⟩
  · cases h

theorem exists_of_item? (h : host.item? ts = some (c, rest)) :
    ∃ behind, host.call? ts = some (c, behind) ∧ rest <:+ behind := by
  unfold item? at h
  split at h
  · rename_i hcall
    cases h
    exact ⟨[], hcall, List.suffix_refl _⟩
  · rename_i hcall
    cases h
    exact ⟨_, hcall, List.suffix_cons _ _⟩
  · cases h

theorem sizeOf_lt_of_call? (h : host.call? ts = some (c, rest)) :
    sizeOf rest < sizeOf ts ∧ ∀ content, c = .list content → sizeOf content < sizeOf ts := by
  obtain ⟨function, argument, hsuffix, hconstruct⟩ := exists_of_call? h
  have hle := sizeOf_le_of_suffix hsuffix
  simp only [List.cons.sizeOf_spec, HostToken.group.sizeOf_spec] at hle
  refine ⟨by omega, ?_⟩
  rintro content rfl
  have hlt := sizeOf_lt_of_vec? (construct?_eq_list hconstruct)
  omega

theorem sizeOf_lt_of_item? (h : host.item? ts = some (c, rest)) :
    sizeOf rest < sizeOf ts ∧ ∀ content, c = .list content → sizeOf content < sizeOf ts := by
  obtain ⟨behind, hcall, hsuffix⟩ := exists_of_item? h
  obtain ⟨hlt, hcontent⟩ := sizeOf_lt_of_call? hcall
  have hle := sizeOf_le_of_suffix hsuffix
  exact ⟨by omega, hcontent⟩

/-! ## The value of an expression -/

/-- The forms of a sequence of expressions with commas. -/
def values? (host : Host) : List HostToken → Option (List Form)
  | [] => some []
  | t :: ts =>
    match _h : host.item? (t :: ts) with
    | none => none
    | some (.form f, rest) => (values? host rest).map (f :: ·)
    | some (.list content, rest) =>
      match values? host content, values? host rest with
      | some es, some fs => some (.list es :: fs)
      | _, _ => none
termination_by ts => sizeOf ts
decreasing_by
  · exact (sizeOf_lt_of_item? _h).1
  · exact (sizeOf_lt_of_item? _h).2 _ rfl
  · exact (sizeOf_lt_of_item? _h).1

/-- The form that a call builds. -/
def build? (host : Host) : Call → Option Form
  | .form f => some f
  | .list content => (host.values? content).map .list

/-- The form of an expression, which is one call. -/
def value? (host : Host) (ts : List HostToken) : Option Form :=
  match host.call? ts with
  | some (c, []) => host.build? c
  | _ => none

theorem values?_nil : host.values? [] = some [] := by
  rw [values?]

theorem values?_of_ne_nil (hne : ts ≠ []) : host.values? ts =
    (host.item? ts).bind fun x => (host.build? x.1).bind fun f =>
      (host.values? x.2).map (f :: ·) := by
  cases ts with
  | nil => exact absurd rfl hne
  | cons t ts =>
    rw [values?]
    split
    · rename_i hitem
      rw [hitem]
      rfl
    · rename_i hitem
      rw [hitem]
      rfl
    · rename_i content rest hitem
      rw [hitem]
      cases hes : host.values? content <;> cases hfs : host.values? rest <;>
        simp [build?, hes, hfs]

/-! ## The code of a template -/

mutual

/-- The form that a template stands for. -/
def form? (host : Host) : Template → Option Form
  | .integer n => some (.integer n)
  | .symbol name => some (.symbol name)
  | .text raw => some (.text raw)
  | .unquoted t => host.part? t
  | .list ts => (forms? host ts).map .list

/-- The forms of a sequence of templates. -/
def forms? (host : Host) : List Template → Option (List Form)
  | [] => some []
  | t :: ts => (form? host t).bind fun f => (forms? host ts).map (f :: ·)

end

theorem splitPath_path (parts : List String) (hrest : splitPath rest = ([], rest)) :
    splitPath (path parts ++ rest) = (parts, rest) := by
  induction parts with
  | nil => exact hrest
  | cons part parts ih =>
    show splitPath (pathSeparator ++ .ident part :: (path parts ++ rest)) = _
    rw [pathSeparator, List.cons_append, List.cons_append, List.nil_append]
    rw [splitPath, ih]

theorem vec?_path (content : List HostToken) :
    vec? (path ["std", "vec"] ++ [.punct '!' .alone, .group .bracket content]) = some content := by
  rw [vec?, splitPath_path _ (by simp [splitPath])]
  rfl

theorem call?_call (function : String) (argument rest : List HostToken) :
    host.call? (call function argument ++ rest)
      = (host.construct? function argument).map (·, rest) := by
  rw [call?, call, List.append_assoc, splitPath_path _ (by simp [splitPath])]
  rfl

theorem typed?_ofNat (sign : List Char) (m : Nat) :
    integer?.typed? sign (Decimal.ofNat m ++ "i64")
      = Decimal.int64? (sign ++ Decimal.digits m) := by
  have hreverse : (Decimal.ofNat m ++ "i64").toList.reverse
      = '4' :: '6' :: 'i' :: (Decimal.digits m).reverse := by
    simp [Decimal.ofNat]
  rw [integer?.typed?, hreverse]
  simp

/-- The literal of a word reads as the word. -/
theorem integer?_integerLiteral (n : Int64) : integer? (integerLiteral n) = some n := by
  have hspell := Decimal.int64?_spell n
  unfold Decimal.spell at hspell
  unfold integerLiteral
  by_cases hn : n.toInt < 0
  · rw [if_pos hn] at hspell ⊢
    exact (typed?_ofNat ['-'] _).trans hspell
  · rw [if_neg hn] at hspell ⊢
    exact (typed?_ofNat [] _).trans hspell

/-- The code of a template is one call, which builds what the template stands for. -/
theorem exists_call?_codeWith (t : Template)
    (hlist : ∀ ts, t = .list ts → host.values? (codeAllWith host.spell ts) = host.forms? ts) :
    ∃ c : Option Call, (∀ rest, host.call? (t.codeWith host.spell ++ rest) = c.map (·, rest)) ∧
      c.bind host.build? = host.form? t := by
  cases t with
  | integer n =>
    refine ⟨some (.form (.integer n)), fun rest => ?_, rfl⟩
    simp [codeWith, call?_call, construct?, integer?_integerLiteral]
  | symbol name =>
    refine ⟨some (.form (.symbol name)), fun rest => ?_, rfl⟩
    simp [codeWith, call?_call, construct?, host.text?_spell]
  | text raw =>
    refine ⟨some (.form (.text raw)), fun rest => ?_, rfl⟩
    simp [codeWith, call?_call, construct?, host.text?_spell]
  | unquoted t =>
    refine ⟨(host.part? t).map .form, fun rest => ?_, ?_⟩
    · simp [codeWith, call?_call, construct?]
    · cases h : host.part? t <;> simp [form?, build?, h]
  | list ts =>
    refine ⟨some (.list (codeAllWith host.spell ts)), fun rest => ?_, ?_⟩
    · simp [codeWith, call?_call, construct?, vec?_path]
    · simp [build?, form?, hlist ts rfl]

theorem codeWith_ne_nil (t : Template) : t.codeWith host.spell ≠ [] := by
  cases t <;> simp [codeWith, call, path]

/-- The code of the first template and its comma are the first item of a sequence. -/
theorem item?_codeAllWith {t : Template} {c : Option Call}
    (hcall : ∀ rest, host.call? (t.codeWith host.spell ++ rest) = c.map (·, rest))
    (ts : List Template) : host.item? (codeAllWith host.spell (t :: ts)) =
      c.map (·, codeAllWith host.spell ts) := by
  cases ts with
  | nil =>
    have hone := hcall []
    rw [List.append_nil] at hone
    rw [codeAllWith, codeAllWith, item?, hone]
    cases c <;> rfl
  | cons t' ts =>
    rw [codeAllWith, item?, hcall]
    · cases c <;> rfl
    · exact List.cons_ne_nil _ _

theorem codeAllWith_ne_nil (t : Template) (ts : List Template) :
    codeAllWith host.spell (t :: ts) ≠ [] := by
  cases ts <;> simp [codeAllWith, codeWith_ne_nil]

/-- The code of a sequence of templates builds their forms. -/
theorem values?_codeAllWith (ts : List Template) :
    host.values? (codeAllWith host.spell ts) = host.forms? ts := by
  cases ts with
  | nil => exact values?_nil
  | cons t ts =>
    -- The elements of a list that stands in front are a sequence of their own, and a smaller one.
    obtain ⟨c, hcall, hbuild⟩ :=
      exists_call?_codeWith t fun us hus => values?_codeAllWith us
    rw [values?_of_ne_nil (codeAllWith_ne_nil t ts), item?_codeAllWith hcall, forms?, ← hbuild]
    cases c with
    | none => rfl
    | some c => simp [values?_codeAllWith ts]
termination_by sizeOf ts
decreasing_by
  all_goals subst_vars
  all_goals simp
  omega

/-- **The code of a template builds the form that the template stands for.** -/
theorem value?_codeWith (t : Template) : host.value? (t.codeWith host.spell) = host.form? t := by
  obtain ⟨c, hcall, hbuild⟩ := exists_call?_codeWith t fun ts _ => values?_codeAllWith ts
  have hone := hcall []
  rw [List.append_nil] at hone
  rw [value?, hone, ← hbuild]
  cases c <;> rfl

/-! ## Literals of printable texts -/

/-- The text in front of the closing quote of a literal, which is at its end. A backslash stands in
front of quotes and backslashes only. -/
def unescape? : List Char → Option (List Char)
  | [] => none
  | ['"'] => some []
  | '\\' :: c :: cs =>
    if c = '"' ∨ c = '\\' then (unescape? cs).map (c :: ·) else none
  | c :: cs => if c = '"' ∨ c = '\\' then none else (unescape? cs).map (c :: ·)

/-- The text that a token is the literal of, if it has no other escapes. -/
def literalText? : HostToken → Option String
  | .literal literal =>
    match literal.toList with
    | '"' :: cs => (unescape? cs).map String.ofList
    | _ => none
  | _ => none

theorem unescape?_escape (cs : List Char) :
    unescape? (cs.flatMap stringLiteral.escape ++ ['"']) = some cs := by
  induction cs with
  | nil => rfl
  | cons c cs ih =>
    rw [List.flatMap_cons, List.append_assoc]
    by_cases hc : c = '"' ∨ c = '\\'
    · have hescape : stringLiteral.escape c = ['\\', c] := if_pos (by simpa using hc)
      rw [hescape, List.cons_append, List.singleton_append, unescape?, if_pos hc, ih]
      rfl
    · have hescape : stringLiteral.escape c = [c] := if_neg (by simpa using hc)
      rw [hescape, List.singleton_append, unescape?, if_neg hc, ih]
      · rfl
      · simp
      · simp_all

theorem literalText?_stringLiteral (text : String) :
    literalText? (stringLiteral text) = some text := by
  simp [stringLiteral, literalText?, unescape?_escape]

/-- The host whose literals are those of printable texts. -/
def printable (part? : HostToken → Option Form) : Host where
  spell := stringLiteral
  text? := literalText?
  text?_spell := literalText?_stringLiteral
  part? := part?

end Host

end Sexpr
