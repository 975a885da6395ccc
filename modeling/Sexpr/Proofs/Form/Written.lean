import Sexpr.Form.Formatter
import Sexpr.Proofs.Form.Readable
import Sexpr.Proofs.Token.Layout

/-!
# What is printed, as gaps and tokens

A form is printed as a run of tokens with a gap in front of each. Where a list is abbreviated, what
is printed are the tokens of other forms: of the marker, and of the operand behind it. `shorten`
gives these forms, and `items` the tokens with their gaps.

* `toList_printProgram`: the text of a program is that of its layout;
* `valid_layout`: if the atoms are ones that can be read, the layout is valid, so no two tokens run
  together;
* `tokens_layout`: its tokens are those of the shortened program.
-/

namespace Sexpr

/-! ## The forms that are printed -/

namespace Formatter

/-- The formatter that writes everything as it is but for some abbreviations. -/
def spelling (abbreviation : String → Option Marker) : Formatter := { abbreviation }

theorem plain_eq_spelling : plain = spelling fun _ => none := rfl

theorem abbreviating_eq_spelling : abbreviating = spelling Marker.ofTag? := rfl

/-- The marker and the operand that a list is written with, if it is abbreviated. -/
def shortened? (fmt : Formatter) : List Form → Option (Marker × Form)
  | [head, operand] => (fmt.shorthand? head operand).map (·, operand)
  | _ => none

variable {fmt : Formatter}

theorem exists_head_of_shortened? {es : List Form} {m : Marker} {operand : Form}
    (h : fmt.shortened? es = some (m, operand)) :
    ∃ head, es = [head, operand] ∧ fmt.shorthand? head operand = some m := by
  unfold shortened? at h
  split at h
  · rename_i head operand'
    obtain ⟨n, hn, heq⟩ := Option.map_eq_some_iff.1 h
    cases heq
    exact ⟨head, rfl, hn⟩
  · cases h

theorem cases_of_shortened?_eq_none {es : List Form} (h : fmt.shortened? es = none) :
    (∃ head operand, es = [head, operand] ∧ fmt.shorthand? head operand = none) ∨
      ∀ head operand, es = [head, operand] → False := by
  unfold shortened? at h
  split at h
  · rename_i head operand
    exact .inl ⟨head, operand, rfl, Option.map_eq_none_iff.1 h⟩
  · rename_i hne
    exact .inr hne

/-- To show a fact of every form, show it of the atoms, of an abbreviated list from its operand, and
of any other list from its elements. -/
@[elab_as_elim]
theorem induction {motive : Form → Prop} (fmt : Formatter) (atom : ∀ a, motive (.atom a))
    (short : ∀ es m operand, fmt.shortened? es = some (m, operand) → motive operand →
      motive (.list es))
    (full : ∀ es, fmt.shortened? es = none → (∀ e ∈ es, motive e) → motive (.list es))
    (f : Form) : motive f := by
  induction f using Form.induction with
  | atom a => exact atom a
  | list es ih =>
    cases h : fmt.shortened? es with
    | none => exact full es h ih
    | some short? =>
      obtain ⟨m, operand⟩ := short?
      refine short es m operand h (ih operand ?_)
      obtain ⟨head, rfl, -⟩ := exists_head_of_shortened? h
      simp

mutual

/-- The forms whose tokens are written for a form. -/
def shorten (fmt : Formatter) : Form → List Form
  | .atom a => [.atom a]
  | .list [head, operand] =>
    match fmt.shorthand? head operand with
    | some m => .marker m :: fmt.shorten operand
    | none => [.list (fmt.shortenAll [head, operand])]
  | .list es => [.list (fmt.shortenAll es)]

/-- The forms whose tokens are written for a sequence of forms. -/
def shortenAll (fmt : Formatter) : List Form → List Form
  | [] => []
  | e :: es => fmt.shorten e ++ fmt.shortenAll es

end

theorem shorten_short {es : List Form} {m : Marker} {operand : Form}
    (h : fmt.shortened? es = some (m, operand)) :
    fmt.shorten (.list es) = .marker m :: fmt.shorten operand := by
  obtain ⟨head, rfl, hm⟩ := exists_head_of_shortened? h
  rw [shorten, hm]

theorem shorten_full {es : List Form} (h : fmt.shortened? es = none) :
    fmt.shorten (.list es) = [.list (fmt.shortenAll es)] := by
  rcases cases_of_shortened?_eq_none h with ⟨head, operand, rfl, hnone⟩ | hne
  · rw [shorten, hnone]
  · rw [shorten]
    exact hne

/-- The abbreviation of a list is its own marker; what is written behind it is the operand. -/
theorem shortened?_eq_some {es : List Form} {m : Marker} {operand : Form}
    (h : fmt.shortened? es = some (m, operand)) :
    ∃ tag, es = [.symbol tag, operand] ∧ fmt.abbreviation tag = some m ∧
      operand.isMarker = false := by
  obtain ⟨head, rfl, hm⟩ := exists_head_of_shortened? h
  unfold shorthand? at hm
  split at hm
  · cases hm
  · rename_i hmarker
    split at hm
    · rename_i tag htag
      rw [Form.asSymbol?_eq_some.1 htag]
      exact ⟨tag, rfl, hm, by simpa using hmarker⟩
    · cases hm

/-- The blank that keeps a comma apart from an `@`. -/
def separator (m : Marker) (operand : Form) : List Char :=
  if m = .unquote && startsWithAt operand then [' '] else []

mutual

/-- The tokens written for a form, each with the gap in front of it; `g` is the first of the
gaps. -/
def items (fmt : Formatter) (g : List Char) : Form → List (List Char × Token)
  | .atom a => [(g, a.token)]
  | .list [head, operand] =>
    match fmt.shorthand? head operand with
    | some m => (g, .marker m) :: fmt.items (separator m operand) operand
    | none => (g, .opening) :: (fmt.itemsAll [] [head, operand] ++ [([], .closing)])
  | .list es => (g, .opening) :: (fmt.itemsAll [] es ++ [([], .closing)])

/-- The tokens written for the elements of a list, with a blank in front of all but the first. -/
def itemsAll (fmt : Formatter) (g : List Char) : List Form → List (List Char × Token)
  | [] => []
  | e :: es => fmt.items g e ++ fmt.itemsAll [' '] es

end

theorem items_short {es : List Form} {m : Marker} {operand : Form}
    (h : fmt.shortened? es = some (m, operand)) (g : List Char) :
    fmt.items g (.list es) = (g, .marker m) :: fmt.items (separator m operand) operand := by
  obtain ⟨head, rfl, hm⟩ := exists_head_of_shortened? h
  rw [items, hm]

theorem items_full {es : List Form} (h : fmt.shortened? es = none) (g : List Char) :
    fmt.items g (.list es) = (g, .opening) :: (fmt.itemsAll [] es ++ [([], .closing)]) := by
  rcases cases_of_shortened?_eq_none h with ⟨head, operand, rfl, hnone⟩ | hne
  · rw [items, hnone]
  · rw [items]
    exact hne

/-! ### The tokens are those of the shortened forms -/

theorem tokens_itemsAll {es : List Form}
    (ih : ∀ e ∈ es, ∀ g, (fmt.items g e).map Prod.snd = Form.flattenAll (fmt.shorten e))
    (g : List Char) : (fmt.itemsAll g es).map Prod.snd = Form.flattenAll (fmt.shortenAll es) := by
  induction es generalizing g with
  | nil => rfl
  | cons e es hes =>
    rw [itemsAll, shortenAll, List.map_append, Form.flattenAll_append, ih e List.mem_cons_self,
      hes fun e he => ih e (List.mem_cons_of_mem _ he)]

/-- The tokens written are those of the shortened form. -/
theorem tokens_items (g : List Char) (f : Form) :
    (fmt.items g f).map Prod.snd = Form.flattenAll (fmt.shorten f) := by
  induction f using Formatter.induction fmt generalizing g with
  | atom a => simp [items, shorten, Form.flattenAll, Form.flatten]
  | short es m operand h ih =>
    rw [items_short h, shorten_short h, List.map_cons, ih]
    rfl
  | full es h ih =>
    rw [items_full h, shorten_full h, List.map_cons, List.map_append, tokens_itemsAll ih]
    simp [Form.flattenAll, Form.flatten]

/-! ### A gap stands where one is needed -/

theorem exists_items_eq_cons (fmt : Formatter) (g : List Char) (f : Form) :
    ∃ t rest, fmt.items g f = (g, t) :: rest := by
  induction f using Formatter.induction fmt with
  | atom a => exact ⟨_, _, rfl⟩
  | short es m operand h _ => exact ⟨_, _, items_short h g⟩
  | full es h _ => exact ⟨_, _, items_full h g⟩

theorem head?_itemsAll {g : List Char} {es : List Form} {i : List Char × Token}
    (h : i ∈ (fmt.itemsAll g es).head?) : i.1 = g := by
  cases es with
  | nil => cases h
  | cons e es =>
    obtain ⟨t, rest, heq⟩ := exists_items_eq_cons fmt g e
    rw [itemsAll, heq] at h
    cases h
    rfl

/-- Only a symbol is written with an `@` first. -/
theorem startsWithAt_of_items {comments : Bool} {f : Form}
    (ha : ∀ a ∈ f.atoms, a.Readable comments) {g : List Char} {text : String}
    {rest : List (List Char × Token)} (h : fmt.items g f = (g, .atom text) :: rest)
    (hat : text.toList.head? = some '@') : startsWithAt f = true := by
  induction f using Formatter.induction fmt with
  | short es m operand hshort _ => rw [items_short hshort] at h; cases h
  | full es hfull _ => rw [items_full hfull] at h; cases h
  | atom a =>
    have hread := ha a (by simp [Form.atoms])
    cases a with
    | marker m => cases h
    | symbol name =>
      cases h
      simpa [startsWithAt, Form.asSymbol?] using hat
    | text raw =>
      cases h
      obtain ⟨body, -, heq⟩ := hread
      simp [heq] at hat
    | integer n =>
      cases h
      have hmem := List.mem_of_mem_head? hat
      rw [Decimal.ofInt64, String.toList_ofList, Decimal.spell] at hmem
      split at hmem
      · rcases List.mem_cons.1 hmem with hminus | hmem
        · cases hminus
        · cases Decimal.isDigit_of_mem_digits hmem
      · cases Decimal.isDigit_of_mem_digits hmem

section

variable {comments : Bool}

/-- Between neighbours that need a gap there is one. -/
abbrev Apart (comments : Bool) (i j : List Char × Token) : Prop :=
  Token.NeedsGap comments i.2 j.2 → j.1 ≠ []

theorem apart_opening (g : List Char) (j : List Char × Token) :
    Apart comments (g, .opening) j := by
  rintro (⟨h, -⟩ | ⟨h, -⟩ | ⟨h, -⟩) <;> cases h

theorem apart_closing (g : List Char) (i : List Char × Token) :
    Apart comments i (g, .closing) := by
  rintro (⟨-, h⟩ | ⟨-, _, h, -⟩ | ⟨-, -, h⟩) <;> cases h

theorem isChain_itemsAll {es : List Form}
    (ih : ∀ e ∈ es, ∀ g, (fmt.items g e).IsChain (Apart comments)) (g : List Char) :
    (fmt.itemsAll g es).IsChain (Apart comments) := by
  induction es generalizing g with
  | nil => exact .nil
  | cons e es hes =>
    rw [itemsAll, List.isChain_append]
    refine ⟨ih e List.mem_cons_self g, hes (fun e he => ih e (List.mem_cons_of_mem _ he)) _, ?_⟩
    intro i _ j hj _
    rw [head?_itemsAll hj]
    simp

theorem isChain_items {f : Form} (ha : ∀ a ∈ f.atoms, a.Readable comments) (g : List Char) :
    (fmt.items g f).IsChain (Apart comments) := by
  induction f using Formatter.induction fmt generalizing g with
  | atom a => exact .singleton _
  | short es m operand h ih =>
    obtain ⟨tag, rfl, -, -⟩ := shortened?_eq_some h
    have ha' : ∀ a ∈ operand.atoms, a.Readable comments := by
      intro a hmem
      exact ha a (by simp [Form.atoms, Form.atomsAll, hmem])
    obtain ⟨t, rest, heq⟩ := exists_items_eq_cons fmt (separator m operand) operand
    rw [items_short h, List.isChain_cons]
    refine ⟨?_, ih ha' _⟩
    rintro j hj (⟨hbare, -⟩ | ⟨hm, text, htext, hat⟩ | ⟨hbare, -⟩)
    · cases hbare
    · rw [heq] at hj
      cases hj
      cases hm
      cases htext
      simp [separator, startsWithAt_of_items ha' heq hat]
    · cases hbare
  | full es h ih =>
    have hes : ∀ e ∈ es, ∀ g, (fmt.items g e).IsChain (Apart comments) := by
      intro e he
      refine ih e he fun a hmem => ha a ?_
      rw [Form.atoms]
      exact Form.mem_atomsAll.2 ⟨e, he, hmem⟩
    rw [items_full h, List.isChain_cons, List.isChain_append]
    refine ⟨fun j _ => apart_opening g j, isChain_itemsAll hes [], .singleton _, ?_⟩
    intro i _ j hj
    cases hj
    exact apart_closing [] i

end

/-! ### The text is that of the items -/

/-- Gaps and tokens one behind the other. -/
def spelled (items : List (List Char × Token)) : List Char :=
  items.flatMap fun i => i.1 ++ i.2.text.toList

@[simp] theorem spelled_append (l r : List (List Char × Token)) :
    spelled (l ++ r) = spelled l ++ spelled r := List.flatMap_append

@[simp] theorem spelled_cons (g : List Char) (t : Token) (items : List (List Char × Token)) :
    spelled ((g, t) :: items) = g ++ t.text.toList ++ spelled items := List.flatMap_cons

@[simp] theorem toList_join_push (out : Array String) (piece : String) :
    (join (out.push piece)).toList = (join out).toList ++ piece.toList := by
  simp [join]

theorem spelled_items (fmt : Formatter) (g : List Char) (f : Form) :
    spelled (fmt.items g f) = g ++ spelled (fmt.items [] f) := by
  induction f using Formatter.induction fmt with
  | atom a => simp [items]
  | short es m operand h _ => simp [items_short h]
  | full es h _ => simp [items_full h]

section

variable {abbreviation : String → Option Marker}

theorem emit_short {es : List Form} {m : Marker} {operand : Form}
    (h : fmt.shortened? es = some (m, operand)) (out : Array String) :
    fmt.emit out (.list es) = fmt.emit (fmt.emitShorthand out m operand) operand := by
  obtain ⟨head, rfl, hm⟩ := exists_head_of_shortened? h
  rw [emit, hm]

theorem emit_full {es : List Form} (h : fmt.shortened? es = none) (out : Array String) :
    fmt.emit out (.list es)
      = (fmt.emitElements (out.push fmt.beginList) true es).push fmt.endList := by
  rcases cases_of_shortened?_eq_none h with ⟨head, operand, rfl, hnone⟩ | hne
  · rw [emit, hnone]
  · rw [emit]
    exact hne

theorem atom_spelling (a : Atom) : (spelling abbreviation).atom a = a.token.text := by
  cases a <;> rfl

theorem toList_emitShorthand (out : Array String) (m : Marker) (operand : Form) :
    (join ((spelling abbreviation).emitShorthand out m operand)).toList
      = (join out).toList ++ (Token.marker m).text.toList ++ separator m operand := by
  unfold emitShorthand separator
  split <;> simp [spelling, Token.text]

theorem toList_emitElements {es : List Form}
    (ih : ∀ e ∈ es, ∀ out, (join ((spelling abbreviation).emit out e)).toList
      = (join out).toList ++ spelled ((spelling abbreviation).items [] e))
    (out : Array String) (first : Bool) :
    (join ((spelling abbreviation).emitElements out first es)).toList = (join out).toList ++
      spelled ((spelling abbreviation).itemsAll (if first then [] else [' ']) es) := by
  induction es generalizing out first with
  | nil => simp [emitElements, itemsAll, spelled]
  | cons e es hes =>
    rw [emitElements, hes fun e he => ih e (List.mem_cons_of_mem _ he), itemsAll, spelled_append,
      spelled_items _ (if first then [] else [' ']), toList_join_push, ih e List.mem_cons_self,
      toList_join_push]
    cases first <;> simp [spelling]

theorem toList_emit (out : Array String) (f : Form) :
    (join ((spelling abbreviation).emit out f)).toList
      = (join out).toList ++ spelled ((spelling abbreviation).items [] f) := by
  induction f using Formatter.induction (spelling abbreviation) generalizing out with
  | atom a => simp [emit, items, atom_spelling, spelled]
  | short es m operand h ih =>
    rw [emit_short h, ih, toList_emitShorthand, items_short h, spelled_cons,
      spelled_items _ (separator m operand)]
    simp
  | full es h ih =>
    rw [emit_full h, toList_join_push, toList_emitElements ih, items_full h]
    simp [spelling, spelled]

end

/-! ## Programs -/

/-- A program as it is printed, each form in a line; `g` stands in front of the first. -/
def layout (fmt : Formatter) (g : List Char) : Program → Layout
  | [] => ⟨[], g⟩
  | f :: fs => ⟨fmt.items g f ++ (fmt.layout ['\n'] fs).items, (fmt.layout ['\n'] fs).trailing⟩

theorem tokens_layout (fmt : Formatter) (g : List Char) (p : Program) :
    (fmt.layout g p).tokens = Form.flattenAll (fmt.shortenAll p) := by
  induction p generalizing g with
  | nil => rfl
  | cons f fs ih =>
    rw [shortenAll, Form.flattenAll_append, ← ih ['\n'], ← tokens_items g]
    simp [layout, Layout.tokens]

theorem text_layout (fmt : Formatter) (g : List Char) (p : Program) :
    (fmt.layout g p).text = g ++ p.flatMap fun f => spelled (fmt.items [] f) ++ ['\n'] := by
  induction p generalizing g with
  | nil => simp [layout, Layout.text]
  | cons f fs ih =>
    have hfs := ih ['\n']
    show spelled (fmt.items g f ++ (fmt.layout ['\n'] fs).items)
      ++ (fmt.layout ['\n'] fs).trailing = _
    rw [spelled_append, List.append_assoc,
      show spelled (fmt.layout ['\n'] fs).items ++ _ = (fmt.layout ['\n'] fs).text from rfl, hfs,
      spelled_items]
    simp

theorem toList_emitProgram {abbreviation : String → Option Marker} (out : Array String)
    (p : Program) : (join ((spelling abbreviation).emitProgram out p)).toList = (join out).toList ++
      p.flatMap fun f => spelled ((spelling abbreviation).items [] f) ++ ['\n'] := by
  induction p generalizing out with
  | nil => simp [emitProgram]
  | cons f fs ih =>
    rw [emitProgram, List.foldl_cons, ← emitProgram, ih, toList_join_push, toList_emit]
    simp

theorem toList_printProgram (abbreviation : String → Option Marker) (p : Program) :
    ((spelling abbreviation).printProgram p).toList
      = ((spelling abbreviation).layout [] p).text := by
  rw [printProgram, toList_emitProgram, text_layout]
  simp [join]

section

variable {comments : Bool}

theorem gap_of_mem_itemsAll {es : List Form}
    (ih : ∀ e ∈ es, ∀ g, Gap comments g → ∀ i ∈ fmt.items g e, Gap comments i.1) {g : List Char}
    (hg : Gap comments g) : ∀ i ∈ fmt.itemsAll g es, Gap comments i.1 := by
  induction es generalizing g with
  | nil => nofun
  | cons e es hes =>
    intro i hi
    rcases List.mem_append.1 hi with hi | hi
    · exact ih e List.mem_cons_self g hg i hi
    · exact hes (fun e he => ih e (List.mem_cons_of_mem _ he)) (.blank (by decide) .nil) i hi

theorem gap_of_mem_items (f : Form) {g : List Char} (hg : Gap comments g) :
    ∀ i ∈ fmt.items g f, Gap comments i.1 := by
  induction f using Formatter.induction fmt generalizing g with
  | atom a =>
    intro i hi
    rw [items, List.mem_singleton] at hi
    exact hi ▸ hg
  | short es m operand h ih =>
    have hsep : Gap comments (separator m operand) := by
      unfold separator
      split
      · exact .blank (by decide) .nil
      · exact .nil
    intro i hi
    rw [items_short h] at hi
    rcases List.mem_cons.1 hi with rfl | hi
    · exact hg
    · exact ih hsep i hi
  | full es h ih =>
    intro i hi
    rw [items_full h] at hi
    rcases List.mem_cons.1 hi with rfl | hi
    · exact hg
    rcases List.mem_append.1 hi with hi | hi
    · exact gap_of_mem_itemsAll (fun e he g hg => ih e he hg) .nil i hi
    · rw [List.mem_singleton.1 hi]
      exact .nil

theorem mem_atomsAll_shortenAll {a : Atom} {es : List Form} :
    a ∈ Form.atomsAll (fmt.shortenAll es) ↔ ∃ e ∈ es, a ∈ Form.atomsAll (fmt.shorten e) := by
  induction es with
  | nil => simp [shortenAll, Form.atomsAll]
  | cons e es ih => simp [shortenAll, Form.atomsAll_append, ih]

/-- Shortening brings in nothing but markers. -/
theorem readable_of_mem_shorten {f : Form} (ha : ∀ a ∈ f.atoms, a.Readable comments) :
    ∀ a ∈ Form.atomsAll (fmt.shorten f), a.Readable comments := by
  induction f using Formatter.induction fmt with
  | atom a => simpa [shorten, Form.atomsAll] using ha
  | short es m operand h ih =>
    obtain ⟨tag, rfl, -, -⟩ := shortened?_eq_some h
    intro a hmem
    rw [shorten_short h, Form.atomsAll, List.mem_append] at hmem
    rcases hmem with hmem | hmem
    · rw [Form.marker, Form.atoms, List.mem_singleton] at hmem
      exact hmem ▸ trivial
    · exact ih (fun b hb => ha b (by simp [Form.atoms, Form.atomsAll, hb])) a hmem
  | full es h ih =>
    intro a hmem
    rw [shorten_full h, Form.atomsAll, Form.atoms, List.mem_append, mem_atomsAll_shortenAll] at hmem
    rcases hmem with ⟨e, he, hmem⟩ | hmem
    · refine ih e he (fun b hb => ha b ?_) a hmem
      rw [Form.atoms]
      exact Form.mem_atomsAll.2 ⟨e, he, hb⟩
    · cases hmem

theorem readable_of_mem_shortenAll {p : List Form}
    (ha : ∀ a ∈ Form.atomsAll p, a.Readable comments) :
    ∀ a ∈ Form.atomsAll (fmt.shortenAll p), a.Readable comments := by
  intro a hmem
  obtain ⟨f, hf, hmem⟩ := mem_atomsAll_shortenAll.1 hmem
  exact readable_of_mem_shorten (fun b hb => ha b (Form.mem_atomsAll.2 ⟨f, hf, hb⟩)) a hmem

/-- A program is printed so that its tokens are read one by one. -/
theorem valid_layout {p : Program} {g : List Char} (hg : Gap comments g)
    (ha : ∀ a ∈ Form.atomsAll p, a.Readable comments) : (fmt.layout g p).Valid comments := by
  have hnewline : Gap comments ['\n'] := .blank (by decide) .nil
  have htokens : ∀ i ∈ (fmt.layout g p).items, i.2.WellFormed comments := by
    intro i hi
    have hmem : i.2 ∈ (fmt.layout g p).tokens := List.mem_map_of_mem hi
    rw [tokens_layout] at hmem
    exact Form.wellFormed_of_mem_flattenAll (readable_of_mem_shortenAll ha) hmem
  induction p generalizing g with
  | nil => exact ⟨nofun, htokens, .closed hg, .nil⟩
  | cons f fs ih =>
    have hf : ∀ a ∈ f.atoms, a.Readable comments := fun a h => ha a (by simp [Form.atomsAll, h])
    have hfs : ∀ a ∈ Form.atomsAll fs, a.Readable comments :=
      fun a h => ha a (by simp [Form.atomsAll, h])
    have htail := ih hnewline hfs (fun i hi => htokens i (List.mem_append_right _ hi))
    refine ⟨?_, htokens, htail.trailing,
      List.isChain_append.2 ⟨isChain_items hf g, htail.apart, ?_⟩⟩
    · intro i hi
      rcases List.mem_append.1 hi with hi | hi
      · exact gap_of_mem_items f hg i hi
      · exact htail.gap i hi
    · intro i _ j hj _
      cases fs with
      | nil => cases hj
      | cons e es =>
        obtain ⟨t, rest, heq⟩ := exists_items_eq_cons fmt ['\n'] e
        rw [layout, heq] at hj
        cases hj
        simp

end

end Formatter

end Sexpr
