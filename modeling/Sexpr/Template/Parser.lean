import Sexpr.Template.Segment

/-!
# From host tokens to templates

A list is parsed segment by segment, and a template is one segment and nothing behind it. A segment
that holds a list is parsed before the segments behind it, so the first token at fault decides.
-/

namespace Sexpr.Template

theorem sizeOf_le_of_suffix {l r : List HostToken} (h : l <:+ r) : sizeOf l ≤ sizeOf r := by
  obtain ⟨front, rfl⟩ := h
  induction front with
  | nil => simp
  | cons t front ih => simp only [List.cons_append, List.cons.sizeOf_spec]; omega

/-- A list still to be parsed stands in a group of its own. -/
theorem eq_group_of_segment_nested {t : HostToken} {ts content rest : List HostToken}
    (h : segment t ts = .ok (.nested content, rest)) : t = .group .parenthesis content := by
  unfold segment at h
  split at h
  · cases h
  · split at h <;> cases h
  · unfold punctSegment hashSegment at h
    repeat' split at h
    all_goals cases h
  · cases h; rfl
  · cases h

/-- The templates of a sequence of host tokens, behind those found already (the last one first). -/
def elements (found : List Template) : List HostToken → Except TemplateError (List Template)
  | [] => .ok found.reverse
  | t :: ts =>
    match _h : segment t ts with
    | .error e => .error e
    | .ok (.complete element, rest) => elements (element :: found) rest
    | .ok (.nested content, rest) =>
      match elements [] content with
      | .error e => .error e
      | .ok inner => elements (.list inner :: found) rest
termination_by ts => sizeOf ts
decreasing_by
  all_goals have hle := sizeOf_le_of_suffix (segment_suffix _h)
  · simp only [List.cons.sizeOf_spec]; omega
  · have ht := eq_group_of_segment_nested _h
    subst ht
    simp only [List.cons.sizeOf_spec, HostToken.group.sizeOf_spec]; omega
  · simp only [List.cons.sizeOf_spec]; omega

/-- The list of all templates in a sequence of host tokens. -/
def parseList (ts : List HostToken) : Except TemplateError Template :=
  match elements [] ts with
  | .ok inner => .ok (.list inner)
  | .error e => .error e

/-- The one template a sequence of host tokens holds. -/
def parse : List HostToken → Except TemplateError Template
  | [] => .error .unexpectedEnd
  | t :: ts =>
    match segment t ts with
    | .error e => .error e
    | .ok (.complete element, rest) => finish element rest
    | .ok (.nested content, rest) =>
      match parseList content with
      | .error e => .error e
      | .ok element => finish element rest
where
  /-- Nothing may stand behind the template. -/
  finish (element : Template) : List HostToken → Except TemplateError Template
    | [] => .ok element
    | t :: _ => .error (.trailingToken t)

end Sexpr.Template
