import Sexpr.Form.Atom

/-!
# Forms

A form is an atom or a list of forms, and a program is a sequence of forms. A raw form holds markers
in front of their operands, as siblings; an expanded form holds none.

Equality of forms is decided by `Form.beq`, which walks both trees at once.
-/

namespace Sexpr

/-- An atom or a list of forms. -/
inductive Form where
  | atom (a : Atom)
  | list (elements : List Form)
deriving Inhabited

/-- Top-level forms in the order of the text. -/
abbrev Program := List Form

namespace Form

/-- The integer form of a word. -/
def integer (n : Int64) : Form := .atom (.integer n)

/-- The symbol with a name. -/
def symbol (name : String) : Form := .atom (.symbol name)

/-- Quoted text, given with its delimiters. -/
def text (raw : String) : Form := .atom (.text raw)

/-- A marker on its own. -/
def marker (m : Marker) : Form := .atom (.marker m)

/-- The two-element list of a tag and its operand. -/
def tagged (tag : String) (operand : Form) : Form := .list [symbol tag, operand]

/-- The atom, of a form that is one. -/
def asAtom? : Form → Option Atom
  | .atom a => some a
  | .list _ => none

/-- The name, of a symbol. -/
def asSymbol? : Form → Option String
  | .atom (.symbol name) => some name
  | _ => none

/-- The value, of an integer. -/
def asInteger? : Form → Option Int64
  | .atom (.integer n) => some n
  | _ => none

/-- The text with its delimiters, of quoted text. -/
def asText? : Form → Option String
  | .atom (.text raw) => some raw
  | _ => none

/-- The marker, of a marker atom. -/
def asMarker? : Form → Option Marker
  | .atom (.marker m) => some m
  | _ => none

/-- The elements, of a list. -/
def asList? : Form → Option (List Form)
  | .list es => some es
  | .atom _ => none

def isAtom (f : Form) : Bool := f.asAtom?.isSome

def isSymbol (f : Form) : Bool := f.asSymbol?.isSome

def isInteger (f : Form) : Bool := f.asInteger?.isSome

def isText (f : Form) : Bool := f.asText?.isSome

def isMarker (f : Form) : Bool := f.asMarker?.isSome

def isList (f : Form) : Bool := f.asList?.isSome

theorem isMarker_iff {f : Form} : f.isMarker = true ↔ ∃ m, f = marker m := by
  cases f with
  | atom a => cases a <;> simp [isMarker, asMarker?, marker]
  | list es => simp [isMarker, asMarker?, marker]

/-- To show a fact of every form, show it of the atoms, and of a list from its elements. -/
@[elab_as_elim]
theorem induction {motive : Form → Prop} (atom : ∀ a, motive (.atom a))
    (list : ∀ es, (∀ e ∈ es, motive e) → motive (.list es)) (f : Form) : motive f :=
  @Form.rec motive (fun es => ∀ e ∈ es, motive e) atom list
    (fun _ h => nomatch h)
    (fun _ _ head tail _ h => by
      rcases List.mem_cons.1 h with rfl | h
      · exact head
      · exact tail _ h)
    f

/-! ## Equality -/

mutual

/-- Whether two forms are equal. -/
def beq : Form → Form → Bool
  | .atom a, .atom b => a == b
  | .list as, .list bs => beqAll as bs
  | _, _ => false

/-- Whether two sequences of forms are equal, element by element. -/
def beqAll : List Form → List Form → Bool
  | [], [] => true
  | a :: as, b :: bs => a.beq b && beqAll as bs
  | _, _ => false

end

mutual

theorem beq_iff : ∀ {f g : Form}, f.beq g = true ↔ f = g
  | .atom _, .atom _ => by simp [beq]
  | .list as, .list _ => by simp [beq, beqAll_iff (l := as)]
  | .atom _, .list _ => by simp [beq]
  | .list _, .atom _ => by simp [beq]

theorem beqAll_iff : ∀ {l r : List Form}, beqAll l r = true ↔ l = r
  | [], [] => by simp [beqAll]
  | [], _ :: _ => by simp [beqAll]
  | _ :: _, [] => by simp [beqAll]
  | a :: as, _ :: _ => by simp [beqAll, beq_iff (f := a), beqAll_iff (l := as)]

end

instance : DecidableEq Form := fun _ _ => decidable_of_iff _ beq_iff

/-! ## Markers inside a form -/

mutual

/-- The number of atoms and lists a form is made of. -/
def size : Form → Nat
  | .atom _ => 1
  | .list es => 1 + sizeAll es

/-- The number of atoms and lists in a sequence of forms. -/
def sizeAll : List Form → Nat
  | [] => 0
  | e :: es => e.size + sizeAll es

end

theorem sizeAll_append (as bs : List Form) : sizeAll (as ++ bs) = sizeAll as + sizeAll bs := by
  induction as with
  | nil => simp [sizeAll]
  | cons a as ih => simp [sizeAll, ih, Nat.add_assoc]

theorem sizeAll_reverse (as : List Form) : sizeAll as.reverse = sizeAll as := by
  induction as with
  | nil => rfl
  | cons a as ih => simp [sizeAll_append, sizeAll, ih, Nat.add_comm]

/-- Whether a marker occurs in one of the forms on a stack. A list is replaced by its elements, the
last one on top. -/
def anyMarker : List Form → Bool
  | [] => false
  | .atom (.marker _) :: _ => true
  | .atom _ :: pending => anyMarker pending
  | .list es :: pending => anyMarker (es.reverseAux pending)
termination_by pending => sizeAll pending
decreasing_by
  all_goals simp only [List.reverseAux_eq, sizeAll, size, sizeAll_append, sizeAll_reverse]
  all_goals omega

/-- Whether a marker occurs anywhere in a form. -/
def containsMarker (f : Form) : Bool := anyMarker [f]

/-! ## Conversions -/

instance : Coe Atom Form := ⟨.atom⟩

instance : Coe Marker Form := ⟨marker⟩

instance : Coe (List Form) Form := ⟨.list⟩

instance : Coe Int64 Form := ⟨integer⟩

instance : Coe Int32 Form := ⟨fun n => integer (.ofInt n.toInt)⟩

instance : Coe Int16 Form := ⟨fun n => integer (.ofInt n.toInt)⟩

instance : Coe Int8 Form := ⟨fun n => integer (.ofInt n.toInt)⟩

instance : Coe UInt32 Form := ⟨fun n => integer (.ofNat n.toNat)⟩

instance : Coe UInt16 Form := ⟨fun n => integer (.ofNat n.toNat)⟩

instance : Coe UInt8 Form := ⟨fun n => integer (.ofNat n.toNat)⟩

end Form

end Sexpr
