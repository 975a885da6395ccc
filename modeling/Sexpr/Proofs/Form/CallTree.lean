/-!
# Calls that are left open

What a function does can be told apart from what becomes of its calls: its body comes to a value, or
it asks for the result of a call and goes on from there. If every call is answered with what the
functions themselves come to, the body comes to the same as its function, and what it has asked for
are the calls that the function makes.

* `CallTree.eval`, `CallTree.calls`: the value of a body, and the calls it makes, when its calls are
  answered;
* `CallTree.Reaches`: the calls that are made from one call on.
-/

namespace Sexpr

/-- What is left to do: come to a value, or make a call inside of `inner` more lists and go on with
what comes of it. -/
inductive CallTree (Call : Type) (Value : Call → Type) (α : Type) where
  | done (a : α)
  | call (inner : Nat) (c : Call) (next : Value c → CallTree Call Value α)

namespace CallTree

variable {Call α : Type} {Value Result : Call → Type}

/-- The value, if calls are answered like this. -/
def eval (answer : ∀ c, Value c) : CallTree Call Value α → α
  | done a => a
  | call _ c next => (next (answer c)).eval answer

/-- The calls that are made, in order, if they are answered like this. -/
def calls (answer : ∀ c, Value c) : CallTree Call Value α → List (Nat × Call)
  | done _ => []
  | call inner c next => (inner, c) :: (next (answer c)).calls answer

/-- From a call on another is made, inside of this many more lists: it is the same one, or the body
of a call that is made makes it. -/
inductive Reaches (body : ∀ c, CallTree Call Value (Result c)) (answer : ∀ c, Value c) (c : Call) :
    Nat → Call → Prop where
  | self : Reaches body answer c 0 c
  | call {k inner : Nat} {d e : Call} (h : Reaches body answer c k d)
    (he : (inner, e) ∈ (body d).calls answer) : Reaches body answer c (k + inner) e

end CallTree

end Sexpr
