import Sexpr.Error

/-!
# Reading programs

Reading turns a text into a program: its tokens are found, put together into forms, and the markers
are applied. The first stage that fails decides. A reader carries the options of all stages and the
log of what was done.
-/

namespace Sexpr

/-- How deeply lists may nest unless another limit is chosen. -/
def defaultDepth : Nat := 512

/-- What can be chosen about reading. -/
structure Options where
  /-- Whether `;` starts a comment that runs to the end of its line. -/
  comments : Bool := false
  /-- How deeply lists may nest in the text. -/
  parseDepth : Nat := defaultDepth
  /-- How deeply lists and runs of markers may nest when markers are applied. -/
  expandDepth : Nat := defaultDepth
  /-- The tag a backquote stands for. -/
  backquote : BackquoteTag := .quote
deriving DecidableEq, Repr

/-- Options, and the log of the readings so far. -/
structure Reader where
  options : Options := {}
  log : Log := #[]

namespace Reader

/-- Appends an event to the log. -/
def record (r : Reader) (e : Event) : Reader := { r with log := r.log.push e }

/-- The raw program of a text: markers stay in front of their operands. -/
def parse (r : Reader) (text : String) : Except Error Program × Reader :=
  match (Scanner.start r.options.comments text r.log).collect with
  | (.error e, s) => (.error (.scan e), { r with log := s.log })
  | (.ok xs, s) =>
    match (Parser.start r.options.parseDepth xs s.log).parseProgram with
    | (.error e, p) => (.error (.parse e), { r with log := p.log })
    | (.ok program, p) => (.ok program, { r with log := p.log })

/-- An expander with the options and the log of the reader. -/
def expander (r : Reader) : Expander :=
  { backquote := r.options.backquote, maxDepth := r.options.expandDepth, log := r.log }

/-- Applies the markers of a program. -/
def expand (r : Reader) (p : Program) : Except Error Program × Reader :=
  match r.expander.expandProgram p with
  | (.error e, x) => (.error (.expand e), { r with log := x.log })
  | (.ok program, x) => (.ok program, { r with log := x.log })

/-- The program of a text. The log tells where the reading begins and where it ends, whether it ends
well or not. -/
def read (r : Reader) (text : String) : Except Error Program × Reader :=
  match ((r.record (.readStarted text.utf8ByteSize)).record .entered).parse text with
  | (.error e, r) => (.error e, r.record .exited)
  | (.ok raw, r) =>
    match r.expand raw with
    | (.error e, r) => (.error e, r.record .exited)
    | (.ok program, r) => (.ok program, r.record .exited)

end Reader

/-- The raw program of a text. -/
def Program.parse (options : Options) (text : String) : Except Error Program :=
  (Reader.parse { options } text).1

/-- The program of a text. -/
def Program.read (options : Options) (text : String) : Except Error Program :=
  (Reader.read { options } text).1

end Sexpr
