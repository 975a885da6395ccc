import Sexpr.Form.Printer
import Sexpr.Proofs.Form.Written

/-!
# What a full sink has taken

A printer writes piece by piece and stops where a piece is refused, which may be in front of any
piece or in the middle of it. Where one piece ends and the next begins does not show in the end:

* `Writing.form_eq_piece`, `Writing.program_eq_piece`: writing a form or a program is writing its
  text in one piece, whatever the sink;
* `Sink.write_upTo`: a sink that holds as much of some bytes as its limit lets through does so when
  there are more of them, and refuses what does not fit;
* `Printer.written_after_eq_extract`: **after any requests, refused or not, a sink with a limit
  holds the first bytes of what a sink without one has taken**, and a request is refused if and only
  if it has something to write and goes beyond the limit.
-/

namespace Sexpr

namespace Sink

/-! ## Bytes in a row -/

theorem extract_of_size_le {bytes : ByteArray} {n : Nat} (h : bytes.size ≤ n) :
    bytes.extract 0 n = bytes := by
  conv_lhs => rw [← Nat.max_eq_left h]
  exact ByteArray.extract_zero_max_size

theorem extract_min_size (bytes : ByteArray) (n : Nat) :
    bytes.extract 0 (min n bytes.size) = bytes.extract 0 n := by
  by_cases h : n ≤ bytes.size
  · rw [Nat.min_eq_left h]
  · have hle : bytes.size ≤ n := by omega
    rw [Nat.min_eq_right hle, ByteArray.extract_zero_size, extract_of_size_le hle]

theorem write_of_no_limit (refusal : IoError) (written bytes : ByteArray) :
    write ⟨none, refusal, written⟩ bytes = (.ok (), ⟨none, refusal, written ++ bytes⟩) := by
  simp [write, fitting]

theorem write_of_limit (limit : Nat) (refusal : IoError) (written bytes : ByteArray) :
    write ⟨some limit, refusal, written⟩ bytes =
      (if bytes.size ≤ limit - written.size then .ok () else .error refusal,
        ⟨some limit, refusal, written ++ bytes.extract 0 (limit - written.size)⟩) := by
  have hfits : min bytes.size (limit - written.size) = bytes.size
      ↔ bytes.size ≤ limit - written.size := by omega
  simp only [write, fitting, hfits]
  rw [Nat.min_comm, extract_min_size]
  split <;> rfl

/-- Two pieces one behind the other are taken as one. -/
theorem write_append (s : Sink) (a b : ByteArray) :
    s.write (a ++ b) = match s.write a with
      | (.ok (), t) => t.write b
      | (.error e, t) => (.error e, t) := by
  obtain ⟨limit, refusal, written⟩ := s
  cases limit with
  | none => simp only [write_of_no_limit, ByteArray.append_assoc]
  | some limit =>
    rw [write_of_limit, write_of_limit, ByteArray.extract_append, Nat.zero_sub,
      ByteArray.size_append]
    -- The cut falls behind the first piece, or else nothing of the second one is taken.
    by_cases h : a.size ≤ limit - written.size
    · have hroom : limit - (written.size + a.size) = limit - written.size - a.size := by omega
      have hfits : b.size ≤ limit - written.size - a.size ↔
          a.size + b.size ≤ limit - written.size := by omega
      simp only [if_pos h, extract_of_size_le h, write_of_limit, ByteArray.size_append, hroom,
        hfits, ByteArray.append_assoc]
    · have hnone : limit - written.size - a.size = 0 := by omega
      rw [if_neg h, if_neg (by omega), hnone, ByteArray.extract_same, ByteArray.append_empty]

/-- The bytes that a limit lets through. -/
def upTo : Option Nat → ByteArray → ByteArray
  | some limit, bytes => bytes.extract 0 limit
  | none, bytes => bytes

@[simp] theorem upTo_empty (limit : Option Nat) : upTo limit .empty = .empty := by
  cases limit with
  | none => rfl
  | some limit => simp [upTo, ByteArray.extract_eq_empty_iff]

/-- A sink that holds what its limit lets through of some bytes does so when more are written. These
are refused if they go beyond the limit; none at all never do. -/
theorem write_upTo (limit : Option Nat) (refusal : IoError) (total bytes : ByteArray) :
    write ⟨limit, refusal, upTo limit total⟩ bytes =
      (if 0 < bytes.size ∧ ∃ n ∈ limit, n < (total ++ bytes).size then .error refusal else .ok (),
        ⟨limit, refusal, upTo limit (total ++ bytes)⟩) := by
  cases limit with
  | none => simp [upTo, write_of_no_limit]
  | some limit =>
    have hroom : limit - (total.extract 0 limit).size = limit - total.size := by
      rw [ByteArray.size_extract]
      omega
    simp only [upTo, write_of_limit, hroom, ByteArray.extract_append, Nat.zero_sub,
      ByteArray.size_append, Option.mem_some_iff, exists_eq_left']
    by_cases h : bytes.size ≤ limit - total.size
    · rw [if_pos h, if_neg (by omega)]
    · rw [if_neg h, if_pos (by omega)]

end Sink

namespace Writing

/-! ## Pieces in a row -/

/-- What comes next is written only if nothing has been refused. -/
theorem bind_apply (w next : Writing) (s : Sink) :
    (do w; next : Writing) s = match w s with
      | (.ok (), t) => next t
      | (.error e, t) => (.error e, t) := by
  show ExceptT.bindCont (fun _ => next) (w s).1 (w s).2 = _
  rcases w s with ⟨result, t⟩
  cases result <;> rfl

theorem piece_append (a b : String) : piece (a ++ b) = (do piece a; piece b) := by
  funext s
  rw [bind_apply, piece, String.toUTF8_eq_toByteArray, String.toByteArray_append, Sink.write_append]
  rfl

variable (fmt : Formatter)

open Formatter (join)

theorem piece_join_empty : piece (join #[]) = pure () := by
  funext s
  exact Sink.write_empty s

theorem piece_join_push (out : Array String) (text : String) :
    piece (join (out.push text)) = (do piece (join out); piece text) := by
  rw [← piece_append]
  simp [join]

theorem piece_join_emitShorthand (out : Array String) (m : Marker) (operand : Form) :
    piece (join (fmt.emitShorthand out m operand))
      = (do piece (join out); shorthand fmt m operand) := by
  unfold Formatter.emitShorthand shorthand
  split <;> simp [piece_join_push]

theorem piece_join_emitElements {es : List Form}
    (ih : ∀ e ∈ es, ∀ out, piece (join (fmt.emit out e)) = (do piece (join out); form fmt e))
    (out : Array String) (first : Bool) :
    piece (join (fmt.emitElements out first es))
      = (do piece (join out); elements fmt first es) := by
  induction es generalizing out first with
  | nil => simp [Formatter.emitElements, elements]
  | cons e es hes =>
    rw [Formatter.emitElements, hes fun e he => ih e (List.mem_cons_of_mem _ he), piece_join_push,
      ih e List.mem_cons_self, piece_join_push, elements]
    simp only [bind_assoc]

theorem form_short {fmt : Formatter} {es : List Form} {m : Marker} {operand : Form}
    (h : fmt.shortened? es = some (m, operand)) :
    form fmt (.list es) = (do shorthand fmt m operand; form fmt operand) := by
  obtain ⟨head, rfl, hm⟩ := Formatter.exists_head_of_shortened? h
  rw [form, hm]

theorem form_full {fmt : Formatter} {es : List Form} (h : fmt.shortened? es = none) :
    form fmt (.list es)
      = (do piece fmt.beginList; elements fmt true es; piece fmt.endList) := by
  rcases Formatter.cases_of_shortened?_eq_none h with ⟨head, operand, rfl, hnone⟩ | hne
  · rw [form, hnone]
  · rw [form]
    exact hne

/-- Pieces that are kept and written later come to the same as a form that is written at once. -/
theorem piece_join_emit (f : Form) (out : Array String) :
    piece (join (fmt.emit out f)) = (do piece (join out); form fmt f) := by
  induction f using Formatter.induction fmt generalizing out with
  | atom a => rw [Formatter.emit, form, piece_join_push]
  | short es m operand h ih =>
    rw [Formatter.emit_short h, form_short h, ih, piece_join_emitShorthand, bind_assoc]
  | full es h ih =>
    rw [Formatter.emit_full h, form_full h, piece_join_push, piece_join_emitElements fmt ih,
      piece_join_push]
    simp only [bind_assoc]

/-- Writing a form is writing its text in one piece. -/
theorem form_eq_piece (f : Form) : form fmt f = piece (fmt.print f) := by
  rw [Formatter.print, piece_join_emit, piece_join_empty, pure_bind]

theorem piece_join_emitProgram (p : Program) (out : Array String) :
    piece (join (fmt.emitProgram out p)) = (do piece (join out); program fmt p) := by
  induction p generalizing out with
  | nil => simp [Formatter.emitProgram, program]
  | cons f fs ih =>
    rw [Formatter.emitProgram, List.foldl_cons, ← Formatter.emitProgram, ih, piece_join_push,
      piece_join_emit, program]
    simp only [bind_assoc]

/-- Writing a program is writing its text in one piece. -/
theorem program_eq_piece (p : Program) : program fmt p = piece (fmt.printProgram p) := by
  rw [Formatter.printProgram, piece_join_emitProgram, piece_join_empty, pure_bind]

end Writing

namespace Printer

/-! ## Requests in a row -/

/-- What a printer can be asked to write. -/
inductive Request where
  | form (f : Form)
  | program (p : Program)

/-- What comes of a request, and the printer afterwards. -/
def reply (p : Printer) : Request → Except IoError Unit × Printer
  | .form f => p.print f
  | .program program => p.printProgram program

/-- The printer after requests made one after the other. -/
def after (p : Printer) (requests : List Request) : Printer :=
  requests.foldl (fun p request => (p.reply request).2) p

/-- The text of a request. -/
def Request.text (fmt : Formatter) : Request → String
  | .form f => fmt.print f
  | .program p => fmt.printProgram p

/-- The bytes of requests one behind the other. -/
def bytes (fmt : Formatter) (requests : List Request) : ByteArray :=
  requests.foldl (fun total request => total ++ (request.text fmt).toUTF8) .empty

/-- A printer whose sink holds what its limit lets through of some bytes. -/
def holding (fmt : Formatter) (limit : Option Nat) (refusal : IoError) (total : ByteArray) :
    Printer :=
  ⟨fmt, ⟨limit, refusal, Sink.upTo limit total⟩⟩

variable (fmt : Formatter) (limit : Option Nat) (refusal : IoError)

theorem reply_eq_run (p : Printer) (request : Request) :
    p.reply request = p.run (.piece (request.text p.formatter)) := by
  cases request with
  | form f => rw [reply, print, Writing.form_eq_piece, Request.text]
  | program program => rw [reply, printProgram, Writing.program_eq_piece, Request.text]

/-- A request adds its text to the bytes of which the sink holds the first. -/
theorem reply_holding (total : ByteArray) (request : Request) :
    (holding fmt limit refusal total).reply request =
      (if 0 < (request.text fmt).toUTF8.size ∧
          ∃ n ∈ limit, n < (total ++ (request.text fmt).toUTF8).size then .error refusal
        else .ok (),
        holding fmt limit refusal (total ++ (request.text fmt).toUTF8)) := by
  rw [reply_eq_run]
  show ((Sink.write _ _).1, Printer.mk fmt (Sink.write _ _).2) = _
  rw [holding, Sink.write_upTo]
  rfl

theorem after_eq_holding (requests : List Request) :
    after { formatter := fmt, sink := { limit, refusal } } requests
      = holding fmt limit refusal (bytes fmt requests) := by
  -- The sink is followed along with the bytes it would hold if it had no limit.
  have hstart : ({ formatter := fmt, sink := { limit, refusal } } : Printer)
      = holding fmt limit refusal .empty := by simp [holding]
  rw [hstart, after, bytes]
  apply List.foldl_hom
  intro total request
  rw [reply_holding]

/-- **After any requests, refused or not, a sink with a limit holds the first bytes of what a sink
without one has taken.** A request is refused if and only if it has something to write and all that
is asked for up to it goes beyond the limit. A sink without a limit takes every request, and then
holds their texts one behind the other. -/
theorem written_after_eq_extract (fmt : Formatter) (limit : Nat) (refusal : IoError)
    (requests : List Request) (request : Request) :
    let limited : Printer := { formatter := fmt, sink := { limit := some limit, refusal } }
    let free : Printer := { formatter := fmt, sink := { refusal } }
    let total := fun requests => (free.after requests).sink.written
    (limited.after requests).sink.written
        = (total requests).extract 0 (min limit (total requests).size) ∧
      ((limited.after requests).reply request).1
        = (if 0 < (total [request]).size ∧ limit < (total (requests ++ [request])).size
          then .error refusal else .ok ()) ∧
      ((free.after requests).reply request).1 = .ok () ∧
      total (requests ++ [request]) = total requests ++ total [request] ∧
      total [request] = (request.text fmt).toUTF8 := by
  intro limited free total
  have hlimited : limited.after requests = holding fmt (some limit) refusal (bytes fmt requests) :=
    after_eq_holding fmt (some limit) refusal requests
  have hfree : ∀ requests, free.after requests = holding fmt none refusal (bytes fmt requests) :=
    after_eq_holding fmt none refusal
  have htotal : ∀ requests, total requests = bytes fmt requests := by
    intro requests
    show (free.after requests).sink.written = _
    rw [hfree]
    rfl
  have hown : bytes fmt [request] = (request.text fmt).toUTF8 := by simp [bytes]
  have hmore : bytes fmt (requests ++ [request])
      = bytes fmt requests ++ (request.text fmt).toUTF8 := by simp [bytes]
  rw [htotal, htotal, htotal, hown, hmore, hlimited, hfree, reply_holding, reply_holding]
  refine ⟨?_, ?_, ?_, rfl, rfl⟩
  · rw [Sink.extract_min_size]
    rfl
  · simp
  · simp

end Printer

end Sexpr
