/-
The state of a compilation.

The compiler reads one token ahead: `current` is the token it looks at, `previous` the
one before.  Code goes to the chunk at once.  A fault that is found makes the compilation
fail, is printed and kept as a diagnostic, and mutes the compiler: what is found wrong
after it is only noted.  Every step leaves at most as many tokens ahead as before, which is
why parsing ends.
-/
import Reckon.Chunk.Edit
import Reckon.Decimal.Reading
import Reckon.Options
import Reckon.Precedence

namespace Reckon.Compile

/-- What the compiler knows and has done so far. -/
structure State where
  previous : Token
  current : Token
  stream : TokenStream
  chunk : Chunk
  /-- Whether the compilation fails. -/
  failed : Bool
  /-- Whether faults are only noted. -/
  muted : Bool
  diagnostics : List Diagnostic
  events : Array Event

/-- How many constants one byte can number. -/
def maxConstants : Nat := 256

namespace State

/-- The state before the first token is read. -/
def start (source : String) : State where
  previous := Token.eof 0 1
  current := Token.eof 0 1
  stream := TokenStream.ofSource source
  chunk := Chunk.empty
  failed := false
  muted := false
  diagnostics := []
  events := #[]

/-- The number of tokens ahead, the current one included and the end excluded. -/
def ahead (s : State) : Nat :=
  s.stream.tokens.length + if s.current.kind = .eof then 0 else 1

/-! ## Events and diagnostics -/

/-- Adds an event. -/
def emit (s : State) (e : Event) : State :=
  { s with events := s.events.push e }

/-- Adds a note. -/
def note (s : State) (n : Note) : State :=
  s.emit (.note n)

/-- Where a diagnostic about a token points. -/
def location (t : Token) : Location :=
  match t.kind with
  | .eof => .atEnd
  | .fault => .scan
  | _ => .token t.lexeme

/-- Reports a fault at a token.  It becomes a diagnostic and mutes the compiler, or is only
noted if the compiler is muted. -/
def report (s : State) (t : Token) (message : String) : State :=
  if s.muted then s.note (.suppressed message)
  else
    let found : Diagnostic := ⟨t.line, location t, message⟩
    let latched := { s with muted := true, failed := true }
    let printed := (latched.note (.diagnosed found)).emit (.row found.text)
    { printed with diagnostics := printed.diagnostics ++ [found] }

/-! ## Reading tokens -/

/-- Reads on to the next token that is not a fault, and reports the faults on the way. -/
def fetch (s : State) : List Token → State
  | [] =>
    let last := s.stream.eof
    { s.note (.scanned last) with
      previous := s.current, current := last, stream := { s.stream with tokens := [] } }
  | t :: rest =>
    let seen := s.note (.scanned t)
    if t.kind = .fault then (seen.report t t.lexeme).fetch rest
    else
      { seen with
        previous := seen.current, current := t, stream := { seen.stream with tokens := rest } }

/-- Moves on by one token. -/
def advance (s : State) : State :=
  s.fetch s.stream.tokens

/-- Moves on if the current token has the expected kind, and complains otherwise. -/
def consume (s : State) (kind : Kind) (complaint : Complaint) : State :=
  if s.current.kind = kind then s.advance else s.report s.current complaint.message

/-! ## Writing code -/

/-- Writes a byte of code. -/
def write (s : State) (byte : UInt8) (line : Nat) : State :=
  let grown := s.chunk.growthEvents
  { s with chunk := s.chunk.write byte line, events := s.events ++ grown }

/-- Writes an instruction without operand. -/
def writeOp (s : State) (op : Opcode) (line : Nat) : State :=
  s.write op.toByte line

/-- Writes the instruction that pushes a value, on the line of the previous token. -/
def writeConstant (s : State) (value : Float) : State :=
  let index := s.chunk.constants.size
  let line := s.previous.line
  if maxConstants ≤ index then s.report s.previous Complaint.tooManyConstants.message
  else
    let pooled := { s with chunk := s.chunk.addConstant value }.note (.addedConstant index value)
    (pooled.writeOp .constant line).write (UInt8.ofNat index) line

/-- Writes the instruction that pushes the number in the previous token. -/
def writeNumber (s : State) : State :=
  match Decimal.read? s.previous.lexeme with
  | some value => s.writeConstant value
  | none => s.report s.previous Complaint.invalidNumber.message

/-! ## Tokens ahead -/

@[simp]
theorem ahead_report (s : State) (t : Token) (message : String) :
    (s.report t message).ahead = s.ahead := by
  unfold report
  split <;> rfl

@[simp]
theorem ahead_write (s : State) (byte : UInt8) (line : Nat) :
    (s.write byte line).ahead = s.ahead := rfl

@[simp]
theorem ahead_writeOp (s : State) (op : Opcode) (line : Nat) :
    (s.writeOp op line).ahead = s.ahead :=
  ahead_write s op.toByte line

@[simp]
theorem ahead_writeConstant (s : State) (value : Float) :
    (s.writeConstant value).ahead = s.ahead := by
  simp only [writeConstant]
  split
  · exact ahead_report ..
  · rw [ahead_write, ahead_writeOp]; rfl

@[simp]
theorem ahead_writeNumber (s : State) : s.writeNumber.ahead = s.ahead := by
  unfold writeNumber
  split
  · exact ahead_writeConstant ..
  · exact ahead_report ..

theorem ahead_fetch_le (s : State) (tokens : List Token) :
    (s.fetch tokens).ahead ≤ tokens.length := by
  induction tokens generalizing s with
  | nil => simp [fetch, ahead, TokenStream.eof, Token.eof]
  | cons t rest ih =>
    unfold fetch
    split
    · exact Nat.le_succ_of_le (ih _)
    · simp only [ahead, List.length_cons]
      split <;> omega

/-- Moving on leaves at most the tokens that were not read yet. -/
theorem ahead_advance_le (s : State) : s.advance.ahead ≤ s.stream.tokens.length :=
  ahead_fetch_le s _

theorem ahead_advance_le_ahead (s : State) : s.advance.ahead ≤ s.ahead :=
  Nat.le_trans s.ahead_advance_le (Nat.le_add_right ..)

/-- Short of the end, moving on leaves fewer tokens. -/
theorem ahead_advance_lt {s : State} (h : s.current.kind ≠ .eof) :
    s.advance.ahead < s.ahead := by
  have := s.ahead_advance_le
  simp only [ahead, h, if_false] at this ⊢
  omega

theorem ahead_consume_le (s : State) (kind : Kind) (complaint : Complaint) :
    (s.consume kind complaint).ahead ≤ s.ahead := by
  unfold consume
  split
  · exact ahead_advance_le_ahead s
  · exact Nat.le_of_eq (ahead_report ..)

end State

end Reckon.Compile
