/-
Events: what a computation lets out while it goes on.

The compiler and the machine are plain functions.  Besides its result each of them gives
the list of its events in order: texts for the reader of the program's output, and notes
for whoever watches the log.  A note is kept as what happened, not as words, so that its
words are made only where somebody listens, and so that it can hold more than they say.
-/
import Reckon.Decimal.Layout
import Reckon.Fault
import Reckon.Log.Level
import Reckon.Opcode
import Reckon.Token.Basic

namespace Reckon

/-- Something that happened, for the log. -/
inductive Note where
  | scanned (token : Token)
  | addedConstant (index : Nat) (value : Float)
  | suppressed (message : String)
  | diagnosed (diagnostic : Diagnostic)
  | compileFailed (diagnostics : Nat)
  | compiled (bytes constants : Nat)
  | chunkGrew (before after : Nat)
  | unknownOpcode (byte : UInt8) (offset : Nat)
  | executing (op : Opcode) (offset : Nat) (stack : List Float)
  | runtimeFailed (error : RuntimeError)
  | runStarted
  | tokensListed (count : Nat)
  | compilerStarted
  | compilerDone
  | finalValue (value : Float)
  | runDone
  | sourceLoaded (file : String) (bytes : Nat)

namespace Note

/-- How important a note is. -/
def level : Note → Level
  | scanned _ | addedConstant _ _ | suppressed _ | chunkGrew _ _ | executing _ _ _ => .trace
  | diagnosed _ | compileFailed _ | compiled _ _ | runtimeFailed _ | tokensListed _
  | finalValue _ | sourceLoaded _ _ => .debug
  | runStarted | compilerStarted | compilerDone | runDone => .info
  | unknownOpcode _ _ => .warn

/-- The part of the program that a note comes from. -/
def target : Note → String
  | scanned _ => "alphae_core::scanner"
  | addedConstant _ _ | suppressed _ | diagnosed _ | compileFailed _ | compiled _ _ =>
    "alphae_core::compiler"
  | chunkGrew _ _ => "alphae_core::chunk"
  | unknownOpcode _ _ | executing _ _ _ | runtimeFailed _ => "alphae_core::vm"
  | runStarted | tokensListed _ | compilerStarted | compilerDone | finalValue _ | runDone =>
    "alphae_api"
  | sourceLoaded _ _ => "alphae"

/-- A stack, bottom first, in exact number text. -/
def stackText (stack : List Float) : String :=
  "[" ++ Text.joined ", " (stack.reverse.map Decimal.Layout.exact.text) ++ "]"

/-- The words of a note about a token. -/
def tokenMessage (t : Token) : String :=
  if t.kind = .fault then "scan error at line " ++ toString t.line ++ ": " ++ t.lexeme
  else "token " ++ t.kind.name ++ " '" ++ t.lexeme ++ "' at line " ++ toString t.line

/-- The words of a note. -/
def message : Note → String
  | scanned token => tokenMessage token
  | addedConstant index value =>
    "constant #" ++ toString index ++ " = " ++ Decimal.Layout.plain.text value
  | suppressed message => "suppressed in panic mode: " ++ message
  | diagnosed diagnostic => diagnostic.text
  | compileFailed diagnostics =>
    "compile failed with " ++ toString diagnostics ++ " diagnostic(s)"
  | compiled bytes constants =>
    "compiled " ++ toString bytes ++ " bytes, " ++ toString constants ++ " constants"
  | chunkGrew before after =>
    "chunk grow: " ++ toString before ++ " -> " ++ toString after
  | unknownOpcode byte offset =>
    "unknown opcode " ++ toString byte.toNat ++ " at offset " ++ toString offset ++ ", skipped"
  | executing op _ stack => "execute: " ++ op.variant ++ ", stack: " ++ stackText stack
  | runtimeFailed error => "runtime error: " ++ error.text
  | runStarted => "Starting execution"
  | tokensListed count => "listed " ++ toString count ++ " tokens"
  | compilerStarted => "Starting compiler"
  | compilerDone => "Compiler completed"
  | finalValue value => "final value: " ++ Decimal.Layout.plain.text value
  | runDone => "Execution completed"
  | sourceLoaded file bytes => "loaded " ++ file ++ " (" ++ toString bytes ++ " bytes)"

end Note

/-- A text for the program's output or a note for its log. -/
inductive Event where
  | text (s : String)
  | note (n : Note)

namespace Event

/-- The text event of one row. -/
def row (s : String) : Event := text (s ++ "\n")

/-- The text of an event; a note has none. -/
def text? : Event → Option String
  | text s => some s
  | note _ => none

/-- The note in an event. -/
def note? : Event → Option Note
  | text _ => none
  | note n => some n

end Event

/-- A result together with the events on the way to it. -/
structure Traced (α : Type) where
  result : α
  events : List Event

namespace Traced

/-- All texts of a computation, one after another. -/
def text {α : Type} (t : Traced α) : String :=
  String.join (t.events.filterMap Event.text?)

/-- All notes of a computation, in order. -/
def notes {α : Type} (t : Traced α) : List Note :=
  t.events.filterMap Event.note?

/-- The same computation without its texts. -/
def muted {α : Type} (t : Traced α) : Traced α :=
  { t with events := t.events.filter (·.text?.isNone) }

end Traced

end Reckon
