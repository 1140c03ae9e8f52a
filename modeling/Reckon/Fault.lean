/-
Faults: what can be wrong with a source and what can go wrong in a run.

A source that does not compile gets diagnostics, each with a line, a place and a
message.  A run that cannot go on stops with one fault, blamed on the line of the
instruction that met it.
-/
import Reckon.Text.Column

namespace Reckon

/-- Where on its line a diagnostic points. -/
inductive Location where
  | token (lexeme : String)
  | atEnd
  | scan
deriving DecidableEq, Repr

/-- The place as it is named in a diagnostic. -/
def Location.text : Location → String
  | token lexeme => " at '" ++ lexeme ++ "'"
  | atEnd => " at end"
  | scan => ""

/-- What the compiler finds missing or too much. -/
inductive Complaint where
  | expectExpression
  | expectRightParen
  | expectEnd
  | nestedTooDeeply
  | tooManyConstants
  | invalidNumber
deriving DecidableEq, Repr

/-- The words of a complaint. -/
def Complaint.message : Complaint → String
  | expectExpression => "Expect expression."
  | expectRightParen => "Expect ')' after expression."
  | expectEnd => "Expect end of expression."
  | nestedTooDeeply => "Expression nested too deeply."
  | tooManyConstants => "Too many constants in one chunk."
  | invalidNumber => "Invalid number literal."

/-- A fault of a source. -/
structure Diagnostic where
  line : Nat
  location : Location
  message : String
deriving DecidableEq, Repr

/-- A diagnostic on one line. -/
def Diagnostic.text (d : Diagnostic) : String :=
  "[line " ++ toString d.line ++ "] Error" ++ d.location.text ++ ": " ++ d.message

/-- Why a source does not compile. -/
structure CompileError where
  diagnostics : List Diagnostic
deriving DecidableEq, Repr

namespace CompileError

/-- The diagnostics, one on each line. -/
def text (e : CompileError) : String :=
  Text.joined "\n" (e.diagnostics.map Diagnostic.text)

/-- The line of the first diagnostic. -/
def line? (e : CompileError) : Option Nat :=
  e.diagnostics.head?.map Diagnostic.line

end CompileError

/-- Why a run cannot go on. -/
inductive RuntimeFault where
  | stackOverflow (capacity : Nat)
  | stackUnderflow
  | invalidConstant (index : Nat)
  | unexpectedEnd (offset : Nat)
deriving DecidableEq, Repr

namespace RuntimeFault

/-- The words of a fault. -/
def message : RuntimeFault → String
  | stackOverflow capacity => "Stack overflow (capacity " ++ toString capacity ++ ")."
  | stackUnderflow => "Stack underflow."
  | invalidConstant index => "Invalid constant index " ++ toString index ++ "."
  | unexpectedEnd offset => "Unexpected end of bytecode at offset " ++ toString offset ++ "."

/-- The name of a fault. -/
def name : RuntimeFault → String
  | stackOverflow _ => "StackOverflow"
  | stackUnderflow => "StackUnderflow"
  | invalidConstant _ => "InvalidConstant"
  | unexpectedEnd _ => "UnexpectedEnd"

end RuntimeFault

/-- A fault of a run and the line that is blamed. -/
structure RuntimeError where
  fault : RuntimeFault
  line : Nat
deriving DecidableEq, Repr

/-- A runtime error on one line. -/
def RuntimeError.text (e : RuntimeError) : String :=
  "[line " ++ toString e.line ++ "] Runtime error: " ++ e.fault.message

end Reckon
