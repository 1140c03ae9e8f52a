/-
Compiling a source: an expression and nothing after it, followed by the instruction that
returns its value.
-/
import Reckon.Chunk.Listing
import Reckon.Compile.Parse

namespace Reckon

namespace Compile.State

/-- The state at the end of a source, with all code written. -/
def finish (source : String) (maxNesting : Nat) : State :=
  let parsed := ((start source).advance.parse maxNesting .assignment).consume .eof .expectEnd
  parsed.writeOp .ret parsed.previous.line

end Compile.State

/-- Compiles a source.  A source with a fault gives its diagnostics and no code. -/
def compile (o : Options) (source : String) : Traced (Except CompileError Chunk) :=
  let s := Compile.State.finish source o.maxNesting
  if s.failed then
    ⟨.error ⟨s.diagnostics⟩, (s.note (.compileFailed s.diagnostics.length)).events.toList⟩
  else
    let done := s.note (.compiled s.chunk.size s.chunk.constants.size)
    let shown := if o.listCode then done.emit (.text (s.chunk.listing "code")) else done
    ⟨.ok s.chunk, shown.events.toList⟩

end Reckon
