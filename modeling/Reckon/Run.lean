/-
Running a source: listing its tokens if asked to, compiling it and executing the code.
-/
import Reckon.Compile.Basic
import Reckon.Console
import Reckon.Failure
import Reckon.Machine.Basic
import Reckon.Token.Listing

namespace Reckon

/-- The token listing of a source, if it is asked for. -/
def listTokens (o : Options) (source : String) : List Event :=
  if o.listTokens then
    let stream := TokenStream.ofSource source
    [.text stream.listing, .note (.tokensListed stream.size)]
  else []

/-- Compiles a source, with the token listing before it. -/
def compileSource (o : Options) (source : String) : Traced (Except CompileError Chunk) :=
  let compiled := compile o source
  let done := match compiled.result with
    | .ok _ => [.note .compilerDone]
    | .error _ => []
  ⟨compiled.result,
    listTokens o source ++ [.note .compilerStarted] ++ compiled.events ++ done⟩

/-- Executes a chunk. -/
def executeChunk (o : Options) (c : Chunk) : Traced (Except RuntimeError Float) :=
  let run := Machine.execute o c
  let done := match run.result.result with
    | .ok value => [.note (.finalValue value)]
    | .error _ => []
  ⟨run.result.result, run.events ++ done⟩

/-- Compiles a source and executes its code. -/
def runSource (o : Options) (source : String) : Traced (Except RunError Float) :=
  let compiled := compileSource o source
  let begun := Event.note .runStarted :: compiled.events
  match compiled.result with
  | .error e => ⟨.error (.compile e), begun⟩
  | .ok chunk =>
    let run := executeChunk o chunk
    match run.result with
    | .error e => ⟨.error (.runtime e), begun ++ run.events⟩
    | .ok value => ⟨.ok value, begun ++ run.events ++ [.note .runDone]⟩

namespace Console

/-- What a computation gives, and the console after it. -/
def perform {α : Type} (c : Console) (t : Traced α) : α × Console :=
  (t.result, c.observeAll t.events)

/-- Runs a source in a span of its own. -/
def run (c : Console) (o : Options) (source : String) : Except RunError Float × Console :=
  let id := c.logger.nextSpan
  let (result, after) := (c.withLogger (·.enter "run")).perform (runSource o source)
  (result, after.withLogger (·.leave id))

end Console

end Reckon
