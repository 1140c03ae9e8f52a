/-
Shared settings: stored once, used by every later call.

Settings come with a logger and with a place for texts.  Both belong to consoles, of which there
can be several, and a profile names them by their numbers.  The first profile to be stored stays.
It is either given or the standard one, which prints nothing and logs nothing.
-/
import Reckon.Run

namespace Reckon

/-- The consoles of a program, by their numbers. -/
abbrev Consoles : Type := Array Console

/-- Changes the console with a given number, if one is given and there is such a console. -/
def Consoles.change (cs : Consoles) (number : Option Nat) (f : Console → Console) : Consoles :=
  match number with
  | none => cs
  | some k => cs.modify k f

/-- How sources are run, and what is to be seen of it. -/
structure Profile where
  options : Options
  /-- The console that notes are logged to; nobody listens if there is none. -/
  log : Option Nat
  /-- The console that texts are printed on; they are dropped if there is none. -/
  text : Option Nat
deriving DecidableEq, Repr

namespace Profile

/-- The profile used where none was given. -/
def standard : Profile := ⟨{}, none, none⟩

/-- The logger of a profile. -/
def logger (p : Profile) (cs : Consoles) : Logger :=
  ((p.log.bind (cs[·]?)).getD .silent).logger

/-- The level of the log under a profile. -/
def level (p : Profile) (cs : Consoles) : Level :=
  (p.logger cs).threshold

/-- Prints the text or logs the note of an event, each where it belongs. -/
def observe (p : Profile) (cs : Consoles) (e : Event) : Consoles :=
  match e with
  | .text s => cs.change p.text (·.print s)
  | .note n => cs.change p.log (·.note n)

/-- What a computation gives, and the consoles after it. -/
def perform {α : Type} (p : Profile) (cs : Consoles) (t : Traced α) : α × Consoles :=
  (t.result, t.events.foldl p.observe cs)

/-- Compiles a source under a profile. -/
def compile (p : Profile) (cs : Consoles) (source : String) : Except Failure Chunk × Consoles :=
  let (result, after) := p.perform cs (compileSource p.options source)
  (result.mapError .compile, after)

/-- Executes a chunk under a profile. -/
def execute (p : Profile) (cs : Consoles) (chunk : Chunk) : Except Failure Float × Consoles :=
  let (result, after) := p.perform cs (executeChunk p.options chunk)
  (result.mapError .runtime, after)

/-- Runs a source under a profile, in a span of its own. -/
def run (p : Profile) (cs : Consoles) (source : String) : Except Failure Float × Consoles :=
  let id := (p.logger cs).nextSpan
  let entered := cs.change p.log (·.withLogger (·.enter "run"))
  let (result, after) := p.perform entered (runSource p.options source)
  (result.mapError RunError.toFailure, after.change p.log (·.withLogger (·.leave id)))

end Profile

/-- The stored profile, if there is one. -/
structure Shared where
  stored : Option Profile := none
deriving DecidableEq, Repr

namespace Shared

/-- Stores a profile unless one is stored; the first result tells whether it was. -/
def store (s : Shared) (p : Profile) : Bool × Shared :=
  match s.stored with
  | none => (true, ⟨some p⟩)
  | some _ => (false, s)

/-- The stored profile; the standard one is stored if there is none. -/
def orStandard (s : Shared) : Profile × Shared :=
  match s.stored with
  | none => (.standard, ⟨some .standard⟩)
  | some p => (p, s)

/-- Does something under the stored profile, which must be there. -/
def withStored {α : Type} (s : Shared) (cs : Consoles)
    (f : Profile → Consoles → Except Failure α × Consoles) : Except Failure α × Consoles :=
  match s.stored with
  | none => (.error .uninitialized, cs)
  | some p => f p cs

/-- Compiles a source under the stored profile. -/
def compile (s : Shared) (cs : Consoles) (source : String) : Except Failure Chunk × Consoles :=
  s.withStored cs fun p cs => p.compile cs source

/-- Executes a chunk under the stored profile. -/
def execute (s : Shared) (cs : Consoles) (chunk : Chunk) : Except Failure Float × Consoles :=
  s.withStored cs fun p cs => p.execute cs chunk

/-- Runs a source under the stored profile. -/
def run (s : Shared) (cs : Consoles) (source : String) : Except Failure Float × Consoles :=
  s.withStored cs fun p cs => p.run cs source

/-- Runs a source under the stored profile, or under the standard one, which is then stored. -/
def quickRun (s : Shared) (cs : Consoles) (source : String) :
    Except Failure Float × Consoles × Shared :=
  let (p, after) := s.orStandard
  let (result, consoles) := p.run cs source
  (result, consoles, after)

end Shared

end Reckon
