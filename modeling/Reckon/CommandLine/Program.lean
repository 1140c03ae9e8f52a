/-
The program: reads settings and a source, runs the source and reports.

Files are read through a function that is handed in, so that the whole program is a
function of its command line and of what the files hold; so is the reason why a text holds no
settings, which only the reader of that format can tell.  The exit code tells how the program
ended: 78 if the settings or the log cannot be had, 66 if the source cannot be read, 65 or 70
if the source does not compile or its run fails, and 0 otherwise.  A program that is asked for
a ring which no memory could hold is stopped with 101, and what it says then is not its own.
-/
import Reckon.CommandLine.Args
import Reckon.Context
import Reckon.Log.Plan
import Reckon.Run
import Reckon.Settings.Reader

namespace Reckon

/-- Why a file cannot be read. -/
inductive FileError where
  | notFound
  | isDirectory
  | notText
  | other (reason : String)
deriving DecidableEq, Repr

/-- The words of a file error. -/
def FileError.message : FileError → String
  | notFound => "No such file or directory (os error 2)"
  | isDirectory => "Is a directory (os error 21)"
  | notText => "stream did not contain valid UTF-8"
  | other reason => reason

/-- What the files hold, by their names. -/
abbrev Files : Type := String → Except FileError String

namespace Args

/-- The settings in the file that the command line names, or the defaults. -/
def fileSettings (reason : String → String) (a : Args) (files : Files) :
    Except SettingsError Settings :=
  match a.config with
  | none => .ok {}
  | some path =>
    match files path with
    | .error e => .error (.unreadable (path ++ ": " ++ e.message))
    | .ok text => Settings.read reason text

/-- The settings of a command line: those of the file, changed by the options. -/
def settings (reason : String → String) (a : Args) (files : Files) :
    Except SettingsError Settings := do
  let s ← a.fileSettings reason files
  let s := { s with
    traceRun := s.traceRun || a.trace
    listCode := s.listCode && !a.noDump
    listTokens := s.listTokens || a.tokens }
  match a.logLevel with
  | none => return s
  | some name =>
    match Level.ofUserName? name with
    | none => .error (.unknownLevel name)
    | some level => return { s with level }

end Args

/-- How a program ended, and what it printed. -/
structure Ending where
  exitCode : Nat
  console : Console

namespace Program

/-- The plan of a program's log: a ring if one is asked for. -/
def plan (level : Level) (ring : Nat) : LogPlan :=
  let plain : LogPlan := { level }
  if 0 < ring then plain.add (.ring ring) else plain

/-- The console of a program: its log as planned, and rows on the error output. -/
def console (level : Level) (ring time : Nat) : Except LogFault Console :=
  (plan level ring).console.map fun c => c.withLogger fun l => { l.attach .rows with time }

/-- The text of a piece of output, with log rows in a given format. -/
def render (format : LogFormat) : Piece → String
  | .text s => s
  | .line r => r.line ++ "\n"
  | .row r =>
    (match format with
      | .pretty => r.line
      | .compact => r.compactRow
      | .json => r.jsonRow) ++ "\n"

/-- Reports a failure on the error output. -/
def report (c : Console) (f : Failure) (source : String) (format : ErrorFormat) : Console :=
  match format with
  | .json => c.printError f.report.json
  | .text => (f.contextRows source).foldl Console.printError c

/-- Prints the records that are left in the rings, if there are any. -/
def printRings (c : Console) : Console :=
  c.rings.foldl (fun c ring =>
    if ring.size = 0 then c
    else
      let headed := c.printError ("--- last " ++ toString ring.size ++ " log records ---")
      { headed with err := headed.err ++ ring.records.map Piece.line }) c

/-- Runs the program. -/
def run (reason : String → String) (a : Args) (files : Files) (time : Nat) : Ending :=
  match a.settings reason files with
  | .error e =>
    let failure := Failure.settings e
    ⟨failure.exitCode, report .silent failure "" a.errorFormat⟩
  | .ok settings =>
    match console settings.level a.logRing time with
    | .error (.refused e) => ⟨78, Console.silent.printError ("Error: " ++ e.message)⟩
    | .error .tooLarge => ⟨101, .silent⟩
    | .ok opened =>
      match files a.file with
      | .error e =>
        ⟨66, opened.printError ("Error: Cannot read '" ++ a.file ++ "': " ++ e.message)⟩
      | .ok source =>
        let loaded := opened.note (.sourceLoaded a.file source.utf8ByteSize)
        match loaded.run settings.toOptions source with
        | (.ok _, after) => ⟨0, after⟩
        | (.error e, after) =>
          let failure := e.toFailure
          ⟨failure.exitCode, printRings (report after failure source a.errorFormat)⟩

end Program

end Reckon
