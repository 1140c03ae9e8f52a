/-
The command line program.
-/
import Reckon.CommandLine.Program
import Std.Time.DateTime.Timestamp

namespace Reckon

/-- Reads a file as text. -/
def readText (path : String) : IO (Except FileError String) := do
  try
    let bytes ← IO.FS.readBinFile path
    match String.fromUTF8? bytes with
    | some text => return .ok text
    | none => return .error .notText
  catch e =>
    match e with
    | .noFileOrDirectory .. => return .error .notFound
    | .inappropriateType .. => return .error .isDirectory
    | other => return .error (.other (toString other))

/-- How the program is called. -/
def usage : String :=
  "Usage: alphae [OPTIONS] <FILE>\n\n"
    ++ "Compile an arithmetic expression to bytecode and run it\n\n"
    ++ "Options:\n"
    ++ "      --trace                  show the stack and each instruction\n"
    ++ "      --no-dump                do not list the code\n"
    ++ "      --tokens                 list the tokens\n"
    ++ "      --config <JSON>          read settings from a file\n"
    ++ "      --log-level <LEVEL>      trace, debug, info, warn, error or silent\n"
    ++ "      --log-ring <N>           keep the last N log records\n"
    ++ "      --log-format <FORMAT>    pretty, compact or json\n"
    ++ "      --error-format <FORMAT>  text or json\n"
    ++ "  -h, --help                   print help\n"
    ++ "  -V, --version                print version\n"

/-- Why a text holds no settings. -/
def unsettled (text : String) : String :=
  if (Json.read? text).isNone then "not a JSON text" else "not a settings object"

/-- Prints the pieces of an output stream. -/
def printPieces (stream : IO.FS.Stream) (format : LogFormat) (pieces : Array Piece) : IO Unit := do
  for piece in pieces do
    stream.putStr (Program.render format piece)
  stream.flush

/-- Reads the files that a command line names and runs the program on them. -/
def runProgram (args : Args) : IO UInt32 := do
  let config ← match args.config with
    | some path => readText path
    | none => pure (.error .notFound)
  let source ← readText args.file
  let files : Files := fun path => if some path = args.config then config else source
  let now ← Std.Time.Timestamp.now
  let ending := Program.run unsettled args files now.toMillisecondsSinceUnixEpoch.toInt.toNat
  printPieces (← IO.getStdout) args.logFormat ending.console.out
  printPieces (← IO.getStderr) args.logFormat ending.console.err
  return UInt32.ofNat ending.exitCode

end Reckon

/-- Runs the program on its command line. -/
def main (args : List String) : IO UInt32 := do
  match Reckon.Args.read args with
  | .ok args => Reckon.runProgram args
  | .error .help => IO.print Reckon.usage; return 0
  | .error .version => IO.println "alphae 0.1.0"; return 0
  | .error .wrong => IO.eprint Reckon.usage; return 2
