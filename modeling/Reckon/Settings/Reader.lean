/-
Reading settings from a JSON text.

The settings are grouped in four sections.  A section is an object with any of its fields,
in any order and among other members, or an array of its first fields in order.  What is
not given keeps its default; a field given twice or with a value of another type makes the
text malformed.  Why it is so is not told here: the reason, with the place in the text, is that
of whoever decodes the format, and is handed in as a function of the text.
-/
import Reckon.Json.Basic
import Reckon.Settings.Basic

namespace Reckon.Settings

/-- The members of an object with a given name. -/
def named (name : String) (members : List (Option String × Json)) : List Json :=
  (members.filter (fun m => m.1 = some name)).map Prod.snd

/-- The one value given for a name, if any; a name given twice is refused. -/
def single? : List Json → Option (Option Json)
  | [] => some none
  | [value] => some (some value)
  | _ => none

/-- The values given for the fields of a section, in the order of the names. -/
def fields? (names : List String) : Json → Option (List (Option Json))
  | .array items =>
    if items.length ≤ names.length then
      some (items.map some ++ List.replicate (names.length - items.length) none)
    else none
  | .object members =>
    if members.any (fun m => m.1.isNone) then none
    else names.mapM fun name => single? (named name members)
  | _ => none

/-- The value of a field, or its default if it is not given. -/
def orDefault {α : Type} (given : Option Json) (default : α) (read : Json → Option α) :
    Option α :=
  match given with
  | none => some default
  | some j => read j

/-- Reads a switch. -/
def bool? : Json → Option Bool
  | .bool b => some b
  | _ => none

/-- Reads a machine word. -/
def word? : Json → Option Nat
  | .natural n => if n ≤ Text.wordMax then some n else none
  | _ => none

/-- Reads a level: its name, or an object that maps its name to null. -/
def level? : Json → Option Level
  | .string (some name) => Level.ofName? name
  | .object [(some name, .null)] => Level.ofName? name
  | _ => none

/-- Reads the section of the scanner. -/
def scanner? (s : Settings) (j : Json) : Option Settings :=
  match fields? ["dump_tokens"] j with
  | some [listTokens] => do
    return { s with listTokens := ← orDefault listTokens s.listTokens bool? }
  | _ => none

/-- Reads the section of the compiler. -/
def compiler? (s : Settings) (j : Json) : Option Settings :=
  match fields? ["dump_chunk", "max_nesting"] j with
  | some [listCode, maxNesting] => do
    return { s with
      listCode := ← orDefault listCode s.listCode bool?
      maxNesting := ← orDefault maxNesting s.maxNesting word? }
  | _ => none

/-- Reads the section of the machine. -/
def machine? (s : Settings) (j : Json) : Option Settings :=
  match fields? ["trace_execution", "stack_max"] j with
  | some [traceRun, stackMax] => do
    return { s with
      traceRun := ← orDefault traceRun s.traceRun bool?
      stackMax := ← orDefault stackMax s.stackMax word? }
  | _ => none

/-- Reads the section of the log. -/
def logging? (s : Settings) (j : Json) : Option Settings :=
  match fields? ["level"] j with
  | some [level] => do
    return { s with level := ← orDefault level s.level level? }
  | _ => none

/-- Reads all sections of the settings. -/
def ofJson? (j : Json) : Option Settings :=
  match fields? ["scanner", "compiler", "vm", "logging"] j with
  | some [scanner, compiler, machine, logging] => do
    let s : Settings := {}
    let s ← orDefault scanner s (scanner? s)
    let s ← orDefault compiler s (compiler? s)
    let s ← orDefault machine s (machine? s)
    orDefault logging s (logging? s)
  | _ => none

/-- Reads settings from a text and checks them; `reason` tells why a text holds none. -/
def read (reason : String → String) (text : String) : Except SettingsError Settings :=
  match (Json.read? text).bind ofJson? with
  | none => .error (.malformed (reason text))
  | some s => s.validate

end Reckon.Settings
