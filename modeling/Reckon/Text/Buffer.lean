/-
Text buffers: text that is collected piece by piece.
-/
import Reckon.Text.Lines

namespace Reckon.Text

/-- The text collected so far. -/
structure Buffer where
  contents : String := ""
deriving DecidableEq, Repr

namespace Buffer

/-- Adds a text at the end. -/
def append (b : Buffer) (s : String) : Buffer := ⟨b.contents ++ s⟩

/-- Adds a text and a newline at the end. -/
def appendLine (b : Buffer) (s : String) : Buffer := (b.append s).append "\n"

/-- The lines collected so far. -/
def lines (b : Buffer) : List String := Text.lines b.contents

/-- Whether nothing was collected. -/
def isEmpty (b : Buffer) : Bool := b.contents.isEmpty

end Buffer

end Reckon.Text
