/-
The outline of a chunk: its bytes, lines, capacity and constants.
-/
import Reckon.Chunk.Basic
import Reckon.Decimal.Layout
import Reckon.Text.Outline

namespace Reckon.Chunk

open Text (Outline)

/-- A chunk as a record; constants are written so that they can be told from whole numbers. -/
def outline (c : Chunk) : Outline :=
  .record "Chunk"
    [("code", .list (c.bytes.toList.map fun byte => .leaf (toString byte.toNat))),
     ("lines", .list (c.lines.toList.map fun line => .leaf (toString line))),
     ("capacity", .leaf (toString c.capacity)),
     ("constants",
       .list (c.constants.values.toList.map fun value => .leaf (Decimal.Layout.exact.text value)))]

end Reckon.Chunk
