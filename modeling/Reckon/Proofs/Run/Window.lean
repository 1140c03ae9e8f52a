/-
# The window around a line

The context of a line is a window of the source: two lines before it and two after it, as far as
there are lines, each in a row of its own with its number.  The numbers are set flush right in a
column as wide as the last of them, which is the largest, so all rows have their texts in one
place (`length_contextHead`).  A row is found by its number (`getElem?_contextRows`), and from
there comes everything that is said about the window (`contextRows_window`).

Line numbers are machine words.  `contextRows?` is the same window computed step by step, where a
sum that is too large for a word, a difference below zero or an index without a line stops the
computation.  A source has no more lines than bytes, and no source in memory has so many bytes
that two more would be too many for a word; so nothing stops the computation
(`contextRows?_eq_some`).
-/
import Reckon.Proofs.Run.Context
import Reckon.Proofs.Text.Rows

namespace Reckon

/-! ## Rows -/

/-- What stands before the bar in a row of the context. -/
def contextHead (width marked number : Nat) : String :=
  (if number = marked then ">" else " ") ++ " " ++ Text.flushRight width (toString number)

/-- A smaller number has no more digits. -/
theorem length_toString_le {m n : Nat} (h : m ≤ n) :
    (toString m).length ≤ (toString n).length := by
  have hpos : 0 < (toString n).length := Nat.length_repr_pos
  have hn : n < 10 ^ (toString n).length := (Nat.length_repr_le_iff hpos).mp (Nat.le_refl _)
  exact (Nat.length_repr_le_iff hpos).mpr (Nat.lt_of_le_of_lt h hn)

/-- The head of a row is its mark, a blank and the column of the numbers. -/
theorem length_contextHead {width marked number : Nat} (h : (toString number).length ≤ width) :
    (contextHead width marked number).length = width + 2 := by
  have hmark : (if number = marked then ">" else " ").length = 1 := by
    split <;> rfl
  have hblank : (" " : String).length = 1 := rfl
  have hfill (n : Nat) : (Text.fill ' ' n).length = n := by
    simp [Text.fill]
  rw [contextHead, Text.flushRight, String.length_append, String.length_append,
    String.length_append, hmark, hblank, hfill]
  omega

/-! ## The window -/

/-- The number of the first line in the window around a line. -/
def contextFirst (line : Nat) : Nat := max 1 (line - 2)

/-- The number of the last line in the window around a line. -/
def contextLast (source : String) (line : Nat) : Nat :=
  min (Text.lines source).length (line + 2)

/-- `ShowsWindow rows source line first last`: the rows show the lines of the source from `first`
to `last`, one after the other.  In front of the text of its line every row has the number of the
line, flush right under heads of one length, and only the row of `line` is marked. -/
structure ShowsWindow (rows : List String) (source : String) (line first last : Nat) : Prop where
  length_eq : rows.length = last + 1 - first
  shown : ∃ width, ∀ number, first ≤ number → number ≤ last →
    ∃ blanks text,
      (Text.lines source)[number - 1]? = some text ∧
      rows[number - first]? = some ((if number = line then ">" else " ") ++ " "
        ++ (Text.fill ' ' blanks ++ toString number) ++ " | " ++ text) ∧
      ((if number = line then ">" else " ") ++ " "
        ++ (Text.fill ' ' blanks ++ toString number)).length = width
  marked : ∀ k row, rows[k]? = some row → (isMarked row = true ↔ first + k = line)

section
variable {source : String} {line : Nat}

/-- The rows of a line that the source has. -/
theorem contextRows_of_le (hpos : 0 < line) (hle : line ≤ (Text.lines source).length) :
    contextRows source line =
      ((((Text.lines source).take (contextLast source line)).zipIdx 1).drop
        (contextFirst line - 1)).map fun (text, number) =>
          contextRow (toString (contextLast source line)).length line number text := by
  rw [contextRows, if_neg (by omega), contextLast, contextFirst, Nat.max_comm, Nat.min_comm]
  rfl

theorem length_contextRows (hpos : 0 < line) (hle : line ≤ (Text.lines source).length) :
    (contextRows source line).length = contextLast source line + 1 - contextFirst line := by
  rw [contextRows_of_le hpos hle, List.length_map, List.length_drop, List.length_zipIdx,
    List.length_take]
  unfold contextLast contextFirst
  omega

/-- The row at a place shows the line with that number. -/
theorem getElem?_contextRows (hpos : 0 < line) (hle : line ≤ (Text.lines source).length)
    {k : Nat} (hk : contextFirst line + k ≤ contextLast source line) :
    (contextRows source line)[k]? =
      (Text.lines source)[contextFirst line + k - 1]?.map
        (contextRow (toString (contextLast source line)).length line (contextFirst line + k)) := by
  have hfirst : 1 ≤ contextFirst line := Nat.le_max_left ..
  have hplace : contextFirst line - 1 + k = contextFirst line + k - 1 := by omega
  have hnumber : 1 + (contextFirst line + k - 1) = contextFirst line + k := by omega
  rw [contextRows_of_le hpos hle, List.getElem?_map, List.getElem?_drop, List.getElem?_zipIdx,
    hplace, hnumber, List.getElem?_take_of_lt (by omega), Option.map_map]
  rfl

theorem exists_line {number : Nat} (hpos : 0 < number)
    (hlast : number ≤ contextLast source line) :
    ∃ text, (Text.lines source)[number - 1]? = some text := by
  have hle : contextLast source line ≤ (Text.lines source).length := Nat.min_le_left ..
  exact ⟨_, List.getElem?_eq_getElem (by omega)⟩

theorem showsWindow_contextRows (hpos : 0 < line) (hle : line ≤ (Text.lines source).length) :
    ShowsWindow (contextRows source line) source line (contextFirst line)
      (contextLast source line) := by
  have hfirst : 1 ≤ contextFirst line := Nat.le_max_left ..
  refine ⟨length_contextRows hpos hle, ⟨(toString (contextLast source line)).length + 2, ?_⟩, ?_⟩
  · intro number hlow hhigh
    obtain ⟨text, htext⟩ := exists_line (by omega) hhigh
    have hrow := getElem?_contextRows hpos hle (k := number - contextFirst line) (by omega)
    rw [Nat.add_sub_cancel' hlow, htext] at hrow
    exact ⟨_, text, htext, hrow, length_contextHead (length_toString_le hhigh)⟩
  · intro k row hrow
    have hk : k < (contextRows source line).length := (List.getElem?_eq_some_iff.mp hrow).1
    rw [length_contextRows hpos hle] at hk
    have hlast : contextFirst line + k ≤ contextLast source line := by omega
    obtain ⟨text, htext⟩ := exists_line (by omega) hlast
    rw [getElem?_contextRows hpos hle hlast, htext] at hrow
    cases hrow
    rw [isMarked_contextRow, decide_eq_true_eq]

/-- There is a window exactly around the lines of the source. -/
theorem contextRows_eq_nil_iff :
    contextRows source line = [] ↔ line = 0 ∨ (Text.lines source).length < line := by
  constructor
  · intro hnil
    refine Classical.byContradiction fun hline => ?_
    have hpos : 0 < line := by omega
    have hle : line ≤ (Text.lines source).length := by omega
    have hlength := length_contextRows hpos hle
    rw [hnil, List.length_nil] at hlength
    unfold contextLast contextFirst at hlength
    omega
  · exact fun hline => if_pos hline

end

/-! ## Machine words -/

/-- The sum of two words, if it is a word. -/
def Word.add? (a b : Nat) : Option Nat := if a + b ≤ Text.wordMax then some (a + b) else none

/-- The difference of two words, if it is not below zero. -/
def Word.sub? (a b : Nat) : Option Nat := if b ≤ a then some (a - b) else none

/-- The rows of some lines in a row, from the line with a given number on. -/
def rowsFrom? (lines : Array String) (width line number : Nat) : Nat → Option (List String)
  | 0 => some []
  | count + 1 => do
    let index ← Word.sub? number 1
    let text ← lines[index]?
    let below ← rowsFrom? lines width line (number + 1) count
    return contextRow width line number text :: below

/-- The rows around a line, computed with words. -/
def contextRows? (source : String) (line : Nat) : Option (List String) :=
  let lines := (Text.lines source).toArray
  if line = 0 ∨ lines.size < line then some []
  else do
    let first := max (line - contextReach) 1
    let last := min (← Word.add? line contextReach) lines.size
    rowsFrom? lines (toString last).length line first (last + 1 - first)

namespace Text

theorem length_lineChars_le (cs : List Char) : (lineChars cs).length ≤ cs.length := by
  fun_induction lineChars cs with
  | case1 => exact Nat.le_refl _
  | case2 rest ih => exact Nat.succ_le_succ ih
  | case3 rest ih => exact Nat.le_succ_of_le (Nat.succ_le_succ ih)
  | case4 c rest => exact Nat.succ_le_succ (Nat.zero_le _)
  | case5 c rest _ _ line below hbelow ih =>
      rw [hbelow] at ih
      exact Nat.le_succ_of_le ih

theorem length_le_utf8ByteSize (s : String) : s.toList.length ≤ s.utf8ByteSize := by
  have hchars : ∀ cs : List Char, cs.length ≤ (String.ofList cs).utf8ByteSize := by
    intro cs
    induction cs with
    | nil => exact Nat.zero_le _
    | cons c cs ih =>
        have hsplit : String.ofList (c :: cs) = String.singleton c ++ String.ofList cs := by
          rw [String.singleton_eq_ofList, ← String.ofList_append]
          rfl
        have hc := c.utf8Size_pos
        rw [hsplit, String.utf8ByteSize_append, String.utf8ByteSize_singleton, List.length_cons]
        omega
  have hs := hchars s.toList
  rwa [String.ofList_toList] at hs

/-- A text has no more lines than bytes. -/
theorem length_lines_le (s : String) : (lines s).length ≤ s.utf8ByteSize := by
  rw [lines, List.length_map]
  exact Nat.le_trans (length_lineChars_le s.toList) (length_le_utf8ByteSize s)

end Text

/-- Rows that exist are all found, whatever the number of the first. -/
theorem rowsFrom?_eq_some {lines : Array String} {width line number count : Nat}
    {rows : List String} (hpos : 0 < number) (hlength : rows.length = count)
    (h : ∀ k < count, rows[k]? = lines[number + k - 1]?.map (contextRow width line (number + k))) :
    rowsFrom? lines width line number count = some rows := by
  induction count generalizing number rows with
  | zero => rw [List.length_eq_zero_iff.mp hlength, rowsFrom?]
  | succ count ih =>
      obtain ⟨row, below, rfl⟩ := List.exists_cons_of_length_eq_add_one hlength
      have hfirst := h 0 (Nat.succ_pos count)
      obtain ⟨text, htext, hrow⟩ := Option.map_eq_some_iff.mp hfirst.symm
      have hbelow : rowsFrom? lines width line (number + 1) count = some below := by
        refine ih (Nat.succ_pos number) (Nat.succ.inj hlength) fun k hk => ?_
        have hrow := h (k + 1) (Nat.succ_lt_succ hk)
        rw [List.getElem?_cons_succ] at hrow
        rw [hrow, show number + (k + 1) = number + 1 + k by omega]
      rw [Nat.add_zero] at htext hrow
      rw [rowsFrom?, Word.sub?, if_pos (Nat.succ_le_of_lt hpos), hbelow]
      show (lines[number - 1]?).bind _ = _
      rw [htext, ← hrow]
      rfl

/-- The computation with words goes through, and gives the same rows. -/
theorem contextRows?_eq_some {source : String} (hsize : source.utf8ByteSize ≤ sizeMax)
    (line : Nat) : contextRows? source line = some (contextRows source line) := by
  unfold contextRows?
  by_cases hline : line = 0 ∨ (Text.lines source).length < line
  · rw [if_pos (by simpa using hline), contextRows_eq_nil_iff.mpr hline]
  · have hpos : 0 < line := by omega
    have hle : line ≤ (Text.lines source).length := by omega
    have hlines := Text.length_lines_le source
    have hsum : line + contextReach ≤ Text.wordMax := by
      have hword : sizeMax + 2 ≤ Text.wordMax := by decide
      unfold contextReach
      omega
    have hfirst : max (line - contextReach) 1 = contextFirst line := Nat.max_comm ..
    have hlast : min (line + contextReach) (Text.lines source).toArray.size =
        contextLast source line := by
      rw [List.size_toArray, contextLast, Nat.min_comm]
      rfl
    rw [if_neg (by simpa using hline), Word.add?, if_pos hsum]
    show rowsFrom? _ _ _ _ _ = _
    rw [hfirst, hlast]
    refine rowsFrom?_eq_some (Nat.le_max_left ..) (length_contextRows hpos hle) fun k hk => ?_
    rw [List.getElem?_toArray]
    exact getElem?_contextRows hpos hle (by omega)

/-- The context of a line has no rows exactly if the source has no such line.  Otherwise its rows
show the lines from two before it to two after it, as far as there are lines: one row for each, in
order, with a mark or a blank, a blank, the number flush right, a bar and the text of the line.
What stands before the bar is equally long in all rows, and exactly the row of the line itself is
marked.  No index leaves the lines on the way, and for a source that fits into memory no sum
leaves the machine words. -/
theorem contextRows_window (source : String) (line : Nat) :
    (contextRows source line = [] ↔ line = 0 ∨ (Text.lines source).length < line) ∧
    (0 < line → line ≤ (Text.lines source).length →
      ShowsWindow (contextRows source line) source line (max 1 (line - 2))
        (min (Text.lines source).length (line + 2))) ∧
    (source.utf8ByteSize ≤ sizeMax →
      contextRows? source line = some (contextRows source line)) :=
  ⟨contextRows_eq_nil_iff, showsWindow_contextRows, fun hsize => contextRows?_eq_some hsize line⟩

end Reckon
