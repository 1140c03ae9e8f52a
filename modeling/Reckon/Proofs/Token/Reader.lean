/-
# A reader that works in place

The character NUL ends a source wherever it stands.  The scanner is given the text before the
first NUL; but a source can also be read in place, without looking for that NUL first.  Then
all characters stay where they are, one NUL is put after the last of them, and every loop and
every look ahead has to stop at a NUL of its own accord.

Such a reader sees the text from its place up to the next NUL (`Reader.view`).  Looking ahead
by one character or by two shows the first characters of that view (`peek_eq_view`,
`peekNext_of_cons`), and every loop moves the reader forward in it and no further
(`Reader.Moves`): over characters of a class, to the end of a string, over blanks and comments
(`moves_skip`).
-/
import Reckon.Proofs.Token.Partition

namespace Reckon

/-! ## The reader -/

/-- A source with all its characters, the number of characters read and the current line. -/
structure Reader where
  text : Array Char
  position : Nat
  line : Nat

namespace Reader

/-- The place before the first character; a NUL closes the source. -/
def ofSource (source : String) : Reader :=
  ⟨(source.toList ++ ['\x00']).toArray, 0, 1⟩

/-- The character at a place; after the last one there are NULs only. -/
def charAt (r : Reader) (index : Nat) : Char :=
  r.text[index]?.getD '\x00'

/-- The next character. -/
def peek (r : Reader) : Char := r.charAt r.position

/-- The character after the next one, unless the source ends before it. -/
def peekNext (r : Reader) : Char :=
  if r.peek = '\x00' then '\x00' else r.charAt (r.position + 1)

/-- Moves on by a character, unless the source ends here. -/
def advance (r : Reader) : Reader :=
  if r.peek = '\x00' then r else { r with position := r.position + 1 }

/-- Counts a line. -/
def breakLine (r : Reader) : Reader := { r with line := r.line + 1 }

/-- What is left of the text, whatever it holds. -/
def left (r : Reader) : Nat := r.text.size - r.position

theorem left_advance_lt {r : Reader} (h : r.peek ≠ '\x00') : r.advance.left < r.left := by
  have hlt : r.position < r.text.size := by
    refine Nat.lt_of_not_le fun hle => h ?_
    rw [peek, charAt, Array.getElem?_eq_none hle]
    rfl
  rw [advance, if_neg h]
  show r.text.size - (r.position + 1) < r.text.size - r.position
  omega

/-- Moves on over the characters of a class to which NUL does not belong. -/
def passWhile (p : Char → Bool) (hp : p '\x00' = false) (r : Reader) : Reader :=
  if p r.peek = true then r.advance.passWhile p hp else r
termination_by r.left
decreasing_by
  refine left_advance_lt fun hend => ?_
  simp_all

/-- Moves on to the next double quote, over as many lines as there are. -/
def passQuoted (r : Reader) : Reader :=
  if r.peek ≠ '"' ∧ r.peek ≠ '\x00' then
    if r.peek = '\n' then r.breakLine.advance.passQuoted else r.advance.passQuoted
  else r
termination_by r.left
decreasing_by
  · exact left_advance_lt (r := r.breakLine) (And.right ‹_›)
  · exact left_advance_lt (And.right ‹_›)

theorem peek_ne_of_class {p : Char → Bool} (hp : p '\x00' = false) {r : Reader}
    (h : p r.peek = true) : r.peek ≠ '\x00' := by
  intro hend
  rw [hend, hp] at h
  cases h

theorem left_passWhile_lt {p : Char → Bool} (hp : p '\x00' = false) {r : Reader}
    (h : p r.peek = true) : (r.passWhile p hp).left < r.left := by
  fun_induction passWhile p hp r with
  | case1 r _ ih =>
      have hlt := left_advance_lt (peek_ne_of_class hp h)
      by_cases hnext : p r.advance.peek = true
      · exact Nat.lt_trans (ih hnext) hlt
      · rw [passWhile.eq_def, if_neg hnext]
        exact hlt
  | case2 r hstop => exact absurd h hstop

/-- A character of a comment. -/
def inComment (c : Char) : Bool := c ≠ '\n' && c ≠ '\x00'

/-- Moves on over blanks and comments. -/
def skip (r : Reader) : Reader :=
  if r.peek = ' ' ∨ r.peek = '\r' ∨ r.peek = '\t' then r.advance.skip
  else if r.peek = '\n' then r.breakLine.advance.skip
  else if r.peek = '/' ∧ r.peekNext = '/' then (r.passWhile inComment rfl).skip
  else r
termination_by r.left
decreasing_by
  · refine left_advance_lt fun hend => ?_
    simp_all
  · refine left_advance_lt (r := r.breakLine) fun hend => ?_
    simp_all [breakLine, peek, charAt]
  · refine left_passWhile_lt rfl ?_
    rw [show r.peek = '/' from And.left ‹_›]
    rfl

/-- The characters from one place up to another. -/
def upTo (here stop : Reader) : List Char :=
  (here.text.extract here.position stop.position).toList

/-! ## What a reader sees -/

/-- The place in the text up to the next NUL. -/
def view (r : Reader) : Cursor :=
  ⟨(r.text.toList.drop r.position).takeWhile (· ≠ '\x00'), r.position, r.line⟩

theorem getD_takeWhile (cs : List Char) (k : Nat)
    (hk : k ≤ (cs.takeWhile (· ≠ '\x00')).length) :
    cs[k]?.getD '\x00' = (cs.takeWhile (· ≠ '\x00'))[k]?.getD '\x00' := by
  induction cs generalizing k with
  | nil => rfl
  | cons c rest ih =>
      by_cases hc : c = '\x00'
      · subst hc
        have hzero : k = 0 := by simpa using hk
        subst hzero
        rfl
      · have hcons : (c :: rest).takeWhile (· ≠ '\x00') = c :: rest.takeWhile (· ≠ '\x00') :=
          List.takeWhile_cons_of_pos (decide_eq_true hc)
        rw [hcons] at hk ⊢
        cases k with
        | zero => rfl
        | succ k => exact ih k (Nat.le_of_succ_le_succ hk)

section
variable (r : Reader)

theorem charAt_eq_view {k : Nat} (hk : k ≤ r.view.rest.length) :
    r.charAt (r.position + k) = r.view.rest[k]?.getD '\x00' := by
  rw [view, ← getD_takeWhile _ _ hk, List.getElem?_drop, Array.getElem?_toList]
  rfl

theorem peek_eq_view : r.peek = r.view.rest.head?.getD '\x00' := by
  rw [List.head?_eq_getElem?]
  exact r.charAt_eq_view (Nat.zero_le _)

theorem peek_of_cons {c : Char} {more : List Char} (h : r.view.rest = c :: more) :
    r.peek = c ∧ c ≠ '\x00' := by
  refine ⟨by rw [peek_eq_view, h]; rfl, ?_⟩
  have hmem : c ∈ r.view.rest := by rw [h]; exact List.mem_cons_self
  simpa using List.all_eq_true.mp List.all_takeWhile c hmem

theorem peek_eq_nul_iff : r.peek = '\x00' ↔ r.view.rest = [] := by
  cases h : r.view.rest with
  | nil => simp [peek_eq_view, h]
  | cons c more =>
      obtain ⟨hpeek, hc⟩ := r.peek_of_cons h
      simp [hpeek, hc]

theorem peekNext_of_cons {c : Char} {more : List Char} (h : r.view.rest = c :: more) :
    r.peekNext = more.head?.getD '\x00' := by
  obtain ⟨hpeek, hc⟩ := r.peek_of_cons h
  have hlength : 1 ≤ r.view.rest.length := by rw [h]; exact Nat.le_add_left ..
  rw [peekNext, hpeek, if_neg hc, r.charAt_eq_view hlength, h, List.head?_eq_getElem?]
  rfl

end

/-! ## How a reader moves -/

theorem takeWhile_drop {α : Type} (p : α → Bool) (xs : List α) (n : Nat)
    (hn : n ≤ (xs.takeWhile p).length) : (xs.drop n).takeWhile p = (xs.takeWhile p).drop n := by
  induction xs generalizing n with
  | nil => simp
  | cons x rest ih =>
      cases n with
      | zero => rfl
      | succ n =>
          by_cases hx : p x = true
          · rw [List.takeWhile_cons_of_pos hx] at hn ⊢
            exact ih n (Nat.le_of_succ_le_succ hn)
          · rw [List.takeWhile_cons_of_neg hx] at hn
            cases hn

/-- `r.Moves n r'`: the reader `r'` is `r` after `n` characters of its view, with the newlines
among them counted. -/
structure Moves (r : Reader) (n : Nat) (r' : Reader) : Prop where
  text : r'.text = r.text
  position : r'.position = r.position + n
  within : n ≤ r.view.rest.length
  line : r'.line = r.line + (r.view.rest.take n).count '\n'

section
variable {r r' r'' : Reader} {m n : Nat}

theorem Moves.view (h : r.Moves n r') : r'.view = r.view.forward n := by
  have hrest : r'.view.rest = r.view.rest.drop n := by
    rw [Reader.view, h.text, h.position, ← List.drop_drop]
    exact takeWhile_drop _ _ _ h.within
  show Cursor.mk r'.view.rest r'.position r'.line = _
  rw [hrest, h.position, h.line]
  rfl

theorem Moves.rest (h : r.Moves n r') : r'.view.rest = r.view.rest.drop n := by
  rw [h.view]
  rfl

theorem Moves.refl (r : Reader) : r.Moves 0 r where
  text := rfl
  position := rfl
  within := Nat.zero_le _
  line := by rw [List.take_zero]; rfl

theorem Moves.trans (h : r.Moves m r') (h' : r'.Moves n r'') : r.Moves (m + n) r'' where
  text := h'.text.trans h.text
  position := by rw [h'.position, h.position, Nat.add_assoc]
  within := by
    have hle := h'.within
    have hfirst := h.within
    rw [h.rest, List.length_drop] at hle
    omega
  line := by
    rw [h'.line, h.line, h.rest, List.take_add, List.count_append, Nat.add_assoc]

/-- The characters that are passed. -/
theorem Moves.upTo (h : r.Moves n r') : r.upTo r' = r.view.rest.take n := by
  have hprefix : r.view.rest <+: r.text.toList.drop r.position := List.takeWhile_prefix _
  obtain ⟨beyond, hbeyond⟩ := hprefix
  rw [Reader.upTo, h.position, Array.toList_extract, List.extract_eq_take_drop,
    Nat.add_sub_cancel_left, ← hbeyond, List.take_append_of_le_length h.within]

theorem moves_advance {c : Char} {more : List Char} (h : r.view.rest = c :: more)
    (hc : c ≠ '\n') : r.Moves 1 r.advance := by
  obtain ⟨hpeek, hne⟩ := r.peek_of_cons h
  rw [advance, hpeek, if_neg hne]
  refine ⟨rfl, rfl, by rw [h]; exact Nat.le_add_left .., ?_⟩
  rw [h, List.take_succ_cons, List.take_zero, List.count_singleton]
  simp [hc]

theorem moves_breakLine {more : List Char} (h : r.view.rest = '\n' :: more) :
    r.Moves 1 r.breakLine.advance := by
  have hpeek : r.breakLine.peek = '\n' := (r.peek_of_cons h).1
  rw [advance, hpeek, if_neg (by decide)]
  refine ⟨rfl, rfl, by rw [h]; exact Nat.le_add_left .., ?_⟩
  rw [h, List.take_succ_cons, List.take_zero]
  rfl

theorem exists_cons_of_peek (h : r.peek ≠ '\x00') : ∃ more, r.view.rest = r.peek :: more := by
  cases hrest : r.view.rest with
  | nil => exact absurd (r.peek_eq_nul_iff.mpr hrest) h
  | cons c more => exact ⟨more, by rw [(r.peek_of_cons hrest).1]⟩

theorem moves_passWhile {p : Char → Bool} (hp : p '\x00' = false) (hline : p '\n' = false) :
    r.Moves (r.view.rest.takeWhile p).length (r.passWhile p hp) := by
  fun_induction passWhile p hp r with
  | case1 r h ih =>
      obtain ⟨more, hrest⟩ := exists_cons_of_peek (peek_ne_of_class hp h)
      have hfirst : r.Moves 1 r.advance := by
        refine moves_advance hrest fun hnewline => ?_
        rw [hnewline, hline] at h
        cases h
      have hmore : r.advance.view.rest = more := by rw [hfirst.rest, hrest]; rfl
      rw [hrest, List.takeWhile_cons_of_pos h, List.length_cons, Nat.add_comm, ← hmore]
      exact hfirst.trans ih
  | case2 r h =>
      have hnone : r.view.rest.takeWhile p = [] := by
        cases hrest : r.view.rest with
        | nil => rfl
        | cons c more =>
            rw [(r.peek_of_cons hrest).1] at h
            exact List.takeWhile_cons_of_neg h
      rw [hnone]
      exact .refl r

theorem moves_passQuoted :
    r.Moves (r.view.rest.takeWhile (· ≠ '"')).length r.passQuoted := by
  have hstep {r r' : Reader} {more : List Char} (hrest : r.view.rest = r.peek :: more)
      (hquote : r.peek ≠ '"') (hfirst : r.Moves 1 r')
      (ih : r'.Moves (r'.view.rest.takeWhile (· ≠ '"')).length r'.passQuoted) :
      r.Moves (r.view.rest.takeWhile (· ≠ '"')).length r'.passQuoted := by
    have hmore : r'.view.rest = more := by rw [hfirst.rest, hrest]; rfl
    rw [hrest, List.takeWhile_cons_of_pos (p := (· ≠ '"')) (decide_eq_true hquote),
      List.length_cons, Nat.add_comm, ← hmore]
    exact hfirst.trans ih
  fun_induction passQuoted r with
  | case1 r h hnewline ih =>
      obtain ⟨more, hrest⟩ := exists_cons_of_peek h.2
      exact hstep hrest h.1 (moves_breakLine (hnewline ▸ hrest)) ih
  | case2 r h hnewline ih =>
      obtain ⟨more, hrest⟩ := exists_cons_of_peek h.2
      exact hstep hrest h.1 (moves_advance hrest hnewline) ih
  | case3 r h =>
      have hnone : r.view.rest.takeWhile (· ≠ '"') = [] := by
        cases hrest : r.view.rest with
        | nil => rfl
        | cons c more =>
            obtain ⟨hpeek, hc⟩ := r.peek_of_cons hrest
            rw [hpeek] at h
            exact List.takeWhile_cons_of_neg (by simp_all)
      rw [hnone]
      exact .refl r

theorem nul_notMem_view (r : Reader) : '\x00' ∉ r.view.rest := by
  intro hmem
  simpa using List.all_eq_true.mp List.all_takeWhile _ hmem

/-- A comment is passed up to the newline after it. -/
theorem moves_comment {body below : List Char} (hbody : '\n' ∉ body)
    (hbelow : ∀ c ∈ below.head?, c = '\n') (h : r.view.rest = body ++ below) :
    r.Moves body.length (r.passWhile inComment rfl) := by
  have hcomment : (body ++ below).takeWhile inComment = body := by
    have hin : ∀ c ∈ body, inComment c = true := by
      intro c hc
      have hne : c ≠ '\n' := fun he => hbody (he ▸ hc)
      have hnul : c ≠ '\x00' := fun he =>
        r.nul_notMem_view (h ▸ List.mem_append_left _ (he ▸ hc))
      simp [inComment, hne, hnul]
    have hout : below.takeWhile inComment = [] := by
      cases below with
      | nil => rfl
      | cons c rest =>
          rw [hbelow c rfl]
          rfl
    rw [List.takeWhile_append_of_pos hin, hout, List.append_nil]
  have hmoves := moves_passWhile (r := r) (p := inComment) rfl rfl
  rw [h, hcomment] at hmoves
  exact hmoves

/-- Blanks and comments are passed as far as the scanner passes them. -/
theorem moves_skip : r.Moves (Cursor.gapLength false r.view.rest) r.skip := by
  have hblank {r r' : Reader} {more : List Char} (hrest : r.view.rest = r.peek :: more)
      (hpeek : Cursor.isBlank r.peek = true) (hfirst : r.Moves 1 r')
      (ih : r'.Moves (Cursor.gapLength false r'.view.rest) r'.skip) :
      r.Moves (Cursor.gapLength false r.view.rest) r'.skip := by
    have hmore : r'.view.rest = more := by rw [hfirst.rest, hrest]; rfl
    rw [hrest, Cursor.gapLength, if_neg Bool.false_ne_true, if_pos hpeek, Nat.add_comm, ← hmore]
    exact hfirst.trans ih
  fun_induction skip r with
  | case1 r h ih =>
      have hne : r.peek ≠ '\x00' := by rintro he; simp_all
      obtain ⟨more, hrest⟩ := exists_cons_of_peek hne
      refine hblank hrest ?_ (moves_advance hrest ?_) ih
      · rcases h with h | h | h <;> rw [h] <;> rfl
      · rcases h with h | h | h <;> rw [h] <;> decide
  | case2 r _ hnewline ih =>
      obtain ⟨more, hrest⟩ := exists_cons_of_peek (r := r) (by rw [hnewline]; decide)
      exact hblank hrest (hnewline ▸ rfl) (moves_breakLine (hnewline ▸ hrest)) ih
  | case3 r _ _ h ih =>
      obtain ⟨more, hrest⟩ := exists_cons_of_peek (r := r) (by rw [h.1]; decide)
      rw [h.1] at hrest
      obtain ⟨rest, rfl⟩ : ∃ rest, more = '/' :: rest := by
        have hnext := r.peekNext_of_cons hrest
        rw [h.2] at hnext
        cases more with
        | nil => cases hnext
        | cons c rest => exact ⟨rest, by rw [show '/' = c from hnext]⟩
      obtain ⟨body, below, rfl, hbody, hbelow⟩ := Cursor.exists_first_line rest
      have hcomment : r.Moves ('/' :: '/' :: body).length (r.passWhile inComment rfl) :=
        moves_comment (by simp [hbody]) hbelow hrest
      have hafter : (r.passWhile inComment rfl).view.rest = below := by
        rw [hcomment.rest, hrest]
        exact List.drop_left
      have hgap : Cursor.gapLength false r.view.rest =
          ('/' :: '/' :: body).length + Cursor.gapLength false below := by
        rw [hrest]
        show Cursor.gapLength true (body ++ below) + 1 + 1 = _
        rw [Cursor.gapLength_comment hbody hbelow, List.length_cons, List.length_cons]
        omega
      rw [hgap, ← hafter]
      exact hcomment.trans ih
  | case4 r hspace hnewline hslash =>
      have hnone : Cursor.gapLength false r.view.rest = 0 := by
        cases hrest : r.view.rest with
        | nil => rfl
        | cons c more =>
            obtain ⟨hpeek, _⟩ := r.peek_of_cons hrest
            rw [hpeek] at hspace hnewline hslash
            rw [r.peekNext_of_cons hrest] at hslash
            have hblank : ¬Cursor.isBlank c = true := by
              simp only [not_or] at hspace
              simp [Cursor.isBlank, hspace, hnewline]
            have hcomment : ¬(c = '/' ∧ more.head? = some '/') := by
              rintro ⟨rfl, hhead⟩
              exact hslash ⟨rfl, by rw [hhead]; rfl⟩
            rw [Cursor.gapLength, if_neg Bool.false_ne_true, if_neg hblank, if_neg hcomment]
      rw [hnone]
      exact .refl r

end

end Reader

end Reckon
