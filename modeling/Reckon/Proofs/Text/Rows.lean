/-
# Reading printed rows

A printed row is made of columns: texts that are filled up with blanks, or numbers that are
filled up with zeros, with a blank between one column and the next.  A column that is wider
than planned pushes the rest to the right, so rows are not read by position but by their
words, the runs of characters between blanks.  Filling up with blanks changes no word
(`words_flushRight`, `words_flushLeft`), and a number is read back from its digits whether
or not zeros stand before them (`digits?_zeroFilled`).

Rows that hold no newline and do not end in a carriage return are the lines of the text that
they are printed as (`lines_rows`).  Numbers, filling and quoted text hold neither character
(`isInline`), so most rows are such without a look at what they say.
-/
import Reckon.Text.Column
import Reckon.Text.Lines
import Reckon.Text.Numeral
import Reckon.Text.Quoted

namespace Reckon.Text

/-! ## Numbers -/

theorem digitsValue_eq (ds : List Char) : digitsValue ds = Nat.ofDigitChars 10 ds 0 := rfl

theorem toList_toString (n : Nat) : (toString n).toList = Nat.toDigits 10 n := by
  simp

theorem isDigit_of_mem_toString {n : Nat} {c : Char} (h : c ∈ (toString n).toList) :
    isDigit c = true := by
  rw [toList_toString] at h
  exact Nat.isDigit_of_mem_toDigits (by decide) (by decide) h

theorem digitsValue_toString (n : Nat) : digitsValue (toString n).toList = n := by
  rw [digitsValue_eq, toList_toString]
  exact Nat.ofDigitChars_toDigits (by decide) (by decide)

/-- Zeros before the digits of a number do not count. -/
theorem digitsValue_replicate_append (k : Nat) (ds : List Char) :
    digitsValue (List.replicate k '0' ++ ds) = digitsValue ds := by
  induction k with
  | zero => rfl
  | succ k ih => exact ih

theorem toList_fill (c : Char) (n : Nat) : (fill c n).toList = List.replicate n c := by
  simp [fill]

/-- A number is read back from its digits, with any number of zeros before them. -/
theorem digits?_zeroFilled (width n : Nat) : digits? (zeroFilled width n).toList = some n := by
  have hlist : (zeroFilled width n).toList =
      List.replicate (width - (toString n).length) '0' ++ (toString n).toList := by
    rw [zeroFilled, String.toList_append, toList_fill]
  have hdigits : ((zeroFilled width n).toList).all isDigit = true := by
    rw [hlist, List.all_append, Bool.and_eq_true]
    refine ⟨List.all_eq_true.mpr ?_, List.all_eq_true.mpr ?_⟩
    · intro c hc
      rw [List.eq_of_mem_replicate hc]
      rfl
    · intro c hc
      exact isDigit_of_mem_toString hc
  unfold digits?
  rw [hdigits, hlist, digitsValue_replicate_append, digitsValue_toString]
  simp

theorem digits?_toString (n : Nat) : digits? (toString n).toList = some n := by
  have h := digits?_zeroFilled 0 n
  rwa [zeroFilled, Nat.zero_sub] at h

/-! ## Words -/

/-- The words of a text: the runs of characters between blanks. -/
def words (cs : List Char) : List (List Char) :=
  (cs.splitOnP (· = ' ')).filter (· ≠ [])

theorem words_append_blank (a b : List Char) : words (a ++ ' ' :: b) = words a ++ words b := by
  unfold words
  rw [List.splitOnP_append_cons a b (decide_eq_true rfl), List.filter_append]

theorem words_nil : words [] = [] := by
  rw [words, List.splitOnP_eq_singleton (by intro c hc; cases hc)]
  rfl

/-- A text without blanks is one word. -/
theorem words_of_no_blank {w : List Char} (hne : w ≠ []) (h : ' ' ∉ w) : words w = [w] := by
  have hsplit : w.splitOnP (· = ' ') = [w] := by
    refine List.splitOnP_eq_singleton ?_
    intro c hc
    exact decide_eq_false fun hblank => h (hblank ▸ hc)
  rw [words, hsplit, List.filter_cons_of_pos (by simpa using hne), List.filter_nil]

theorem words_replicate_append (k : Nat) (cs : List Char) :
    words (List.replicate k ' ' ++ cs) = words cs := by
  induction k with
  | zero => rfl
  | succ k ih =>
      have hstep := words_append_blank [] (List.replicate k ' ' ++ cs)
      rwa [words_nil, List.nil_append, List.nil_append, ih] at hstep

theorem words_append_replicate (cs : List Char) (k : Nat) :
    words (cs ++ List.replicate k ' ') = words cs := by
  cases k with
  | zero => rw [List.replicate_zero, List.append_nil]
  | succ k =>
      have hfill := words_replicate_append k []
      rw [List.append_nil, words_nil] at hfill
      rw [List.replicate_succ, words_append_blank, hfill, List.append_nil]

theorem words_flushRight (width : Nat) (s : String) :
    words (flushRight width s).toList = words s.toList := by
  rw [flushRight, String.toList_append, toList_fill, words_replicate_append]

theorem words_flushLeft (width : Nat) (s : String) :
    words (flushLeft width s).toList = words s.toList := by
  rw [flushLeft, String.toList_append, toList_fill, words_append_replicate]

/-- Columns with a blank between them have their words one after another. -/
theorem words_columns (a b : String) :
    words (a ++ " " ++ b).toList = words a.toList ++ words b.toList := by
  have hlist : (a ++ " " ++ b).toList = a.toList ++ ' ' :: b.toList := by
    simp
  rw [hlist, words_append_blank]

/-- Digits are one word. -/
theorem words_of_digits? {ds : List Char} {n : Nat} (h : digits? ds = some n) :
    words ds = [ds] := by
  unfold digits? at h
  split at h
  · next hds =>
    rw [Bool.and_eq_true] at hds
    refine words_of_no_blank (by simpa using hds.1) ?_
    intro hblank
    exact absurd (List.all_eq_true.mp hds.2 _ hblank) (by decide)
  · cases h

/-! ## Lines -/

/-- Whether a character can stand inside a line only. -/
def isInner (c : Char) : Bool :=
  c ≠ '\n' && c ≠ '\r'

/-- Whether a text has neither newlines nor carriage returns. -/
def isInline (s : String) : Bool :=
  s.toList.all isInner

@[simp]
theorem isInline_append (a b : String) : isInline (a ++ b) = (isInline a && isInline b) := by
  rw [isInline, String.toList_append, List.all_append]
  rfl

theorem isInline_fill {c : Char} (hc : isInline c.toString = true) (n : Nat) :
    isInline (fill c n) = true := by
  rw [isInline, toList_fill]
  refine List.all_eq_true.mpr ?_
  intro d hd
  rw [List.eq_of_mem_replicate hd]
  simpa [isInline] using hc

@[simp]
theorem isInline_repr (n : Nat) : isInline n.repr = true := by
  refine List.all_eq_true.mpr ?_
  intro c hc
  have hdigit : isDigit c = true := isDigit_of_mem_toString hc
  by_cases hnewline : c = '\n'
  · rw [hnewline] at hdigit
    cases hdigit
  · by_cases hreturn : c = '\r'
    · rw [hreturn] at hdigit
      cases hdigit
    · simp [isInner, hnewline, hreturn]

@[simp]
theorem isInline_zeroFilled (width n : Nat) : isInline (zeroFilled width n) = true := by
  simp [zeroFilled, isInline_fill (c := '0') rfl]

@[simp]
theorem isInline_flushRight (width : Nat) (s : String) :
    isInline (flushRight width s) = isInline s := by
  simp [flushRight, isInline_fill (c := ' ') rfl]

@[simp]
theorem isInline_flushLeft (width : Nat) (s : String) :
    isInline (flushLeft width s) = isInline s := by
  simp [flushLeft, isInline_fill (c := ' ') rfl]

theorem isInner_hexDigit : ∀ n < 16, isInner (hexDigit n) = true := by
  decide

theorem all_isInner_escaped (c : Char) : (escaped c).all isInner = true := by
  unfold escaped
  -- the characters with a short escape
  iterate 7 (split; · rfl)
  split
  · next hlow =>
    have hhigh := isInner_hexDigit (c.toNat / 16) (by omega)
    have hunit := isInner_hexDigit (c.toNat % 16) (Nat.mod_lt _ (by decide))
    have hzero : isInner '0' = true := rfl
    have hmark : isInner 'u' = true := rfl
    have hslash : isInner '\\' = true := rfl
    simp [hhigh, hunit, hzero, hmark, hslash]
  · next hnewline hreturn _ _ => simp [isInner, hnewline, hreturn]

/-- Whatever a text holds, between quotes it stays on one line. -/
@[simp]
theorem isInline_quoted (s : String) : isInline (quoted s) = true := by
  rw [isInline, quoted, String.toList_ofList, List.all_cons, List.all_append, List.all_flatMap]
  have hquote : isInner '"' = true := rfl
  have hescaped : s.toList.all (fun c => (escaped c).all isInner) = true := by
    refine List.all_eq_true.mpr ?_
    intro c _
    exact all_isInner_escaped c
  simp [hquote, hescaped]

/-- A row that is a line of its own when a newline follows it. -/
structure IsRow (row : List Char) : Prop where
  newline : '\n' ∉ row
  unreturned : row.getLast? ≠ some '\r'

theorem isRow_of_isInline {row : String} (h : isInline row = true) : IsRow row.toList := by
  have hinner := List.all_eq_true.mp h
  refine ⟨?_, ?_⟩
  · intro hnewline
    cases hinner _ hnewline
  · intro hlast
    cases hinner _ (List.mem_of_getLast? hlast)

theorem lineChars_append_newline {row : List Char} (h : IsRow row) (rest : List Char) :
    lineChars (row ++ '\n' :: rest) = row :: lineChars rest := by
  induction row with
  | nil => rfl
  | cons c row ih =>
      have hc : c ≠ '\n' := fun hc => h.newline (hc ▸ List.mem_cons_self)
      -- a carriage return is dropped only right before the newline, and no row ends in one
      have hreturn : ∀ below, c = '\r' → row ++ '\n' :: rest ≠ '\n' :: below := by
        intro below hcr hbelow
        cases row with
        | nil => exact h.unreturned (congrArg some hcr)
        | cons d row =>
            have hd : d = '\n' := (List.cons.inj hbelow).1
            exact h.newline (hd ▸ List.mem_cons_of_mem _ List.mem_cons_self)
      have hrow : IsRow row := by
        refine ⟨fun hmem => h.newline (List.mem_cons_of_mem _ hmem), fun hlast => ?_⟩
        exact h.unreturned (by rw [List.getLast?_cons, hlast]; rfl)
      rw [List.cons_append, lineChars.eq_4 _ _ hc hreturn, ih hrow]

/-- Printed rows are the lines of what is printed. -/
theorem lines_rows {printed : List String} (h : ∀ row ∈ printed, IsRow row.toList) :
    lines (rows printed) = printed := by
  have hchars : lineChars (rows printed).toList = printed.map String.toList := by
    induction printed with
    | nil => rfl
    | cons row below ih =>
        have hlist : (rows (row :: below)).toList = row.toList ++ '\n' :: (rows below).toList := by
          show (row ++ "\n" ++ rows below).toList = _
          simp
        rw [hlist, lineChars_append_newline (h row List.mem_cons_self),
          ih fun row hrow => h row (List.mem_cons_of_mem _ hrow), List.map_cons]
  rw [lines, hchars, List.map_map]
  simp

end Reckon.Text
