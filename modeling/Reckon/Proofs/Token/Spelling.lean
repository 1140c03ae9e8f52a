/-
# The lexicon, and the longest match

`Spelled kind cs` says which characters make a token of which kind, and nothing about how
they are found: words, sixteen of them reserved, numbers with or without a fraction,
strings up to the next quote, and marks of one or two characters.

The scanner looks at one or two characters to choose a class, and then takes as much as it
can.  That is a longest match: what it takes is spelled as its kind says, and nothing
longer at the same place is spelled as any kind (`longestMatch_ofChars`).  Where nothing is
spelled at all, it tells a string without its closing quote from a character that starts
no token (`misspelled_ofChars`).

Reserved words are found by their first letters.  This comes to the same as comparing whole
words (`ofSpelling?_eq_some_iff`), and looks at no more letters than the word has.
-/
import Mathlib.Data.List.TakeWhile
import Reckon.Proofs.Token.Partition

namespace Reckon

/-! ## Reserved words -/

namespace Keyword

/-- The letters that settle a prospect are letters of the word, and the reserved word goes on
with the ending. -/
theorem spelling_of_prospect? {cs : List Char} {p : Prospect} (h : prospect? cs = some p) :
    p.settled ≤ cs.length ∧ p.word.spelling.toList = cs.take p.settled ++ p.ending.toList := by
  unfold prospect? at h
  split at h
  case h_17 => cases h
  all_goals
    cases h
    exact ⟨by simp, rfl⟩

theorem ofSpelling?_spelling (word : Keyword) : ofSpelling? word.spelling = some word := by
  cases word <;> rfl

/-- A reserved word is found for its own spelling and for no other text. -/
theorem ofSpelling?_eq_some_iff {s : String} {word : Keyword} :
    ofSpelling? s = some word ↔ s = word.spelling := by
  constructor
  · intro h
    unfold ofSpelling? at h
    split at h
    · next p hp =>
      obtain ⟨_, hspelling⟩ := spelling_of_prospect? hp
      split at h
      · next hending =>
        cases h
        rw [← hending, List.take_append_drop] at hspelling
        exact (String.toList_inj.mp hspelling).symm
      · cases h
    · cases h
  · rintro rfl
    exact ofSpelling?_spelling word

end Keyword

/-! ## The lexicon -/

/-- The marks of one character, each with its kind. -/
def marks : List (Char × Kind) :=
  [('(', .leftParen), (')', .rightParen), ('{', .leftBrace), ('}', .rightBrace),
   (';', .semicolon), (',', .comma), ('.', .dot), ('-', .minus), ('+', .plus), ('/', .slash),
   ('*', .star), ('!', .bang), ('=', .equal), ('<', .less), ('>', .greater)]

/-- The first characters of the marks that an equals sign closes, each with the mark's kind. -/
def equalMarks : List (Char × Kind) :=
  [('!', .bangEqual), ('=', .equalEqual), ('<', .lessEqual), ('>', .greaterEqual)]

/-- `Spelled kind cs`: the characters `cs` are a token of the given kind. -/
inductive Spelled : Kind → List Char → Prop
  | reserved (word : Keyword) : Spelled (.keyword word) word.spelling.toList
  | identifier {c : Char} {cs : List Char} : c.isAlpha = true ∨ c = '_' →
      (∀ x ∈ cs, x.isAlphanum = true ∨ x = '_') →
      (∀ word : Keyword, word.spelling.toList ≠ c :: cs) → Spelled .identifier (c :: cs)
  | whole {d : Char} {ds : List Char} : (∀ x ∈ d :: ds, x.isDigit = true) →
      Spelled .number (d :: ds)
  | fraction {d e : Char} {ds es : List Char} : (∀ x ∈ d :: ds, x.isDigit = true) →
      (∀ x ∈ e :: es, x.isDigit = true) → Spelled .number (d :: (ds ++ '.' :: e :: es))
  | string {body : List Char} : '"' ∉ body → Spelled .string ('"' :: (body ++ ['"']))
  | mark {c : Char} {kind : Kind} : (c, kind) ∈ marks → Spelled kind [c]
  | equalMark {c : Char} {kind : Kind} : (c, kind) ∈ equalMarks → Spelled kind [c, '=']

/-- `LongestMatch text kind cs`: the text starts with `cs`, which is a token of the given kind
and of no other, and no token at the start of the text is longer. -/
structure LongestMatch (text : List Char) (kind : Kind) (cs : List Char) : Prop where
  starts : cs <+: text
  spelled : Spelled kind cs
  only : ∀ kind', Spelled kind' cs → kind' = kind
  longest : ∀ kind' cs', Spelled kind' cs' → cs' <+: text → cs'.length ≤ cs.length

namespace Lexeme

open Cursor (isBlank)

/-! ## Classes of characters -/

theorem isLetter_iff {c : Char} : isLetter c = true ↔ c.isAlpha = true ∨ c = '_' := by
  unfold isLetter Char.isAlpha Char.isUpper Char.isLower
  simp only [Bool.or_eq_true, Bool.and_eq_true, decide_eq_true_eq]
  exact or_congr_left or_comm

theorem isWordChar_iff {c : Char} : isWordChar c = true ↔ c.isAlphanum = true ∨ c = '_' := by
  unfold isWordChar Char.isAlphanum
  rw [Bool.or_eq_true, Bool.or_eq_true, isLetter_iff, or_right_comm]
  exact Iff.rfl

/-- A letter is no digit. -/
theorem isLetter_of_isDigit {c : Char} (h : Text.isDigit c = true) : isLetter c = false := by
  simp only [Text.isDigit, Bool.and_eq_true, decide_eq_true_eq, Char.le_def,
    UInt32.le_iff_toNat_le] at h
  obtain ⟨_, hnine⟩ := h
  change c.val.toNat ≤ 57 at hnine
  refine Bool.eq_false_iff.mpr fun hletter => ?_
  simp only [isLetter, Bool.or_eq_true, Bool.and_eq_true, decide_eq_true_eq, Char.le_def,
    UInt32.le_iff_toNat_le] at hletter
  rcases hletter with (⟨ha, _⟩ | ⟨ha, _⟩) | rfl
  · change 97 ≤ c.val.toNat at ha
    omega
  · change 65 ≤ c.val.toNat at ha
    omega
  · exact absurd hnine (by decide)

theorem isWordChar_of_isBlank {c : Char} (h : isBlank c = true) : isWordChar c = false := by
  simp only [isBlank, Bool.or_eq_true, decide_eq_true_eq] at h
  rcases h with ((rfl | rfl) | rfl) | rfl <;> rfl

theorem isDigit_of_isBlank {c : Char} (h : isBlank c = true) : Text.isDigit c = false := by
  have hword := isWordChar_of_isBlank h
  rw [isWordChar, Bool.or_eq_false_iff] at hword
  exact hword.2

theorem ofChars_of_isLetter {c : Char} (hc : isLetter c = true) (rest : List Char) :
    ofChars c rest = word c rest :=
  if_pos hc

theorem ofChars_of_isDigit {c : Char} (hc : Text.isDigit c = true) (rest : List Char) :
    ofChars c rest = number rest := by
  rw [ofChars, if_neg (by rw [isLetter_of_isDigit hc]; exact Bool.false_ne_true), if_pos hc]

/-! ## What is spelled is found -/

/-- The text ends, or a blank comes next. -/
def Apart (after : List Char) : Prop :=
  ∀ c ∈ after.head?, isBlank c = true

theorem apart_nil : Apart [] :=
  fun _ h => nomatch h

theorem Apart.takeWhile_eq_nil {after : List Char} (h : Apart after) {p : Char → Bool}
    (hp : ∀ c, isBlank c = true → p c = false) : after.takeWhile p = [] := by
  cases after with
  | nil => rfl
  | cons c rest => rw [List.takeWhile_cons, hp c (h c rfl), if_neg Bool.false_ne_true]

/-- `Found kind c cs`: whatever follows the characters `c :: cs`, the scanner takes them all,
and it takes just them, as a token of the given kind, if they stand apart from what follows. -/
def Found (kind : Kind) (c : Char) (cs : List Char) : Prop :=
  ∀ after, (c :: cs).length ≤ (ofChars c (cs ++ after)).length ∧
    (Apart after → ofChars c (cs ++ after) = ⟨.ok kind, (c :: cs).length⟩)

theorem found_word {c : Char} {cs : List Char} (hc : isLetter c = true)
    (hcs : ∀ x ∈ cs, isWordChar x = true) : Found (wordKind (c :: cs)) c cs := by
  intro after
  rw [ofChars_of_isLetter hc]
  unfold word
  simp only [List.takeWhile_append_of_pos hcs]
  refine ⟨?_, fun hafter => ?_⟩
  · simp only [List.length_cons, List.length_append]
    omega
  · rw [hafter.takeWhile_eq_nil fun _ => isWordChar_of_isBlank, List.append_nil]

theorem length_number_append {ds : List Char} (hds : ∀ x ∈ ds, Text.isDigit x = true)
    (after : List Char) : (number (ds ++ after)).length = ds.length + (number after).length := by
  unfold number
  simp only [List.takeWhile_append_of_pos hds, List.length_append, List.drop_append,
    Nat.add_sub_cancel_left]
  rw [List.drop_eq_nil_of_le (Nat.le_add_right ..), List.nil_append]
  omega

theorem length_number_of_apart {after : List Char} (h : Apart after) :
    (number after).length = 1 := by
  unfold number
  simp only [h.takeWhile_eq_nil fun _ => isDigit_of_isBlank, List.length_nil, List.drop_zero]
  cases after with
  | nil => rfl
  | cons c rest =>
      have hpoint : c ≠ '.' := by
        rintro rfl
        exact absurd (h '.' rfl) (by decide)
      have hfraction : fractionLength (c :: rest) = 0 := by
        unfold fractionLength
        split
        · next heq => exact absurd (List.cons.inj heq).1 hpoint
        · rfl
      rw [hfraction]

theorem length_number_point {e : Char} {es : List Char}
    (hdigits : ∀ x ∈ e :: es, Text.isDigit x = true) (after : List Char) :
    (number ('.' :: e :: (es ++ after))).length =
      1 + ('.' :: e :: es).length + (after.takeWhile Text.isDigit).length := by
  obtain ⟨he, hes⟩ := List.forall_mem_cons.mp hdigits
  have hpoint : ('.' :: e :: (es ++ after)).takeWhile Text.isDigit = [] := rfl
  simp only [number, hpoint, List.length_nil, List.drop_zero, fractionLength, if_pos he,
    List.takeWhile_append_of_pos hes, List.length_append, List.length_cons]
  omega

theorem found_whole {d : Char} {ds : List Char} (hdigits : ∀ x ∈ d :: ds, Text.isDigit x = true) :
    Found .number d ds := by
  obtain ⟨hd, hds⟩ := List.forall_mem_cons.mp hdigits
  intro after
  have hlength := length_number_append hds after
  rw [ofChars_of_isDigit hd]
  refine ⟨?_, fun hafter => ?_⟩
  · have hpos : 0 < (number after).length := by
      unfold number
      simp only
      omega
    rw [hlength, List.length_cons]
    omega
  · rw [length_number_of_apart hafter] at hlength
    exact congrArg (Lexeme.mk (.ok .number)) hlength

theorem found_fraction {d e : Char} {ds es : List Char}
    (hwhole : ∀ x ∈ d :: ds, Text.isDigit x = true)
    (hdigits : ∀ x ∈ e :: es, Text.isDigit x = true) :
    Found .number d (ds ++ '.' :: e :: es) := by
  obtain ⟨hd, hds⟩ := List.forall_mem_cons.mp hwhole
  intro after
  have hlength : (number (ds ++ '.' :: e :: es ++ after)).length =
      (d :: (ds ++ '.' :: e :: es)).length + (after.takeWhile Text.isDigit).length := by
    rw [List.append_assoc, length_number_append hds]
    show _ + (number ('.' :: e :: (es ++ after))).length = _
    rw [length_number_point hdigits]
    simp only [List.length_cons, List.length_append]
    omega
  rw [ofChars_of_isDigit hd]
  refine ⟨?_, fun hafter => ?_⟩
  · rw [hlength]
    exact Nat.le_add_right ..
  · rw [hafter.takeWhile_eq_nil fun _ => isDigit_of_isBlank] at hlength
    exact congrArg (Lexeme.mk (.ok .number)) hlength

/-- A string is closed by the first quote after its opening one. -/
theorem string_of_closed {body : List Char} (h : '"' ∉ body) (after : List Char) :
    string (body ++ '"' :: after) = ⟨.ok .string, body.length + 2⟩ := by
  have hbody : (body ++ '"' :: after).takeWhile (· ≠ '"') = body := by
    rw [List.takeWhile_append_of_pos]
    · simp
    · intro x hx
      refine decide_eq_true ?_
      rintro rfl
      exact h hx
  simp only [string, hbody]
  rw [if_pos]
  simp

theorem string_of_open {rest : List Char} (h : '"' ∉ rest) :
    string rest = ⟨.error .unterminatedString, rest.length + 1⟩ := by
  have hbody : rest.takeWhile (· ≠ '"') = rest := by
    refine List.takeWhile_eq_self_iff.mpr fun x hx => decide_eq_true ?_
    rintro rfl
    exact h hx
  simp only [string, hbody]
  exact if_neg (Nat.lt_irrefl _)

theorem found_string {body : List Char} (h : '"' ∉ body) : Found .string '"' (body ++ ['"']) := by
  intro after
  have heq : ofChars '"' (body ++ ['"'] ++ after) =
      ⟨.ok .string, ('"' :: (body ++ ['"'])).length⟩ := by
    rw [List.append_assoc, List.length_cons, List.length_append]
    exact string_of_closed h after
  rw [heq]
  exact ⟨Nat.le_refl _, fun _ => rfl⟩

theorem mark_of_apart {after : List Char} (h : Apart after) (double single : Kind) :
    mark after double single = ⟨.ok single, 1⟩ := by
  unfold mark
  split
  · exact absurd (h '=' rfl) (by decide)
  · rfl

theorem found_mark {c : Char} {kind : Kind} (h : (c, kind) ∈ marks) : Found kind c [] := by
  intro after
  refine ⟨length_ofChars_pos c after, fun hafter => ?_⟩
  have hmarks : ∀ m ∈ marks, ofChars m.1 after = ⟨.ok m.2, 1⟩ := by
    have hequal := mark_of_apart hafter
    simp only [marks, List.forall_mem_cons]
    exact ⟨rfl, rfl, rfl, rfl, rfl, rfl, rfl, rfl, rfl, rfl, rfl, hequal _ _, hequal _ _,
      hequal _ _, hequal _ _, fun _ hm => nomatch hm⟩
  exact hmarks _ h

theorem found_equalMark {c : Char} {kind : Kind} (h : (c, kind) ∈ equalMarks) :
    Found kind c ['='] := by
  intro after
  have hmarks : ∀ m ∈ equalMarks, ofChars m.1 ('=' :: after) = ⟨.ok m.2, 2⟩ := by
    simp only [equalMarks, List.forall_mem_cons]
    exact ⟨rfl, rfl, rfl, rfl, fun _ hm => nomatch hm⟩
  rw [List.singleton_append, hmarks _ h]
  exact ⟨Nat.le_refl _, fun _ => rfl⟩

theorem wordKind_spelling (word : Keyword) : wordKind word.spelling.toList = .keyword word := by
  rw [wordKind, String.ofList_toList, Keyword.ofSpelling?_spelling]

theorem wordKind_of_forall_ne {cs : List Char}
    (h : ∀ word : Keyword, word.spelling.toList ≠ cs) : wordKind cs = .identifier := by
  unfold wordKind
  split
  · next word hword =>
    refine absurd ?_ (h word)
    rw [← Keyword.ofSpelling?_eq_some_iff.mp hword, String.toList_ofList]
  · rfl

theorem exists_letters (word : Keyword) :
    ∃ c cs, word.spelling.toList = c :: cs ∧ isLetter c = true ∧
      ∀ x ∈ cs, isWordChar x = true := by
  have hword : ∃ c cs, word.spelling.toList = c :: cs ∧ isLetter c = true ∧
      cs.all isWordChar = true := by
    cases word <;> exact ⟨_, _, rfl, rfl, rfl⟩
  obtain ⟨c, cs, hspelling, hc, hcs⟩ := hword
  exact ⟨c, cs, hspelling, hc, List.all_eq_true.mp hcs⟩

/-- The characters of a token are found as a token of its kind. -/
theorem found_of_spelled {kind : Kind} {cs : List Char} (h : Spelled kind cs) :
    ∃ c more, cs = c :: more ∧ Found kind c more := by
  cases h with
  | reserved word =>
      obtain ⟨c, more, hspelling, hc, hmore⟩ := exists_letters word
      refine ⟨c, more, hspelling, ?_⟩
      rw [← wordKind_spelling word, hspelling]
      exact found_word hc hmore
  | identifier hc hmore hfree =>
      refine ⟨_, _, rfl, ?_⟩
      rw [← wordKind_of_forall_ne hfree]
      exact found_word (isLetter_iff.mpr hc) fun x hx => isWordChar_iff.mpr (hmore x hx)
  | whole hdigits => exact ⟨_, _, rfl, found_whole hdigits⟩
  | fraction hwhole hdigits => exact ⟨_, _, rfl, found_fraction hwhole hdigits⟩
  | string hbody => exact ⟨_, _, rfl, found_string hbody⟩
  | mark hmark => exact ⟨_, _, rfl, found_mark hmark⟩
  | equalMark hmark => exact ⟨_, _, rfl, found_equalMark hmark⟩

/-- Nothing that is spelled at the start of a text is longer than what the scanner takes. -/
theorem length_le_of_spelled {kind : Kind} {cs : List Char} (h : Spelled kind cs) {c : Char}
    {rest : List Char} (hstarts : cs <+: c :: rest) : cs.length ≤ (ofChars c rest).length := by
  obtain ⟨c', more, rfl, hfound⟩ := found_of_spelled h
  obtain ⟨after, hafter⟩ := hstarts
  obtain ⟨rfl, rfl⟩ := List.cons.inj hafter
  exact (hfound after).1

theorem ofChars_of_spelled {kind : Kind} {cs : List Char} (h : Spelled kind cs) {c : Char}
    {rest after : List Char} (heq : c :: rest = cs ++ after) (hafter : Apart after) :
    ofChars c rest = ⟨.ok kind, cs.length⟩ := by
  obtain ⟨c', more, rfl, hfound⟩ := found_of_spelled h
  obtain ⟨rfl, rfl⟩ := List.cons.inj heq
  exact (hfound after).2 hafter

theorem kind_of_spelled {kind : Kind} {c : Char} {cs : List Char} (h : Spelled kind (c :: cs)) :
    (ofChars c cs).kind = .ok kind :=
  congrArg Lexeme.kind (ofChars_of_spelled h (List.append_nil _).symm apart_nil)

/-- Characters are a token of one kind only. -/
theorem unique_of_spelled {kind kind' : Kind} {cs : List Char} (h : Spelled kind cs)
    (h' : Spelled kind' cs) : kind = kind' := by
  obtain ⟨c, more, rfl, _⟩ := found_of_spelled h
  exact Except.ok.inj ((kind_of_spelled h).symm.trans (kind_of_spelled h'))

/-! ## What is found is spelled -/

theorem spelled_wordKind {c : Char} {cs : List Char} (hc : isLetter c = true)
    (hcs : ∀ x ∈ cs, isWordChar x = true) : Spelled (wordKind (c :: cs)) (c :: cs) := by
  unfold wordKind
  split
  · next word hword =>
    have hspelling := congrArg String.toList (Keyword.ofSpelling?_eq_some_iff.mp hword)
    rw [String.toList_ofList] at hspelling
    rw [hspelling]
    exact .reserved word
  · next hnone =>
    refine .identifier (isLetter_iff.mp hc) (fun x hx => isWordChar_iff.mp (hcs x hx)) ?_
    intro word hspelling
    rw [← hspelling, String.ofList_toList, Keyword.ofSpelling?_spelling] at hnone
    cases hnone

theorem spelled_number {c : Char} (hc : Text.isDigit c = true) (rest : List Char) :
    Spelled .number ((c :: rest).take (number rest).length) := by
  have hwhole : ∀ x ∈ c :: rest.takeWhile Text.isDigit, Text.isDigit x = true :=
    List.forall_mem_cons.mpr ⟨hc, List.all_eq_true.mp List.all_takeWhile⟩
  rw [take_number]
  rcases take_fractionLength (rest.dropWhile Text.isDigit) with hnone | ⟨d, ds, hsome, hdigits⟩
  · rw [hnone, List.append_nil]
    exact .whole hwhole
  · rw [hsome]
    exact .fraction hwhole hdigits

theorem spelled_mark {c : Char} {rest : List Char} {double single kind : Kind}
    (hdouble : (c, double) ∈ equalMarks) (hsingle : (c, single) ∈ marks)
    (h : (mark rest double single).kind = .ok kind) :
    Spelled kind ((c :: rest).take (mark rest double single).length) := by
  unfold mark at h ⊢
  split at h
  · cases h
    exact .equalMark hdouble
  · cases h
    exact .mark hsingle

theorem spelled_string {rest : List Char} {kind : Kind} (h : (string rest).kind = .ok kind) :
    Spelled kind (('"' :: rest).take (string rest).length) := by
  by_cases hquote : '"' ∈ rest
  · obtain ⟨body, after, rfl, hbody⟩ := List.eq_append_cons_of_mem hquote
    rw [string_of_closed hbody] at h ⊢
    cases h
    have htake : ('"' :: (body ++ '"' :: after)).take (body.length + 2) =
        '"' :: (body ++ ['"']) := by
      rw [List.take_succ_cons, List.take_length_add_append]
      rfl
    rw [htake]
    exact .string hbody
  · rw [string_of_open hquote] at h
    cases h

theorem spelled_punctuation {c : Char} {rest : List Char} {kind : Kind}
    (h : (punctuation c rest).kind = .ok kind) :
    Spelled kind ((c :: rest).take (punctuation c rest).length) := by
  unfold punctuation at h ⊢
  split at h
  case h_12 | h_13 | h_14 | h_15 => exact spelled_mark (by decide) (by decide) h
  case h_16 => exact spelled_string h
  case h_17 => cases h
  all_goals
    cases h
    exact .mark (by decide)

/-- What the scanner takes for a token of some kind is spelled so. -/
theorem spelled_ofChars {c : Char} {rest : List Char} {kind : Kind}
    (h : (ofChars c rest).kind = .ok kind) :
    Spelled kind ((c :: rest).take (ofChars c rest).length) := by
  by_cases hletter : isLetter c = true
  · rw [ofChars_of_isLetter hletter] at h ⊢
    cases h
    simp only [word, List.length_cons, List.take_succ_cons, take_length_takeWhile]
    exact spelled_wordKind hletter (List.all_eq_true.mp List.all_takeWhile)
  · by_cases hdigit : Text.isDigit c = true
    · rw [ofChars_of_isDigit hdigit] at h ⊢
      cases h
      exact spelled_number hdigit rest
    · rw [ofChars, if_neg hletter, if_neg hdigit] at h ⊢
      exact spelled_punctuation h

theorem longestMatch_ofChars {c : Char} {rest : List Char} {kind : Kind}
    (h : (ofChars c rest).kind = .ok kind) :
    LongestMatch (c :: rest) kind ((c :: rest).take (ofChars c rest).length) where
  starts := List.take_prefix ..
  spelled := spelled_ofChars h
  only := fun _ hother => unique_of_spelled hother (spelled_ofChars h)
  longest := by
    intro kind' cs' hspelled hstarts
    rw [List.length_take, Nat.min_eq_left (length_ofChars_le c rest)]
    exact length_le_of_spelled hspelled hstarts

/-! ## What is not spelled -/

theorem kind_string (rest : List Char) :
    (string rest).kind = .ok .string ∨
      (string rest).kind = .error .unterminatedString ∧ '"' ∉ rest := by
  by_cases hquote : '"' ∈ rest
  · obtain ⟨body, after, rfl, hbody⟩ := List.eq_append_cons_of_mem hquote
    rw [string_of_closed hbody]
    exact .inl rfl
  · rw [string_of_open hquote]
    exact .inr ⟨rfl, hquote⟩

/-- A mark is never misspelled; a string is if its closing quote is missing, and any other
character whatever follows it. -/
theorem punctuation_error {c : Char} {rest : List Char} {wrong : Misspelling}
    (h : (punctuation c rest).kind = .error wrong) :
    (wrong = .unterminatedString ∧ c = '"' ∧ '"' ∉ rest) ∨
      (wrong = .unexpectedCharacter ∧
        ∀ rest', punctuation c rest' = ⟨.error .unexpectedCharacter, 1⟩) := by
  unfold punctuation at h ⊢
  split at h
  case h_12 | h_13 | h_14 | h_15 =>
    rcases kind_mark rest _ _ with hm | hm
    all_goals
      rw [hm] at h
      cases h
  case h_16 =>
    rcases kind_string rest with hok | ⟨hopen, hquote⟩
    · rw [hok] at h
      cases h
    · rw [hopen] at h
      cases h
      exact .inl ⟨rfl, rfl, hquote⟩
  case h_17 =>
    cases h
    exact .inr ⟨rfl, fun _ => rfl⟩
  all_goals cases h

/-- Where the scanner finds no token, there is a string without its closing quote, and it takes
all that is left, or a character that starts no token, and it takes that one. -/
theorem misspelled_ofChars {c : Char} {rest : List Char} {wrong : Misspelling}
    (h : (ofChars c rest).kind = .error wrong) :
    (wrong = .unterminatedString ∧ c = '"' ∧ '"' ∉ rest ∧
        (ofChars c rest).length = (c :: rest).length) ∨
      (wrong = .unexpectedCharacter ∧ (∀ kind cs, ¬Spelled kind (c :: cs)) ∧
        (ofChars c rest).length = 1) := by
  have hunfold : ∀ rest', ofChars c rest' = punctuation c rest' := by
    intro rest'
    by_cases hletter : isLetter c = true
    · rw [ofChars_of_isLetter hletter] at h
      cases h
    · by_cases hdigit : Text.isDigit c = true
      · rw [ofChars_of_isDigit hdigit] at h
        cases h
      · rw [ofChars, if_neg hletter, if_neg hdigit]
  rw [hunfold] at h
  rcases punctuation_error h with ⟨rfl, rfl, hquote⟩ | ⟨rfl, hother⟩
  · refine .inl ⟨rfl, rfl, hquote, ?_⟩
    exact length_of_unterminated (hunfold rest ▸ h)
  · refine .inr ⟨rfl, fun kind cs hspelled => ?_, ?_⟩
    · have hfound := kind_of_spelled hspelled
      rw [hunfold, hother] at hfound
      cases hfound
    · rw [hunfold, hother]

end Lexeme

/-! ## The tokens of a source -/

theorem Spelled.eq_spelling {word : Keyword} {cs : List Char} (h : Spelled (.keyword word) cs) :
    cs = word.spelling.toList := by
  cases h with
  | reserved => rfl
  | mark hmark => simp [marks] at hmark
  | equalMark hmark => simp [equalMarks] at hmark

/-- `t.Matches text`: the token `t` is what the lexicon says about the start of `text`: the
longest match, or, where there is none, a fault with the complaint about it. -/
inductive Token.Matches (t : Token) (text : List Char) : Prop
  | spelled : LongestMatch text t.kind (text.take t.length) →
      t.lexeme = String.ofList (text.take t.length) → t.Matches text
  | unterminated {body : List Char} : text = '"' :: body → '"' ∉ body → t.kind = .fault →
      t.length = text.length → t.lexeme = "Unterminated string." → t.Matches text
  | unexpected {c : Char} {more : List Char} : text = c :: more →
      (∀ kind cs, ¬Spelled kind (c :: cs)) → t.kind = .fault → t.length = 1 →
      t.lexeme = "Unexpected character." → t.Matches text

theorem Token.Matches.keyword_iff {t : Token} {text : List Char} (h : t.Matches text)
    (word : Keyword) : t.kind = .keyword word ↔ t.lexeme = word.spelling := by
  cases h with
  | spelled hmatch hlexeme =>
      rw [hlexeme]
      constructor
      · intro hkind
        have hspelled := hmatch.spelled
        rw [hkind] at hspelled
        rw [hspelled.eq_spelling, String.ofList_toList]
      · intro hspelling
        refine (hmatch.only _ ?_).symm
        rw [← String.toList_ofList (l := text.take t.length), hspelling]
        exact .reserved word
  | unterminated _ _ hkind _ hlexeme =>
      rw [hkind, hlexeme]
      cases word <;> decide
  | unexpected _ _ hkind _ hlexeme =>
      rw [hkind, hlexeme]
      cases word <;> decide

theorem Cursor.matches_token {c : Cursor} {first : Char} {more : List Char}
    (h : c.rest = first :: more) :
    (c.token (Lexeme.ofChars first more)).Matches (first :: more) := by
  cases hkind : (Lexeme.ofChars first more).kind with
  | ok kind =>
      refine .spelled ?_ ?_
      · simp only [token, hkind]
        exact Lexeme.longestMatch_ofChars hkind
      · simp only [token, hkind, h]
  | error wrong =>
      rcases Lexeme.misspelled_ofChars hkind with
        ⟨rfl, rfl, hquote, hlength⟩ | ⟨rfl, hnone, hlength⟩
      · refine .unterminated rfl hquote ?_ hlength ?_
        · simp only [token, hkind]
        · simp only [token, hkind]
          rfl
      · refine .unexpected rfl hnone ?_ hlength ?_
        · simp only [token, hkind]
        · simp only [token, hkind]
          rfl

namespace TokenStream

/-- Every token of a source is the longest match at its place, or a fault where nothing matches.
It is of the kind of a reserved word exactly if it is spelled like that word.  The characters of
a token lie within the text that is read; of a word, what follows the letters that settle which
reserved word it can be begins within the word. -/
theorem ofSource_longest_match (source : String) (t : Token) (ht : t ∈ (ofSource source).tokens) :
    let text := source.toList.takeWhile (· ≠ '\x00')
    t.Matches (text.drop t.start) ∧
    (∀ word : Keyword, t.kind = .keyword word ↔ t.lexeme = word.spelling) ∧
    t.start ≤ t.stop ∧ t.stop ≤ text.length ∧
    ∀ p, Keyword.prospect? (text.extract t.start t.stop) = some p →
      t.start + p.settled ≤ t.stop := by
  intro text
  obtain ⟨n, first, more, hrest, _, rfl⟩ := shows_of_mem ht
  set t := ((Cursor.ofSource source).forward n).token (Lexeme.ofChars first more) with hdef
  have hstart : t.start = n := Nat.zero_add n
  have hdrop : text.drop t.start = first :: more := by rw [hstart]; exact hrest
  have hmatches : t.Matches (text.drop t.start) := by
    rw [hdrop]
    exact Cursor.matches_token hrest
  have hle : t.start ≤ t.stop := Nat.le_add_right ..
  have hstop : t.stop ≤ text.length := by
    have hlength := congrArg List.length hdrop
    have hfound : t.length ≤ (first :: more).length := Lexeme.length_ofChars_le first more
    rw [List.length_drop] at hlength
    rw [List.length_cons] at hlength hfound
    unfold Token.stop
    omega
  refine ⟨hmatches, hmatches.keyword_iff, hle, hstop, fun p hp => ?_⟩
  have hsettled := (Keyword.spelling_of_prospect? hp).1
  rw [List.extract_eq_take_drop, List.length_take, List.length_drop] at hsettled
  omega

/-- A word that begins like a reserved word, after a number with a fraction and a point. -/
theorem matches_forest :
    let t : Token := ⟨.identifier, 4, 6, 1, "forest"⟩
    t ∈ (ofSource "1.5.forest").tokens ∧ t.Matches "forest".toList ∧
      t.lexeme ≠ Keyword.forWord.spelling ∧
      Keyword.prospect? "forest".toList = some ⟨.forWord, 2, "r"⟩ ∧ t.start + 2 ≤ t.stop := by
  intro t
  have hmem : t ∈ (ofSource "1.5.forest").tokens := by decide +kernel
  obtain ⟨hmatches, hkeyword, _, _, hbounds⟩ := ofSource_longest_match "1.5.forest" t hmem
  refine ⟨hmem, hmatches, ?_, rfl, hbounds ⟨.forWord, 2, "r"⟩ rfl⟩
  exact mt (hkeyword .forWord).mpr (by decide)

end TokenStream

end Reckon
