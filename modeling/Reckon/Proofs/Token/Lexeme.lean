/-
# What a lexeme is made of

Facts about the characters of a single lexeme, whatever follows it: which kinds it can
have, that a number has the form of a number, and that only a string without its closing
quote can end in a newline.  The last one is what tells the line of a token from the
line below it.
-/
import Reckon.Decimal.Reading
import Reckon.Token.Basic

namespace Reckon.Lexeme

/-- A mark has one of its two kinds. -/
theorem kind_mark (rest : List Char) (double single : Kind) :
    (mark rest double single).kind = .ok double ∨ (mark rest double single).kind = .ok single := by
  unfold mark
  split
  · exact Or.inl rfl
  · exact Or.inr rfl

theorem kind_word (c : Char) (rest : List Char) :
    (word c rest).kind = .ok .identifier ∨ ∃ k, (word c rest).kind = .ok (.keyword k) := by
  simp only [word, wordKind]
  split
  · exact Or.inr ⟨_, rfl⟩
  · exact Or.inl rfl

/-- Marks, strings and what is no token are neither numbers nor the end, and what is no token
is not taken for one. -/
theorem kind_punctuation_ne (c : Char) (rest : List Char) {k : Kind}
    (hk : k = .number ∨ k = .fault ∨ k = .eof) : (punctuation c rest).kind ≠ .ok k := by
  intro h
  unfold punctuation at h
  split at h
  case h_12 | h_13 | h_14 | h_15 =>
    rcases kind_mark rest _ _ with hm | hm
    all_goals
      rw [hm] at h
      cases h
      revert hk
      decide
  case h_16 =>
    unfold string at h
    simp only at h
    split at h
    · cases h
      revert hk
      decide
    · cases h
  case h_17 => cases h
  all_goals
    cases h
    revert hk
    decide

/-- No lexeme is of the kind of the end or of a fault. -/
theorem kind_ofChars_ne (c : Char) (rest : List Char) {k : Kind} (hk : k = .fault ∨ k = .eof) :
    (ofChars c rest).kind ≠ .ok k := by
  intro h
  unfold ofChars at h
  split at h
  · rcases kind_word c rest with hw | ⟨w, hw⟩
    all_goals
      rw [hw] at h
      cases h
      simp at hk
  · split at h
    · cases h
      simp at hk
    · exact kind_punctuation_ne c rest (Or.inr hk) h

/-- Only what starts with a digit is a number. -/
theorem ofChars_eq_number {c : Char} {rest : List Char} (h : (ofChars c rest).kind = .ok .number) :
    Text.isDigit c = true ∧ ofChars c rest = number rest := by
  unfold ofChars at h ⊢
  split at h
  · rcases kind_word c rest with hw | ⟨w, hw⟩
    all_goals
      rw [hw] at h
      cases h
  · next hletter =>
    split at h
    · next hdigit => exact ⟨hdigit, by rw [if_neg hletter, if_pos hdigit]⟩
    · exact absurd h (kind_punctuation_ne c rest (Or.inl rfl))

/-! ## Numbers -/

theorem drop_length_takeWhile {α : Type} (p : α → Bool) (l : List α) :
    l.drop (l.takeWhile p).length = l.dropWhile p := by
  conv => lhs; arg 2; rw [← List.takeWhile_append_dropWhile (p := p) (l := l)]
  exact List.drop_left

theorem take_length_takeWhile {α : Type} (p : α → Bool) (l : List α) :
    l.take (l.takeWhile p).length = l.takeWhile p := by
  conv => lhs; arg 2; rw [← List.takeWhile_append_dropWhile (p := p) (l := l)]
  exact List.take_left

/-- A fraction is nothing, or a point and at least one digit. -/
theorem take_fractionLength (rest : List Char) :
    rest.take (fractionLength rest) = [] ∨
      ∃ d ds, rest.take (fractionLength rest) = '.' :: d :: ds ∧
        ∀ x ∈ d :: ds, Text.isDigit x = true := by
  unfold fractionLength
  split
  · next d more =>
    split
    · next hd =>
      refine Or.inr ⟨d, more.takeWhile Text.isDigit, ?_, ?_⟩
      · rw [Nat.add_comm, List.take_succ_cons, List.take_succ_cons, take_length_takeWhile]
      · intro x hx
        rcases List.mem_cons.mp hx with rfl | hx
        · exact hd
        · exact List.all_eq_true.mp (List.all_takeWhile ..) x hx
    · exact Or.inl (List.take_zero ..)
  · exact Or.inl (List.take_zero ..)

/-- The characters of a number: the digits of its whole part, then its fraction. -/
theorem take_number (c : Char) (rest : List Char) :
    (c :: rest).take (number rest).length =
      (c :: rest.takeWhile Text.isDigit) ++
        (rest.dropWhile Text.isDigit).take (fractionLength (rest.dropWhile Text.isDigit)) := by
  have hsplit : c :: rest =
      (c :: rest.takeWhile Text.isDigit) ++ rest.dropWhile Text.isDigit := by
    rw [List.cons_append, List.takeWhile_append_dropWhile]
  have hlen : (number rest).length =
      (c :: rest.takeWhile Text.isDigit).length
        + fractionLength (rest.dropWhile Text.isDigit) := by
    simp only [number, drop_length_takeWhile, List.length_cons]
    omega
  rw [hlen]
  conv => lhs; rw [hsplit]
  exact List.take_length_add_append _

/-- A number has the form that number texts are read in. -/
theorem isNumeral_number {c : Char} (hc : Text.isDigit c = true) (rest : List Char) :
    Decimal.isNumeral (String.ofList ((c :: rest).take (number rest).length)) = true := by
  have hwhole : ∀ x ∈ c :: rest.takeWhile Text.isDigit, Text.isDigit x = true := by
    intro x hx
    rcases List.mem_cons.mp hx with rfl | hx
    · exact hc
    · exact List.all_eq_true.mp (List.all_takeWhile ..) x hx
  rw [take_number]
  simp only [Decimal.isNumeral, String.toList_ofList, List.takeWhile_append_of_pos hwhole]
  rcases take_fractionLength (rest.dropWhile Text.isDigit) with h | ⟨d, ds, h, hds⟩
  · simp [h]
  · have hpoint : ('.' :: d :: ds).takeWhile Text.isDigit = [] := rfl
    simp only [h, hpoint, List.append_nil, List.drop_left, List.isEmpty_cons, Bool.not_false,
      Bool.true_and]
    exact List.all_eq_true.mpr hds

/-! ## The last character -/

theorem getLast?_ne_of_forall {l : List Char} (h : ∀ x ∈ l, x ≠ '\n') :
    l.getLast? ≠ some '\n' :=
  fun hlast => h _ (List.mem_of_getLast? hlast) rfl

theorem getLast?_take_word {c : Char} (hc : isLetter c = true) (rest : List Char) :
    ((c :: rest).take (word c rest).length).getLast? ≠ some '\n' := by
  apply getLast?_ne_of_forall
  simp only [word, List.length_cons, List.take_succ_cons, take_length_takeWhile]
  intro x hx
  rcases List.mem_cons.mp hx with rfl | hx
  · rintro rfl
    exact absurd hc (by decide)
  · rintro rfl
    exact absurd (List.all_eq_true.mp (List.all_takeWhile ..) _ hx) (by decide)

theorem getLast?_take_number {c : Char} (hc : Text.isDigit c = true) (rest : List Char) :
    ((c :: rest).take (number rest).length).getLast? ≠ some '\n' := by
  have hdigit : ∀ x : Char, Text.isDigit x = true → x ≠ '\n' := by
    rintro x hx rfl
    exact absurd hx (by decide)
  apply getLast?_ne_of_forall
  rw [take_number]
  intro x hx
  rcases List.mem_append.mp hx with hx | hx
  · rcases List.mem_cons.mp hx with rfl | hx
    · exact hdigit _ hc
    · exact hdigit x (List.all_eq_true.mp (List.all_takeWhile ..) x hx)
  · rcases take_fractionLength (rest.dropWhile Text.isDigit) with h | ⟨d, ds, h, hds⟩
    · rw [h] at hx
      exact absurd hx List.not_mem_nil
    · rw [h] at hx
      rcases List.mem_cons.mp hx with rfl | hx
      · decide
      · exact hdigit x (hds x hx)

/-- A string that is closed ends in its closing quote. -/
theorem getLast?_take_string {rest : List Char}
    (h : (string rest).kind ≠ .error .unterminatedString) :
    (('"' :: rest).take (string rest).length).getLast? ≠ some '\n' := by
  unfold string at h ⊢
  simp only at h ⊢
  split
  · next hlt =>
    -- the character after the body is the first one that is a quote
    cases hdrop : rest.dropWhile (· ≠ '"') with
    | nil =>
        have hlen := congrArg List.length
          (List.takeWhile_append_dropWhile (p := (· ≠ '"')) (l := rest))
        rw [hdrop, List.append_nil] at hlen
        omega
    | cons q more =>
        have hq : q = '"' := by
          have := List.head?_dropWhile_not (fun x => decide (x ≠ '"')) rest
          rw [hdrop] at this
          simpa using this
        have hrest : rest = rest.takeWhile (· ≠ '"') ++ q :: more := by
          rw [← hdrop, List.takeWhile_append_dropWhile]
        have htake : rest.take ((rest.takeWhile (· ≠ '"')).length + 1) =
            rest.takeWhile (· ≠ '"') ++ [q] := by
          conv => lhs; arg 2; rw [hrest]
          rw [List.take_length_add_append]
          rfl
        rw [List.take_succ_cons, htake, hq, ← List.cons_append, List.getLast?_concat]
        decide
  · next hlt => exact absurd (if_neg hlt ▸ rfl) h

theorem getLast?_take_mark {c : Char} (hc : c ≠ '\n') (rest : List Char) (double single : Kind) :
    ((c :: rest).take (mark rest double single).length).getLast? ≠ some '\n' := by
  unfold mark
  split
  · simp
  · simpa using hc

theorem getLast?_take_punctuation {c : Char} (hc : c ≠ '\n') {rest : List Char}
    (h : (punctuation c rest).kind ≠ .error .unterminatedString) :
    ((c :: rest).take (punctuation c rest).length).getLast? ≠ some '\n' := by
  unfold punctuation at h ⊢
  split
  case h_12 | h_13 | h_14 | h_15 => exact getLast?_take_mark hc rest _ _
  case h_16 => exact getLast?_take_string h
  case h_17 => simpa using hc
  all_goals simp

/-- Only a string without its closing quote can end in a newline. -/
theorem getLast?_take_ofChars {c : Char} (hc : c ≠ '\n') {rest : List Char}
    (h : (ofChars c rest).kind ≠ .error .unterminatedString) :
    ((c :: rest).take (ofChars c rest).length).getLast? ≠ some '\n' := by
  unfold ofChars at h ⊢
  split
  · next hletter => exact getLast?_take_word hletter rest
  · next hletter =>
    rw [if_neg hletter] at h
    split
    · next hdigit => exact getLast?_take_number hdigit rest
    · next hdigit =>
      rw [if_neg hdigit] at h
      exact getLast?_take_punctuation hc h

/-- A string without its closing quote takes all of the text. -/
theorem length_of_unterminated {c : Char} {rest : List Char}
    (h : (ofChars c rest).kind = .error .unterminatedString) :
    (ofChars c rest).length = (c :: rest).length := by
  unfold ofChars at h ⊢
  split at h
  · cases h
  · next hletter =>
    rw [if_neg hletter]
    split at h
    · cases h
    · next hdigit =>
      rw [if_neg hdigit]
      unfold punctuation at h ⊢
      split at h
      case h_12 | h_13 | h_14 | h_15 =>
        rcases kind_mark rest _ _ with hm | hm <;> rw [hm] at h <;> cases h
      case h_16 =>
        simp only [string] at h ⊢
        split at h
        · cases h
        · next hlt => rw [if_neg hlt]; rfl
      all_goals cases h

/-! ## Length -/

theorem fractionLength_le (rest : List Char) : fractionLength rest ≤ rest.length := by
  unfold fractionLength
  split
  · next d more =>
    have hle := (List.takeWhile_prefix (l := more) Text.isDigit).length_le
    split
    · simp only [List.length_cons]
      omega
    · exact Nat.zero_le _
  · exact Nat.zero_le _

theorem length_number_le (c : Char) (rest : List Char) :
    (number rest).length ≤ (c :: rest).length := by
  have hwhole := (List.takeWhile_prefix (l := rest) Text.isDigit).length_le
  have hfraction := fractionLength_le (rest.drop (rest.takeWhile Text.isDigit).length)
  simp only [number, List.length_cons, List.length_drop] at hfraction ⊢
  omega

theorem length_punctuation_le (c : Char) (rest : List Char) :
    (punctuation c rest).length ≤ (c :: rest).length := by
  unfold punctuation
  split
  case h_12 | h_13 | h_14 | h_15 =>
    unfold mark
    split <;> simp
  case h_16 =>
    unfold string
    simp only [List.length_cons]
    split
    · simp only
      omega
    · exact Nat.le_refl _
  all_goals exact Nat.le_add_left 1 _

/-- A lexeme does not reach beyond its text. -/
theorem length_ofChars_le (c : Char) (rest : List Char) :
    (ofChars c rest).length ≤ (c :: rest).length := by
  unfold ofChars
  split
  · exact Nat.succ_le_succ (List.takeWhile_prefix isWordChar).length_le
  · split
    · exact length_number_le c rest
    · exact length_punctuation_le c rest

end Reckon.Lexeme
