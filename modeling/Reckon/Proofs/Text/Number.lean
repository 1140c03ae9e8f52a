/-
# The text of numbers

A number in plain text is made of digits, a sign and a point, or is a word for what is no
number, and it is never empty (`isNumber_plain`).  So it stays on one line, and numbers that
are set between brackets, with commas and blanks between them, can be told apart again
(`numbers_bracketed`).
-/
import Reckon.Decimal.Layout
import Reckon.Proofs.Text.Rows

namespace Reckon

namespace Text

/-- Whether a character can stand in a number or in one of the words `NaN` and `inf`. -/
def isNumeric (c : Char) : Bool :=
  isDigit c || "-.NaNinf".toList.contains c

/-- Whether a text is made of such characters. -/
def isNumericText (s : String) : Bool :=
  s.toList.all isNumeric

@[simp]
theorem isNumericText_append (a b : String) :
    isNumericText (a ++ b) = (isNumericText a && isNumericText b) := by
  rw [isNumericText, String.toList_append, List.all_append]
  rfl

theorem isNumericText_ofList {s : String} (h : isNumericText s = true) {cs : List Char}
    (hcs : cs ⊆ s.toList) : isNumericText (String.ofList cs) = true := by
  rw [isNumericText, String.toList_ofList]
  refine List.all_eq_true.mpr ?_
  intro c hc
  exact List.all_eq_true.mp h c (hcs hc)

theorem isNumericText_toString (n : Nat) : isNumericText (toString n) = true := by
  refine List.all_eq_true.mpr ?_
  intro c hc
  rw [isNumeric, isDigit_of_mem_toString hc, Bool.true_or]

theorem isNumericText_fill (n : Nat) : isNumericText (fill '0' n) = true := by
  rw [isNumericText, toList_fill]
  refine List.all_eq_true.mpr ?_
  intro c hc
  rw [List.eq_of_mem_replicate hc]
  rfl

theorem toString_ne_nil (n : Nat) : (toString n).toList ≠ [] := by
  intro hnil
  have hread := digits?_toString n
  rw [hnil] at hread
  cases hread

/-- The text of a number, or of what is none. -/
structure IsNumber (s : String) : Prop where
  nonempty : s.toList ≠ []
  numeric : isNumericText s = true

theorem IsNumber.isInline {s : String} (h : IsNumber s) : isInline s = true := by
  refine List.all_eq_true.mpr ?_
  intro c hc
  have hnumeric := List.all_eq_true.mp h.numeric c hc
  have hnewline : c ≠ '\n' := fun heq => by rw [heq] at hnumeric; cases hnumeric
  have hreturn : c ≠ '\r' := fun heq => by rw [heq] at hnumeric; cases hnumeric
  simp [isInner, hnewline, hreturn]

end Text

/-! ## Plain text -/

namespace Decimal

open Text (isNumericText IsNumber)

theorem isNumericText_withPoint {digits : String} (h : isNumericText digits = true)
    (keepPoint : Bool) (point : Int) :
    isNumericText (withPoint keepPoint digits point) = true := by
  have hzero : isNumericText "0." = true := rfl
  have hpoint : isNumericText "." = true := rfl
  unfold withPoint
  split
  · simp [h, Text.isNumericText_fill, hzero]
  · split
    · have hend : isNumericText (if keepPoint then ".0" else "") = true := by
        cases keepPoint <;> rfl
      simp [h, Text.isNumericText_fill, hend]
    · have htake := Text.isNumericText_ofList h (List.take_subset point.toNat digits.toList)
      have hdrop := Text.isNumericText_ofList h (List.drop_subset point.toNat digits.toList)
      simp [htake, hdrop, hpoint]

theorem withPoint_ne_nil {digits : String} (h : digits.toList ≠ []) (keepPoint : Bool)
    (point : Int) : (withPoint keepPoint digits point).toList ≠ [] := by
  unfold withPoint
  split
  · simp
  · split
    · rw [String.toList_append, String.toList_append]
      simp [h]
    · simp

theorem isNumber_digits (d : Scaled) : IsNumber (Layout.plain.digits d) := by
  unfold Layout.digits
  split
  · exact ⟨by decide, rfl⟩
  · exact ⟨withPoint_ne_nil (Text.toString_ne_nil _) _ _,
      isNumericText_withPoint (Text.isNumericText_toString _) _ _⟩

theorem isNumber_signed {s : String} (h : IsNumber s) (negative : Bool) :
    IsNumber ((if negative then "-" else "") ++ s) where
  nonempty := by
    rw [String.toList_append]
    simp [h.nonempty]
  numeric := by
    have hsign : isNumericText (if negative then "-" else "") = true := by
      cases negative <;> rfl
    simp [h.numeric, hsign]

/-- A number in plain text is a text of digits, sign and point, or one of the two words. -/
theorem isNumber_plain (x : Float) : IsNumber (Layout.plain.text x) := by
  unfold Layout.text
  cases Double.ofFloat x with
  | nan => exact ⟨by decide, rfl⟩
  | infinite negative => exact isNumber_signed ⟨by decide, rfl⟩ negative
  | finite negative m q => exact isNumber_signed (isNumber_digits _) negative

end Decimal

/-! ## Numbers in a row -/

namespace Text

/-- Brackets and commas taken for blanks. -/
def unpunctuated (c : Char) : Char :=
  if "[],".toList.contains c then ' ' else c

/-- The numbers of a row that shows them between brackets. -/
def numbers (row : String) : List String :=
  (words (row.toList.map unpunctuated)).map String.ofList

theorem map_unpunctuated {s : String} (h : isNumericText s = true) :
    s.toList.map unpunctuated = s.toList := by
  refine (List.map_congr_left fun c hc => ?_).trans (List.map_id _)
  have hnumeric := List.all_eq_true.mp h c hc
  unfold unpunctuated
  split
  · next hmark =>
    -- None of the three marks can stand in a number.
    have hmarks : "[],".toList.all (!isNumeric ·) = true := rfl
    have hother := List.all_eq_true.mp hmarks c (List.contains_iff_mem.mp hmark)
    rw [hnumeric] at hother
    cases hother
  · rfl

theorem IsNumber.words {s : String} (h : IsNumber s) : words s.toList = [s.toList] := by
  refine words_of_no_blank h.nonempty fun hblank => ?_
  cases List.all_eq_true.mp h.numeric _ hblank

theorem words_joined {texts : List String} (h : ∀ s ∈ texts, IsNumber s) :
    words ((joined ", " texts).toList.map unpunctuated) = texts.map String.toList := by
  induction texts using joined.induct with
  | case1 => exact words_nil
  | case2 s =>
      have hs := h s List.mem_cons_self
      rw [joined, map_unpunctuated hs.numeric, hs.words]
      rfl
  | case3 s rest hrest ih =>
      have hs := h s List.mem_cons_self
      have hlist : (joined ", " (s :: rest)).toList.map unpunctuated =
          s.toList ++ ' ' :: ([] ++ ' ' :: (joined ", " rest).toList.map unpunctuated) := by
        rw [joined.eq_3 _ _ _ hrest]
        simp [map_unpunctuated hs.numeric, unpunctuated]
      rw [hlist, words_append_blank, words_append_blank, hs.words, words_nil,
        ih fun t ht => h t (List.mem_cons_of_mem _ ht)]
      rfl

/-- Numbers between brackets are read back from the row. -/
theorem numbers_bracketed (margin : Nat) {texts : List String} (h : ∀ s ∈ texts, IsNumber s) :
    numbers (fill ' ' margin ++ "[" ++ joined ", " texts ++ "]") = texts := by
  have hlist : (fill ' ' margin ++ "[" ++ joined ", " texts ++ "]").toList.map unpunctuated =
      List.replicate margin ' ' ++
        ([] ++ ' ' :: ((joined ", " texts).toList.map unpunctuated ++ ' ' :: [])) := by
    simp [toList_fill, unpunctuated]
  rw [numbers, hlist, words_replicate_append, words_append_blank, words_append_blank, words_nil,
    words_joined h, List.append_nil, List.nil_append, List.map_map]
  simp

end Text

end Reckon
