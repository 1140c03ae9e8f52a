/-
# Writing JSON texts

Whole numbers in decimal (`written_natural`), texts between quotes, escaped where they must be
(`written_quoted`) or left as they are where they can (`Plain.quoted`), and objects without blanks,
from names of the latter kind and from texts that write the values (`written_objectText`).
-/
import Reckon.Proofs.Json.Grammar
import Reckon.Proofs.Text.Rows

namespace Reckon.Json

/-! ## Numbers -/

/-- A number that is not zero does not begin with one. -/
theorem head?_toDigits {n : Nat} (h : n ≠ 0) : (Nat.toDigits 10 n).head? ≠ some '0' := by
  induction n using Nat.strongRecOn with
  | ind n ih =>
      rw [Nat.toDigits_eq_if (by decide)]
      split
      · next hlt =>
        have hdigit : ∀ n < 10, n ≠ 0 → [Nat.digitChar n].head? ≠ some '0' := by decide
        exact hdigit n hlt h
      · have hfirst := ih (n / 10) (by omega) (by omega)
        have hne : Nat.toDigits 10 (n / 10) ≠ [] := Nat.toDigits_ne_nil
        obtain ⟨c, cs, hcs⟩ := List.exists_cons_of_ne_nil hne
        rw [hcs] at hfirst ⊢
        exact hfirst

theorem whole_toString (n : Nat) : Whole (toString n).toList := by
  by_cases hn : n = 0
  · rw [hn]
    exact .zero
  · have hne : (toString n).toList ≠ [] := by
      rw [Text.toList_toString]
      exact Nat.toDigits_ne_nil
    refine .digits ⟨hne, fun d => Text.isDigit_of_mem_toString⟩ ?_
    rw [Text.toList_toString]
    exact head?_toDigits hn

theorem written_natural (n : Nat) : Written (.value (natural n)) (toString n).toList := by
  have hnumeral := Numeral.whole (whole_toString n)
  rw [Text.digitsValue_toString] at hnumeral
  exact .number hnumeral

/-! ## Strings -/

theorem hexValue?_hexDigit : ∀ n < 16, hexValue? (Text.hexDigit n) = some n := by
  decide

/-- A character is written as a piece of a string, whether it is escaped or not. -/
theorem spelled_escaped (c : Char) : Spelled (.char c) (Text.escaped c) := by
  unfold Text.escaped
  -- the characters with a short escape
  iterate 7
    split
    · next h =>
      subst h
      exact .short rfl
  split
  · next hlow =>
    have hhigh := hexValue?_hexDigit (c.toNat / 16) (by omega)
    have hunit := hexValue?_hexDigit (c.toNat % 16) (Nat.mod_lt _ (by decide))
    have hzero : hexValue? '0' = some 0 := rfl
    have hsum : 4096 * 0 + 256 * 0 + 16 * (c.toNat / 16) + c.toNat % 16 = c.toNat := by omega
    have hpiece : pieceOfUnit c.toNat = .char c := by
      rw [pieceOfUnit, if_neg (by simp; omega), Char.ofNat_toNat]
    refine .hex ?_
    simp only [hexPiece?, hhigh, hunit, hzero, Option.bind_eq_bind, Option.bind_some, hsum, hpiece]
    rfl
  · next hquote hslash _ _ _ _ _ hcontrol =>
    exact .plain hquote hslash (Nat.le_of_not_lt hcontrol)

theorem inside_escaped (cs : List Char) :
    Inside (cs.map .char) (cs.flatMap Text.escaped ++ ['"']) := by
  induction cs with
  | nil => exact .close
  | cons c cs ih =>
      rw [List.flatMap_cons, List.append_assoc]
      exact .next (spelled_escaped c) ih

theorem joinHalves_chars (cs : List Char) : joinHalves (cs.map .char) = some cs := by
  induction cs with
  | nil => rfl
  | cons c cs ih =>
      rw [List.map_cons, joinHalves, ih]
      rfl

/-- Every text is written between quotes by its characters, escaped where they must be. -/
theorem quoted_escaped (text : String) :
    Quoted (some text) (text.toList.flatMap Text.escaped ++ ['"']) := by
  have hquoted := Quoted.mk (inside_escaped text.toList)
  rw [joinHalves_chars, Option.map_some, String.ofList_toList] at hquoted
  exact hquoted

theorem written_quoted (text : String) :
    Written (.value (string (some text))) (Text.quoted text).toList := by
  rw [Text.quoted, String.toList_ofList]
  exact .string (quoted_escaped text)

/-- A character that can stand between quotes as it is. -/
def isPlain (c : Char) : Bool := c ≠ '"' && c ≠ '\\' && 32 ≤ c.toNat

/-- A text that can stand between quotes as it is. -/
def Plain (text : String) : Prop := text.toList.all isPlain = true

theorem escaped_of_isPlain {c : Char} (h : isPlain c = true) : Text.escaped c = [c] := by
  simp only [isPlain, Bool.and_eq_true, decide_eq_true_eq] at h
  obtain ⟨⟨hquote, hslash⟩, hcontrol⟩ := h
  have hne : ∀ d : Char, d.toNat < 32 → c ≠ d := by
    rintro d hd rfl
    omega
  rw [Text.escaped, if_neg hquote, if_neg hslash, if_neg (hne _ (by decide)),
    if_neg (hne _ (by decide)), if_neg (hne _ (by decide)), if_neg (hne _ (by decide)),
    if_neg (hne _ (by decide)), if_neg (by omega)]

theorem Plain.quoted {name : String} (h : Plain name) :
    Quoted (some name) (name.toList ++ ['"']) := by
  have hplain : name.toList.flatMap Text.escaped = name.toList := by
    have hmap : name.toList.map Text.escaped = name.toList.map fun c => [c] :=
      List.map_congr_left fun c hc => escaped_of_isPlain (List.all_eq_true.mp h c hc)
    rw [List.flatMap_def, hmap, ← List.flatMap_def, List.flatMap_singleton']
  have hquoted := quoted_escaped name
  rwa [hplain] at hquoted

/-! ## Objects -/

/-- The text of the name of a member. -/
def keyText (name : String) : List Char := '"' :: (name.toList ++ ['"', ':'])

/-- The text of the members of an object, by their names and the texts of their values. -/
def membersText : List (String × List Char) → List Char
  | [] => ['}']
  | [(name, text)] => keyText name ++ (text ++ ['}'])
  | (name, text) :: rest => keyText name ++ (text ++ ',' :: membersText rest)

/-- The text of an object. -/
def objectText (ms : List (String × List Char)) : List Char := '{' :: membersText ms

theorem Plain.key {name : String} (h : Plain name) : Key (some name) (keyText name) := by
  have hkey := Key.mk blank_nil h.quoted blank_nil
  rw [List.append_assoc] at hkey
  exact hkey

/-- An object is written by the texts of its names and values. -/
theorem written_objectText {α : Type} {name : α → String} {json : α → Json}
    {text : α → List Char} {l : List α} (hne : l ≠ []) (hname : ∀ a ∈ l, Plain (name a))
    (htext : ∀ a ∈ l, Written (.value (json a)) (text a)) :
    Written (.value (.object (l.map fun a => (some (name a), json a))))
      (objectText (l.map fun a => (name a, text a))) := by
  refine .object ?_
  induction l with
  | nil => exact absurd rfl hne
  | cons a l ih =>
      obtain ⟨hkey, hkeys⟩ := List.forall_mem_cons.mp hname
      obtain ⟨hvalue, hvalues⟩ := List.forall_mem_cons.mp htext
      cases l with
      | nil => exact .lastMember hkey.key hvalue blank_nil
      | cons b l =>
          exact .member hkey.key hvalue blank_nil (ih (List.cons_ne_nil b l) hkeys hvalues)

end Reckon.Json
