/-
# The grammar of JSON texts

A text may write a value in many ways: with blanks around every token, with characters
escaped or not.  `Written` says which texts write what, one constructor for each form, and
says nothing about how a text is read.  A phrase is a value, or what stands inside the
brackets of an array or an object, the closing bracket included.

The leaves of the grammar are blanks, strings and numbers, and each is read back as far as it
was written.  Only a number can be continued by what follows it, so what follows must not
continue one (`Free`).
-/
import Reckon.Json.Basic

namespace Reckon.Json

/-! ## The grammar -/

/-- Blanks only. -/
def Blank (cs : List Char) : Prop := ∀ c ∈ cs, isBlank c = true

/-- `Spelled p cs`: the characters `cs` write one piece of a string. -/
inductive Spelled : Piece → List Char → Prop
  | plain {c : Char} (hquote : c ≠ '"') (hslash : c ≠ '\\') (hcontrol : 32 ≤ c.toNat) :
      Spelled (.char c) [c]
  | short {e c : Char} (h : shortEscape? e = some c) : Spelled (.char c) ['\\', e]
  | hex {p : Piece} {a b c d : Char} (h : hexPiece? a b c d = some p) :
      Spelled p ['\\', 'u', a, b, c, d]

/-- `Inside ps cs`: the characters `cs` write the pieces `ps` and the quote that closes them. -/
inductive Inside : List Piece → List Char → Prop
  | close : Inside [] ['"']
  | next {p : Piece} {ps : List Piece} {cs rest : List Char} (h : Spelled p cs)
      (hrest : Inside ps rest) : Inside (p :: ps) (cs ++ rest)

/-- `Quoted text cs`: the characters `cs` write a string after its opening quote. -/
inductive Quoted : Option String → List Char → Prop
  | mk {ps : List Piece} {cs : List Char} (h : Inside ps cs) :
      Quoted ((joinHalves ps).map String.ofList) cs

/-- Digits only, and at least one. -/
structure Digits (ds : List Char) : Prop where
  ne_nil : ds ≠ []
  digit : ∀ d ∈ ds, Text.isDigit d = true

/-- The whole part of a number, which has no leading zeros. -/
inductive Whole : List Char → Prop
  | zero : Whole ['0']
  | digits {ds : List Char} (h : Digits ds) (hzero : ds.head? ≠ some '0') : Whole ds

/-- The fraction of a number, or nothing. -/
inductive Fraction : List Char → Prop
  | none : Fraction []
  | digits {ds : List Char} (h : Digits ds) : Fraction ('.' :: ds)

/-- The exponent of a number, or nothing. -/
inductive Exponent : List Char → Prop
  | none : Exponent []
  | digits {e : Char} {sign ds : List Char} (he : e = 'e' ∨ e = 'E')
      (hsign : sign = [] ∨ sign = ['+'] ∨ sign = ['-']) (h : Digits ds) :
      Exponent (e :: (sign ++ ds))

/-- `Numeral j cs`: the characters `cs` write the number `j`. -/
inductive Numeral : Json → List Char → Prop
  | whole {ds : List Char} (h : Whole ds) : Numeral (natural (Text.digitsValue ds)) ds
  | real {ds fraction exponent : List Char} (h : Whole ds) (hf : Fraction fraction)
      (he : Exponent exponent) (hne : fraction ++ exponent ≠ []) :
      Numeral (real (String.ofList (ds ++ (fraction ++ exponent)))) (ds ++ (fraction ++ exponent))

/-- `Key name cs`: the characters `cs` write the name of a member and the colon after it. -/
inductive Key : Option String → List Char → Prop
  | mk {name : Option String} {ws cs ws' : List Char} (hws : Blank ws) (h : Quoted name cs)
      (hws' : Blank ws') : Key name (ws ++ '"' :: (cs ++ (ws' ++ [':'])))

/-- What a stretch of text can write. -/
inductive Phrase where
  | value (j : Json)
  | items (js : List Json)
  | members (ms : List (Option String × Json))

/-- `Written p cs`: the characters `cs` write the phrase `p`. -/
inductive Written : Phrase → List Char → Prop
  | blank {j : Json} {c : Char} {cs : List Char} (hc : isBlank c = true)
      (h : Written (.value j) cs) : Written (.value j) (c :: cs)
  | null : Written (.value null) ['n', 'u', 'l', 'l']
  | true : Written (.value (bool true)) ['t', 'r', 'u', 'e']
  | false : Written (.value (bool false)) ['f', 'a', 'l', 's', 'e']
  | string {text : Option String} {cs : List Char} (h : Quoted text cs) :
      Written (.value (string text)) ('"' :: cs)
  | number {j : Json} {cs : List Char} (h : Numeral j cs) : Written (.value j) cs
  | negative {j : Json} {cs : List Char} (h : Numeral j cs) :
      Written (.value (negated j)) ('-' :: cs)
  | emptyArray {ws : List Char} (hws : Blank ws) :
      Written (.value (array [])) ('[' :: (ws ++ [']']))
  | array {js : List Json} {cs : List Char} (h : Written (.items js) cs) :
      Written (.value (array js)) ('[' :: cs)
  | emptyObject {ws : List Char} (hws : Blank ws) :
      Written (.value (object [])) ('{' :: (ws ++ ['}']))
  | object {ms : List (Option String × Json)} {cs : List Char} (h : Written (.members ms) cs) :
      Written (.value (object ms)) ('{' :: cs)
  | lastItem {j : Json} {cs ws : List Char} (h : Written (.value j) cs) (hws : Blank ws) :
      Written (.items [j]) (cs ++ (ws ++ [']']))
  | item {j : Json} {js : List Json} {cs ws rest : List Char} (h : Written (.value j) cs)
      (hws : Blank ws) (hrest : Written (.items js) rest) :
      Written (.items (j :: js)) (cs ++ (ws ++ ',' :: rest))
  | lastMember {name : Option String} {j : Json} {ks cs ws : List Char} (hk : Key name ks)
      (h : Written (.value j) cs) (hws : Blank ws) :
      Written (.members [(name, j)]) (ks ++ (cs ++ (ws ++ ['}'])))
  | member {name : Option String} {j : Json} {ms : List (Option String × Json)}
      {ks cs ws rest : List Char} (hk : Key name ks) (h : Written (.value j) cs) (hws : Blank ws)
      (hrest : Written (.members ms) rest) :
      Written (.members ((name, j) :: ms)) (ks ++ (cs ++ (ws ++ ',' :: rest)))

/-- The text writes one value, and nothing but blanks stands around it. -/
def Document (text : String) (j : Json) : Prop :=
  ∃ cs ws, Written (.value j) cs ∧ Blank ws ∧ text.toList = cs ++ ws

/-! ## Blanks -/

theorem blank_nil : Blank [] := fun _ h => nomatch h

theorem skipBlanks_append {ws : List Char} (h : Blank ws) (cs : List Char) :
    skipBlanks (ws ++ cs) = skipBlanks cs :=
  List.dropWhile_append_of_pos h

theorem skipBlanks_cons {c : Char} (h : isBlank c = false) (cs : List Char) :
    skipBlanks (c :: cs) = c :: cs :=
  List.dropWhile_cons_of_neg (by rw [h]; exact Bool.false_ne_true)

theorem exists_blanks {cs rest : List Char} (h : skipBlanks cs = rest) :
    ∃ ws, Blank ws ∧ cs = ws ++ rest :=
  ⟨cs.takeWhile isBlank, List.all_eq_true.mp List.all_takeWhile,
    h ▸ List.takeWhile_append_dropWhile.symm⟩

theorem Written.blanks {j : Json} {ws cs : List Char} (hws : Blank ws)
    (h : Written (.value j) cs) : Written (.value j) (ws ++ cs) := by
  induction ws with
  | nil => exact h
  | cons c ws ih =>
      obtain ⟨hc, hrest⟩ := List.forall_mem_cons.mp hws
      exact .blank hc (ih hrest)

/-! ## Strings -/

/-- A piece that is written is read. -/
theorem Spelled.pieces {p : Piece} {cs : List Char} (h : Spelled p cs) (rest : List Char) :
    pieces (cs ++ rest) = (pieces rest).map fun r => (p :: r.1, r.2) := by
  cases h with
  | @plain c hquote hslash hcontrol =>
      have hchar : ¬(c = '\\' ∨ c.toNat < 32) := by
        rintro (h | h)
        · exact hslash h
        · omega
      rw [List.singleton_append, Json.pieces.eq_def]
      split
      · next h => cases h
      · next h => exact absurd (List.cons.inj h).1 hquote
      · next h => exact absurd (List.cons.inj h).1 hslash
      · next h => exact absurd (List.cons.inj h).1 hslash
      · next h =>
        cases h
        rw [if_neg hchar]
        cases Json.pieces rest <;> rfl
  | @short e c h =>
      have hhex : e ≠ 'u' := by
        rintro rfl
        cases h
      rw [List.cons_append, List.singleton_append, Json.pieces.eq_def]
      split
      · next h => cases h
      · next h => cases h
      · next h => exact absurd (List.cons.inj (List.cons.inj h).2).1 hhex
      · next heq =>
        cases heq
        rw [h]
        cases Json.pieces rest <;> rfl
      · next hshort heq =>
        cases heq
        exact absurd rfl (hshort e rest rfl)
  | hex h =>
      show (hexPiece? _ _ _ _).bind _ = _
      rw [h]
      show (Json.pieces rest).bind _ = _
      cases Json.pieces rest <;> rfl

/-- A string that is written is read. -/
theorem Inside.pieces {ps : List Piece} {cs : List Char} (h : Inside ps cs) (rest : List Char) :
    pieces (cs ++ rest) = some (ps, rest) := by
  induction h with
  | close => rfl
  | next hp _ ih => rw [List.append_assoc, hp.pieces, ih, Option.map_some]

theorem Quoted.stringTail {text : Option String} {cs : List Char} (h : Quoted text cs)
    (rest : List Char) : stringTail (cs ++ rest) = some (text, rest) := by
  cases h with
  | mk h =>
      rw [Json.stringTail, h.pieces]
      rfl

/-- A string that is read was written. -/
theorem pieces_sound (cs : List Char) {ps : List Piece} {rest : List Char}
    (h : pieces cs = some (ps, rest)) : ∃ us, Inside ps us ∧ cs = us ++ rest := by
  fun_induction pieces cs generalizing ps with
  | case1 => cases h
  | case2 => 
      cases h
      exact ⟨_, .close, rfl⟩
  | case3 a b c d cs ih =>
      obtain ⟨p, hp, h⟩ := Option.bind_eq_some_iff.mp h
      obtain ⟨⟨following, rest⟩, hrest, h⟩ := Option.bind_eq_some_iff.mp h
      cases h
      obtain ⟨us, hus, rfl⟩ := ih hrest
      exact ⟨_, .next (.hex hp) hus, rfl⟩
  | case4 e cs _ ih =>
      obtain ⟨c, hc, h⟩ := Option.bind_eq_some_iff.mp h
      obtain ⟨⟨following, rest⟩, hrest, h⟩ := Option.bind_eq_some_iff.mp h
      cases h
      obtain ⟨us, hus, rfl⟩ := ih hrest
      exact ⟨_, .next (.short hc) hus, rfl⟩
  | case5 => cases h
  | case6 c cs hquote _ _ hchar ih => 
      obtain ⟨⟨following, rest⟩, hrest, h⟩ := Option.bind_eq_some_iff.mp h
      cases h
      obtain ⟨us, hus, rfl⟩ := ih hrest
      rw [not_or, Nat.not_lt] at hchar
      exact ⟨_, .next (.plain hquote hchar.1 hchar.2) hus, rfl⟩

theorem stringTail_sound {cs : List Char} {text : Option String} {rest : List Char}
    (h : stringTail cs = some (text, rest)) : ∃ us, Quoted text us ∧ cs = us ++ rest := by
  obtain ⟨⟨ps, rest⟩, hps, h⟩ := Option.bind_eq_some_iff.mp h
  cases h
  obtain ⟨us, hus, rfl⟩ := pieces_sound cs hps
  exact ⟨us, .mk hus, rfl⟩

/-! ## Numbers -/

/-- What follows does not continue a run of digits. -/
def NoDigit (rest : List Char) : Prop := ∀ c ∈ rest.head?, Text.isDigit c = false

/-- What follows does not continue a number. -/
structure Free (rest : List Char) : Prop where
  digit : NoDigit rest
  point : rest.head? ≠ some '.'
  exponent : ∀ c ∈ rest.head?, ¬(c = 'e' ∨ c = 'E')

theorem Digits.digitRun? {ds rest : List Char} (h : Digits ds) (hrest : NoDigit rest) :
    digitRun? (ds ++ rest) = some (ds, rest) := by
  have htake : (ds ++ rest).takeWhile Text.isDigit = ds := by
    rw [List.takeWhile_append_of_pos h.digit]
    cases rest with
    | nil => exact List.append_nil ds
    | cons c rest =>
        rw [List.takeWhile_cons, hrest c rfl, if_neg Bool.false_ne_true, List.append_nil]
  have hdrop : (ds ++ rest).dropWhile Text.isDigit = rest := by
    rw [List.dropWhile_append_of_pos h.digit]
    cases rest with
    | nil => rfl
    | cons c rest => rw [List.dropWhile_cons, hrest c rfl, if_neg Bool.false_ne_true]
  rw [Json.digitRun?, digitRun, htake, hdrop]
  exact if_neg (by rw [List.isEmpty_iff]; exact h.ne_nil)

theorem digitRun?_sound {cs ds rest : List Char} (h : digitRun? cs = some (ds, rest)) :
    Digits ds ∧ cs = ds ++ rest := by
  obtain ⟨hne, h⟩ := (Option.ite_none_left_eq_some ..).mp h
  cases h
  refine ⟨⟨?_, List.all_eq_true.mp List.all_takeWhile⟩, List.takeWhile_append_dropWhile.symm⟩
  rwa [List.isEmpty_iff] at hne

theorem Whole.wholePart? {ds rest : List Char} (h : Whole ds) (hrest : NoDigit rest) :
    wholePart? (ds ++ rest) = some (ds, rest) := by
  cases h with
  | zero => rfl
  | digits h hzero =>
      rw [← h.digitRun? hrest, Json.wholePart?.eq_def]
      split
      · next hcons =>
        cases ds with
        | nil => exact absurd rfl h.ne_nil
        | cons d ds =>
            cases hcons
            exact absurd rfl hzero
      · rfl

theorem wholePart?_sound {cs ds rest : List Char} (h : wholePart? cs = some (ds, rest)) :
    Whole ds ∧ cs = ds ++ rest := by
  rw [wholePart?.eq_def] at h
  split at h
  · cases h
    exact ⟨.zero, rfl⟩
  · next hzero =>
    obtain ⟨hds, rfl⟩ := digitRun?_sound h
    refine ⟨.digits hds fun hhead => ?_, rfl⟩
    cases ds with
    | nil => cases hhead
    | cons d ds =>
        cases hhead
        exact hzero _ rfl

theorem Fraction.fractionPart? {fs rest : List Char} (h : Fraction fs) (hrest : NoDigit rest)
    (hpoint : rest.head? ≠ some '.') : fractionPart? (fs ++ rest) = some (fs, rest) := by
  cases h with
  | none =>
      rw [List.nil_append, Json.fractionPart?.eq_def]
      split
      · exact absurd rfl hpoint
      · rfl
  | digits h =>
      show (digitRun? (_ ++ rest)).map _ = _
      rw [h.digitRun? hrest]
      rfl

theorem fractionPart?_sound {cs fs rest : List Char} (h : fractionPart? cs = some (fs, rest)) :
    Fraction fs ∧ cs = fs ++ rest := by
  rw [fractionPart?.eq_def] at h
  split at h
  · obtain ⟨⟨ds, rest⟩, hds, h⟩ := Option.map_eq_some_iff.mp h
    cases h
    obtain ⟨hdigits, rfl⟩ := digitRun?_sound hds
    exact ⟨.digits hdigits, rfl⟩
  · cases h
    exact ⟨.none, rfl⟩

theorem signPart_append {sign ds rest : List Char} (h : Digits ds)
    (hsign : sign = [] ∨ sign = ['+'] ∨ sign = ['-']) :
    signPart (sign ++ (ds ++ rest)) = (sign, ds ++ rest) := by
  obtain rfl | rfl | rfl := hsign
  · cases ds with
    | nil => exact absurd rfl h.ne_nil
    | cons d ds =>
        have hd := h.digit d List.mem_cons_self
        rw [List.nil_append, List.cons_append, signPart.eq_def]
        split
        · next heq =>
          cases heq
          cases hd
        · next heq =>
          cases heq
          cases hd
        · rfl
  · rfl
  · rfl

theorem signPart_sound {cs sign rest : List Char} (h : signPart cs = (sign, rest)) :
    (sign = [] ∨ sign = ['+'] ∨ sign = ['-']) ∧ cs = sign ++ rest := by
  rw [signPart.eq_def] at h
  split at h
  · cases h
    exact ⟨.inr (.inl rfl), rfl⟩
  · cases h
    exact ⟨.inr (.inr rfl), rfl⟩
  · cases h
    exact ⟨.inl rfl, rfl⟩

theorem Exponent.exponentPart? {es rest : List Char} (h : Exponent es) (hrest : Free rest) :
    exponentPart? (es ++ rest) = some (es, rest) := by
  cases h with
  | none =>
      cases rest with
      | nil => rfl
      | cons c rest => exact if_neg (hrest.exponent c rfl)
  | @digits e sign ds he hsign h =>
      rw [List.cons_append, List.append_assoc, Json.exponentPart?, if_pos he,
        signPart_append h hsign]
      simp only [h.digitRun? hrest.digit, Option.map_some]

theorem exponentPart?_sound {cs es rest : List Char} (h : exponentPart? cs = some (es, rest)) :
    Exponent es ∧ cs = es ++ rest := by
  cases cs with
  | nil =>
      cases h
      exact ⟨.none, rfl⟩
  | cons c cs =>
      rw [exponentPart?] at h
      split at h
      · next he =>
        cases hpart : signPart cs with
        | mk sign more =>
            rw [hpart] at h
            obtain ⟨⟨ds, rest⟩, hds, h⟩ := Option.map_eq_some_iff.mp h
            cases h
            obtain ⟨hsign, rfl⟩ := signPart_sound hpart
            obtain ⟨hdigits, rfl⟩ := digitRun?_sound hds
            refine ⟨.digits he hsign hdigits, ?_⟩
            rw [List.cons_append, List.append_assoc]
      · cases h
        exact ⟨.none, rfl⟩

/-- Neither an exponent nor what follows a number continues the digits before it. -/
theorem Exponent.noDigit {es rest : List Char} (h : Exponent es) (hrest : Free rest) :
    NoDigit (es ++ rest) ∧ (es ++ rest).head? ≠ some '.' := by
  cases h with
  | none => exact ⟨hrest.digit, hrest.point⟩
  | digits he =>
      obtain rfl | rfl := he
      · exact ⟨fun c hc => by cases hc; rfl, fun h => absurd (Option.some.inj h) (by decide)⟩
      · exact ⟨fun c hc => by cases hc; rfl, fun h => absurd (Option.some.inj h) (by decide)⟩

theorem Fraction.noDigit {fs rest : List Char} (h : Fraction fs) (hrest : NoDigit rest) :
    NoDigit (fs ++ rest) := by
  cases h with
  | none => exact hrest
  | digits _ =>
      intro c hc
      cases hc
      rfl

/-- The parts of a number are read one after the other. -/
theorem unsigned?_append {ds fs es rest : List Char} (hds : Whole ds) (hfs : Fraction fs)
    (hes : Exponent es) (hrest : Free rest) :
    unsigned? (ds ++ (fs ++ (es ++ rest))) =
      match fs ++ es with
      | [] => some (natural (Text.digitsValue ds), rest)
      | tail => some (real (String.ofList (ds ++ tail)), rest) := by
  obtain ⟨hdigit, hpoint⟩ := hes.noDigit hrest
  rw [unsigned?, hds.wholePart? (hfs.noDigit hdigit)]
  show (fractionPart? _).bind _ = _
  rw [hfs.fractionPart? hdigit hpoint]
  show (exponentPart? _).bind _ = _
  rw [hes.exponentPart? hrest]
  rfl

/-- A number that is written is read. -/
theorem Numeral.unsigned? {j : Json} {cs rest : List Char} (h : Numeral j cs) (hrest : Free rest) :
    unsigned? (cs ++ rest) = some (j, rest) := by
  cases h with
  | whole h => exact unsigned?_append h .none .none hrest
  | real h hf he hne =>
      rw [List.append_assoc, List.append_assoc, unsigned?_append h hf he hrest]
      split
      · next hnil => exact absurd hnil hne
      · rfl

/-- A number that is read was written. -/
theorem unsigned?_sound {cs rest : List Char} {j : Json} (h : unsigned? cs = some (j, rest)) :
    ∃ us, Numeral j us ∧ cs = us ++ rest := by
  obtain ⟨⟨ds, rest₁⟩, hds, hmore⟩ := Option.bind_eq_some_iff.mp h
  obtain ⟨⟨fs, rest₂⟩, hfs, hmore⟩ := Option.bind_eq_some_iff.mp hmore
  obtain ⟨⟨es, rest₃⟩, hes, hj⟩ := Option.bind_eq_some_iff.mp hmore
  obtain ⟨hwhole, rfl⟩ := wholePart?_sound hds
  obtain ⟨hfraction, rfl⟩ := fractionPart?_sound hfs
  obtain ⟨hexponent, rfl⟩ := exponentPart?_sound hes
  simp only at hj
  split at hj
  · next hnil =>
    cases hj
    obtain ⟨rfl, rfl⟩ := List.append_eq_nil_iff.mp hnil
    exact ⟨ds, .whole hwhole, rfl⟩
  · next hne =>
    cases hj
    refine ⟨_, .real hwhole hfraction hexponent hne, ?_⟩
    rw [List.append_assoc, List.append_assoc]

/-- A number begins with a digit. -/
theorem Numeral.exists_digit {j : Json} {cs : List Char} (h : Numeral j cs) :
    ∃ d rest, Text.isDigit d = true ∧ cs = d :: rest := by
  have hwhole : ∀ {ds : List Char}, Whole ds →
      ∃ d rest, Text.isDigit d = true ∧ ds = d :: rest := by
    intro ds h
    cases h with
    | zero => exact ⟨_, _, rfl, rfl⟩
    | digits h _ =>
        obtain ⟨d, rest, rfl⟩ := List.exists_cons_of_ne_nil h.ne_nil
        exact ⟨d, rest, h.digit d List.mem_cons_self, rfl⟩
  cases h with
  | whole h => exact hwhole h
  | real h _ _ _ =>
      obtain ⟨d, rest, hd, rfl⟩ := hwhole h
      exact ⟨d, _, hd, rfl⟩

end Reckon.Json
