/-
# Reading what was written

* What is written is read, and exactly that much of the text (`Written.reads`).  A phrase of
  `n` characters needs no more than `2 * n` units of fuel, so the fuel never decides.
* What is read has been written (`sound`).  The induction is on the fuel, for values, items
  and members at once.

So a text is read as a value exactly if it writes that value (`read?_eq_some_iff`).
-/
import Reckon.Proofs.Json.Grammar

namespace Reckon.Json

/-! ## What is written is read -/

theorem free_nil : Free [] := ⟨nofun, nofun, nofun⟩

theorem free_cons {c : Char} (rest : List Char)
    (hc : isBlank c = true ∨ c = ',' ∨ c = ']' ∨ c = '}') : Free (c :: rest) := by
  have hplain : Text.isDigit c = false ∧ c ≠ '.' ∧ ¬(c = 'e' ∨ c = 'E') := by
    obtain hblank | rfl | rfl | rfl := hc
    · simp only [isBlank, Bool.or_eq_true, decide_eq_true_eq] at hblank
      obtain ((rfl | rfl) | rfl) | rfl := hblank <;> decide
    all_goals decide
  refine ⟨?_, fun h => hplain.2.1 (Option.some.inj h), ?_⟩
  · rintro _ ⟨⟩
    exact hplain.1
  · rintro _ ⟨⟩
    exact hplain.2.2

theorem Free.blanks {ws rest : List Char} (hws : Blank ws) (hrest : Free rest) :
    Free (ws ++ rest) := by
  cases ws with
  | nil => exact hrest
  | cons c ws => exact free_cons _ (.inl (hws c List.mem_cons_self))

section
variable {fuel : Nat} {cs rest : List Char}

theorem skipBlanks_skipBlanks (cs : List Char) : skipBlanks (skipBlanks cs) = skipBlanks cs := by
  induction cs with
  | nil => rfl
  | cons c cs ih =>
      cases hc : isBlank c with
      | true =>
          rw [show skipBlanks (c :: cs) = skipBlanks cs from List.dropWhile_cons_of_pos hc]
          exact ih
      | false => rw [skipBlanks_cons hc, skipBlanks_cons hc]

theorem value_skipBlanks (fuel : Nat) (cs : List Char) :
    value fuel (skipBlanks cs) = value fuel cs := by
  cases fuel with
  | zero => rw [value, value]
  | succ fuel => rw [value, value, skipBlanks_skipBlanks]

theorem items_skipBlanks (fuel : Nat) (cs : List Char) :
    items fuel (skipBlanks cs) = items fuel cs := by
  cases fuel with
  | zero => rw [items, items]
  | succ fuel => rw [items, items, value_skipBlanks]

theorem members_skipBlanks (fuel : Nat) (cs : List Char) :
    members fuel (skipBlanks cs) = members fuel cs := by
  cases fuel with
  | zero => rw [members, members]
  | succ fuel => rw [members, members, skipBlanks_skipBlanks]

theorem value_blank {c : Char} (hc : isBlank c = true) : value fuel (c :: cs) = value fuel cs := by
  have hskip : skipBlanks (c :: cs) = skipBlanks cs := List.dropWhile_cons_of_pos hc
  rw [← value_skipBlanks, hskip, value_skipBlanks]

theorem value_digit {d : Char} (hd : Text.isDigit d = true) :
    value (fuel + 1) (d :: cs) = unsigned? (d :: cs) := by
  have hne : ∀ {c : Char}, Text.isDigit c = false → d ≠ c := by
    rintro c hc rfl
    exact Bool.false_ne_true (hc.symm.trans hd)
  have hblank : isBlank d = false := by
    simp only [isBlank, Bool.or_eq_false_iff, decide_eq_false_iff_not]
    exact ⟨⟨⟨hne rfl, hne rfl⟩, hne rfl⟩, hne rfl⟩
  rw [value, skipBlanks_cons hblank]
  split
  · next h => exact absurd (List.cons.inj h).1 (hne rfl)
  · next h => exact absurd (List.cons.inj h).1 (hne rfl)
  · next h => exact absurd (List.cons.inj h).1 (hne rfl)
  · next h => exact absurd (List.cons.inj h).1 (hne rfl)
  · next h => exact absurd (List.cons.inj h).1 (hne rfl)
  · next h => exact absurd (List.cons.inj h).1 (hne rfl)
  · rw [number?.eq_def]
    split
    · next h => exact absurd (List.cons.inj h).1 (hne rfl)
    · rfl

/-- What stands after an opening bracket. -/
theorem value_bracket (fuel : Nat) (cs : List Char) :
    value (fuel + 1) ('[' :: cs) =
      match skipBlanks cs with
      | ']' :: rest => some (array [], rest)
      | rest => (items fuel rest).map fun (found, rest) => (array found, rest) := by
  rw [value]
  rfl

/-- What stands after an opening brace. -/
theorem value_brace (fuel : Nat) (cs : List Char) :
    value (fuel + 1) ('{' :: cs) =
      match skipBlanks cs with
      | '}' :: rest => some (object [], rest)
      | rest => (members fuel rest).map fun (found, rest) => (object found, rest) := by
  rw [value]
  rfl

theorem value_array {js : List Json} (h : items fuel cs = some (js, rest)) :
    value (fuel + 1) ('[' :: cs) = some (array js, rest) := by
  rw [← items_skipBlanks] at h
  rw [value_bracket]
  split
  · next hclose =>
    -- no value begins with the closing bracket
    rw [hclose] at h
    cases fuel with
    | zero => rw [items] at h; cases h
    | succ fuel =>
        cases fuel with
        | zero => rw [items, value] at h; cases h
        | succ fuel => rw [items, value] at h; cases h
  · rw [h, Option.map_some]

theorem value_object {ms : List (Option String × Json)} (h : members fuel cs = some (ms, rest)) :
    value (fuel + 1) ('{' :: cs) = some (object ms, rest) := by
  rw [← members_skipBlanks] at h
  rw [value_brace]
  split
  · next hclose =>
    -- no name begins with the closing brace
    rw [hclose] at h
    cases fuel with
    | zero => rw [members] at h; cases h
    | succ fuel => rw [members] at h; cases h
  · rw [h, Option.map_some]

/-- What stands after an item. -/
theorem items_of_value {j : Json} (h : value fuel cs = some (j, rest)) :
    items (fuel + 1) cs =
      match skipBlanks rest with
      | ']' :: rest => some ([j], rest)
      | ',' :: rest => (items fuel rest).bind fun (js, rest) => some (j :: js, rest)
      | _ => none := by
  rw [items, h]
  rfl

/-- The name of a member is read, and the colon after it. -/
theorem Key.members {name : Option String} {ks : List Char} (hk : Key name ks) {j : Json}
    (h : value fuel cs = some (j, rest)) :
    members (fuel + 1) (ks ++ cs) =
      match skipBlanks rest with
      | '}' :: rest => some ([(name, j)], rest)
      | ',' :: rest => (members fuel rest).bind fun (ms, rest) => some ((name, j) :: ms, rest)
      | _ => none := by
  cases hk with
  | mk hws hname hws' =>
      rw [List.append_assoc, List.cons_append, List.append_assoc, List.append_assoc, Json.members,
        skipBlanks_append hws]
      show (stringTail _).bind _ = _
      rw [hname.stringTail]
      dsimp only [Option.bind_some]
      rw [skipBlanks_append hws']
      show (value fuel cs).bind _ = _
      rw [h]
      rfl

end

/-- `p.Reads fuel cs`: with some fuel the text `cs` is read as the phrase `p`, whatever comes after
it. -/
def Phrase.Reads (fuel : Nat) (cs : List Char) : Phrase → Prop
  | .value j => ∀ rest, Free rest → Json.value fuel (cs ++ rest) = some (j, rest)
  | .items js => ∀ rest, Json.items fuel (cs ++ rest) = some (js, rest)
  | .members ms => ∀ rest, Json.members fuel (cs ++ rest) = some (ms, rest)

/-- One unit of fuel for the first character, the rest for what follows it. -/
theorem fuel_cons {c : Char} {cs : List Char} {fuel : Nat} (h : 2 * (c :: cs).length ≤ fuel) :
    ∃ n, fuel = n + 1 ∧ 2 * cs.length ≤ n := by
  rw [List.length_cons] at h
  exact ⟨fuel - 1, by omega, by omega⟩

/-- One unit of fuel for a separator, the rest for both sides of it. -/
theorem fuel_append {cs ws : List Char} {c : Char} {rest : List Char} {fuel : Nat}
    (h : 2 * (cs ++ (ws ++ c :: rest)).length ≤ fuel) :
    ∃ n, fuel = n + 1 ∧ 2 * cs.length ≤ n ∧ 2 * rest.length ≤ n := by
  rw [List.length_append, List.length_append, List.length_cons] at h
  exact ⟨fuel - 1, by omega, by omega, by omega⟩

theorem Written.reads {p : Phrase} {cs : List Char} (h : Written p cs) {fuel : Nat}
    (hfuel : 2 * cs.length ≤ fuel) : p.Reads fuel cs := by
  induction h generalizing fuel with
  | blank hc _ ih =>
      intro rest hrest
      obtain ⟨n, rfl, hn⟩ := fuel_cons hfuel
      rw [List.cons_append, value_blank hc]
      exact ih (Nat.le_succ_of_le hn) rest hrest
  | null | true | false =>
      intro rest _
      obtain ⟨n, rfl, _⟩ := fuel_cons hfuel
      rw [value]
      rfl
  | string h =>
      intro rest _
      obtain ⟨n, rfl, _⟩ := fuel_cons hfuel
      rw [List.cons_append, value]
      show (stringTail _).map _ = _
      rw [h.stringTail]
      rfl
  | number h =>
      intro rest hrest
      obtain ⟨d, ds, hd, rfl⟩ := h.exists_digit
      obtain ⟨n, rfl, _⟩ := fuel_cons hfuel
      rw [List.cons_append, value_digit hd]
      exact h.unsigned? hrest
  | negative h =>
      intro rest hrest
      obtain ⟨n, rfl, _⟩ := fuel_cons hfuel
      rw [List.cons_append, value]
      show (unsigned? _).map _ = _
      rw [h.unsigned? hrest]
      rfl
  | emptyArray hws =>
      intro rest _
      obtain ⟨n, rfl, _⟩ := fuel_cons hfuel
      rw [List.cons_append, List.append_assoc, value_bracket, skipBlanks_append hws]
      rfl
  | array _ ih =>
      intro rest _
      obtain ⟨n, rfl, hn⟩ := fuel_cons hfuel
      exact value_array (ih hn rest)
  | emptyObject hws =>
      intro rest _
      obtain ⟨n, rfl, _⟩ := fuel_cons hfuel
      rw [List.cons_append, List.append_assoc, value_brace, skipBlanks_append hws]
      rfl
  | object _ ih =>
      intro rest _
      obtain ⟨n, rfl, hn⟩ := fuel_cons hfuel
      exact value_object (ih hn rest)
  | lastItem _ hws ih =>
      intro rest
      obtain ⟨n, rfl, hn, _⟩ := fuel_append hfuel
      have hvalue := ih hn _ (Free.blanks hws (free_cons rest (.inr (.inr (.inl rfl)))))
      rw [List.append_assoc, List.append_assoc, List.singleton_append, items_of_value hvalue,
        skipBlanks_append hws]
      rfl
  | @item _ _ _ _ more _ hws _ ih ihmore =>
      intro rest
      obtain ⟨n, rfl, hn, hmore⟩ := fuel_append hfuel
      have hvalue := ih hn _ (Free.blanks hws (free_cons (more ++ rest) (.inr (.inl rfl))))
      rw [List.append_assoc, List.append_assoc, List.cons_append, items_of_value hvalue,
        skipBlanks_append hws]
      show (items n _).bind _ = _
      rw [ihmore hmore rest]
      rfl
  | lastMember hk _ hws ih =>
      intro rest
      rw [List.length_append, Nat.mul_add] at hfuel
      obtain ⟨n, rfl, hn, _⟩ := fuel_append (Nat.le_of_add_left_le hfuel)
      have hvalue := ih hn _ (Free.blanks hws (free_cons rest (.inr (.inr (.inr rfl)))))
      rw [List.append_assoc, List.append_assoc, List.append_assoc, List.singleton_append,
        hk.members hvalue, skipBlanks_append hws]
      rfl
  | @member _ _ _ _ _ _ more hk _ hws _ ih ihmore =>
      intro rest
      rw [List.length_append, Nat.mul_add] at hfuel
      obtain ⟨n, rfl, hn, hmore⟩ := fuel_append (Nat.le_of_add_left_le hfuel)
      have hvalue := ih hn _ (Free.blanks hws (free_cons (more ++ rest) (.inr (.inl rfl))))
      rw [List.append_assoc, List.append_assoc, List.append_assoc, List.cons_append,
        hk.members hvalue, skipBlanks_append hws]
      show (members n _).bind _ = _
      rw [ihmore hmore rest]
      rfl

/-! ## What is read was written -/

/-- With some fuel, nothing is read but what was written. -/
structure Sound (fuel : Nat) : Prop where
  value : ∀ {cs j rest}, Json.value fuel cs = some (j, rest) →
    ∃ us, Written (.value j) us ∧ cs = us ++ rest
  items : ∀ {cs js rest}, Json.items fuel cs = some (js, rest) →
    ∃ us, Written (.items js) us ∧ cs = us ++ rest
  members : ∀ {cs ms rest}, Json.members fuel cs = some (ms, rest) →
    ∃ us, Written (.members ms) us ∧ cs = us ++ rest

section
variable {fuel : Nat} {cs rest : List Char}

theorem number?_sound {j : Json} (h : number? cs = some (j, rest)) :
    ∃ us, Written (.value j) us ∧ cs = us ++ rest := by
  rw [number?.eq_def] at h
  split at h
  · obtain ⟨⟨j, rest⟩, hj, h⟩ := Option.map_eq_some_iff.mp h
    cases h
    obtain ⟨us, hus, rfl⟩ := unsigned?_sound hj
    exact ⟨_, .negative hus, rfl⟩
  · obtain ⟨us, hus, rfl⟩ := unsigned?_sound h
    exact ⟨_, .number hus, rfl⟩

/-- A value, less the blanks before it. -/
theorem Sound.value_succ (h : Sound fuel) {j : Json}
    (hj : Json.value (fuel + 1) cs = some (j, rest)) :
    ∃ us, Written (.value j) us ∧ skipBlanks cs = us ++ rest := by
  rw [Json.value] at hj
  split at hj
  · next hcs =>
    cases hj
    exact ⟨_, .null, hcs⟩
  · next hcs =>
    cases hj
    exact ⟨_, .true, hcs⟩
  · next hcs =>
    cases hj
    exact ⟨_, .false, hcs⟩
  · next hcs =>
    obtain ⟨⟨text, rest⟩, htext, hj⟩ := Option.map_eq_some_iff.mp hj
    cases hj
    obtain ⟨us, hus, rfl⟩ := stringTail_sound htext
    exact ⟨_, .string hus, hcs⟩
  · next hcs =>
    split at hj
    · next hclose =>
      cases hj
      obtain ⟨ws, hws, rfl⟩ := exists_blanks hclose
      refine ⟨_, .emptyArray hws, ?_⟩
      rw [hcs, List.cons_append, List.append_assoc, List.singleton_append]
    · obtain ⟨⟨js, rest⟩, hjs, hj⟩ := Option.map_eq_some_iff.mp hj
      cases hj
      rw [items_skipBlanks] at hjs
      obtain ⟨us, hus, rfl⟩ := h.items hjs
      exact ⟨_, .array hus, hcs⟩
  · next hcs =>
    split at hj
    · next hclose =>
      cases hj
      obtain ⟨ws, hws, rfl⟩ := exists_blanks hclose
      refine ⟨_, .emptyObject hws, ?_⟩
      rw [hcs, List.cons_append, List.append_assoc, List.singleton_append]
    · obtain ⟨⟨ms, rest⟩, hms, hj⟩ := Option.map_eq_some_iff.mp hj
      cases hj
      rw [members_skipBlanks] at hms
      obtain ⟨us, hus, rfl⟩ := h.members hms
      exact ⟨_, .object hus, hcs⟩
  · exact number?_sound hj

theorem Sound.items_succ (h : Sound fuel) {js : List Json}
    (hjs : Json.items (fuel + 1) cs = some (js, rest)) :
    ∃ us, Written (.items js) us ∧ cs = us ++ rest := by
  obtain ⟨⟨j, after⟩, hj, _⟩ := Option.bind_eq_some_iff.mp hjs
  rw [items_of_value hj] at hjs
  obtain ⟨us, hus, rfl⟩ := h.value hj
  split at hjs
  · next hclose =>
    cases hjs
    obtain ⟨ws, hws, rfl⟩ := exists_blanks hclose
    refine ⟨_, .lastItem hus hws, ?_⟩
    rw [List.append_assoc, List.append_assoc, List.singleton_append]
  · next hcomma =>
    obtain ⟨⟨js, rest⟩, hmore, hjs⟩ := Option.bind_eq_some_iff.mp hjs
    cases hjs
    obtain ⟨ws, hws, rfl⟩ := exists_blanks hcomma
    obtain ⟨vs, hvs, rfl⟩ := h.items hmore
    refine ⟨_, .item hus hws hvs, ?_⟩
    rw [List.append_assoc, List.append_assoc, List.cons_append]
  · cases hjs

/-- Where members are read, a name comes first and a value after it. -/
theorem exists_key {ms : List (Option String × Json)}
    (h : members (fuel + 1) cs = some (ms, rest)) :
    ∃ name ks cs' j after, Key name ks ∧ cs = ks ++ cs' ∧ value fuel cs' = some (j, after) := by
  rw [members] at h
  split at h
  · next hquote =>
    obtain ⟨⟨name, after⟩, hname, hmore⟩ := Option.bind_eq_some_iff.mp h
    obtain ⟨us, hus, rfl⟩ := stringTail_sound hname
    obtain ⟨ws, hws, rfl⟩ := exists_blanks hquote
    simp only at hmore
    split at hmore
    · next cs' hcolon =>
      obtain ⟨ws', hws', rfl⟩ := exists_blanks hcolon
      obtain ⟨⟨j, after⟩, hj, _⟩ := Option.bind_eq_some_iff.mp hmore
      refine ⟨name, _, cs', j, after, .mk hws hus hws', ?_, hj⟩
      rw [List.append_assoc, List.cons_append, List.append_assoc, List.append_assoc,
        List.singleton_append]
    · cases hmore
  · cases h

theorem Sound.members_succ (h : Sound fuel) {ms : List (Option String × Json)}
    (hms : Json.members (fuel + 1) cs = some (ms, rest)) :
    ∃ us, Written (.members ms) us ∧ cs = us ++ rest := by
  obtain ⟨name, ks, cs, j, after, hk, rfl, hj⟩ := exists_key hms
  rw [hk.members hj] at hms
  obtain ⟨us, hus, rfl⟩ := h.value hj
  split at hms
  · next hclose =>
    cases hms
    obtain ⟨ws, hws, rfl⟩ := exists_blanks hclose
    refine ⟨_, .lastMember hk hus hws, ?_⟩
    rw [List.append_assoc, List.append_assoc, List.append_assoc, List.singleton_append]
  · next hcomma =>
    obtain ⟨⟨ms, rest⟩, hmore, hms⟩ := Option.bind_eq_some_iff.mp hms
    cases hms
    obtain ⟨ws, hws, rfl⟩ := exists_blanks hcomma
    obtain ⟨vs, hvs, rfl⟩ := h.members hmore
    refine ⟨_, .member hk hus hws hvs, ?_⟩
    rw [List.append_assoc, List.append_assoc, List.append_assoc, List.cons_append]
  · cases hms

end

theorem sound (fuel : Nat) : Sound fuel := by
  induction fuel with
  | zero => exact ⟨nofun, nofun, nofun⟩
  | succ fuel ih =>
      refine ⟨fun {cs j rest} hj => ?_, ih.items_succ, ih.members_succ⟩
      obtain ⟨us, hus, hcs⟩ := ih.value_succ hj
      obtain ⟨ws, hws, rfl⟩ := exists_blanks hcs
      exact ⟨ws ++ us, hus.blanks hws, (List.append_assoc ..).symm⟩

/-- A text is read as a value exactly if it writes that value. -/
theorem read?_eq_some_iff {text : String} {j : Json} :
    read? text = some j ↔ Document text j := by
  constructor
  · intro h
    obtain ⟨⟨j', rest⟩, hj, h⟩ := Option.bind_eq_some_iff.mp h
    obtain ⟨hrest, h⟩ := (Option.ite_none_right_eq_some ..).mp h
    cases h
    obtain ⟨us, hus, htext⟩ := (sound _).value hj
    obtain ⟨ws, hws, rfl⟩ := exists_blanks (List.isEmpty_iff.mp hrest)
    rw [List.append_nil] at htext
    exact ⟨us, ws, hus, hws, htext⟩
  · rintro ⟨cs, ws, hcs, hws, htext⟩
    have hfree : Free ws := by
      have h := Free.blanks hws free_nil
      rwa [List.append_nil] at h
    have hblank : skipBlanks ws = [] := by
      have h := skipBlanks_append hws []
      rwa [List.append_nil] at h
    have hfuel : 2 * cs.length ≤ 2 * text.toList.length + 2 := by
      rw [htext, List.length_append]
      omega
    have hvalue := hcs.reads hfuel ws hfree
    rw [htext] at hvalue
    rw [read?, htext]
    show (value _ _).bind _ = _
    rw [hvalue]
    show (if (skipBlanks ws).isEmpty then some j else none) = some j
    rw [hblank]
    rfl

end Reckon.Json
