/-
# Reports as JSON

A report is written as one JSON object with four members.  Its kind and its message can hold any
text, since a message may quote what a user wrote; between quotes such a text is escaped where it
must be, and it is read back whatever it holds (`quoted_escaped`).

JSON has no room for control characters inside a string (`Inside.printable`), and around its
values a report writes no blanks; so a report stands on one line.  It is a document of the grammar
(`Report.document_json`), so it is read in exactly one way, and the report can be found again in
what is read (`report_read_back`).
-/
import Reckon.Failure
import Reckon.Proofs.Json.Reading
import Reckon.Proofs.Json.Writing

namespace Reckon

namespace Json

/-! ## Control characters -/

/-- No character is a control character below the blank. -/
def Printable (cs : List Char) : Prop := ∀ c ∈ cs, 32 ≤ c.toNat

section
variable {cs ds : List Char}

theorem printable_nil : Printable [] := fun _ h => nomatch h

theorem printable_cons {c : Char} : Printable (c :: cs) ↔ 32 ≤ c.toNat ∧ Printable cs :=
  List.forall_mem_cons

theorem Printable.append (h : Printable cs) (h' : Printable ds) : Printable (cs ++ ds) :=
  List.forall_mem_append.mpr ⟨h, h'⟩

theorem le_of_hexValue? {c : Char} {n : Nat} (h : hexValue? c = some n) : 32 ≤ c.toNat := by
  have hle : ∀ d : Char, d ≤ c → 32 ≤ d.toNat → 32 ≤ c.toNat := by
    intro d hd hlow
    exact Nat.le_trans hlow hd
  unfold hexValue? at h
  split at h
  · next hc => exact hle '0' (by simpa using (Bool.and_eq_true_iff.mp hc).1) (by decide)
  · split at h
    · next hc => exact hle 'a' (by simpa using (Bool.and_eq_true_iff.mp hc).1) (by decide)
    · split at h
      · next hc => exact hle 'A' (by simpa using (Bool.and_eq_true_iff.mp hc).1) (by decide)
      · cases h

theorem le_of_shortEscape? {e c : Char} (h : shortEscape? e = some c) : 32 ≤ e.toNat := by
  unfold shortEscape? at h
  split at h
  iterate 8
    · decide
  · cases h

theorem Spelled.printable {p : Piece} (h : Spelled p cs) : Printable cs := by
  cases h with
  | plain _ _ hcontrol => exact printable_cons.mpr ⟨hcontrol, printable_nil⟩
  | short h =>
      exact printable_cons.mpr ⟨by decide, printable_cons.mpr ⟨le_of_shortEscape? h, printable_nil⟩⟩
  | @hex p a b c d h =>
      have hdigits : 32 ≤ a.toNat ∧ 32 ≤ b.toNat ∧ 32 ≤ c.toNat ∧ 32 ≤ d.toNat := by
        obtain ⟨_, ha, h⟩ := Option.bind_eq_some_iff.mp h
        obtain ⟨_, hb, h⟩ := Option.bind_eq_some_iff.mp h
        obtain ⟨_, hc, h⟩ := Option.bind_eq_some_iff.mp h
        obtain ⟨_, hd, _⟩ := Option.bind_eq_some_iff.mp h
        exact ⟨le_of_hexValue? ha, le_of_hexValue? hb, le_of_hexValue? hc, le_of_hexValue? hd⟩
      simp only [printable_cons]
      exact ⟨by decide, by decide, hdigits.1, hdigits.2.1, hdigits.2.2.1, hdigits.2.2.2,
        printable_nil⟩

/-- A string is written without control characters, whatever it says. -/
theorem Inside.printable {ps : List Piece} (h : Inside ps cs) : Printable cs := by
  induction h with
  | close => exact printable_cons.mpr ⟨by decide, printable_nil⟩
  | next hp _ ih => exact hp.printable.append ih

theorem printable_quoted (text : String) : Printable (Text.quoted text).toList := by
  rw [Text.quoted, String.toList_ofList]
  exact printable_cons.mpr ⟨by decide, (inside_escaped text.toList).printable⟩

theorem printable_toString (n : Nat) : Printable (toString n).toList := by
  intro c hc
  have hdigit := Text.isDigit_of_mem_toString hc
  rw [Text.isDigit, Bool.and_eq_true_iff, decide_eq_true_eq] at hdigit
  have hlow : ('0' : Char).toNat ≤ c.toNat := hdigit.1
  exact Nat.le_trans (by decide) hlow

theorem Plain.printable_key {name : String} (h : Plain name) : Printable (keyText name) := by
  have hname : Printable name.toList := by
    intro c hc
    have hplain := List.all_eq_true.mp h c hc
    rw [isPlain, Bool.and_eq_true_iff, decide_eq_true_eq] at hplain
    exact hplain.2
  refine printable_cons.mpr ⟨by decide, hname.append ?_⟩
  exact printable_cons.mpr ⟨by decide, printable_cons.mpr ⟨by decide, printable_nil⟩⟩

/-- An object adds no control character to the texts of its values. -/
theorem printable_objectText {ms : List (String × List Char)} (hname : ∀ m ∈ ms, Plain m.1)
    (htext : ∀ m ∈ ms, Printable m.2) : Printable (objectText ms) := by
  refine printable_cons.mpr ⟨by decide, ?_⟩
  fun_induction membersText ms with
  | case1 => exact printable_cons.mpr ⟨by decide, printable_nil⟩
  | case2 name text =>
      have hm : (name, text) ∈ [(name, text)] := List.mem_cons_self
      refine (hname _ hm).printable_key.append ((htext _ hm).append ?_)
      exact printable_cons.mpr ⟨by decide, printable_nil⟩
  | case3 name text rest _ ih =>
      have hm : (name, text) ∈ (name, text) :: rest := List.mem_cons_self
      refine (hname _ hm).printable_key.append ((htext _ hm).append ?_)
      refine printable_cons.mpr ⟨by decide, ih ?_ ?_⟩
      · exact fun m h => hname m (List.mem_cons_of_mem _ h)
      · exact fun m h => htext m (List.mem_cons_of_mem _ h)

end

/-- The value of the first member with a given name. -/
def member? (name : String) : Json → Option Json
  | .object members => (members.find? fun m => m.1 = some name).map Prod.snd
  | _ => none

/-- The text that a string says. -/
def text? : Json → Option String
  | .string text => text
  | _ => none

end Json

open Json (Document Written Plain Printable)

/-! ## Reports -/

/-- The phase with a given name. -/
def Phase.ofName? (name : String) : Option Phase :=
  [scanner, compiler, vm, config].find? fun p => p.name = name

theorem Phase.ofName?_name (p : Phase) : ofName? p.name = some p := by
  cases p <;> decide

namespace Report

/-- The line of a report as a value; a report without a line has none. -/
def lineValue : Option Nat → Json
  | some line => .natural line
  | none => .null

/-- Reads the line of a report. -/
def line? : Json → Option (Option Nat)
  | .natural line => some (some line)
  | .null => some none
  | _ => none

/-- The value that a report writes. -/
def value (r : Report) : Json :=
  .object
    [(some "phase", .string (some r.phase.name)),
     (some "line", lineValue r.line),
     (some "error_kind", .string (some r.kind)),
     (some "message", .string (some r.message))]

/-- Finds a report in a value, by the names of its members. -/
def ofJson? (j : Json) : Option Report := do
  return {
    phase := ← ((j.member? "phase").bind Json.text?).bind Phase.ofName?
    line := ← (j.member? "line").bind line?
    kind := ← (j.member? "error_kind").bind Json.text?
    message := ← (j.member? "message").bind Json.text? }

/-- Reads a report from a text. -/
def read? (s : String) : Option Report := (Json.read? s).bind ofJson?

theorem line?_lineValue (line : Option Nat) : line? (lineValue line) = some line := by
  cases line <;> rfl

/-- A report can be told from its value. -/
theorem ofJson?_value (r : Report) : ofJson? r.value = some r := by
  simp [ofJson?, value, Json.member?, Json.text?, Phase.ofName?_name, line?_lineValue]

/-- The text of the line of a report. -/
def lineText : Option Nat → String
  | some line => toString line
  | none => "null"

/-- The members of a report, each with its name, its value and the text of that value. -/
def members (r : Report) : List (String × Json × List Char) :=
  [("phase", .string (some r.phase.name), (Text.quoted r.phase.name).toList),
   ("line", lineValue r.line, (lineText r.line).toList),
   ("error_kind", .string (some r.kind), (Text.quoted r.kind).toList),
   ("message", .string (some r.message), (Text.quoted r.message).toList)]

section
variable (r : Report)

theorem json_eq :
    r.json = "\x7b\"phase\":" ++ Text.quoted r.phase.name ++ ",\"line\":" ++ lineText r.line
      ++ ",\"error_kind\":" ++ Text.quoted r.kind
      ++ ",\"message\":" ++ Text.quoted r.message ++ "\x7d" := rfl

theorem toList_json :
    r.json.toList = Json.objectText (r.members.map fun m => (m.1, m.2.2)) := by
  rw [json_eq]
  simp [members, Json.objectText, Json.membersText, Json.keyText]

theorem plain_members : ∀ m ∈ r.members, Plain m.1 := by
  have hnames : ["phase", "line", "error_kind", "message"].all
      (fun name => name.toList.all Json.isPlain) = true := rfl
  intro m hm
  exact List.all_eq_true.mp hnames m.1 (List.mem_map_of_mem (f := Prod.fst) hm)

theorem written_members : ∀ m ∈ r.members, Written (.value m.2.1) m.2.2 := by
  have hline : Written (.value (lineValue r.line)) (lineText r.line).toList := by
    cases r.line with
    | none => exact .null
    | some line => exact Json.written_natural line
  simp only [members, List.forall_mem_cons]
  exact ⟨Json.written_quoted _, hline, Json.written_quoted _, Json.written_quoted _,
    fun _ h => nomatch h⟩

theorem printable_members : ∀ m ∈ r.members, Printable m.2.2 := by
  have hline : Printable (lineText r.line).toList := by
    cases r.line with
    | none =>
        have hnull : ("null" : String).toList.all (fun c => 32 ≤ c.toNat) = true := rfl
        exact fun c hc => of_decide_eq_true (List.all_eq_true.mp hnull c hc)
    | some line => exact Json.printable_toString line
  simp only [members, List.forall_mem_cons]
  exact ⟨Json.printable_quoted _, hline, Json.printable_quoted _, Json.printable_quoted _,
    fun _ h => nomatch h⟩

/-- A report is written as its value, with nothing around it. -/
theorem document_json : Document r.json r.value := by
  refine ⟨r.json.toList, [], ?_, Json.blank_nil, (List.append_nil _).symm⟩
  rw [toList_json]
  exact Json.written_objectText (List.cons_ne_nil _ _) r.plain_members r.written_members

theorem printable_json : Printable r.json.toList := by
  rw [toList_json]
  refine Json.printable_objectText ?_ ?_
  · intro m hm
    obtain ⟨m', hm', rfl⟩ := List.mem_map.mp hm
    exact r.plain_members m' hm'
  · intro m hm
    obtain ⟨m', hm', rfl⟩ := List.mem_map.mp hm
    exact r.printable_members m' hm'

theorem read?_json : read? r.json = some r := by
  rw [read?, Json.read?_eq_some_iff.mpr r.document_json]
  exact r.ofJson?_value

end

end Report

/-- The report of a failure, whatever texts the failure holds, is written without control
characters, so on one line.  It is a JSON text, and the value that it writes is an object of the
phase, the line or null, the kind and the message.  Read back it gives the report again, and so
failures with different reports are written differently. -/
theorem report_read_back (f : Failure) :
    (∀ c ∈ f.report.json.toList, 32 ≤ c.toNat) ∧
    (∀ j, Document f.report.json j ↔
      j = .object
        [(some "phase", .string (some f.report.phase.name)),
         (some "line", match f.report.line with
          | some line => .natural line
          | none => .null),
         (some "error_kind", .string (some f.report.kind)),
         (some "message", .string (some f.report.message))]) ∧
    Report.read? f.report.json = some f.report ∧
    ∀ g : Failure, f.report ≠ g.report → f.report.json ≠ g.report.json := by
  refine ⟨f.report.printable_json, fun j => ?_, f.report.read?_json, fun g hne heq => hne ?_⟩
  · -- A text is read in one way at most, so what it writes is known.
    have hvalue : Json.read? f.report.json = some f.report.value :=
      Json.read?_eq_some_iff.mpr f.report.document_json
    rw [← Json.read?_eq_some_iff, hvalue, Option.some_inj, eq_comm]
    rfl
  · have hread := f.report.read?_json
    rw [heq, g.report.read?_json] at hread
    exact (Option.some.inj hread).symm

end Reckon
