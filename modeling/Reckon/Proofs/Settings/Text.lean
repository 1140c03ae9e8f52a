/-
# Settings as texts

* A text that writes a document of settings is read as what the document says, if it says
  each thing properly, and the stack is checked after that.
* Settings that are written out with all their fields are read back (`document_text`).
-/
import Reckon.Proofs.Json.Reading
import Reckon.Proofs.Json.Writing
import Reckon.Proofs.Settings.Document

namespace Reckon.Settings

open Json (Document Written Plain objectText)

/-! ## Writing settings -/

/-- The text of a plain value. -/
def plainText : Json → List Char
  | .bool true => ['t', 'r', 'u', 'e']
  | .bool false => ['f', 'a', 'l', 's', 'e']
  | .natural n => (toString n).toList
  | .string (some text) => '"' :: (text.toList ++ ['"'])
  | _ => []

def groups : List String := ["scanner", "compiler", "vm", "logging"]

/-- The document that gives every field of some settings. -/
def document (s : Settings) : Members :=
  groups.map fun group =>
    (some group, .object ((Field.ofGroup group).map fun f => (some f.key, f.value s)))

/-- The document of some settings as a text. -/
def text (s : Settings) : String :=
  String.ofList (objectText (groups.map fun group =>
    (group, objectText ((Field.ofGroup group).map fun f => (f.key, plainText (f.value s))))))

section
variable {s : Settings}

theorem plain_name (l : Level) : Plain l.name := by
  cases l <;> rfl

theorem Field.plain_key (f : Field) : Plain f.key := by
  cases f <;> rfl

theorem written_value (f : Field) (s : Settings) :
    Written (.value (f.value s)) (plainText (f.value s)) := by
  have hswitch : ∀ b : Bool, Written (.value (.bool b)) (plainText (.bool b)) := by
    intro b
    cases b with
    | true => exact .true
    | false => exact .false
  cases f with
  | listTokens | listCode | traceRun => exact hswitch _
  | maxNesting | stackMax => exact Json.written_natural _
  | level => exact .string (plain_name _).quoted

theorem plain_group : ∀ group ∈ groups, Plain group := by
  intro group hgroup
  have hall : groups.all (fun group => group.toList.all Json.isPlain) = true := rfl
  exact List.all_eq_true.mp hall group hgroup

theorem ofGroup_ne_nil : ∀ group ∈ groups, Field.ofGroup group ≠ [] := by
  decide

/-- Settings are written as their document. -/
theorem document_text (s : Settings) : Document s.text (.object s.document) := by
  have hwritten : Written (.value (.object s.document)) s.text.toList := by
    rw [text, String.toList_ofList]
    refine Json.written_objectText (List.cons_ne_nil _ _) plain_group fun group hgroup => ?_
    exact Json.written_objectText (ofGroup_ne_nil group hgroup) (fun f _ => f.plain_key)
      fun f _ => written_value f s
  exact ⟨_, [], hwritten, Json.blank_nil, (List.append_nil _).symm⟩

theorem Field.group_mem (f : Field) : f.group ∈ groups := by
  cases f <;> decide

theorem Field.eq_of_names {f f' : Field} (hgroup : f.group = f'.group) (hkey : f.key = f'.key) :
    f = f' := by
  revert hgroup hkey
  cases f <;> cases f' <;> decide

theorem object_mem_document {f : Field} {j : Json} :
    (some f.group, j) ∈ s.document ↔
      j = .object ((Field.ofGroup f.group).map fun f => (some f.key, f.value s)) := by
  rw [document, List.mem_map]
  constructor
  · rintro ⟨group, _, heq⟩
    cases heq
    rfl
  · rintro rfl
    exact ⟨f.group, f.group_mem, rfl⟩

/-- The document of settings gives each field its value and nothing else. -/
theorem given_document {f : Field} {j : Json} : f.Given s.document j ↔ j = f.value s := by
  constructor
  · rintro ⟨fs, hfs, hj⟩
    cases object_mem_document.mp hfs
    obtain ⟨f', hf', heq⟩ := List.mem_map.mp hj
    have hgroup : f'.group = f.group := of_decide_eq_true (List.mem_filter.mp hf').2
    have hkey : f'.key = f.key := Option.some.inj (Prod.mk.inj heq).1
    rw [← Field.eq_of_names hgroup hkey]
    exact (Prod.mk.inj heq).2.symm
  · rintro rfl
    refine ⟨_, object_mem_document.mpr rfl, List.mem_map.mpr ⟨f, ?_, rfl⟩⟩
    exact List.mem_filter.mpr ⟨f.mem_all, decide_eq_true rfl⟩

theorem grouped_document (s : Settings) : Grouped s.document := by
  refine ⟨fun m hm => ?_, fun f j hj => ⟨_, object_mem_document.mp hj, fun m hm => ?_⟩⟩
  · obtain ⟨group, _, rfl⟩ := List.mem_map.mp hm
    exact Option.some_ne_none group
  · obtain ⟨f', _, rfl⟩ := List.mem_map.mp hm
    exact Option.some_ne_none f'.key

theorem means_value (hnesting : s.maxNesting < 2 ^ 64) (hstack : s.stackMax < 2 ^ 64) (f : Field) :
    Means f.type (f.value s) (f.value s) := by
  cases f with
  | listTokens | listCode | traceRun => exact .switch _
  | maxNesting => exact .word hnesting
  | stackMax => exact .word hstack
  | level => exact .name _

theorem proper_document (hnesting : s.maxNesting < 2 ^ 64) (hstack : s.stackMax < 2 ^ 64) :
    Proper s.document := by
  refine ⟨fun f => ?_, fun f fs hfs => ?_, fun f j hj => ?_⟩
  · cases f <;> exact Nat.le_refl 1
  · cases object_mem_document.mp hfs
    cases f <;> exact Nat.le_refl 1
  · rw [given_document.mp hj]
    exact ⟨_, means_value hnesting hstack f⟩

end

/-! ## Reading texts -/

theorem validate_eq_ok_iff {s s' : Settings} :
    s.validate = .ok s' ↔ s = s' ∧ 1 ≤ s.stackMax ∧ s.stackMax ≤ 1048576 := by
  rw [validate]
  split
  · next hzero =>
    refine ⟨nofun, fun h => ?_⟩
    omega
  · next hzero =>
    split
    · next hlarge =>
      refine ⟨nofun, fun h => ?_⟩
      exact absurd h.2.2 (Nat.not_le.mpr hlarge)
    · next hlarge =>
      constructor
      · intro h
        cases h
        exact ⟨rfl, Nat.pos_of_ne_zero hzero, Nat.not_lt.mp hlarge⟩
      · rintro ⟨rfl, _⟩
        rfl

section
variable {reason : String → String} {text : String} {ms : Members}

theorem read_of_some (h : Document text (.object ms)) {s : Settings}
    (hs : ofJson? (.object ms) = some s) : read reason text = s.validate := by
  simp only [read, Json.read?_eq_some_iff.mpr h, Option.bind_some, hs]

theorem read_of_none (h : Document text (.object ms)) (hnone : ofJson? (.object ms) = none) :
    read reason text = .error (.malformed (reason text)) := by
  simp only [read, Json.read?_eq_some_iff.mpr h, Option.bind_some, hnone]

/-- Where all is properly said, only the stack can be refused. -/
theorem read_of_settles (h : Document text (.object ms)) (hms : Grouped ms) {s : Settings}
    (hproper : Proper ms) (hs : Settles ms s) : read reason text = s.validate :=
  read_of_some h ((ofJson?_eq_some_iff hms).mpr ⟨hproper, hs⟩)

theorem read_of_not_proper (h : Document text (.object ms)) (hms : Grouped ms)
    (hproper : ¬Proper ms) : read reason text = .error (.malformed (reason text)) := by
  cases hs : ofJson? (.object ms) with
  | none => exact read_of_none h hs
  | some s => exact absurd ((ofJson?_eq_some_iff hms).mp hs).1 hproper

theorem read_eq_ok_iff (h : Document text (.object ms)) (hms : Grouped ms) {s : Settings} :
    read reason text = .ok s ↔
      Proper ms ∧ Settles ms s ∧ 1 ≤ s.stackMax ∧ s.stackMax ≤ 1048576 := by
  constructor
  · intro hread
    cases hs : ofJson? (.object ms) with
    | none =>
        rw [read_of_none h hs] at hread
        cases hread
    | some s' =>
        rw [read_of_some h hs] at hread
        obtain ⟨rfl, hrange⟩ := validate_eq_ok_iff.mp hread
        obtain ⟨hproper, hsettles⟩ := (ofJson?_eq_some_iff hms).mp hs
        exact ⟨hproper, hsettles, hrange⟩
  · rintro ⟨hproper, hsettles, hrange⟩
    rw [read_of_settles h hms hproper hsettles]
    exact validate_eq_ok_iff.mpr ⟨rfl, hrange⟩

/-- A text that gives all fields of some settings is read as these. -/
theorem read_of_gives (h : Document text (.object ms)) (hms : Grouped ms) (hproper : Proper ms)
    {s : Settings} (hgives : ∀ f : Field, ∃ j, f.Given ms j ∧ Means f.type j (f.value s))
    (hpos : 1 ≤ s.stackMax) (hle : s.stackMax ≤ 1048576) : read reason text = .ok s :=
  (read_eq_ok_iff h hms).mpr ⟨hproper, hproper.settles hgives, hpos, hle⟩

end

/-- A text that writes a document of settings is read successfully exactly if every known name is
given at most once with a value of its type and the stack is neither empty nor larger than
1048576; each field is then what the document gives for it, or its default.  Else the text is
malformed if something known is repeated or of another type, whatever the stack, and the reason is
the one that is told for this text; only then the stack is to blame.  Of two texts whose documents
hold the same known members, either both are read alike or both are malformed, each for a reason
of its own.  Settings that are written with all their fields are read back. -/
theorem read_follows_document (reason : String → String) :
    (∀ (text : String) (ms : Members), Document text (.object ms) → Grouped ms →
      (∀ s, read reason text = .ok s ↔
        Proper ms ∧ Settles ms s ∧ 1 ≤ s.stackMax ∧ s.stackMax ≤ 1048576) ∧
      (Proper ms → ∃ s, Settles ms s ∧
        (s.stackMax = 0 → read reason text = .error .zeroStack) ∧
        (1048576 < s.stackMax → read reason text = .error (.stackTooLarge 1048576))) ∧
      (¬Proper ms → read reason text = .error (.malformed (reason text)))) ∧
    (∀ (text text' : String) (ms ms' : Members), Document text (.object ms) →
      Document text' (.object ms') → Grouped ms → Grouped ms' → SameKnown ms ms' →
      (Proper ms → read reason text = read reason text') ∧
      (¬Proper ms → read reason text = .error (.malformed (reason text)) ∧
        read reason text' = .error (.malformed (reason text')))) ∧
    (∀ s : Settings, s.maxNesting < 2 ^ 64 → 1 ≤ s.stackMax → s.stackMax ≤ 1048576 →
      read reason s.text = .ok s ∧
      ∀ (text : String) (ms : Members), Document text (.object ms) → Grouped ms → Proper ms →
        (∀ f : Field, ∃ j, f.Given ms j ∧ Means f.type j (f.value s)) →
        read reason text = .ok s) := by
  refine ⟨fun text ms htext hms => ⟨fun s => ?_, fun hproper => ?_, fun hproper => ?_⟩,
    fun text text' ms ms' htext htext' hms hms' hsame => ⟨fun hproper => ?_, fun hproper => ?_⟩,
    fun s hnesting hpos hle => ⟨?_, ?_⟩⟩
  · exact read_eq_ok_iff htext hms
  · obtain ⟨s, hs⟩ := hproper.exists_settles
    rw [read_of_settles htext hms hproper hs]
    refine ⟨s, hs, fun hzero => if_pos hzero, fun hlarge => ?_⟩
    rw [validate, if_neg (by omega)]
    exact if_pos hlarge
  · exact read_of_not_proper htext hms hproper
  · obtain ⟨s, hs⟩ := hproper.exists_settles
    rw [read_of_settles htext hms hproper hs,
      read_of_settles htext' hms' (hsame.proper hproper) (hsame.settles_iff.mp hs)]
  · have hproper' : ¬Proper ms' := fun h => hproper (hsame.proper_iff.mpr h)
    exact ⟨read_of_not_proper htext hms hproper, read_of_not_proper htext' hms' hproper'⟩
  · have hstack : s.stackMax < 2 ^ 64 := Nat.lt_of_le_of_lt hle (by decide)
    refine read_of_gives (document_text s) (grouped_document s)
      (proper_document hnesting hstack) (fun f => ?_) hpos hle
    exact ⟨_, given_document.mpr rfl, means_value hnesting hstack f⟩
  · intro text ms htext hms hproper hgives
    exact read_of_gives htext hms hproper hgives hpos hle

theorem read_repeated_empty_stack :
    let reason := fun _ => "duplicate field `stack_max` at line 1 column 32"
    let text := "\x7b\"vm\":\x7b\"stack_max\":0,\"stack_max\":0\x7d\x7d"
    let fs : Members := [(some "stack_max", .natural 0), (some "stack_max", .natural 0)]
    let ms : Members := [(some "vm", .object fs)]
    Document text (.object ms) ∧ Grouped ms ∧ ¬Proper ms ∧
      read reason text =
        .error (.malformed "duplicate field `stack_max` at line 1 column 32") := by
  intro reason text fs ms
  have hkey := Field.stackMax.plain_key.key
  have hzero : Written (.value (.natural 0)) ['0'] := .number (.whole .zero)
  have hsection : Written (.value (.object fs))
      (objectText [("stack_max", ['0']), ("stack_max", ['0'])]) :=
    .object (.member hkey hzero Json.blank_nil (.lastMember hkey hzero Json.blank_nil))
  have hwritten : Written (.value (.object ms))
      (objectText [("vm", objectText [("stack_max", ['0']), ("stack_max", ['0'])])]) :=
    .object (.lastMember (plain_group "vm" (by decide)).key hsection Json.blank_nil)
  have htext : Document text (.object ms) := ⟨_, [], hwritten, Json.blank_nil, by decide +kernel⟩
  have hgrouped : Grouped ms := by
    refine ⟨by simp [ms], fun f j hj => ⟨fs, ?_, by simp [fs]⟩⟩
    exact (Prod.mk.inj (List.mem_singleton.mp hj)).2
  have hproper : ¬Proper ms := by
    intro h
    have honce := h.keys .stackMax fs List.mem_cons_self
    exact absurd honce (by decide)
  exact ⟨htext, hgrouped, hproper,
    ((read_follows_document reason).1 text ms htext hgrouped).2.2 hproper⟩

end Reckon.Settings
