/-
# The fields of settings

There are six fields, each with its section, its name there and the type of its value
(`Field`).  A document gives a value for a field if its section holds a member of that name
(`Field.Given`); all other members say nothing, and neither does the order of members.  So a
document settles each field on its own (`Settles`).

The reader works section by section, with settings that it passes on.  What reading one
section does to all fields is said in the same words for every section (`Reads`), from what it
takes to pick the value of one name among members (`Picks`).
-/
import Mathlib.Algebra.Group.Nat.Defs
import Reckon.Settings.Reader

namespace Reckon.Settings

/-- The members of an object. -/
abbrev Members := List (Option String × Json)

/-- How often a name is given. -/
def occurrences (name : String) (ms : Members) : Nat := ms.countP (·.1 = some name)

/-! ## Fields -/

/-- The types of values. -/
inductive ValueType where
  | switch
  | word
  | level

/-- `Means t j v`: as a value of the type `t`, `j` means what `v` does, which is the plain form. -/
inductive Means : ValueType → Json → Json → Prop
  | switch (b : Bool) : Means .switch (.bool b) (.bool b)
  | word {n : Nat} (h : n < 2 ^ 64) : Means .word (.natural n) (.natural n)
  | name (l : Level) : Means .level (.string (some l.name)) (.string (some l.name))
  | tag (l : Level) : Means .level (.object [(some l.name, .null)]) (.string (some l.name))

/-- The fields of settings. -/
inductive Field where
  | listTokens
  | listCode
  | maxNesting
  | traceRun
  | stackMax
  | level
deriving DecidableEq, Repr

namespace Field

def all : List Field := [listTokens, listCode, maxNesting, traceRun, stackMax, level]

/-- The section of a field. -/
def group : Field → String
  | listTokens => "scanner"
  | listCode | maxNesting => "compiler"
  | traceRun | stackMax => "vm"
  | level => "logging"

/-- The name of a field in its section. -/
def key : Field → String
  | listTokens => "dump_tokens"
  | listCode => "dump_chunk"
  | maxNesting => "max_nesting"
  | traceRun => "trace_execution"
  | stackMax => "stack_max"
  | level => "level"

def type : Field → ValueType
  | listTokens | listCode | traceRun => .switch
  | maxNesting | stackMax => .word
  | level => .level

/-- What a field is where it is not given. -/
def standard : Field → Json
  | listTokens => .bool false
  | listCode => .bool true
  | maxNesting => .natural 256
  | traceRun => .bool false
  | stackMax => .natural 256
  | level => .string (some "warn")

/-- What a field is in given settings. -/
def value : Field → Settings → Json
  | listTokens, s => .bool s.listTokens
  | listCode, s => .bool s.listCode
  | maxNesting, s => .natural s.maxNesting
  | traceRun, s => .bool s.traceRun
  | stackMax, s => .natural s.stackMax
  | level, s => .string (some s.level.name)

/-- The fields of a section. -/
def ofGroup (group : String) : List Field := all.filter (·.group = group)

/-- `f.Given ms j`: the document `ms` gives the value `j` for the field. -/
def Given (f : Field) (ms : Members) (j : Json) : Prop :=
  ∃ fs, (some f.group, .object fs) ∈ ms ∧ (some f.key, j) ∈ fs

end Field

/-! ## Documents -/

/-- Every name is a text, and every section that is known is an object. -/
structure Grouped (ms : Members) : Prop where
  named : ∀ m ∈ ms, m.1 ≠ none
  objects : ∀ (f : Field) (j : Json), (some f.group, j) ∈ ms →
    ∃ fs, j = .object fs ∧ ∀ m ∈ fs, m.1 ≠ none

/-- Every name that is known is given at most once, with a value of its type. -/
structure Proper (ms : Members) : Prop where
  groups : ∀ f : Field, occurrences f.group ms ≤ 1
  keys : ∀ (f : Field) (fs : Members), (some f.group, .object fs) ∈ ms →
    occurrences f.key fs ≤ 1
  types : ∀ (f : Field) (j : Json), f.Given ms j → ∃ v, Means f.type j v

/-- Every field has the value that the document gives for it, or its default. -/
def Settles (ms : Members) (s : Settings) : Prop :=
  ∀ f : Field, (∀ j, f.Given ms j → Means f.type j (f.value s)) ∧
    ((∀ j, ¬f.Given ms j) → f.value s = f.standard)

/-! ## Names that are given at most once -/

section
variable {name : String} {ms : Members} {j j' : Json}

theorem mem_named : j ∈ named name ms ↔ (some name, j) ∈ ms := by
  rw [named, List.mem_map]
  constructor
  · rintro ⟨⟨key, j⟩, hmem, rfl⟩
    obtain ⟨hmem, hkey⟩ := List.mem_filter.mp hmem
    rw [← of_decide_eq_true hkey]
    exact hmem
  · intro hmem
    exact ⟨_, List.mem_filter.mpr ⟨hmem, decide_eq_true rfl⟩, rfl⟩

theorem length_named : (named name ms).length = occurrences name ms := by
  rw [named, List.length_map, occurrences, List.countP_eq_length_filter]

theorem eq_of_once (h : occurrences name ms ≤ 1) (hj : (some name, j) ∈ ms)
    (hj' : (some name, j') ∈ ms) : j = j' := by
  rw [← length_named] at h
  rw [← mem_named] at hj hj'
  match hnamed : named name ms, h with
  | [], _ => rw [hnamed] at hj; cases hj
  | [v], _ =>
      rw [hnamed, List.mem_singleton] at hj hj'
      exact hj.trans hj'.symm

/-- `Picks name ms read d v`: the name is given at most once; `v` is what is read of the value
given for it, or `d` if there is none. -/
structure Picks {α : Type} (name : String) (ms : Members) (read : Json → Option α) (d v : α) :
    Prop where
  once : occurrences name ms ≤ 1
  given : ∀ j, (some name, j) ∈ ms → read j = some v
  absent : (∀ j, (some name, j) ∉ ms) → v = d

theorem picks_iff {α : Type} {read : Json → Option α} {d v : α} :
    Picks name ms read d v ↔
      ∃ given, single? (named name ms) = some given ∧ orDefault given d read = some v := by
  constructor
  · intro h
    have honce := h.once
    rw [← length_named] at honce
    match hnamed : named name ms, honce with
    | [], _ =>
        refine ⟨none, rfl, congrArg some (h.absent fun j hj => ?_).symm⟩
        rw [← mem_named, hnamed] at hj
        cases hj
    | [j], _ =>
        refine ⟨some j, rfl, h.given j ?_⟩
        rw [← mem_named, hnamed]
        exact List.mem_singleton_self j
  · rintro ⟨given, hsingle, hread⟩
    match hnamed : named name ms with
    | [] =>
        rw [hnamed] at hsingle
        cases hsingle
        refine ⟨?_, fun j hj => ?_, fun _ => (Option.some.inj hread).symm⟩
        · rw [← length_named, hnamed]
          exact Nat.zero_le 1
        · rw [← mem_named, hnamed] at hj
          cases hj
    | [j] =>
        rw [hnamed] at hsingle
        cases hsingle
        have hj : (some name, j) ∈ ms := by
          rw [← mem_named, hnamed]
          exact List.mem_singleton_self j
        refine ⟨?_, fun j' hj' => ?_, fun habsent => absurd hj (habsent j)⟩
        · rw [← length_named, hnamed]
          exact Nat.le_refl 1
        · rw [← mem_named, hnamed, List.mem_singleton] at hj'
          rw [hj']
          exact hread
    | _ :: _ :: _ =>
        rw [hnamed] at hsingle
        cases hsingle

theorem fields?_object {names : List String} (h : ∀ m ∈ ms, m.1 ≠ none) :
    fields? names (.object ms) = names.mapM fun name => single? (named name ms) := by
  refine if_neg fun hany => ?_
  obtain ⟨m, hmem, hnone⟩ := List.any_eq_true.mp hany
  exact h m hmem (Option.isNone_iff_eq_none.mp hnone)

end

/-! ## Values -/

theorem bool?_eq_some_iff {j : Json} {b : Bool} :
    bool? j = some b ↔ Means .switch j (.bool b) := by
  constructor
  · intro h
    cases j with
    | bool b' =>
        cases h
        exact .switch b
    | _ => cases h
  · rintro ⟨⟩
    rfl

theorem le_wordMax_iff {n : Nat} : n ≤ Text.wordMax ↔ n < 2 ^ 64 := by
  rw [Text.wordMax, UInt64.size]
  omega

theorem word?_eq_some_iff {j : Json} {n : Nat} :
    word? j = some n ↔ Means .word j (.natural n) := by
  constructor
  · intro h
    cases j with
    | natural n' =>
        obtain ⟨hle, h⟩ := (Option.ite_none_right_eq_some ..).mp h
        cases h
        exact .word (le_wordMax_iff.mp hle)
    | _ => cases h
  · rintro ⟨⟩
    next h => exact if_pos (le_wordMax_iff.mpr h)

theorem ofName?_eq_some_iff {name : String} {l : Level} :
    Level.ofName? name = some l ↔ name = l.name := by
  constructor
  · intro h
    have hname := List.find?_some (p := fun l : Level => decide (l.name = name)) h
    exact (of_decide_eq_true hname).symm
  · rintro rfl
    cases l <;> decide

theorem name_inj {l l' : Level} (h : l.name = l'.name) : l = l' :=
  Option.some.inj ((ofName?_eq_some_iff.mpr rfl).symm.trans (ofName?_eq_some_iff.mpr h))

theorem level?_eq_some_iff {j : Json} {l : Level} :
    level? j = some l ↔ Means .level j (.string (some l.name)) := by
  constructor
  · intro h
    rw [level?.eq_def] at h
    split at h
    · obtain rfl := ofName?_eq_some_iff.mp h
      exact .name l
    · obtain rfl := ofName?_eq_some_iff.mp h
      exact .tag l
    · cases h
  · intro h
    generalize hv : Json.string (some l.name) = v at h
    cases h with
    | name l' =>
        have hname : l.name = l'.name := Option.some.inj (Json.string.inj hv)
        exact ofName?_eq_some_iff.mpr hname.symm
    | tag l' =>
        have hname : l.name = l'.name := Option.some.inj (Json.string.inj hv)
        exact ofName?_eq_some_iff.mpr hname.symm

/-! ## Sections -/

/-- `f.Picked fs s s'`: after the section `fs` the settings `s'` have for the field what it gives,
or what `s` had. -/
structure Field.Picked (f : Field) (fs : Members) (s s' : Settings) : Prop where
  once : occurrences f.key fs ≤ 1
  given : ∀ j, (some f.key, j) ∈ fs → Means f.type j (f.value s')
  absent : (∀ j, (some f.key, j) ∉ fs) → f.value s' = f.value s

/-- `Reads group read`: reading a section sets its own fields and keeps all others. -/
def Reads (group : String) (read : Settings → Json → Option Settings) : Prop :=
  ∀ (s s' : Settings) (fs : Members), (∀ m ∈ fs, m.1 ≠ none) →
    (read s (.object fs) = some s' ↔
      (∀ f : Field, f.group = group → f.Picked fs s s') ∧
        ∀ f : Field, f.group ≠ group → f.value s' = f.value s)

theorem Field.ext {s s' : Settings} (h : ∀ f : Field, f.value s = f.value s') : s = s' := by
  obtain ⟨⟨listTokens, listCode, maxNesting, traceRun, stackMax⟩, level⟩ := s
  obtain ⟨⟨listTokens', listCode', maxNesting', traceRun', stackMax'⟩, level'⟩ := s'
  have hlevel : level.name = level'.name := Option.some.inj (Json.string.inj (h .level))
  cases h .listTokens
  cases h .listCode
  cases h .maxNesting
  cases h .traceRun
  cases h .stackMax
  cases name_inj hlevel
  rfl

theorem Field.mem_all (f : Field) : f ∈ all := by
  cases f <;> decide

/-- What is true of all fields of a section can be told one by one. -/
theorem Field.forall_group_iff {group : String} {P : Field → Prop} :
    (∀ f : Field, f.group = group → P f) ↔ ∀ f ∈ ofGroup group, P f := by
  simp only [ofGroup, List.mem_filter, decide_eq_true_iff, mem_all, true_and]

/-- Settings with the fields of some sections from `s'` and all others from `s`. -/
def mix (groups : List String) (s s' : Settings) : Settings where
  listTokens := if Field.listTokens.group ∈ groups then s'.listTokens else s.listTokens
  listCode := if Field.listCode.group ∈ groups then s'.listCode else s.listCode
  maxNesting := if Field.maxNesting.group ∈ groups then s'.maxNesting else s.maxNesting
  traceRun := if Field.traceRun.group ∈ groups then s'.traceRun else s.traceRun
  stackMax := if Field.stackMax.group ∈ groups then s'.stackMax else s.stackMax
  level := if Field.level.group ∈ groups then s'.level else s.level

theorem value_mix (f : Field) (groups : List String) (s s' : Settings) :
    f.value (mix groups s s') = if f.group ∈ groups then f.value s' else f.value s := by
  cases f <;> simp only [Field.value, mix] <;> split <;> rfl

theorem eq_mix_iff {group : String} {s s' : Settings} :
    mix [group] s s' = s' ↔ ∀ f : Field, f.group ≠ group → f.value s' = f.value s := by
  constructor
  · intro h f hf
    have hvalue := value_mix f [group] s s'
    rwa [h, if_neg (mt List.mem_singleton.mp hf)] at hvalue
  · intro h
    refine Field.ext fun f => ?_
    rw [value_mix]
    split
    · rfl
    · next hf => exact (h f (mt List.mem_singleton.mpr hf)).symm

section
variable {α β : Type} {name name' : String} {fs : Members} {read : Json → Option α}
  {read' : Json → Option β} {d : α} {d' : β} {s' : Settings}

/-- A section of one field. -/
theorem one_field {make : α → Settings} (hnamed : ∀ m ∈ fs, m.1 ≠ none) :
    (match fields? [name] (.object fs) with
      | some [x] => (orDefault x d read).bind fun v => some (make v)
      | _ => none) = some s' ↔ ∃ v, Picks name fs read d v ∧ make v = s' := by
  rw [fields?_object hnamed]
  simp only [picks_iff]
  cases hx : single? (named name fs) with
  | none => simp [hx]
  | some x => simp [hx, Option.bind_eq_some_iff]

/-- A section of two fields. -/
theorem two_fields {make : α → β → Settings} (hnamed : ∀ m ∈ fs, m.1 ≠ none) :
    (match fields? [name, name'] (.object fs) with
      | some [x, y] =>
        (orDefault x d read).bind fun v => (orDefault y d' read').bind fun w => some (make v w)
      | _ => none) = some s' ↔
      ∃ v w, Picks name fs read d v ∧ Picks name' fs read' d' w ∧ make v w = s' := by
  rw [fields?_object hnamed]
  simp only [picks_iff]
  cases hx : single? (named name fs) with
  | none => simp [hx]
  | some x =>
      cases hy : single? (named name' fs) with
      | none => simp [hx, hy]
      | some y => simp [hx, hy, Option.bind_eq_some_iff]

end

/-- What a field picks, by its reader. -/
theorem Field.picked_iff {α : Type} {f : Field} {read : Json → Option α} {write : α → Json}
    {get : Settings → α} {fs : Members} {s s' : Settings} (hvalue : ∀ s, f.value s = write (get s))
    (hwrite : ∀ {v w}, write v = write w → v = w)
    (hread : ∀ {j v}, read j = some v ↔ Means f.type j (write v)) :
    f.Picked fs s s' ↔ Picks f.key fs read (get s) (get s') := by
  constructor
  · intro h
    refine ⟨h.once, fun j hj => hread.mpr ?_, fun habsent => hwrite ?_⟩
    · rw [← hvalue]
      exact h.given j hj
    · rw [← hvalue, ← hvalue]
      exact h.absent habsent
  · intro h
    refine ⟨h.once, fun j hj => ?_, fun habsent => ?_⟩
    · rw [hvalue]
      exact hread.mp (h.given j hj)
    · rw [hvalue, hvalue, h.absent habsent]

section
variable {f : Field} {fs : Members} {s s' : Settings}

theorem Field.picked_switch (get : Settings → Bool) (htype : f.type = .switch)
    (hvalue : ∀ s, f.value s = .bool (get s)) :
    f.Picked fs s s' ↔ Picks f.key fs bool? (get s) (get s') :=
  picked_iff hvalue Json.bool.inj (by rw [htype]; exact bool?_eq_some_iff)

theorem Field.picked_word (get : Settings → Nat) (htype : f.type = .word)
    (hvalue : ∀ s, f.value s = .natural (get s)) :
    f.Picked fs s s' ↔ Picks f.key fs word? (get s) (get s') :=
  picked_iff hvalue Json.natural.inj (by rw [htype]; exact word?_eq_some_iff)

theorem Field.picked_level :
    level.Picked fs s s' ↔ Picks "level" fs level? s.level s'.level := by
  refine picked_iff (f := .level) (fun _ => rfl) (fun h => ?_) level?_eq_some_iff
  exact name_inj (Option.some.inj (Json.string.inj h))

end

theorem reads_scanner : Reads "scanner" scanner? := by
  intro s s' fs hnamed
  have hown : (∀ f ∈ Field.ofGroup "scanner", f.Picked fs s s') ↔
      Picks "dump_tokens" fs bool? s.listTokens s'.listTokens := by
    refine List.forall_mem_singleton.trans ?_
    exact Field.picked_switch (·.listTokens) rfl fun _ => rfl
  rw [Field.forall_group_iff, hown, ← eq_mix_iff]
  refine (one_field hnamed).trans ⟨?_, fun h => ⟨_, h⟩⟩
  rintro ⟨v, hv, rfl⟩
  exact ⟨hv, rfl⟩

theorem reads_compiler : Reads "compiler" compiler? := by
  intro s s' fs hnamed
  have hown : (∀ f ∈ Field.ofGroup "compiler", f.Picked fs s s') ↔
      Picks "dump_chunk" fs bool? s.listCode s'.listCode ∧
        Picks "max_nesting" fs word? s.maxNesting s'.maxNesting := by
    refine List.forall_mem_cons.trans (and_congr ?_ (List.forall_mem_singleton.trans ?_))
    · exact Field.picked_switch (·.listCode) rfl fun _ => rfl
    · exact Field.picked_word (·.maxNesting) rfl fun _ => rfl
  rw [Field.forall_group_iff, hown, ← eq_mix_iff, and_assoc]
  refine (two_fields hnamed).trans ⟨?_, fun h => ⟨_, _, h⟩⟩
  rintro ⟨v, w, hv, hw, rfl⟩
  exact ⟨hv, hw, rfl⟩

theorem reads_machine : Reads "vm" machine? := by
  intro s s' fs hnamed
  have hown : (∀ f ∈ Field.ofGroup "vm", f.Picked fs s s') ↔
      Picks "trace_execution" fs bool? s.traceRun s'.traceRun ∧
        Picks "stack_max" fs word? s.stackMax s'.stackMax := by
    refine List.forall_mem_cons.trans (and_congr ?_ (List.forall_mem_singleton.trans ?_))
    · exact Field.picked_switch (·.traceRun) rfl fun _ => rfl
    · exact Field.picked_word (·.stackMax) rfl fun _ => rfl
  rw [Field.forall_group_iff, hown, ← eq_mix_iff, and_assoc]
  refine (two_fields hnamed).trans ⟨?_, fun h => ⟨_, _, h⟩⟩
  rintro ⟨v, w, hv, hw, rfl⟩
  exact ⟨hv, hw, rfl⟩

theorem reads_logging : Reads "logging" logging? := by
  intro s s' fs hnamed
  have hown : (∀ f ∈ Field.ofGroup "logging", f.Picked fs s s') ↔
      Picks "level" fs level? s.level s'.level :=
    List.forall_mem_singleton.trans Field.picked_level
  rw [Field.forall_group_iff, hown, ← eq_mix_iff]
  refine (one_field hnamed).trans ⟨?_, fun h => ⟨_, h⟩⟩
  rintro ⟨v, hv, rfl⟩
  exact ⟨hv, rfl⟩

end Reckon.Settings
