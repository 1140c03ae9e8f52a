/-
# What a document says about settings

The four sections in turn read exactly what the document says about each field
(`ofJson?_eq_some_iff`): the induction over sections is unrolled, since there are four, but what
one of them does is the same for all (`Reads.picks_iff`, `Reads.picks_mix`).

Only the known members count.  Documents with the same known members in some order
(`SameKnown`) say the same, whatever else they hold.
-/
import Mathlib.Data.List.Perm.Basic
import Reckon.Proofs.Settings.Field

namespace Reckon.Settings

/-! ## Whole documents -/

/-- `f.Chosen ms s s'`: after the sections of `ms` the settings `s'` have for the field what these
give, or what `s` had. -/
structure Field.Chosen (f : Field) (ms : Members) (s s' : Settings) : Prop where
  keys : ∀ fs, (some f.group, .object fs) ∈ ms → occurrences f.key fs ≤ 1
  given : ∀ j, f.Given ms j → Means f.type j (f.value s')
  absent : (∀ j, ¬f.Given ms j) → f.value s' = f.value s

section
variable {ms : Members} {s s' : Settings} {group : String}
  {read : Settings → Json → Option Settings}

theorem Field.Chosen.congr {f : Field} {r r' : Settings} (h : f.Chosen ms r r')
    (hr : f.value r = f.value s) (hr' : f.value r' = f.value s') : f.Chosen ms s s' := by
  refine ⟨h.keys, fun j hj => ?_, fun habsent => ?_⟩
  · rw [← hr']
    exact h.given j hj
  · rw [← hr', ← hr]
    exact h.absent habsent

/-- Where a section stands once, what a document gives for its fields is what the section does. -/
theorem Field.given_iff {f : Field} {fs : Members} {j : Json} (honce : occurrences f.group ms ≤ 1)
    (hfs : (some f.group, .object fs) ∈ ms) : f.Given ms j ↔ (some f.key, j) ∈ fs := by
  constructor
  · rintro ⟨fs', hfs', hj⟩
    obtain rfl := Json.object.inj (eq_of_once honce hfs hfs')
    exact hj
  · exact fun hj => ⟨fs, hfs, hj⟩

/-- What it takes to read a section of a document. -/
theorem Reads.picks_iff (h : Reads group read) (hms : Grouped ms)
    (hgroup : ∃ f : Field, f.group = group) :
    Picks group ms (read s) s s' ↔
      occurrences group ms ≤ 1 ∧ (∀ f : Field, f.group = group → f.Chosen ms s s') ∧
        ∀ f : Field, f.group ≠ group → f.value s' = f.value s := by
  obtain ⟨f₀, rfl⟩ := hgroup
  constructor
  · intro hpicks
    refine ⟨hpicks.once, ?_⟩
    by_cases hsome : ∃ j, (some f₀.group, j) ∈ ms
    · obtain ⟨j, hj⟩ := hsome
      obtain ⟨fs, rfl, hnamed⟩ := hms.objects f₀ j hj
      obtain ⟨hown, hother⟩ := (h s s' fs hnamed).mp (hpicks.given _ hj)
      refine ⟨fun f hf => ?_, hother⟩
      have hpicked := hown f hf
      have honce : occurrences f.group ms ≤ 1 := hf ▸ hpicks.once
      have hfs : (some f.group, .object fs) ∈ ms := hf ▸ hj
      refine ⟨fun fs' hfs' => ?_, fun j hgiven => ?_, fun habsent => ?_⟩
      · obtain rfl := Json.object.inj (eq_of_once honce hfs hfs')
        exact hpicked.once
      · exact hpicked.given j ((Field.given_iff honce hfs).mp hgiven)
      · exact hpicked.absent fun j hj => habsent j ((Field.given_iff honce hfs).mpr hj)
    · obtain rfl : s' = s := hpicks.absent fun j hj => hsome ⟨j, hj⟩
      refine ⟨fun f hf => ⟨fun fs hfs => ?_, fun j hj => ?_, fun _ => rfl⟩, fun _ _ => rfl⟩
      · exact absurd ⟨_, hf ▸ hfs⟩ hsome
      · obtain ⟨fs, hfs, _⟩ := hj
        exact absurd ⟨_, hf ▸ hfs⟩ hsome
  · rintro ⟨honce, hchosen, hother⟩
    refine ⟨honce, fun j hj => ?_, fun hnone => Field.ext fun f => ?_⟩
    · obtain ⟨fs, rfl, hnamed⟩ := hms.objects f₀ j hj
      refine (h s s' fs hnamed).mpr ⟨fun f hf => ?_, hother⟩
      have hgiven : ∀ {j}, f.Given ms j ↔ (some f.key, j) ∈ fs :=
        Field.given_iff (hf ▸ honce) (hf ▸ hj)
      refine ⟨(hchosen f hf).keys fs (hf ▸ hj), fun j hj => ?_, fun habsent => ?_⟩
      · exact (hchosen f hf).given j (hgiven.mpr hj)
      · exact (hchosen f hf).absent fun j hj => habsent j (hgiven.mp hj)
    · by_cases hf : f.group = f₀.group
      · refine (hchosen f hf).absent fun j hj => ?_
        obtain ⟨fs, hfs, _⟩ := hj
        exact hnone _ (hf ▸ hfs)
      · exact hother f hf

theorem value_default (f : Field) : f.value {} = f.standard := by
  cases f <;> rfl

/-- Reading one section more. -/
theorem Reads.picks_mix (h : Reads group read) (hms : Grouped ms)
    (hgroup : ∃ f : Field, f.group = group) (honce : occurrences group ms ≤ 1)
    (hchosen : ∀ f : Field, f.Chosen ms s s') (groups : List String) (hnew : group ∉ groups) :
    Picks group ms (read (mix groups s s')) (mix groups s s') (mix (group :: groups) s s') := by
  refine (h.picks_iff hms hgroup).mpr ⟨honce, fun f hf => ?_, fun f hf => ?_⟩
  · refine (hchosen f).congr ?_ ?_
    · rw [value_mix, if_neg (hf ▸ hnew)]
    · rw [value_mix, if_pos (hf ▸ List.mem_cons_self)]
  · simp only [value_mix, List.mem_cons, hf, false_or]

/-- The four sections are read one after the other. -/
theorem ofJson?_eq_some (hms : Grouped ms) :
    ofJson? (.object ms) = some s ↔
      ∃ s₁ s₂ s₃, Picks "scanner" ms (scanner? {}) {} s₁ ∧
        Picks "compiler" ms (compiler? s₁) s₁ s₂ ∧
        Picks "vm" ms (machine? s₂) s₂ s₃ ∧ Picks "logging" ms (logging? s₃) s₃ s := by
  rw [ofJson?, fields?_object hms.named]
  simp only [Settings.picks_iff]
  cases hscanner : single? (named "scanner" ms) with
  | none => simp [hscanner]
  | some scanner =>
      cases hcompiler : single? (named "compiler" ms) with
      | none => simp [hscanner, hcompiler]
      | some compiler =>
          cases hmachine : single? (named "vm" ms) with
          | none => simp [hscanner, hcompiler, hmachine]
          | some machine =>
              cases hlogging : single? (named "logging" ms) with
              | none => simp [hscanner, hcompiler, hmachine, hlogging]
              | some logging =>
                  simp [hscanner, hcompiler, hmachine, hlogging, Option.bind_eq_some_iff]

/-- What a document says about settings, if anything. -/
theorem ofJson?_iff_chosen (hms : Grouped ms) :
    ofJson? (.object ms) = some s ↔
      (∀ f : Field, occurrences f.group ms ≤ 1) ∧ ∀ f : Field, f.Chosen ms {} s := by
  rw [ofJson?_eq_some hms]
  constructor
  · rintro ⟨s₁, s₂, s₃, hscanner, hcompiler, hmachine, hlogging⟩
    obtain ⟨once₁, own₁, other₁⟩ :=
      (reads_scanner.picks_iff hms ⟨.listTokens, rfl⟩).mp hscanner
    obtain ⟨once₂, own₂, other₂⟩ :=
      (reads_compiler.picks_iff hms ⟨.listCode, rfl⟩).mp hcompiler
    obtain ⟨once₃, own₃, other₃⟩ := (reads_machine.picks_iff hms ⟨.traceRun, rfl⟩).mp hmachine
    obtain ⟨once₄, own₄, other₄⟩ := (reads_logging.picks_iff hms ⟨.level, rfl⟩).mp hlogging
    refine ⟨fun f => ?_, fun f => ?_⟩
    · cases f with
      | listTokens => exact once₁
      | listCode | maxNesting => exact once₂
      | traceRun | stackMax => exact once₃
      | level => exact once₄
    · have other₁ := other₁ f
      have other₂ := other₂ f
      have other₃ := other₃ f
      have other₄ := other₄ f
      cases f with
      | listTokens =>
          refine (own₁ _ rfl).congr rfl ?_
          rw [other₄ (by decide), other₃ (by decide), other₂ (by decide)]
      | listCode | maxNesting =>
          refine (own₂ _ rfl).congr (other₁ (by decide)) ?_
          rw [other₄ (by decide), other₃ (by decide)]
      | traceRun | stackMax =>
          refine (own₃ _ rfl).congr ?_ (other₄ (by decide)).symm
          rw [other₂ (by decide), other₁ (by decide)]
      | level =>
          refine (own₄ _ rfl).congr ?_ rfl
          rw [other₃ (by decide), other₂ (by decide), other₁ (by decide)]
  · rintro ⟨honce, hchosen⟩
    have hnone : mix [] {} s = {} := rfl
    have hall : mix ["logging", "vm", "compiler", "scanner"] {} s = s := rfl
    have hscanner := reads_scanner.picks_mix hms ⟨.listTokens, rfl⟩ (honce .listTokens) hchosen
      [] (by decide)
    have hcompiler := reads_compiler.picks_mix hms ⟨.listCode, rfl⟩ (honce .listCode) hchosen
      ["scanner"] (by decide)
    have hmachine := reads_machine.picks_mix hms ⟨.traceRun, rfl⟩ (honce .traceRun) hchosen
      ["compiler", "scanner"] (by decide)
    have hlogging := reads_logging.picks_mix hms ⟨.level, rfl⟩ (honce .level) hchosen
      ["vm", "compiler", "scanner"] (by decide)
    rw [hnone] at hscanner
    rw [hall] at hlogging
    exact ⟨_, _, _, hscanner, hcompiler, hmachine, hlogging⟩

theorem ofJson?_eq_some_iff (hms : Grouped ms) :
    ofJson? (.object ms) = some s ↔ Proper ms ∧ Settles ms s := by
  rw [ofJson?_iff_chosen hms]
  constructor
  · rintro ⟨honce, hchosen⟩
    refine ⟨⟨honce, fun f => (hchosen f).keys, fun f j hj => ⟨_, (hchosen f).given j hj⟩⟩, ?_⟩
    intro f
    refine ⟨(hchosen f).given, fun habsent => ?_⟩
    rw [(hchosen f).absent habsent, value_default]
  · rintro ⟨hproper, hsettles⟩
    refine ⟨hproper.groups, fun f => ⟨hproper.keys f, (hsettles f).1, fun habsent => ?_⟩⟩
    rw [(hsettles f).2 habsent, value_default]

end

/-! ## What a proper document says -/

section
variable {ms : Members} {s : Settings}

theorem Proper.given_unique (h : Proper ms) {f : Field} {j j' : Json} (hj : f.Given ms j)
    (hj' : f.Given ms j') : j = j' := by
  obtain ⟨fs, hfs, hj⟩ := hj
  exact eq_of_once (h.keys f fs hfs) hj ((Field.given_iff (h.groups f) hfs).mp hj')

/-- Every value of a type is that of a field in some settings. -/
theorem Field.exists_value {f : Field} {j v : Json} (h : Means f.type j v) :
    ∃ s, f.value s = v := by
  cases f with
  | listTokens =>
      obtain ⟨b⟩ := h
      exact ⟨{ listTokens := b }, rfl⟩
  | listCode =>
      obtain ⟨b⟩ := h
      exact ⟨{ listCode := b }, rfl⟩
  | maxNesting =>
      obtain ⟨hn⟩ := h
      exact ⟨{ maxNesting := _ }, rfl⟩
  | traceRun =>
      obtain ⟨b⟩ := h
      exact ⟨{ traceRun := b }, rfl⟩
  | stackMax =>
      obtain ⟨hn⟩ := h
      exact ⟨{ stackMax := _ }, rfl⟩
  | level =>
      cases h with
      | name l => exact ⟨{ level := l }, rfl⟩
      | tag l => exact ⟨{ level := l }, rfl⟩

theorem Proper.exists_field (h : Proper ms) (f : Field) :
    ∃ s, (∀ j, f.Given ms j → Means f.type j (f.value s)) ∧
      ((∀ j, ¬f.Given ms j) → f.value s = f.standard) := by
  by_cases hgiven : ∃ j, f.Given ms j
  · obtain ⟨j, hj⟩ := hgiven
    obtain ⟨v, hv⟩ := h.types f j hj
    obtain ⟨s, rfl⟩ := Field.exists_value hv
    refine ⟨s, fun j' hj' => ?_, fun habsent => absurd hj (habsent j)⟩
    rw [h.given_unique hj' hj]
    exact hv
  · exact ⟨{}, fun j hj => absurd ⟨j, hj⟩ hgiven, fun _ => value_default f⟩

/-- A proper document settles all fields. -/
theorem Proper.exists_settles (h : Proper ms) : ∃ s, Settles ms s := by
  obtain ⟨a, ha⟩ := h.exists_field .listTokens
  obtain ⟨b, hb⟩ := h.exists_field .listCode
  obtain ⟨c, hc⟩ := h.exists_field .maxNesting
  obtain ⟨d, hd⟩ := h.exists_field .traceRun
  obtain ⟨e, he⟩ := h.exists_field .stackMax
  obtain ⟨g, hg⟩ := h.exists_field .level
  refine ⟨⟨⟨a.listTokens, b.listCode, c.maxNesting, d.traceRun, e.stackMax⟩, g.level⟩, fun f => ?_⟩
  cases f with
  | listTokens => exact ha
  | listCode => exact hb
  | maxNesting => exact hc
  | traceRun => exact hd
  | stackMax => exact he
  | level => exact hg

/-- Settings are what a document settles if it gives all of their fields. -/
theorem Proper.settles (h : Proper ms)
    (hs : ∀ f : Field, ∃ j, f.Given ms j ∧ Means f.type j (f.value s)) : Settles ms s := by
  intro f
  obtain ⟨j, hj, hmeans⟩ := hs f
  refine ⟨fun j' hj' => ?_, fun habsent => absurd hj (habsent j)⟩
  rw [h.given_unique hj' hj]
  exact hmeans

end

/-! ## Documents with the same known members -/

/-- The sections that are known. -/
def knownGroups (ms : Members) : Members :=
  ms.filter fun m => Field.all.any fun f => m.1 = some f.group

/-- The members that are known in a section. -/
def knownKeys (group : String) (fs : Members) : Members :=
  fs.filter fun m => Field.all.any fun f => f.group = group && m.1 = some f.key

/-- Sections of the same name that hold the same known members in some order. -/
inductive SameGroup : Option String × Json → Option String × Json → Prop
  | mk {group : String} {fs fs' : Members}
      (h : (knownKeys group fs).Perm (knownKeys group fs')) :
      SameGroup (some group, .object fs) (some group, .object fs')

/-- Documents that hold the same known sections in some order. -/
def SameKnown (ms ms' : Members) : Prop :=
  ∃ ns, List.Forall₂ SameGroup (knownGroups ms) ns ∧ ns.Perm (knownGroups ms')

section
variable {ms ms' fs fs' : Members} {f : Field} {j : Json}

theorem mem_knownGroups : (some f.group, j) ∈ knownGroups ms ↔ (some f.group, j) ∈ ms := by
  rw [knownGroups, List.mem_filter, and_iff_left_iff_imp]
  intro _
  exact List.any_eq_true.mpr ⟨f, f.mem_all, decide_eq_true rfl⟩

theorem mem_knownKeys : (some f.key, j) ∈ knownKeys f.group fs ↔ (some f.key, j) ∈ fs := by
  rw [knownKeys, List.mem_filter, and_iff_left_iff_imp]
  intro _
  refine List.any_eq_true.mpr ⟨f, f.mem_all, ?_⟩
  rw [decide_eq_true rfl, decide_eq_true rfl]
  rfl

theorem occurrences_filter {name : String} {keep : Option String × Json → Bool}
    (h : ∀ j, keep (some name, j) = true) :
    occurrences name (ms.filter keep) = occurrences name ms := by
  rw [occurrences, occurrences, List.countP_filter]
  refine List.countP_congr fun m _ => ?_
  rw [Bool.and_eq_true, and_iff_left_iff_imp]
  intro hname
  obtain ⟨name', j⟩ := m
  cases of_decide_eq_true hname
  exact h j

theorem occurrences_knownGroups :
    occurrences f.group (knownGroups ms) = occurrences f.group ms :=
  occurrences_filter fun _ => List.any_eq_true.mpr ⟨f, f.mem_all, decide_eq_true rfl⟩

theorem occurrences_knownKeys :
    occurrences f.key (knownKeys f.group fs) = occurrences f.key fs := by
  refine occurrences_filter fun _ => List.any_eq_true.mpr ⟨f, f.mem_all, ?_⟩
  rw [decide_eq_true rfl, decide_eq_true rfl]
  rfl

theorem SameGroup.symm {m m' : Option String × Json} (h : SameGroup m m') : SameGroup m' m := by
  obtain ⟨hperm⟩ := h
  exact ⟨hperm.symm⟩

/-- Sections that are the same one by one. -/
theorem SameGroup.exists_mem {m : Option String × Json} (h : List.Forall₂ SameGroup ms ms')
    (hm : m ∈ ms) : ∃ m' ∈ ms', SameGroup m m' := by
  induction h with
  | nil => cases hm
  | cons hfirst _ ih =>
      cases hm with
      | head => exact ⟨_, List.mem_cons_self, hfirst⟩
      | tail _ hm =>
          obtain ⟨m', hm', hsame⟩ := ih hm
          exact ⟨m', List.mem_cons_of_mem _ hm', hsame⟩

theorem SameGroup.occurrences_eq (h : List.Forall₂ SameGroup ms ms') (name : String) :
    occurrences name ms = occurrences name ms' := by
  induction h with
  | nil => rfl
  | cons hfirst _ ih =>
      obtain ⟨_⟩ := hfirst
      simp only [occurrences, List.countP_cons] at ih ⊢
      rw [ih]

theorem SameKnown.symm (h : SameKnown ms ms') : SameKnown ms' ms := by
  obtain ⟨ns, hsame, hperm⟩ := h
  have hflip : List.Forall₂ SameGroup ns (knownGroups ms) :=
    (List.Forall₂.imp (fun _ _ h => SameGroup.symm h) hsame).flip
  exact List.perm_comp_forall₂ hperm.symm hflip

theorem SameKnown.occurrences_eq (h : SameKnown ms ms') (f : Field) :
    occurrences f.group ms = occurrences f.group ms' := by
  obtain ⟨ns, hsame, hperm⟩ := h
  calc occurrences f.group ms = occurrences f.group (knownGroups ms) :=
        occurrences_knownGroups.symm
    _ = occurrences f.group ns := SameGroup.occurrences_eq hsame _
    _ = occurrences f.group (knownGroups ms') := hperm.countP_eq _
    _ = occurrences f.group ms' := occurrences_knownGroups

/-- A section has its counterpart in the other document. -/
theorem SameKnown.exists_group (h : SameKnown ms ms') (hfs : (some f.group, .object fs) ∈ ms) :
    ∃ fs', (some f.group, .object fs') ∈ ms' ∧
      (knownKeys f.group fs).Perm (knownKeys f.group fs') := by
  obtain ⟨ns, hsame, hperm⟩ := h
  obtain ⟨m', hm', hgroup⟩ := SameGroup.exists_mem hsame (mem_knownGroups.mpr hfs)
  rw [hperm.mem_iff] at hm'
  obtain ⟨hkeys⟩ := hgroup
  exact ⟨_, mem_knownGroups.mp hm', hkeys⟩

theorem SameKnown.given (h : SameKnown ms ms') (hj : f.Given ms j) : f.Given ms' j := by
  obtain ⟨fs, hfs, hj⟩ := hj
  obtain ⟨fs', hfs', hkeys⟩ := h.exists_group hfs
  exact ⟨fs', hfs', mem_knownKeys.mp (hkeys.mem_iff.mp (mem_knownKeys.mpr hj))⟩

theorem SameKnown.given_iff (h : SameKnown ms ms') : f.Given ms j ↔ f.Given ms' j :=
  ⟨h.given, h.symm.given⟩

theorem SameKnown.proper (h : SameKnown ms ms') (hproper : Proper ms) : Proper ms' := by
  refine ⟨fun f => ?_, fun f fs hfs => ?_, fun f j hj => ?_⟩
  · rw [← h.occurrences_eq]
    exact hproper.groups f
  · obtain ⟨fs', hfs', hkeys⟩ := h.symm.exists_group hfs
    calc occurrences f.key fs = occurrences f.key (knownKeys f.group fs) :=
          occurrences_knownKeys.symm
      _ = occurrences f.key (knownKeys f.group fs') := hkeys.countP_eq _
      _ = occurrences f.key fs' := occurrences_knownKeys
      _ ≤ 1 := hproper.keys f fs' hfs'
  · exact hproper.types f j (h.given_iff.mpr hj)

theorem SameKnown.proper_iff (h : SameKnown ms ms') : Proper ms ↔ Proper ms' :=
  ⟨h.proper, h.symm.proper⟩

theorem SameKnown.settles_iff (h : SameKnown ms ms') {s : Settings} :
    Settles ms s ↔ Settles ms' s := by
  refine forall_congr' fun f => ?_
  simp only [h.given_iff]

end

end Reckon.Settings
