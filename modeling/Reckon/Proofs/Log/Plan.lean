/-
# From requests to a log

A plan is made by asking for outputs one after the other.  A stream of the console is planned
once, at its first request, and a ring at every request; what is planned stays where it is
(`holds_ofRequests`, `outputs_isPrefix_ofRequests`).

A plan is opened output by output, and this fails at the first ring that has no room or that no
memory could hold, and nowhere else (`opened_eq_error_iff`).  Otherwise the outputs have become
sinks in the same order, with the rings numbered as they come (`serves_foldl`).  Every ring has a
number of its own, and every stream was planned once, so each of them is counted once among the
sinks (`count_sinks_ofRequests`).  That is how often it gets a record, however the log is used
afterwards (`opened_ofRequests`).
-/
import Reckon.Log.Plan
import Reckon.Proofs.Log.Session

namespace Reckon

open LogOutput (isConsole)

/-! ## Outputs and sinks -/

namespace LogOutput

/-- The capacity of a ring. -/
def capacity? : LogOutput → Option Nat
  | ring capacity => some capacity
  | _ => none

/-- The capacities of the rings among some outputs, in order. -/
def capacities (outputs : List LogOutput) : List Nat := outputs.filterMap capacity?

/-- The sink of an output, which for a ring is the ring with a given number. -/
def sink (number : Nat) : LogOutput → Sink
  | stdout => .stdout
  | stderr => .stderr
  | ring _ => .ring number

/-- The sinks of some outputs, in order; a ring is numbered by the rings before it. -/
def sinks (outputs : List LogOutput) : List Sink :=
  (outputs.inits.zip outputs).map fun (past, output) => output.sink (capacities past).length

theorem capacity?_of_isConsole {output : LogOutput} (h : output.isConsole = true) :
    output.capacity? = none := by
  cases output with
  | stdout | stderr => rfl
  | ring capacity => cases h

section
variable (outputs : List LogOutput) (last : LogOutput)

theorem capacities_concat :
    capacities (outputs ++ [last]) = capacities outputs ++ last.capacity?.toList := by
  rw [capacities, List.filterMap_append, List.filterMap_cons, List.filterMap_nil]
  cases last.capacity? <;> rfl

/-- The first of the rings for which something is found. -/
theorem findSome?_cons {β : Type} (f : Nat → Option β) (first : LogOutput) :
    (capacities (first :: outputs)).findSome? f =
      (first.capacity?.bind f).or ((capacities outputs).findSome? f) := by
  unfold capacities
  rw [List.filterMap_cons]
  cases first.capacity? with
  | none => rfl
  | some capacity =>
      rw [Option.bind_some, List.findSome?_cons]
      cases f capacity <;> rfl

theorem mem_capacities {capacity : Nat} :
    capacity ∈ capacities outputs ↔ .ring capacity ∈ outputs := by
  rw [capacities, List.mem_filterMap]
  refine ⟨?_, fun hmem => ⟨_, hmem, rfl⟩⟩
  rintro ⟨output, hmem, hcapacity⟩
  cases output with
  | stdout | stderr => cases hcapacity
  | ring n =>
      cases hcapacity
      exact hmem

theorem sinks_concat :
    sinks (outputs ++ [last]) = sinks outputs ++ [last.sink (capacities outputs).length] := by
  rw [sinks, LogSession.zip_inits_concat, List.map_append]
  rfl

/-- Every ring is one sink. -/
theorem count_sinks_ring (number : Nat) :
    (sinks outputs).count (.ring number) =
      if number < (capacities outputs).length then 1 else 0 := by
  induction outputs using List.reverseRecOn with
  | nil => rfl
  | append_singleton outputs last ih =>
      rw [sinks_concat, capacities_concat, List.count_append, ih, List.length_append,
        List.count_singleton]
      cases last with
      | stdout | stderr => rfl
      | ring capacity =>
          by_cases hnumber : (capacities outputs).length = number
          · simp [sink, capacity?, hnumber]
          · have hlt : number < (capacities outputs).length + 1 ↔
                number < (capacities outputs).length := by omega
            simp [sink, capacity?, hnumber, hlt]

/-- A stream is a sink as often as it is an output. -/
theorem count_sinks {stream : LogOutput} (h : stream.isConsole = true) (number : Nat) :
    (sinks outputs).count (stream.sink number) = outputs.count stream := by
  induction outputs using List.reverseRecOn with
  | nil => rfl
  | append_singleton outputs last ih =>
      rw [sinks_concat, List.count_append, ih, List.count_append, List.count_singleton,
        List.count_singleton]
      cases stream with
      | ring capacity => cases h
      | stdout | stderr => cases last <;> rfl

theorem count_sinks_rows : (sinks outputs).count .rows = 0 := by
  induction outputs using List.reverseRecOn with
  | nil => rfl
  | append_singleton outputs last ih =>
      rw [sinks_concat, List.count_append, ih, List.count_singleton]
      cases last <;> rfl

end

end LogOutput

open LogOutput (capacities sinks)

/-! ## Requests -/

namespace LogPlan

/-- The plan that is made by asking for outputs one after the other. -/
def ofRequests (level : Level) (requests : List LogOutput) : LogPlan :=
  requests.foldl add { level }

/-- `p.Holds requests`: the plan has the streams that were requested, each once and in the order of
the first requests, and all rings that were requested. -/
structure Holds (p : LogPlan) (requests : List LogOutput) : Prop where
  streams : p.outputs.filter isConsole = (requests.filter isConsole).eraseDups
  once : (p.outputs.filter isConsole).Nodup
  rings : capacities p.outputs = capacities requests

section
variable {p : LogPlan} {requests : List LogOutput} {output : LogOutput}

theorem add_of_mem (hconsole : output.isConsole = true) (hmem : output ∈ p.outputs) :
    p.add output = p :=
  if_pos (by simpa using ⟨hconsole, hmem⟩)

theorem outputs_add_of_notMem (hmem : output ∉ p.outputs) :
    (p.add output).outputs = p.outputs ++ [output] := by
  rw [add, if_neg (by simpa using fun _ => hmem)]

theorem outputs_add_of_ring (h : output.isConsole = false) :
    (p.add output).outputs = p.outputs ++ [output] := by
  rw [add, if_neg (by simp [h])]

theorem level_add : (p.add output).level = p.level := by
  unfold add
  split <;> rfl

theorem Holds.mem_iff (h : p.Holds requests) (hconsole : output.isConsole = true) :
    output ∈ p.outputs ↔ output ∈ requests := by
  have hmem : output ∈ p.outputs.filter isConsole ↔ output ∈ requests.filter isConsole := by
    rw [h.streams, List.mem_eraseDups]
  rwa [List.mem_filter, List.mem_filter, and_iff_left hconsole, and_iff_left hconsole] at hmem

/-- The first requests are those before the last one, and the last one if it is new. -/
theorem eraseDups_concat (l : List LogOutput) (a : LogOutput) :
    (l ++ [a]).eraseDups = l.eraseDups ++ if a ∈ l then [] else [a] := by
  rw [List.eraseDups_append, List.removeAll]
  congr 1
  by_cases h : a ∈ l
  · simp [h]
  · simp [h, List.eraseDups_cons]

theorem Holds.add (h : p.Holds requests) (output : LogOutput) :
    (p.add output).Holds (requests ++ [output]) := by
  cases hconsole : output.isConsole with
  | false =>
      have houtputs := outputs_add_of_ring (p := p) hconsole
      have hnone : [output].filter isConsole = [] := by simp [hconsole]
      refine ⟨?_, ?_, ?_⟩
      · rw [houtputs, List.filter_append, List.filter_append, hnone, List.append_nil,
          List.append_nil, h.streams]
      · rw [houtputs, List.filter_append, hnone, List.append_nil]
        exact h.once
      · rw [houtputs, LogOutput.capacities_concat, LogOutput.capacities_concat, h.rings]
  | true =>
      have hcapacity := LogOutput.capacity?_of_isConsole hconsole
      have hself : [output].filter isConsole = [output] := by simp [hconsole]
      have hrings : capacities (requests ++ [output]) = capacities requests := by
        rw [LogOutput.capacities_concat, hcapacity]
        exact List.append_nil _
      have hstreams : ((requests ++ [output]).filter isConsole).eraseDups =
          p.outputs.filter isConsole ++ if output ∈ p.outputs then [] else [output] := by
        have hrequested : output ∈ requests.filter isConsole ↔ output ∈ p.outputs := by
          rw [List.mem_filter, and_iff_left hconsole, h.mem_iff hconsole]
        rw [List.filter_append, hself, eraseDups_concat, h.streams]
        simp only [hrequested]
      by_cases hmem : output ∈ p.outputs
      · rw [if_pos hmem, List.append_nil] at hstreams
        rw [add_of_mem hconsole hmem]
        exact ⟨hstreams.symm, h.once, h.rings.trans hrings.symm⟩
      · have houtputs := outputs_add_of_notMem hmem
        rw [if_neg hmem] at hstreams
        refine ⟨?_, ?_, ?_⟩
        · rw [houtputs, List.filter_append, hself, hstreams]
        · rw [houtputs, List.filter_append, hself]
          refine List.nodup_append.mpr ⟨h.once, List.pairwise_singleton _ _, ?_⟩
          rintro a ha b hb rfl
          rw [List.mem_singleton.mp hb] at ha
          exact hmem (List.mem_of_mem_filter ha)
        · rw [houtputs, LogOutput.capacities_concat, hcapacity, hrings, ← h.rings]
          exact List.append_nil _

end

section
variable (level : Level) (requests : List LogOutput)

theorem ofRequests_append (later : List LogOutput) :
    ofRequests level (requests ++ later) = later.foldl add (ofRequests level requests) :=
  List.foldl_append

theorem holds_ofRequests : (ofRequests level requests).Holds requests := by
  induction requests using List.reverseRecOn with
  | nil => exact ⟨rfl, List.nodup_nil, rfl⟩
  | append_singleton requests last ih =>
      rw [ofRequests_append]
      exact ih.add last

theorem level_ofRequests : (ofRequests level requests).level = level := by
  induction requests using List.reverseRecOn with
  | nil => rfl
  | append_singleton requests last ih =>
      rw [ofRequests_append]
      exact level_add.trans ih

theorem outputs_isPrefix_add (p : LogPlan) (output : LogOutput) :
    p.outputs <+: (p.add output).outputs := by
  unfold add
  split
  · exact List.prefix_refl _
  · exact List.prefix_append _ _

/-- A request changes nothing about the outputs that were planned before it. -/
theorem outputs_isPrefix_ofRequests (later : List LogOutput) :
    (ofRequests level requests).outputs <+: (ofRequests level (requests ++ later)).outputs := by
  rw [ofRequests_append]
  induction later using List.reverseRecOn with
  | nil => exact List.prefix_refl _
  | append_singleton later last ih =>
      rw [List.foldl_append]
      exact ih.trans (outputs_isPrefix_add _ last)

/-- A stream is planned once if it was requested, and otherwise not at all. -/
theorem count_outputs {stream : LogOutput} (hconsole : stream.isConsole = true) :
    (ofRequests level requests).outputs.count stream = if stream ∈ requests then 1 else 0 := by
  have h := holds_ofRequests level requests
  rw [← List.count_filter hconsole, h.once.count]
  simp only [List.mem_filter, and_iff_left hconsole, h.mem_iff hconsole]

end

end LogPlan

/-! ## Opening a plan -/

/-- `log.Serves level outputs`: the log has the given outputs as its sinks, in order, with new
rings numbered from zero on, and its last ring at hand. -/
structure OpenLog.Serves (log : OpenLog) (level : Level) (outputs : List LogOutput) : Prop where
  threshold : log.console.logger.threshold = level
  sinks : log.console.logger.sinks = sinks outputs
  rings : log.console.rings.toList = (capacities outputs).map Ring.empty
  ring : ∀ number, log.ring = some number ↔ number + 1 = log.console.rings.size

/-- A log with one more output attached, as if every ring could be made. -/
def OpenLog.attached (log : OpenLog) : LogOutput → OpenLog
  | .stdout => { log with console := log.console.withLogger (·.attach .stdout) }
  | .stderr => { log with console := log.console.withLogger (·.attach .stderr) }
  | .ring capacity =>
    let number := log.console.rings.size
    { console := (log.console.addRing (.empty capacity)).withLogger (·.attach (.ring number))
      ring := some number }

/-- What is wrong with the capacity of a ring. -/
def Ring.fault? (capacity : Nat) : Option LogFault :=
  if capacity = 0 then some (.refused .zeroCapacity)
  else if Ring.most < capacity then some .tooLarge
  else none

theorem Ring.fault?_eq_none_iff {capacity : Nat} :
    fault? capacity = none ↔ 0 < capacity ∧ capacity ≤ most := by
  unfold fault?
  split
  · next hzero => simp [hzero]
  · next hpos =>
    split
    · next hlarge => simp [Nat.not_le.mpr hlarge]
    · next hfits => simp [Nat.pos_of_ne_zero hpos, Nat.not_lt.mp hfits]

theorem Ring.fault?_eq_refused_iff {capacity : Nat} :
    fault? capacity = some (.refused .zeroCapacity) ↔ capacity = 0 := by
  unfold fault?
  split
  · next hzero => simp [hzero]
  · next hpos => split <;> simp [hpos]

theorem Ring.fault?_eq_tooLarge_iff {capacity : Nat} :
    fault? capacity = some .tooLarge ↔ most < capacity := by
  unfold fault?
  split
  · next hzero => simp [hzero]
  · split <;> simp [*]

namespace LogPlan

section
variable {log : OpenLog} {level : Level} {outputs : List LogOutput}

theorem attach_eq (log : OpenLog) (output : LogOutput) :
    attach log output =
      (output.capacity?.bind Ring.fault?).elim (.ok (log.attached output)) .error := by
  cases output with
  | stdout | stderr => rfl
  | ring capacity =>
      cases capacity with
      | zero => rfl
      | succ capacity =>
          simp only [attach, LogOutput.capacity?, Option.bind_some, Ring.new?]
          by_cases hfits : capacity + 1 ≤ Ring.most
          · rw [if_pos hfits, Ring.fault?_eq_none_iff.mpr ⟨Nat.succ_pos _, hfits⟩]
            rfl
          · rw [if_neg hfits, Ring.fault?_eq_tooLarge_iff.mpr (Nat.lt_of_not_le hfits)]
            rfl

/-- The first ring that cannot be made stops the opening, and nothing else does. -/
theorem foldlM_attach (log : OpenLog) (outputs : List LogOutput) :
    outputs.foldlM attach log =
      ((capacities outputs).findSome? Ring.fault?).elim
        (.ok (outputs.foldl OpenLog.attached log)) .error := by
  induction outputs generalizing log with
  | nil => rfl
  | cons output outputs ih =>
      rw [List.foldlM_cons, attach_eq, LogOutput.findSome?_cons]
      cases output.capacity?.bind Ring.fault? with
      | some fault => rfl
      | none => exact ih _

theorem size_rings (h : log.Serves level outputs) :
    log.console.rings.size = (capacities outputs).length := by
  rw [← Array.length_toList, h.rings, List.length_map]

theorem last_ring (h : log.Serves level outputs) :
    log.ring.bind (log.console.rings[·]?) = (capacities outputs).getLast?.map Ring.empty := by
  have hget (number : Nat) :
      log.console.rings[number]? = (capacities outputs)[number]?.map Ring.empty := by
    rw [← Array.getElem?_toList, h.rings, List.getElem?_map]
  rw [List.getLast?_eq_getElem?, ← size_rings h, ← hget]
  cases hring : log.ring with
  | some number =>
      rw [← (h.ring number).mp hring]
      rfl
  | none =>
      have hsize : log.console.rings.size = 0 := by
        refine Nat.eq_zero_of_not_pos fun hpos => ?_
        have hlast := (h.ring (log.console.rings.size - 1)).mpr (Nat.sub_add_cancel hpos)
        rw [hring] at hlast
        cases hlast
      exact (Array.getElem?_eq_none (by omega)).symm

theorem serves_attached (h : log.Serves level outputs) (output : LogOutput) :
    (log.attached output).Serves level (outputs ++ [output]) := by
  have hsinks : log.console.logger.sinks ++ [output.sink log.console.rings.size] =
      sinks (outputs ++ [output]) := by
    rw [LogOutput.sinks_concat, h.sinks, size_rings h]
  cases output with
  | stdout | stderr =>
      refine ⟨h.threshold, hsinks, ?_, h.ring⟩
      rw [LogOutput.capacities_concat]
      exact h.rings.trans (congrArg _ (List.append_nil _).symm)
  | ring capacity =>
      refine ⟨h.threshold, hsinks, ?_, fun number => ?_⟩
      · rw [LogOutput.capacities_concat, List.map_append, ← h.rings]
        exact Array.toList_push
      · show some log.console.rings.size = some number ↔
          number + 1 = (log.console.rings.push (.empty capacity)).size
        rw [Array.size_push, Option.some_inj]
        omega

theorem serves_foldl (h : log.Serves level outputs) (more : List LogOutput) :
    (more.foldl OpenLog.attached log).Serves level (outputs ++ more) := by
  induction more generalizing log outputs with
  | nil => rwa [List.append_nil]
  | cons output more ih =>
      have hserves := ih (serves_attached h output)
      rwa [List.append_assoc] at hserves

/-- A plan opens unless a ring cannot be made, and then the first such ring is to blame. -/
theorem opened_cases (p : LogPlan) :
    (∃ fault, (capacities p.outputs).findSome? Ring.fault? = some fault ∧
      p.opened = .error fault) ∨
    (capacities p.outputs).findSome? Ring.fault? = none ∧
      ∃ log, p.opened = .ok log ∧ log.Serves p.level p.outputs := by
  have hstart : ({ console := { logger := { threshold := p.level } } } : OpenLog).Serves
      p.level [] :=
    ⟨rfl, rfl, rfl, by simp⟩
  unfold opened
  rw [foldlM_attach]
  cases (capacities p.outputs).findSome? Ring.fault? with
  | some fault => exact .inl ⟨fault, rfl, rfl⟩
  | none => exact .inr ⟨rfl, _, rfl, serves_foldl hstart p.outputs⟩

theorem opened_eq_error_iff (p : LogPlan) {fault : LogFault} :
    p.opened = .error fault ↔ (capacities p.outputs).findSome? Ring.fault? = some fault := by
  rcases p.opened_cases with ⟨fault', hfault, hopened⟩ | ⟨hfits, log, hopened, _⟩
  · rw [hopened, hfault, Except.error.injEq, Option.some_inj]
  · rw [hopened, hfits]
    constructor <;> intro h <;> cases h

end

end LogPlan

/-! ## Using a log -/

namespace LogSession

/-- The records of some actions, made by the logger as it is when each of them is taken. -/
def records (s : LogSession) : List LogAction → List Record
  | [] => []
  | a :: rest => (a.record? s.console.logger).toList ++ (s.act a).records rest

theorem sinks_act (s : LogSession) {a : LogAction} (h : a.sink? = none) :
    (s.act a).console.logger.sinks = s.console.logger.sinks := by
  rw [(s.settings_act a).2.2.1, h]
  exact List.append_nil _

theorem sinks_foldl_act (s : LogSession) {history : List LogAction}
    (h : ∀ a ∈ history, a.sink? = none) :
    (history.foldl act s).console.logger.sinks = s.console.logger.sinks := by
  induction history generalizing s with
  | nil => rfl
  | cons a history ih =>
      obtain ⟨ha, hrest⟩ := List.forall_mem_cons.mp h
      exact (ih (s.act a) hrest).trans (s.sinks_act ha)

/-- As long as no sink is attached, every record goes to the sinks that there are. -/
theorem sends_foldl_act (s : LogSession) {history : List LogAction}
    (h : ∀ a ∈ history, a.sink? = none) :
    s.console.Sends (history.foldl act s).console (s.console.logger.sends (s.records history)) := by
  induction history generalizing s with
  | nil => exact Console.sends_nothing rfl rfl rfl
  | cons a history ih =>
      obtain ⟨ha, hrest⟩ := List.forall_mem_cons.mp h
      refine ((s.sends_act a).trans (ih (s.act a) hrest)).congr fun sink => ?_
      simp only [Logger.sends, records, s.sinks_act ha, List.flatMap_append]

end LogSession

namespace OpenLog

/-- The session of somebody who was just handed a log. -/
def session (log : OpenLog) : LogSession := ⟨log.console, []⟩

/-- The console of a log after some actions. -/
def after (log : OpenLog) (history : List LogAction) : Console :=
  (history.foldl LogSession.act log.session).console

end OpenLog

/-! ## From requests to records -/

/-- Whether the sink of a log was requested; rings are numbered in the order of their requests. -/
def LogOutput.requested (requests : List LogOutput) : Sink → Bool
  | .stdout => .stdout ∈ requests
  | .stderr => .stderr ∈ requests
  | .ring number => number < (capacities requests).length
  | .rows => false

namespace LogPlan

section
variable (level : Level) (requests : List LogOutput)

/-- What was requested is one sink, however often it was requested. -/
theorem count_sinks_ofRequests (sink : Sink) :
    (sinks (ofRequests level requests).outputs).count sink =
      if LogOutput.requested requests sink then 1 else 0 := by
  have hstream (stream : LogOutput) (hconsole : stream.isConsole = true) :
      (sinks (ofRequests level requests).outputs).count (stream.sink 0) =
        if decide (stream ∈ requests) = true then 1 else 0 := by
    simp only [LogOutput.count_sinks _ hconsole, count_outputs level requests hconsole,
      decide_eq_true_eq]
  cases sink with
  | stdout => exact hstream .stdout rfl
  | stderr => exact hstream .stderr rfl
  | ring number =>
      rw [LogOutput.count_sinks_ring, (holds_ofRequests level requests).rings]
      simp only [LogOutput.requested, decide_eq_true_eq]
  | rows => exact LogOutput.count_sinks_rows _

/-- A plan is refused at a ring without room, if all rings that were requested before can be
made. -/
theorem opened_eq_refused_iff :
    (ofRequests level requests).opened = .error (.refused .zeroCapacity) ↔
      ∃ before later, capacities requests = before ++ 0 :: later ∧
        ∀ n ∈ before, 0 < n ∧ n ≤ Ring.most := by
  rw [opened_eq_error_iff, (holds_ofRequests level requests).rings, List.findSome?_eq_some_iff]
  constructor
  · rintro ⟨before, capacity, later, hrings, hfault, hbefore⟩
    obtain rfl := Ring.fault?_eq_refused_iff.mp hfault
    exact ⟨before, later, hrings, fun n hn => Ring.fault?_eq_none_iff.mp (hbefore n hn)⟩
  · rintro ⟨before, later, hrings, hbefore⟩
    exact ⟨before, 0, later, hrings, rfl, fun n hn => Ring.fault?_eq_none_iff.mpr (hbefore n hn)⟩

/-- The program stops at a ring that no memory could hold, if all rings that were requested before
can be made. -/
theorem opened_eq_tooLarge_iff :
    (ofRequests level requests).opened = .error .tooLarge ↔
      ∃ before n later, capacities requests = before ++ n :: later ∧ Ring.most < n ∧
        ∀ m ∈ before, 0 < m ∧ m ≤ Ring.most := by
  rw [opened_eq_error_iff, (holds_ofRequests level requests).rings, List.findSome?_eq_some_iff]
  constructor
  · rintro ⟨before, n, later, hrings, hfault, hbefore⟩
    exact ⟨before, n, later, hrings, Ring.fault?_eq_tooLarge_iff.mp hfault,
      fun m hm => Ring.fault?_eq_none_iff.mp (hbefore m hm)⟩
  · rintro ⟨before, n, later, hrings, hlarge, hbefore⟩
    exact ⟨before, n, later, hrings, Ring.fault?_eq_tooLarge_iff.mpr hlarge,
      fun m hm => Ring.fault?_eq_none_iff.mpr (hbefore m hm)⟩

theorem opened_of_fits (h : ∀ n ∈ capacities requests, 0 < n ∧ n ≤ Ring.most) :
    ∃ log, (ofRequests level requests).opened = .ok log ∧
      log.Serves level (ofRequests level requests).outputs := by
  rcases (ofRequests level requests).opened_cases with
    ⟨fault, hfault, _⟩ | ⟨_, log, hopened, hserves⟩
  · rw [(holds_ofRequests level requests).rings, List.findSome?_eq_some_iff] at hfault
    obtain ⟨before, n, later, hrings, hfault, _⟩ := hfault
    have hfits := h n (hrings ▸ List.mem_append_right before List.mem_cons_self)
    rw [Ring.fault?_eq_none_iff.mpr hfits] at hfault
    cases hfault
  · rw [level_ofRequests] at hserves
    exact ⟨log, hopened, hserves⟩

/-- The outputs of a plan are the streams that were requested, each once and in the order of the
first requests, and one ring for every request of a ring; later requests leave them in their
places.  The plan does not open exactly if a ring was requested that has no room or that no memory
could hold.  The first such request decides: without room, the plan is refused and that is said;
otherwise the program stops.  Where all rings can be made, the log has an empty ring for every
request of one, and the last of them is at hand.  Whatever is then done with the log short of
attaching a sink, what it lets through is handed to the outputs in order, and everything that was
requested has got each record once. -/
theorem opened_ofRequests :
    (ofRequests level requests).outputs.count .stdout ≤ 1 ∧
    (ofRequests level requests).outputs.count .stderr ≤ 1 ∧
    (ofRequests level requests).outputs.filter isConsole =
      (requests.filter isConsole).eraseDups ∧
    capacities (ofRequests level requests).outputs = capacities requests ∧
    (∀ past later, requests = past ++ later →
      (ofRequests level past).outputs <+: (ofRequests level requests).outputs) ∧
    ((ofRequests level requests).opened = .error (.refused .zeroCapacity) ↔
      ∃ before later, capacities requests = before ++ 0 :: later ∧
        ∀ n ∈ before, 0 < n ∧ n ≤ Ring.most) ∧
    ((ofRequests level requests).opened = .error .tooLarge ↔
      ∃ before n later, capacities requests = before ++ n :: later ∧ Ring.most < n ∧
        ∀ m ∈ before, 0 < m ∧ m ≤ Ring.most) ∧
    ((∀ n ∈ capacities requests, n ≤ Ring.most) →
      ((ofRequests level requests).opened = .error (.refused .zeroCapacity) ↔
        .ring 0 ∈ requests)) ∧
    ((∀ n ∈ capacities requests, 0 < n ∧ n ≤ Ring.most) →
      ∃ log, (ofRequests level requests).opened = .ok log ∧
      log.console.logger.threshold = level ∧
      log.console.rings.toList = (capacities requests).map Ring.empty ∧
      (∀ number, log.ring = some number ↔ number + 1 = log.console.rings.size) ∧
      log.ring.bind (log.console.rings[·]?) = (capacities requests).getLast?.map Ring.empty ∧
      ∀ history : List LogAction, (∀ a ∈ history, a.sink? = none) →
        log.console.Sends (log.after history)
          (fun sink => if LogOutput.requested requests sink then log.session.records history
            else []) ∧
        ∀ l target message, (log.after history).logger.enabled l = true →
          (log.after history).log l target message =
            (sinks (ofRequests level requests).outputs).foldl
              (Console.deliver ((log.after history).logger.record l target message))
              (log.after history)) := by
  have hholds := holds_ofRequests level requests
  refine ⟨?_, ?_, hholds.streams, hholds.rings, ?_, opened_eq_refused_iff level requests,
    opened_eq_tooLarge_iff level requests, fun hlarge => ?_, fun hfits => ?_⟩
  · rw [count_outputs level requests rfl]
    split <;> decide
  · rw [count_outputs level requests rfl]
    split <;> decide
  · rintro past later rfl
    exact outputs_isPrefix_ofRequests level past later
  · rw [opened_eq_refused_iff, ← LogOutput.mem_capacities]
    constructor
    · rintro ⟨before, later, hrings, _⟩
      rw [hrings]
      exact List.mem_append_right before List.mem_cons_self
    · intro hzero
      obtain ⟨before, later, hrings, hnot⟩ := List.eq_append_cons_of_mem hzero
      refine ⟨before, later, hrings, fun n hn => ⟨?_, ?_⟩⟩
      · exact Nat.pos_of_ne_zero fun heq => hnot (heq ▸ hn)
      · exact hlarge n (hrings ▸ List.mem_append_left _ hn)
  · obtain ⟨log, hopened, hserves⟩ := opened_of_fits level requests hfits
    have hrings := hserves.rings
    have hlast := last_ring hserves
    rw [hholds.rings] at hrings hlast
    refine ⟨log, hopened, hserves.threshold, hrings, hserves.ring,
      hlast, fun history hattach => ⟨?_, fun l target message henabled => ?_⟩⟩
    · refine (log.session.sends_foldl_act hattach).congr fun sink => ?_
      rw [Logger.sends, OpenLog.session, hserves.sinks, count_sinks_ofRequests]
      split
      · exact List.flatMap_singleton' _
      · exact List.flatMap_eq_nil_iff.mpr fun _ _ => rfl
    · have hsinks : (log.after history).logger.sinks = log.console.logger.sinks :=
        log.session.sinks_foldl_act hattach
      rw [Console.log, if_pos henabled, Console.deliverAll, hsinks, hserves.sinks]

/-- A ring of the largest size that can be asked for is not refused for want of room, and yet there
is no log. -/
theorem opened_largest_ring :
    (ofRequests .info [.ring Text.wordMax]).opened = .error .tooLarge ∧
    ¬(.ring 0 ∉ [LogOutput.ring Text.wordMax] →
      ∃ log, (ofRequests .info [.ring Text.wordMax]).opened = .ok log) := by
  have hopened : (ofRequests .info [.ring Text.wordMax]).opened = .error .tooLarge := rfl
  refine ⟨hopened, fun h => ?_⟩
  obtain ⟨log, hlog⟩ := h (by decide)
  rw [hopened] at hlog
  cases hlog

-- Equal rings are two outputs, and a stream keeps the place of its first request.
example : (ofRequests .info [.ring 2, .stdout, .ring 2, .stdout]).outputs =
    [.ring 2, .stdout, .ring 2] := by
  decide

end

end LogPlan

end Reckon
