/-
# A log in use

Whoever uses a log attaches sinks to it, sets its threshold, logs words, enters spans and drops
the guards that it was handed for them, in any order.  This module follows a logger from the
moment it is made through any such actions.

A guard can only be dropped by somebody who holds it, and then it is gone.  So a session keeps
the guards that are held beside the console, and an action names the guard to be dropped by its
place among them.  The logger knows nothing of this list; it finds a span by its number.  It
finds the right one because numbers are given out in order and never again, and so the open
spans are those whose guards are held, also after guards were dropped from the middle
(`guards_hold_spans`).

What was set last is in force: `Follows` says what the logger is, given the actions so far.  An
action that logs makes a record there or none, and a record goes once to each attachment of a
sink.  So what a sink was sent can be told from the actions alone (`after_sends`), and with it
what a ring holds in the end (`rings_after`).
-/
import Mathlib.Data.List.Infix
import Reckon.Proofs.Log.Ring
import Reckon.Proofs.Log.Sinks

namespace Reckon

/-! ## Leaving a span -/

/-- Of the spans with one number, the last is left. -/
theorem Logger.spans_leave {l : Logger} {before later : List Span} {span : Span}
    (hspans : l.spans = before ++ span :: later) (hlater : ∀ s ∈ later, s.id ≠ span.id) :
    (l.leave span.id).spans = before ++ later := by
  have hkept : ∀ s ∈ later.reverse, ¬decide (s.id = span.id) = true := by
    intro s hs
    rw [decide_eq_true_eq]
    exact hlater s (List.mem_reverse.mp hs)
  show (l.spans.reverse.eraseP (·.id = span.id)).reverse = before ++ later
  have hfound : ∀ rest : List Span, (span :: rest).eraseP (·.id = span.id) = rest := by
    intro rest
    exact List.eraseP_cons_of_pos (decide_eq_true rfl)
  rw [hspans, List.reverse_append, List.reverse_cons, List.append_assoc,
    List.eraseP_append_right _ hkept, List.singleton_append, hfound, List.reverse_append,
    List.reverse_reverse, List.reverse_reverse]

/-- Entering a span and leaving it uses up its number, and that is all. -/
theorem Logger.leave_enter (l : Logger) (name : String) :
    (l.enter name).leave l.nextSpan = { l with nextSpan := l.nextSpan + 1 } := by
  have hspans : ((l.enter name).leave (Span.mk l.nextSpan name).id).spans = l.spans ++ [] :=
    spans_leave rfl (by simp)
  rw [List.append_nil] at hspans
  exact congrArg (fun spans => { l.enter name with spans := spans }) hspans

/-! ## Actions -/

/-- What can be done with a log, or happen to it. -/
inductive LogAction where
  | attach (sink : Sink)
  | setLevel (level : Level)
  /-- The clock comes to show another time. -/
  | wait (time : Nat)
  | log (level : Level) (target message : String)
  /-- Asks for the level first, and logs only then. -/
  | announce (level : Level) (target message : String)
  | enter (name : String)
  /-- Drops the guard at a place among those that are held. -/
  | drop (place : Nat)
deriving DecidableEq

namespace LogAction

/-- The sink that an action attaches. -/
def sink? : LogAction → Option Sink
  | attach sink => some sink
  | _ => none

/-- The threshold that an action sets. -/
def level? : LogAction → Option Level
  | setLevel level => some level
  | _ => none

/-- The time that an action brings. -/
def time? : LogAction → Option Nat
  | wait time => some time
  | _ => none

/-- The name of the span that an action enters. -/
def name? : LogAction → Option String
  | enter name => some name
  | _ => none

/-- The record that an action makes with a logger. -/
def record? (l : Logger) : LogAction → Option Record
  | log level target message => l.record? level target message
  | announce level target message => l.record? level target message
  | _ => none

end LogAction

/-- A console, and the guards of spans that are held outside of it. -/
structure LogSession where
  console : Console
  /-- The guards that are held, in the order of entry, each with its span. -/
  guards : List Span

namespace LogSession

/-- The session of a logger that was just made. -/
def start (c : Console) (level : Level) : LogSession where
  console := c.withLogger fun l => { threshold := level, time := l.time }
  guards := []

/-- What an action does. -/
def act (s : LogSession) : LogAction → LogSession
  | .attach sink => { s with console := s.console.withLogger (·.attach sink) }
  | .setLevel level =>
    { s with console := s.console.withLogger ({ · with threshold := level }) }
  | .wait time => { s with console := s.console.withLogger ({ · with time }) }
  | .log level target message => { s with console := s.console.log level target message }
  | .announce level target message =>
    { s with console := s.console.announce level target fun _ => message }
  | .enter name =>
    { console := s.console.withLogger (·.enter name)
      guards := s.guards ++ [⟨s.console.logger.nextSpan, name⟩] }
  | .drop place =>
    match s.guards[place]? with
    | none => s
    | some guard =>
      { console := s.console.withLogger (·.leave guard.id)
        guards := s.guards.eraseIdx place }

/-- A session after some actions. -/
def after (c : Console) (level : Level) (history : List LogAction) : LogSession :=
  history.foldl act (start c level)

/-! ## What the actions so far say -/

/-- The threshold in force: what was set last, or the one the logger was made with. -/
def thresholdAfter (level : Level) (history : List LogAction) : Level :=
  (history.filterMap LogAction.level?).getLast?.getD level

/-- The time on the clock. -/
def timeAfter (time : Nat) (history : List LogAction) : Nat :=
  (history.filterMap LogAction.time?).getLast?.getD time

/-- All spans that were entered, numbered from one on. -/
def entered (history : List LogAction) : List Span :=
  ((history.filterMap LogAction.name?).zipIdx 1).map fun named => ⟨named.2, named.1⟩

/-- The record of an action that comes after others: there is none if its level is below the
threshold in force. -/
def recordAfter (c : Console) (level : Level) (history : List LogAction) :
    LogAction → Option Record
  | .log l target message | .announce l target message =>
    if (thresholdAfter level history).rank ≤ l.rank then
      some ⟨timeAfter c.logger.time history, l, target, message,
        (after c level history).guards.getLast?.map Span.id⟩
    else none
  | _ => none

/-- What a sink is sent in the course of some actions: the record of each of them, as many times
as the sink was attached by the actions before it. -/
def sentTo (c : Console) (level : Level) (history : List LogAction) (sink : Sink) :
    List Record :=
  (history.inits.zip history).flatMap fun (past, action) =>
    (recordAfter c level past action).toList.flatMap
      (List.replicate (past.count (.attach sink)))

section
variable (history : List LogAction) (last : LogAction)

theorem after_concat (c : Console) (level : Level) :
    after c level (history ++ [last]) = (after c level history).act last := by
  rw [after, List.foldl_append]
  rfl

theorem getLast?_filterMap_concat {α : Type} (set? : LogAction → Option α) (initial : α) :
    ((history ++ [last]).filterMap set?).getLast?.getD initial =
      (set? last).getD ((history.filterMap set?).getLast?.getD initial) := by
  rw [List.filterMap_append, List.filterMap_cons, List.filterMap_nil]
  cases set? last with
  | none => rw [List.append_nil, Option.getD_none]
  | some value => rw [List.getLast?_concat, Option.getD_some, Option.getD_some]

theorem count_filterMap_sink? (sink : Sink) :
    (history.filterMap LogAction.sink?).count sink = history.count (.attach sink) := by
  rw [List.count_filterMap, List.count]
  refine List.countP_congr fun action _ => ?_
  cases action <;> simp [LogAction.sink?]

theorem entered_concat :
    entered (history ++ [last]) =
      entered history ++ last.name?.toList.map fun name => ⟨(entered history).length + 1, name⟩ := by
  have hlength : (entered history).length = (history.filterMap LogAction.name?).length := by
    rw [entered, List.length_map, List.length_zipIdx]
  rw [hlength, entered, List.filterMap_append, List.zipIdx_append, List.map_append, ← entered,
    List.filterMap_cons, Nat.add_comm 1]
  cases last.name? <;> rfl

theorem pairwise_entered : (entered history).Pairwise fun a b => a.id < b.id := by
  have hids : (entered history).map Span.id =
      List.range' 1 (history.filterMap LogAction.name?).length := by
    rw [entered, List.map_map, ← List.zipIdx_map_snd]
    rfl
  rw [← List.pairwise_map (f := Span.id) (R := (· < ·)), hids]
  exact List.pairwise_lt_range'

theorem zip_inits_concat {α : Type} (past : List α) (a : α) :
    (past ++ [a]).inits.zip (past ++ [a]) = past.inits.zip past ++ [(past, a)] := by
  induction past with
  | nil => rfl
  | cons b rest ih =>
      simp only [List.cons_append, List.inits_cons, List.zip_cons_cons, List.zip_map_left, ih,
        List.map_append]
      rfl

theorem sentTo_concat (c : Console) (level : Level) (sink : Sink) :
    sentTo c level (history ++ [last]) sink =
      sentTo c level history sink ++ (recordAfter c level history last).toList.flatMap
        (List.replicate (history.count (.attach sink))) := by
  rw [sentTo, zip_inits_concat, List.flatMap_append, List.flatMap_singleton]
  rfl

end

/-! ## What an action does to the logger -/

section
variable (s : LogSession)

/-- Asking for the level first makes no difference. -/
theorem act_announce (level : Level) (target message : String) :
    s.act (.announce level target message) = s.act (.log level target message) := by
  simp only [act, Console.announce_eq_log]

theorem act_drop_of_none {place : Nat} (h : s.guards[place]? = none) :
    s.act (.drop place) = s := by
  simp only [act, h]

theorem act_drop_of_some {place : Nat} {guard : Span} (h : s.guards[place]? = some guard) :
    s.act (.drop place) =
      ⟨s.console.withLogger (·.leave guard.id), s.guards.eraseIdx place⟩ := by
  simp only [act, h]

theorem settings_act (a : LogAction) :
    (s.act a).console.logger.threshold = a.level?.getD s.console.logger.threshold ∧
    (s.act a).console.logger.time = a.time?.getD s.console.logger.time ∧
    (s.act a).console.logger.sinks = s.console.logger.sinks ++ a.sink?.toList ∧
    (s.act a).console.logger.nextSpan = s.console.logger.nextSpan + a.name?.toList.length := by
  have hnone : s.console.logger.sinks = s.console.logger.sinks ++ [] := (List.append_nil _).symm
  have hlog (level : Level) (target message : String) :
      (s.act (.log level target message)).console.logger = s.console.logger :=
    s.console.logger_log level target message
  cases a with
  | attach sink => exact ⟨rfl, rfl, rfl, rfl⟩
  | setLevel level => exact ⟨rfl, rfl, hnone, rfl⟩
  | wait time => exact ⟨rfl, rfl, hnone, rfl⟩
  | log level target message =>
      rw [hlog]
      exact ⟨rfl, rfl, hnone, rfl⟩
  | announce level target message =>
      rw [act_announce, hlog]
      exact ⟨rfl, rfl, hnone, rfl⟩
  | enter name => exact ⟨rfl, rfl, hnone, rfl⟩
  | drop place =>
      cases hguard : s.guards[place]? with
      | none =>
          rw [act_drop_of_none s hguard]
          exact ⟨rfl, rfl, hnone, rfl⟩
      | some guard =>
          rw [act_drop_of_some s hguard]
          exact ⟨rfl, rfl, hnone, rfl⟩

/-- Only logging sends anything. -/
theorem sends_act (a : LogAction) :
    s.console.Sends (s.act a).console
      (s.console.logger.sends (a.record? s.console.logger).toList) := by
  cases a with
  | log level target message => exact s.console.sends_log level target message
  | announce level target message =>
      rw [act_announce]
      exact s.console.sends_log level target message
  | attach | setLevel | wait | enter => exact Console.sends_nothing rfl rfl rfl
  | drop place =>
      cases hguard : s.guards[place]? with
      | none =>
          rw [act_drop_of_none s hguard]
          exact Console.sends_nothing rfl rfl rfl
      | some guard =>
          rw [act_drop_of_some s hguard]
          exact Console.sends_nothing rfl rfl rfl

end

/-! ## Sessions -/

/-- What a session is after some actions. -/
structure Follows (s : LogSession) (c : Console) (level : Level) (history : List LogAction) :
    Prop where
  threshold : s.console.logger.threshold = thresholdAfter level history
  time : s.console.logger.time = timeAfter c.logger.time history
  sinks : s.console.logger.sinks = history.filterMap LogAction.sink?
  next : s.console.logger.nextSpan = (entered history).length + 1
  held : s.guards.Sublist (entered history)
  spans : s.console.logger.spans = s.guards

section
variable {s : LogSession} {c : Console} {level : Level} {history : List LogAction}

/-- Whichever guard is dropped, its own span goes, since no other has its number. -/
theorem Follows.spans_drop (h : s.Follows c level history) {place : Nat} {guard : Span}
    (hguard : s.guards[place]? = some guard) :
    (s.console.logger.leave guard.id).spans = s.guards.eraseIdx place := by
  obtain ⟨hplace, hget⟩ := List.getElem?_eq_some_iff.mp hguard
  have hsplit : s.guards = s.guards.take place ++ guard :: s.guards.drop (place + 1) := by
    rw [← hget, List.getElem_cons_drop, List.take_append_drop]
  have hordered : s.guards.Pairwise fun a b => a.id < b.id := (pairwise_entered _).sublist h.held
  rw [hsplit, List.pairwise_append, List.pairwise_cons] at hordered
  rw [List.eraseIdx_eq_take_drop_succ]
  -- Numbers grow along the guards, so the last span with this number is the only one.
  refine Logger.spans_leave (h.spans.trans hsplit) fun later hlater => ?_
  exact Nat.ne_of_gt (hordered.2.1.1 later hlater)

/-- The guards stay in the order of entry, and the spans follow them. -/
theorem Follows.guards_act (h : s.Follows c level history) (a : LogAction) :
    (s.act a).guards.Sublist (entered (history ++ [a])) ∧
      (s.act a).console.logger.spans = (s.act a).guards := by
  rw [entered_concat]
  have hkept : s.guards.Sublist (entered history ++ []) := by
    rw [List.append_nil]
    exact h.held
  cases a with
  | attach | setLevel | wait => exact ⟨hkept, h.spans⟩
  | log l target message =>
      exact ⟨hkept, (congrArg Logger.spans (s.console.logger_log ..)).trans h.spans⟩
  | announce l target message =>
      rw [act_announce]
      exact ⟨hkept, (congrArg Logger.spans (s.console.logger_log ..)).trans h.spans⟩
  | enter name =>
      have hheld : (s.guards ++ [Span.mk s.console.logger.nextSpan name]).Sublist
          (entered history ++ [Span.mk ((entered history).length + 1) name]) := by
        rw [h.next]
        exact h.held.append (List.Sublist.refl _)
      exact ⟨hheld, congrArg (· ++ [Span.mk s.console.logger.nextSpan name]) h.spans⟩
  | drop place =>
      cases hguard : s.guards[place]? with
      | none =>
          rw [act_drop_of_none s hguard]
          exact ⟨hkept, h.spans⟩
      | some guard =>
          rw [act_drop_of_some s hguard]
          exact ⟨(List.eraseIdx_sublist ..).trans hkept, h.spans_drop hguard⟩

theorem Follows.act (h : s.Follows c level history) (a : LogAction) :
    (s.act a).Follows c level (history ++ [a]) := by
  obtain ⟨hthreshold, htime, hsinks, hnext⟩ := s.settings_act a
  obtain ⟨hheld, hspans⟩ := h.guards_act a
  refine ⟨?_, ?_, ?_, ?_, hheld, hspans⟩
  · rw [hthreshold, h.threshold]
    exact (getLast?_filterMap_concat history a _ _).symm
  · rw [htime, h.time]
    exact (getLast?_filterMap_concat history a _ _).symm
  · rw [hsinks, h.sinks, List.filterMap_append, List.filterMap_cons]
    cases a.sink? <;> rfl
  · rw [hnext, h.next, entered_concat, List.length_append, List.length_map]
    omega

end

section
variable (c : Console) (level : Level) (history : List LogAction)

theorem follows_after : (after c level history).Follows c level history := by
  induction history using List.reverseRecOn with
  | nil => exact ⟨rfl, rfl, rfl, rfl, List.Sublist.refl _, rfl⟩
  | append_singleton history last ih =>
      rw [after_concat]
      exact ih.act last

theorem record?_after (a : LogAction) :
    a.record? (after c level history).console.logger = recordAfter c level history a := by
  have h := follows_after c level history
  have hrecord (l : Level) (target message : String) :
      (after c level history).console.logger.record? l target message =
        recordAfter c level history (.log l target message) := by
    unfold Logger.record? Logger.enabled Logger.record Logger.current? recordAfter
    rw [h.threshold, h.time, h.spans]
    simp only [decide_eq_true_eq]
  cases a with
  | log l target message => exact hrecord l target message
  | announce l target message => exact hrecord l target message
  | attach | setLevel | wait | enter | drop => rfl

/-- Whatever the actions, the open spans are those whose guards are held, in the order of entry.
Spans are numbered from one on as they are entered.  A guard that is dropped takes its own span
with it and no other.  So the depth is the number of guards held, and the current span, which is
the one that a record names, is that of the guard among them handed out last. -/
theorem guards_hold_spans :
    (after c level history).console.logger.spans = (after c level history).guards ∧
    (after c level history).guards.Sublist (entered history) ∧
    (entered history).Pairwise (fun a b => a.id < b.id) ∧
    (∀ name, (after c level (history ++ [.enter name])).guards =
      (after c level history).guards ++ [⟨(entered history).length + 1, name⟩]) ∧
    (∀ place guard, (after c level history).guards[place]? = some guard →
      (after c level history).console.logger.spans[place]? = some guard ∧
      (after c level (history ++ [.drop place])).console.logger.spans =
        (after c level history).console.logger.spans.eraseIdx place) ∧
    (after c level history).console.logger.depth = (after c level history).guards.length ∧
    (after c level history).console.logger.current? =
      (after c level history).guards.getLast? ∧
    ∀ l target message, (after c level history).console.logger.enabled l = true →
      (after c level history).console.log l target message =
        (after c level history).console.deliverAll
          ⟨timeAfter c.logger.time history, l, target, message,
            (after c level history).guards.getLast?.map Span.id⟩ := by
  have h := follows_after c level history
  refine ⟨h.spans, h.held, pairwise_entered history, ?_, ?_, congrArg List.length h.spans,
    congrArg List.getLast? h.spans, ?_⟩
  · intro name
    rw [after_concat, ← h.next]
    rfl
  · intro place guard hguard
    refine ⟨h.spans ▸ hguard, ?_⟩
    rw [after_concat, act_drop_of_some _ hguard, h.spans]
    exact h.spans_drop hguard
  · intro l target message hl
    rw [Console.log, if_pos hl, Logger.record, Logger.current?, h.time, h.spans]

-- The guard that was handed out first is dropped first, and the inner span stays.
example :
    (after .silent .info [.enter "run", .enter "execute", .drop 0]).console.logger.spans =
      [⟨2, "execute"⟩] := by
  decide

theorem sends_after : c.Sends (after c level history).console (sentTo c level history) := by
  -- On the last action: what it sends is read off the logger that the others have left.
  induction history using List.reverseRecOn with
  | nil => exact Console.sends_nothing rfl rfl rfl
  | append_singleton history last ih =>
      rw [after_concat]
      refine (ih.trans (sends_act _ last)).congr fun sink => ?_
      rw [sentTo_concat, record?_after, Logger.sends, (follows_after c level history).sinks,
        count_filterMap_sink?]

/-- Every sink, and so every ring, is sent the records of the words that were logged, directly or
after asking for the level: those whose level was not below the threshold then in force, in
order, each as many times as the sink had been attached by then, and with the span current at
that moment.  Words below the threshold reach no sink and change nothing. -/
theorem after_sends :
    c.Sends (after c level history).console (sentTo c level history) ∧
    ∀ l target message, l.rank < (thresholdAfter level history).rank →
      after c level (history ++ [.log l target message]) = after c level history ∧
      after c level (history ++ [.announce l target message]) = after c level history := by
  refine ⟨sends_after c level history, ?_⟩
  intro l target message hbelow
  have hclosed : ¬(after c level history).console.logger.enabled l = true := by
    rw [Logger.enabled, (follows_after c level history).threshold, decide_eq_true_eq]
    exact Nat.not_le.mpr hbelow
  have hlog : (after c level history).console.log l target message =
      (after c level history).console := if_neg hclosed
  rw [after_concat, after_concat, LogSession.act, LogSession.act, Console.announce_eq_log, hlog]
  exact ⟨rfl, rfl⟩

/-- A ring that was made by some changes and then used in a session holds the last of the records
that were written to it before and that were sent to it in the session, as many as it has room
for, and has counted all others. -/
theorem rings_after {index capacity : Nat} {changes : List Ring.Change}
    (hring : c.rings[index]? = some ((Ring.empty capacity).changeAll changes)) :
    ∃ ring, (after c level history).console.rings[index]? = some ring ∧
      ring.records.toList =
        Ring.newest capacity (Ring.written changes ++ sentTo c level history (.ring index)) ∧
      ring.dropped =
        (Ring.written changes ++ sentTo c level history (.ring index)).length - capacity := by
  have hholds := (Ring.holds_changeAll capacity changes).writeAll
    (sentTo c level history (.ring index))
  refine ⟨_, ?_, hholds.records, hholds.dropped⟩
  rw [(sends_after c level history).rings index, hring]
  rfl

end

end LogSession

end Reckon
