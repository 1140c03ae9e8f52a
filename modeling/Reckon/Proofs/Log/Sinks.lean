/-
# What the sinks of a console are sent

A record is handed to the sinks of the log one after the other, and each of them keeps it in
its own way: a ring among its last records, a stream as a line or as a row.  What a sink was
sent between two states of a console can be told all the same, by comparing them sink by sink
(`Console.Sends`).

A sink that is attached several times gets every record as many times (`sends_deliverAll`), and
neither a text nor a change of the logger sends anything.  So what is sent by some events are
the records of their notes, as far as the log lets them through (`sends_observeAll`); and they
are all made by the same logger, since no event changes it (`logger_observeAll`).
-/
import Mathlib.Data.List.Count
import Reckon.Console

namespace Reckon

/-- The record that stands on a line of its own. -/
def Piece.line? : Piece → Option Record
  | line r => some r
  | text _ => none
  | row _ => none

/-- The record that stands in a row. -/
def Piece.row? : Piece → Option Record
  | row r => some r
  | text _ => none
  | line _ => none

theorem Piece.filterMap_push {β : Type} (view : Piece → Option β) (pieces : Array Piece)
    (piece : Piece) :
    (pieces.push piece).toList.filterMap view =
      pieces.toList.filterMap view ++ (view piece).toList := by
  rw [Array.toList_push, List.filterMap_append, List.filterMap_cons, List.filterMap_nil]
  cases view piece <;> rfl

namespace Console

/-- `c.Sends c' sent`: from `c` to `c'` every sink was sent its own records in `sent`, in order
and no others. -/
structure Sends (c c' : Console) (sent : Sink → List Record) : Prop where
  rings : ∀ index, c'.rings[index]? =
    c.rings[index]?.map fun ring => (sent (.ring index)).foldl Ring.write ring
  stdout : c'.out.toList.filterMap Piece.line? = c.out.toList.filterMap Piece.line? ++ sent .stdout
  stderr : c'.err.toList.filterMap Piece.line? = c.err.toList.filterMap Piece.line? ++ sent .stderr
  rows : c'.err.toList.filterMap Piece.row? = c.err.toList.filterMap Piece.row? ++ sent .rows

section
variable {c c' c'' : Console} {sent sent' : Sink → List Record}

/-- Nothing was sent if only the logger and the texts are different. -/
theorem sends_nothing (hrings : c'.rings = c.rings)
    (hout : c'.out.toList.filterMap Piece.line? = c.out.toList.filterMap Piece.line?)
    (herr : c'.err = c.err) : c.Sends c' fun _ => [] where
  rings := by
    intro index
    rw [hrings]
    exact Option.map_id'.symm
  stdout := hout.trans (List.append_nil _).symm
  stderr := by rw [herr, List.append_nil]
  rows := by rw [herr, List.append_nil]

theorem Sends.trans (h : c.Sends c' sent) (h' : c'.Sends c'' sent') :
    c.Sends c'' fun sink => sent sink ++ sent' sink where
  rings := by
    intro index
    rw [h'.rings, h.rings, Option.map_map]
    congr 1
    funext ring
    exact (List.foldl_append ..).symm
  stdout := by rw [h'.stdout, h.stdout, List.append_assoc]
  stderr := by rw [h'.stderr, h.stderr, List.append_assoc]
  rows := by rw [h'.rows, h.rows, List.append_assoc]

theorem Sends.congr (h : c.Sends c' sent) (heq : ∀ sink, sent sink = sent' sink) :
    c.Sends c' sent' := by
  rw [← funext heq]
  exact h

end

section
variable (c : Console)

theorem sends_withLogger (f : Logger → Logger) : c.Sends (c.withLogger f) fun _ => [] :=
  sends_nothing rfl rfl rfl

theorem sends_print (s : String) : c.Sends (c.print s) fun _ => [] := by
  refine sends_nothing rfl ?_ rfl
  exact (Piece.filterMap_push Piece.line? c.out (.text s)).trans (List.append_nil _)

/-! ## Delivery -/

@[simp]
theorem logger_deliver (r : Record) (sink : Sink) : (c.deliver r sink).logger = c.logger := by
  cases sink <;> rfl

/-- A sink that is handed a record is sent it, and no other sink is. -/
theorem sends_deliver (r : Record) (sink : Sink) :
    c.Sends (c.deliver r sink) fun other => if other = sink then [r] else [] := by
  -- What is written on one stream leaves the other and the rings as they were.
  have hrings (index : Nat) : c.rings[index]? = c.rings[index]?.map fun ring => ring :=
    Option.map_id'.symm
  have hnone (records : List Record) : records = records ++ [] := (List.append_nil _).symm
  cases sink with
  | ring index =>
      refine ⟨fun other => ?_, hnone _, hnone _, hnone _⟩
      show (c.rings.modify index (·.write r))[other]? = _
      rw [Array.getElem?_modify]
      by_cases h : index = other
      · subst h
        rw [if_pos rfl, if_pos rfl]
        rfl
      · have hne : Sink.ring other ≠ Sink.ring index := by
          intro heq
          cases heq
          exact h rfl
        rw [if_neg h, if_neg hne]
        exact hrings other
  | stdout => exact ⟨hrings, Piece.filterMap_push _ _ (.line r), hnone _, hnone _⟩
  | stderr =>
      exact ⟨hrings, hnone _, Piece.filterMap_push _ _ (.line r),
        Piece.filterMap_push _ _ (.line r)⟩
  | rows =>
      exact ⟨hrings, hnone _, Piece.filterMap_push _ _ (.row r), Piece.filterMap_push _ _ (.row r)⟩

/-- Every sink is sent the record as often as it stands in the list. -/
theorem sends_foldl_deliver (r : Record) (sinks : List Sink) :
    (sinks.foldl (deliver r) c).logger = c.logger ∧
      c.Sends (sinks.foldl (deliver r) c) fun sink => List.replicate (sinks.count sink) r := by
  induction sinks generalizing c with
  | nil => exact ⟨rfl, sends_nothing rfl rfl rfl⟩
  | cons first rest ih =>
      obtain ⟨hlogger, hrest⟩ := ih (c.deliver r first)
      refine ⟨hlogger.trans (logger_deliver ..), ((c.sends_deliver r first).trans hrest).congr ?_⟩
      intro sink
      by_cases h : sink = first
      · subst h
        rw [if_pos rfl, List.count_cons_self, List.replicate_succ]
        rfl
      · rw [if_neg h, List.count_cons_of_ne (Ne.symm h)]
        rfl

theorem logger_deliverAll (r : Record) : (c.deliverAll r).logger = c.logger :=
  (sends_foldl_deliver c r c.logger.sinks).1

theorem sends_deliverAll (r : Record) :
    c.Sends (c.deliverAll r) fun sink => List.replicate (c.logger.sinks.count sink) r :=
  (sends_foldl_deliver c r c.logger.sinks).2

end

end Console

/-! ## Records -/

/-- The record of some words, if their level is not below the threshold. -/
def Logger.record? (l : Logger) (level : Level) (target message : String) : Option Record :=
  if l.enabled level then some (l.record level target message) else none

theorem Logger.eq_of_record? {l : Logger} {level : Level} {target message : String} {r : Record}
    (h : l.record? level target message = some r) : r = l.record level target message := by
  unfold record? at h
  split at h
  · exact (Option.some.inj h).symm
  · cases h

/-- What a logger sends to a sink when it is given some records. -/
def Logger.sends (l : Logger) (records : List Record) (sink : Sink) : List Record :=
  records.flatMap (List.replicate (l.sinks.count sink))

namespace Console

variable (c : Console)

theorem logger_log (level : Level) (target message : String) :
    (c.log level target message).logger = c.logger := by
  unfold log
  split
  · exact c.logger_deliverAll _
  · rfl

theorem sends_log (level : Level) (target message : String) :
    c.Sends (c.log level target message)
      (c.logger.sends (c.logger.record? level target message).toList) := by
  unfold log Logger.record? Logger.sends
  split
  · refine (c.sends_deliverAll _).congr fun sink => ?_
    exact (List.flatMap_singleton ..).symm
  · exact sends_nothing rfl rfl rfl

/-- The records of some notes, as far as the log lets them through. -/
def recordsOf (notes : List Note) : List Record :=
  notes.filterMap fun n => c.logger.record? n.level n.target n.message

/-- The words of the records of a level are those of the notes of that level, if they are let
through at all. -/
theorem messages_recordsOf {c : Console} {level : Level} (h : c.logger.enabled level = true)
    (notes : List Note) :
    ((c.recordsOf notes).filter (·.level = level)).map Record.message =
      (notes.filter (·.level = level)).map Note.message := by
  induction notes with
  | nil => rfl
  | cons n rest ih =>
      rw [recordsOf, List.filterMap_cons, ← recordsOf, List.filter_cons]
      by_cases hn : n.level = level
      · rw [Logger.record?, hn, if_pos h]
        simp [Logger.record, ih]
      · rw [if_neg (by simpa using hn), ← ih]
        cases hr : c.logger.record? n.level n.target n.message with
        | none => rfl
        | some r =>
            have hlevel : r.level ≠ level := by
              rw [Logger.eq_of_record? hr]
              exact hn
            simp [hlevel]

theorem logger_observe (e : Event) : (c.observe e).logger = c.logger := by
  cases e with
  | text s => rfl
  | note n =>
      show (c.note n).logger = c.logger
      rw [note_eq_log]
      exact c.logger_log ..

theorem sends_observe (e : Event) :
    c.Sends (c.observe e) (c.logger.sends (c.recordsOf e.note?.toList)) := by
  cases e with
  | text s => exact c.sends_print s
  | note n =>
      show c.Sends (c.note n) _
      rw [note_eq_log]
      refine (c.sends_log n.level n.target n.message).congr fun sink => ?_
      rw [recordsOf, Event.note?, Option.toList_some, List.filterMap_cons, List.filterMap_nil]
      cases c.logger.record? n.level n.target n.message <;> rfl

theorem logger_observeAll (events : List Event) : (c.observeAll events).logger = c.logger := by
  induction events generalizing c with
  | nil => rfl
  | cons e rest ih => exact (ih (c.observe e)).trans (c.logger_observe e)

theorem sends_observeAll (events : List Event) :
    c.Sends (c.observeAll events)
      (c.logger.sends (c.recordsOf (events.filterMap Event.note?))) := by
  induction events generalizing c with
  | nil => exact sends_nothing rfl rfl rfl
  | cons e rest ih =>
      refine ((c.sends_observe e).trans (ih (c.observe e))).congr fun sink => ?_
      simp only [recordsOf, Logger.sends, c.logger_observe e]
      rw [← List.flatMap_append, ← List.filterMap_append, List.filterMap_cons]
      cases e.note? <;> rfl

end Console

end Reckon
