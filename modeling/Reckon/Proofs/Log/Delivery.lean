/-
# The log of a program's console

The console of the program has one sink that shows records as rows on the error output, and
before it a ring if one was asked for.  Both get every record that the log lets through, one
after the other.  `Console.Logs` says what such a console holds: every record as a row, the
last of them in the ring, and texts only on the standard output.

What is printed adds no record, and what is noted adds one or none, so any run leaves such a
console again (`Console.Logs.run`).
-/
import Reckon.Proofs.Log.Ring
import Reckon.Proofs.Run.Observers

namespace Reckon

/-! ## Consoles with rows and perhaps a ring -/

namespace Console

/-- `c.Delivers n records`: the console delivers to rows, and before that to a ring if records
are to be kept at all; the ring has room for `n` of them and holds the last of `records`. -/
inductive Delivers (c : Console) (n : Nat) (records : List Record) : Prop
  | rowsOnly : n = 0 → c.logger.sinks = [.rows] → c.rings = #[] → Delivers c n records
  | withRing {ring : Ring} : 0 < n → c.logger.sinks = [.ring 0, .rows] → c.rings = #[ring] →
      ring.capacity = n → ring.Latest records → Delivers c n records

/-- `c.Logs n records`: the console shows every record as a row, keeps the last `n` of them, and
has texts only on its standard output. -/
structure Logs (c : Console) (n : Nat) (records : List Record) : Prop where
  delivers : c.Delivers n records
  err : c.err.toList = records.map Piece.row
  out : c.out.toList = c.texts.map Piece.text

section
variable {c : Console} {n : Nat} {records : List Record}

theorem Delivers.congr {c' : Console} (h : c.Delivers n records)
    (hsinks : c'.logger.sinks = c.logger.sinks) (hrings : c'.rings = c.rings) :
    c'.Delivers n records := by
  cases h with
  | rowsOnly hzero hs hr => exact .rowsOnly hzero (hsinks.trans hs) (hrings.trans hr)
  | withRing hpos hs hr hcapacity hlatest =>
      exact .withRing hpos (hsinks.trans hs) (hrings.trans hr) hcapacity hlatest

theorem Logs.withLogger (h : c.Logs n records) {f : Logger → Logger}
    (hf : ∀ l, (f l).sinks = l.sinks) : (c.withLogger f).Logs n records :=
  ⟨h.delivers.congr (hf c.logger) rfl, h.err, h.out⟩

theorem Logs.print (h : c.Logs n records) (s : String) : (c.print s).Logs n records where
  delivers := h.delivers.congr rfl rfl
  err := h.err
  out := by
    have htexts : (c.print s).texts = c.texts ++ [s] := texts_push c (.text s)
    rw [htexts, List.map_append, ← h.out]
    exact Array.toList_push

theorem Logs.deliverAll (h : c.Logs n records) (r : Record) :
    (c.deliverAll r).Logs n (records ++ [r]) := by
  have herr : (c.err.push (.row r)).toList = (records ++ [r]).map Piece.row := by
    rw [Array.toList_push, h.err, List.map_append]
    rfl
  cases h.delivers with
  | rowsOnly hzero hsinks hrings =>
      have hdelivered : c.deliverAll r = { c with err := c.err.push (.row r) } := by
        rw [Console.deliverAll, hsinks]
        rfl
      rw [hdelivered]
      exact ⟨.rowsOnly hzero hsinks hrings, herr, h.out⟩
  | @withRing ring hpos hsinks hrings hcapacity hlatest =>
      have hdelivered : c.deliverAll r =
          { c with rings := #[ring.write r], err := c.err.push (.row r) } := by
        rw [Console.deliverAll, hsinks]
        show { c with rings := c.rings.modify 0 (·.write r), err := c.err.push (.row r) } = _
        rw [hrings]
        rfl
      rw [hdelivered]
      refine ⟨.withRing hpos hsinks rfl ?_ (hlatest.write r), herr, h.out⟩
      exact (ring.capacity_write r).trans hcapacity

theorem Logs.note (h : c.Logs n records) (m : Note) : ∃ records', (c.note m).Logs n records' := by
  rw [note_eq_log, log]
  split
  · exact ⟨_, h.deliverAll _⟩
  · exact ⟨_, h⟩

theorem Logs.observe (h : c.Logs n records) (e : Event) :
    ∃ records', (c.observe e).Logs n records' := by
  cases e with
  | text s => exact ⟨_, h.print s⟩
  | note m => exact h.note m

theorem Logs.observeAll (h : c.Logs n records) (events : List Event) :
    ∃ records', (c.observeAll events).Logs n records' := by
  induction events generalizing c records with
  | nil => exact ⟨records, h⟩
  | cons e events ih =>
      obtain ⟨_, hfirst⟩ := h.observe e
      exact ih hfirst

theorem Logs.run (h : c.Logs n records) (o : Options) (source : String) :
    ∃ records', (c.run o source).2.Logs n records' := by
  have hentered : (c.withLogger (·.enter "run")).Logs n records := h.withLogger fun _ => rfl
  obtain ⟨records', hafter⟩ := hentered.observeAll (runSource o source).events
  exact ⟨records', hafter.withLogger (f := (·.leave c.logger.nextSpan)) fun _ => rfl⟩

end

end Console

end Reckon
