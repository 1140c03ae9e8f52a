/-
# What a ring holds

A ring is written to, and cleared now and then.  Only the records written since it was last
cleared matter: the ring holds the last of them, as many as it has room for, and has counted
the others (`Holds`).

A write keeps this whether the ring has room, is full, or has no room at all.  In the first
case no record is let go; in the other two one more is, and it is the oldest one there is: the
new record itself if the capacity is zero (`Latest.write`).  So it holds after any changes
(`holds_changeAll`), and everything that can be asked of a ring can be read off the records
written (`changeAll_holds_newest`).
-/
import Mathlib.Data.List.DropRight
import Reckon.Log.Ring

namespace Reckon

theorem Text.occursIn_iff_infix (needle cs : List Char) :
    Text.occursIn needle cs = true ↔ needle <:+: cs := by
  induction cs with
  | nil => simp [Text.occursIn]
  | cons c rest ih =>
      rw [Text.occursIn, Bool.or_eq_true, ih, List.isPrefixOf_iff_prefix, List.infix_cons_iff]

namespace Ring

/-! ## One write -/

/-- The ring holds the last of the records that were written, as many as it has room for. -/
def Latest (ring : Ring) (written : List Record) : Prop :=
  ring.records.toList = written.drop (written.length - ring.capacity)

/-- The ring has room for `room` records, holds the last of those that were written and has
counted the others. -/
structure Holds (ring : Ring) (room : Nat) (written : List Record) : Prop where
  capacity : ring.capacity = room
  latest : ring.Latest written
  dropped : ring.dropped = written.length - room

theorem latest_empty (capacity : Nat) : (empty capacity).Latest [] :=
  List.drop_nil.symm

@[simp]
theorem capacity_write (ring : Ring) (r : Record) : (ring.write r).capacity = ring.capacity := by
  unfold write
  split
  · rfl
  · split <;> rfl

theorem dropped_write (ring : Ring) (r : Record) :
    (ring.write r).dropped =
      if ring.records.size < ring.capacity then ring.dropped else ring.dropped + 1 := by
  unfold write
  split
  · rfl
  · split <;> rfl

section
variable {ring : Ring} {capacity : Nat} {written : List Record}

theorem Latest.size_eq (h : ring.Latest written) :
    ring.records.size = min written.length ring.capacity := by
  have hlength := congrArg List.length h
  rw [List.length_drop, Array.length_toList] at hlength
  omega

theorem Latest.write (h : ring.Latest written) (r : Record) :
    (ring.write r).Latest (written ++ [r]) := by
  have hsize := h.size_eq
  have hrecords : (ring.write r).records.toList =
      (written ++ [r]).drop (written.length + 1 - ring.capacity) := by
    unfold Ring.write
    split
    · next hroom =>
      have hall : written.length - ring.capacity = 0 := by omega
      have hall' : written.length + 1 - ring.capacity = 0 := by omega
      rw [Latest, hall, List.drop_zero] at h
      rw [hall', List.drop_zero, Array.toList_push, h]
    · next hfull =>
      split
      · next hempty =>
        have hzero : ring.records.size = 0 := Array.isEmpty_iff_size_eq_zero.mp hempty
        have hcapacity : ring.capacity = 0 := by omega
        have hnone : ring.records.toList = [] := by
          rw [← List.length_eq_zero_iff, Array.length_toList, hzero]
        rw [hnone, hcapacity, List.drop_of_length_le]
        simp
      · next hempty =>
        have hsome : ring.records.size ≠ 0 := by
          intro hzero
          exact hempty (Array.isEmpty_iff_size_eq_zero.mpr hzero)
        have hoffset : written.length + 1 - ring.capacity = written.length - ring.capacity + 1 := by
          omega
        have hrest : (ring.records.extract 1 ring.records.size).toList =
            ring.records.toList.drop 1 := by
          rw [Array.toList_extract, List.extract_eq_take_drop]
          exact List.take_of_length_le (by simp)
        rw [Array.toList_push, hrest, h, List.drop_drop, hoffset,
          List.drop_append_of_le_length (by omega)]
  rw [Latest, capacity_write, hrecords, List.length_append, List.length_singleton]

theorem holds_empty (capacity : Nat) : (empty capacity).Holds capacity [] :=
  ⟨rfl, latest_empty capacity, (Nat.zero_sub capacity).symm⟩

theorem Holds.write (h : ring.Holds capacity written) (r : Record) :
    (ring.write r).Holds capacity (written ++ [r]) where
  capacity := (capacity_write ring r).trans h.capacity
  latest := h.latest.write r
  dropped := by
    have hsize := h.latest.size_eq
    rw [h.capacity] at hsize
    rw [dropped_write, h.dropped, h.capacity, List.length_append, List.length_singleton]
    split <;> omega

theorem Holds.writeAll (h : ring.Holds capacity written) (records : List Record) :
    (records.foldl Ring.write ring).Holds capacity (written ++ records) := by
  induction records generalizing ring written with
  | nil => exact (List.append_nil written).symm ▸ h
  | cons r rest ih => exact List.append_cons written r rest ▸ ih (h.write r)

theorem Holds.clear (h : ring.Holds capacity written) : ring.clear.Holds capacity [] := by
  rw [Ring.clear, h.capacity]
  exact holds_empty capacity

end

/-! ## Any changes -/

/-- What can be done to a ring. -/
inductive Change where
  | write (r : Record)
  | clear

/-- The record that a change writes. -/
def Change.record? : Change → Option Record
  | write r => some r
  | clear => none

/-- Changes a ring. -/
def change (ring : Ring) : Change → Ring
  | .write r => ring.write r
  | .clear => ring.clear

/-- Changes a ring again and again. -/
def changeAll (ring : Ring) (changes : List Change) : Ring :=
  changes.foldl change ring

/-- The records written since the ring was last cleared. -/
def written (changes : List Change) : List Record :=
  (changes.rtakeWhile (·.record?.isSome)).filterMap Change.record?

/-- The last of some records, as many as there is room for. -/
def newest (capacity : Nat) (records : List Record) : List Record :=
  records.rtake (min records.length capacity)

theorem written_write (changes : List Change) (r : Record) :
    written (changes ++ [.write r]) = written changes ++ [r] := by
  rw [written, List.rtakeWhile_concat_pos _ _ _ rfl, List.filterMap_append]
  rfl

theorem written_clear (changes : List Change) : written (changes ++ [.clear]) = [] := by
  rw [written, List.rtakeWhile_concat_neg _ _ _ Bool.false_ne_true]
  rfl

theorem holds_changeAll (capacity : Nat) (changes : List Change) :
    ((empty capacity).changeAll changes).Holds capacity (written changes) := by
  induction changes using List.reverseRecOn with
  | nil => exact holds_empty capacity
  | append_singleton changes last ih =>
      rw [changeAll, List.foldl_append]
      cases last with
      | write r =>
          rw [written_write]
          exact ih.write r
      | clear =>
          rw [written_clear]
          exact ih.clear

theorem Holds.records {ring : Ring} {capacity : Nat} {written : List Record}
    (h : ring.Holds capacity written) : ring.records.toList = newest capacity written := by
  have hoffset : written.length - min written.length capacity = written.length - capacity := by
    omega
  rw [newest, List.rtake, hoffset, h.latest, h.capacity]

/-- A ring that is written to and cleared in any order holds the last of the records written
since it was last cleared, as many as it has room for, and in their order.  Their words are its
messages, and it mentions what occurs in one of these.  It has counted all other records written
since then, and it never holds more than it has room for. -/
theorem changeAll_holds_newest (capacity : Nat) (changes : List Change) :
    ((empty capacity).changeAll changes).records.toList = newest capacity (written changes) ∧
    ((empty capacity).changeAll changes).messages =
      (newest capacity (written changes)).map Record.message ∧
    (∀ needle, ((empty capacity).changeAll changes).mentions needle = true ↔
      ∃ r ∈ newest capacity (written changes), needle.toList <:+: r.message.toList) ∧
    ((empty capacity).changeAll changes).dropped =
      (written changes).length - (newest capacity (written changes)).length ∧
    (newest capacity (written changes)).length = min (written changes).length capacity ∧
    ((empty capacity).changeAll changes).size ≤ capacity := by
  have hholds := holds_changeAll capacity changes
  have hrecords := hholds.records
  have hsize := hholds.latest.size_eq
  rw [hholds.capacity] at hsize
  have hlength : (newest capacity (written changes)).length =
      min (written changes).length capacity := by
    rw [← hrecords, Array.length_toList, hsize]
  have hmessages : ((empty capacity).changeAll changes).messages =
      (newest capacity (written changes)).map Record.message := by
    rw [messages, hrecords]
  refine ⟨hrecords, hmessages, ?_, ?_, hlength, ?_⟩
  · intro needle
    rw [mentions, hmessages, List.any_map, List.any_eq_true]
    simp only [Function.comp_apply, Text.occursIn_iff_infix]
  · rw [hholds.dropped, hlength]
    omega
  · rw [size, hsize]
    exact Nat.min_le_right ..

-- A ring without room keeps nothing and counts everything since it was cleared.
example (r : Record) : ((empty 0).changeAll [.write r, .clear, .write r, .write r]).dropped = 2 :=
  rfl

end Ring

end Reckon
