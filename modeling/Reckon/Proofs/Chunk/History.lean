/-
# The history of a chunk

A chunk is built by edits, and what they add can be read off it: bytes and lines in the
order in which they were written, and every constant at the place that it was given when it
was added (`code_editAll`, `values_editAll`).

Its capacity tells how long it is, up to the next doubling.  The invariant is `Grown`: the
capacity is the `k`-th of the row 8, 16, 32, …, the code fits, and it fits no earlier one.
A byte keeps `k`, or finds the chunk full and moves on by one; and in just that case there
is a note (`Grown.write`).  So after any edits the notes are those of all doublings up to
`k`, in order and without gaps (`Grown.editAll`, `editAll_history`).
-/
import Mathlib.Algebra.Group.Nat.Defs
import Reckon.Proofs.Chunk.Assembly
import Reckon.Proofs.Log.Sinks

namespace Reckon.Chunk

/-! ## Constants -/

theorem values_writeAll (bs : List CodeByte) (c : Chunk) :
    (c.writeAll bs).result.constants = c.constants := by
  induction bs generalizing c with
  | nil => rfl
  | cons b bs ih => exact ih (c.write b.byte b.line)

theorem values_addConstants (values : List Float) (c : Chunk) :
    (values.foldl addConstant c).constants.values.toList =
      c.constants.values.toList ++ values := by
  induction values generalizing c with
  | nil => exact (List.append_nil _).symm
  | cons value values ih =>
      have hrest := ih (c.addConstant value)
      rw [values_addConstant, List.append_assoc] at hrest
      exact hrest

theorem values_edit (c : Chunk) (e : Edit) :
    (c.edit e).result.constants.values.toList = c.constants.values.toList ++ e.values := by
  rw [edit, values_writeAll, values_addConstants]

theorem values_editAll (edits : List Edit) (c : Chunk) :
    (c.editAll edits).result.constants.values.toList =
      c.constants.values.toList ++ edits.flatMap Edit.values := by
  induction edits generalizing c with
  | nil => exact (List.append_nil _).symm
  | cons e edits ih =>
      have hrest := ih (c.edit e).result
      rw [values_edit, List.append_assoc] at hrest
      exact hrest

/-- A constant is placed after those that were there. -/
theorem placed?_constant (c : Chunk) (value : Float) :
    c.placed? (.constant value) = some c.constants.values.toList.length := by
  have hlen := congrArg List.length (c.values_edit (.constant value))
  rw [List.length_append, Array.length_toList] at hlen
  show some ((c.edit (.constant value)).result.constants.values.size - 1) = _
  rw [hlen]
  rfl

/-! ## Capacity -/

/-- The `k`-th capacity of a chunk. -/
def capacityAt (k : Nat) : Nat := 8 * 2 ^ k

theorem capacityAt_succ (k : Nat) : capacityAt (k + 1) = capacityAt k * 2 := by
  rw [capacityAt, capacityAt, Nat.pow_succ, Nat.mul_assoc]

theorem leastCapacity_le_capacityAt (k : Nat) : leastCapacity ≤ capacityAt k :=
  Nat.le_mul_of_pos_right 8 (Nat.two_pow_pos k)

theorem capacityAt_le {j k : Nat} (h : j ≤ k) : capacityAt j ≤ capacityAt k :=
  Nat.mul_le_mul_left 8 (Nat.pow_le_pow_right (by decide) h)

theorem grownCapacity_capacityAt (k : Nat) :
    grownCapacity (capacityAt k) = capacityAt (k + 1) := by
  rw [grownCapacity, if_neg (Nat.not_lt_of_le (leastCapacity_le_capacityAt k)), capacityAt_succ]

/-- The notes of the first `k` doublings. -/
def doublings (k : Nat) : List Note :=
  (List.range k).map fun j => .chunkGrew (capacityAt j) (capacityAt (j + 1))

theorem doublings_succ (k : Nat) :
    doublings (k + 1) = doublings k ++ [.chunkGrew (capacityAt k) (capacityAt (k + 1))] := by
  rw [doublings, List.range_succ, List.map_append]
  rfl

/-- `c.Grown k`: the chunk has its `k`-th capacity, and no earlier one would do. -/
structure Grown (c : Chunk) (k : Nat) : Prop where
  capacity : c.capacity = capacityAt k
  fits : c.size ≤ capacityAt k
  needed : ∀ j < k, capacityAt j < c.size

theorem grown_empty : empty.Grown 0 where
  capacity := rfl
  fits := Nat.zero_le _
  needed := fun j hj => absurd hj (Nat.not_lt_zero j)

/-- The capacity of a chunk is the least that its code fits into. -/
theorem Grown.least {c : Chunk} {k : Nat} (h : c.Grown k) {j : Nat}
    (hj : c.size ≤ capacityAt j) : capacityAt k ≤ capacityAt j := by
  by_contra hlt
  have hbefore : j < k := by
    by_contra hle
    exact hlt (capacityAt_le (Nat.le_of_not_lt hle))
  exact absurd hj (Nat.not_le_of_lt (h.needed j hbefore))

/-- `Grows k t`: between the `k`-th capacity and that of the chunk which `t` results in, the
events of `t` are the notes of all doublings and nothing else. -/
def Grows (k : Nat) (t : Traced Chunk) : Prop :=
  ∃ k', t.result.Grown k' ∧ (doublings k).map Event.note ++ t.events = (doublings k').map .note

theorem Grown.grows {c : Chunk} {k : Nat} (h : c.Grown k) : Grows k ⟨c, []⟩ :=
  ⟨k, h, List.append_nil _⟩

/-- What grows on from where something else has grown to. -/
theorem Grows.trans {k : Nat} {t : Traced Chunk} {f : Chunk → Traced Chunk} (h : Grows k t)
    (hnext : ∀ k', t.result.Grown k' → Grows k' (f t.result)) :
    Grows k ⟨(f t.result).result, t.events ++ (f t.result).events⟩ := by
  obtain ⟨k', hgrown, hnotes⟩ := h
  obtain ⟨k'', hgrown', hnotes'⟩ := hnext k' hgrown
  refine ⟨k'', hgrown', ?_⟩
  rw [← List.append_assoc, hnotes, hnotes']

/-- One byte: a chunk that is full doubles its capacity and there is a note, any other chunk
keeps it. -/
theorem Grown.write {c : Chunk} {k : Nat} (h : c.Grown k) (byte : UInt8) (line : Nat) :
    Grows k ⟨c.write byte line, c.growthEvents⟩ := by
  by_cases hfull : c.size = c.capacity
  · have hsize : c.size = capacityAt k := hfull.trans h.capacity
    refine ⟨k + 1, ⟨?_, ?_, ?_⟩, ?_⟩
    · show (if c.size = c.capacity then _ else _) = _
      rw [if_pos hfull, h.capacity, grownCapacity_capacityAt]
    · have hleast : 8 ≤ capacityAt k := leastCapacity_le_capacityAt k
      rw [size_write, hsize, capacityAt_succ]
      omega
    · intro j hj
      rw [size_write, hsize]
      exact Nat.lt_succ_of_le (capacityAt_le (Nat.le_of_lt_succ hj))
    · have hgrowth : c.growth? = some (capacityAt k, capacityAt (k + 1)) := by
        rw [growth?, if_pos hfull, h.capacity, grownCapacity_capacityAt]
      rw [growthEvents, hgrowth, doublings_succ, List.map_append]
      rfl
  · have hroom : c.size < capacityAt k :=
      Nat.lt_of_le_of_ne h.fits fun heq => hfull (heq.trans h.capacity.symm)
    refine ⟨k, ⟨?_, ?_, ?_⟩, ?_⟩
    · show (if c.size = c.capacity then _ else _) = _
      rw [if_neg hfull, h.capacity]
    · rw [size_write]
      exact hroom
    · intro j hj
      rw [size_write]
      exact Nat.lt_succ_of_lt (h.needed j hj)
    · have hgrowth : c.growth? = none := if_neg hfull
      rw [growthEvents, hgrowth, List.append_nil]

theorem Grown.writeAll (bs : List CodeByte) {c : Chunk} {k : Nat} (h : c.Grown k) :
    Grows k (c.writeAll bs) := by
  induction bs generalizing c k with
  | nil => exact h.grows
  | cons b bs ih =>
      exact (h.write b.byte b.line).trans (f := (·.writeAll bs)) fun k' h' => ih h'

/-- Constants take no room in the code. -/
theorem Grown.addConstants (values : List Float) {c : Chunk} {k : Nat} (h : c.Grown k) :
    (values.foldl addConstant c).Grown k := by
  induction values generalizing c with
  | nil => exact h
  | cons value values ih => exact ih ⟨h.capacity, h.fits, h.needed⟩

theorem Grown.editAll (edits : List Edit) {c : Chunk} {k : Nat} (h : c.Grown k) :
    Grows k (c.editAll edits) := by
  induction edits generalizing c k with
  | nil => exact h.grows
  | cons e edits ih =>
      have hfirst : Grows k (c.edit e) := (h.addConstants e.values).writeAll e.code
      exact hfirst.trans (f := (·.editAll edits)) fun k' h' => ih h'

/-! ## Any history -/

/-- A constant stays where it was put, whatever is added after it. -/
theorem constantAt?_editAll (before after : List Edit) (value : Float) :
    (empty.editAll (before ++ .constant value :: after)).result.constantAt?
      (before.flatMap Edit.values).length = some value := by
  have hvalues (edits : List Edit) : (empty.editAll edits).result.constants.values.toList =
      edits.flatMap Edit.values := values_editAll edits empty
  show (empty.editAll _).result.constants.values[_]? = _
  rw [← Array.getElem?_toList, hvalues, List.flatMap_append, List.flatMap_cons,
    List.getElem?_append_right (Nat.le_refl _), Nat.sub_self]
  rfl

/-- What the log writes about the first `k` doublings: one record for each, if it lets them
through. -/
theorem recordsOf_doublings (console : Console) (k : Nat) :
    console.recordsOf (doublings k) =
      if console.logger.enabled .trace then
        (List.range k).map fun j => console.logger.record .trace "alphae_core::chunk"
          ("chunk grow: " ++ toString (8 * 2 ^ j) ++ " -> " ++ toString (8 * 2 ^ (j + 1)))
      else [] := by
  rw [Console.recordsOf, doublings, List.filterMap_map]
  split
  · next henabled =>
    rw [← List.filterMap_eq_map]
    congr 1
    funext j
    exact if_pos henabled
  · next hdisabled =>
    rw [List.filterMap_eq_nil_iff]
    intro j _
    exact if_neg hdisabled

/-- Whatever edits a new chunk gets, its bytes and lines are those that were written, in order
and one line for each byte; every constant got as its place the number of those before it, and is
found there whatever was added since.  The capacity is the least of 8, 16, 32, … that is not
smaller than the code; if it is the `k`-th of them, what there is to tell on the way are the first
`k` doublings, in order and nothing else, and so a log that writes the finest level gets one
record about each of them, and any other log none. -/
theorem editAll_history (edits : List Edit) :
    let built := empty.editAll edits
    let written := edits.flatMap Edit.code
    built.result.bytes.toList = written.map CodeByte.byte ∧
    built.result.lines.toList = written.map CodeByte.line ∧
    built.result.bytes.size = built.result.lines.size ∧
    (∀ before value after, edits = before ++ .constant value :: after →
      let i := (before.flatMap Edit.values).length
      (empty.editAll before).result.placed? (.constant value) = some i ∧
      built.result.constantAt? i = some value) ∧
    ∃ k, built.result.capacity = 8 * 2 ^ k ∧ built.result.bytes.size ≤ 8 * 2 ^ k ∧
      (∀ j, built.result.bytes.size ≤ 8 * 2 ^ j → 8 * 2 ^ k ≤ 8 * 2 ^ j) ∧
      built.events =
        (List.range k).map (fun j => .note (.chunkGrew (8 * 2 ^ j) (8 * 2 ^ (j + 1)))) ∧
      ∀ console : Console, console.Sends (console.observeAll built.events)
        (console.logger.sends
          (if console.logger.enabled .trace then
            (List.range k).map fun j => console.logger.record .trace "alphae_core::chunk"
              ("chunk grow: " ++ toString (8 * 2 ^ j) ++ " -> " ++ toString (8 * 2 ^ (j + 1)))
          else [])) := by
  intro built written
  have hcode : built.result.code.toList = written := code_editAll edits empty
  refine ⟨?_, ?_, ?_, ?_, ?_⟩
  · rw [bytes, Array.toList_map, hcode]
  · rw [lines, Array.toList_map, hcode]
  · rw [bytes, lines, Array.size_map, Array.size_map]
  · rintro before value after rfl
    refine ⟨?_, ?_⟩
    · rw [placed?_constant, values_editAll before empty]
      rfl
    · exact constantAt?_editAll before after value
  · obtain ⟨k, hgrown, hevents⟩ := grown_empty.editAll edits
    have hsize : built.result.bytes.size = built.result.size := Array.size_map
    have hnotes : built.events = (doublings k).map .note := hevents
    refine ⟨k, hgrown.capacity, ?_, ?_, ?_, ?_⟩
    · rw [hsize]
      exact hgrown.fits
    · intro j hj
      rw [hsize] at hj
      exact hgrown.least hj
    · rw [hnotes, doublings, List.map_map]
      rfl
    · intro console
      have hsent := console.sends_observeAll built.events
      have hback : built.events.filterMap Event.note? = doublings k := by
        rw [hnotes, List.filterMap_map]
        exact List.filterMap_some
      rw [hback, recordsOf_doublings] at hsent
      exact hsent

end Reckon.Chunk
