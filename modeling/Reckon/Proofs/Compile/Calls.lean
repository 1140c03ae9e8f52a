/-
# The calls of a compilation

Parsing is recursive: an operand is parsed by a call that reads its first token and then
makes further calls for what is in parentheses, after a minus sign or to the right of an
operator.  The recursion is bounded by a limit on the calls that may be active at once.
Here it is taken apart.  A `Config` holds the state, a counter of active calls, the point
at which the work is, and for each call that waits for another one what it does next.

* One step of the work is `Config.next`; what a step can do is said once, in `Move`.
* The work comes to its end (`done_of_potential_le`).  Every token that is read pays for
  the call that is made after it; a call that is refused reads nothing, but then the one
  that made it goes on.
* The counter counts the active calls and stays within the limit (`Counted.move`).  A call
  that is refused is not counted: it returns before it does anything.
* Every call returns, with the counter as it was and with the state that the recursive
  parser computes (`within_parse`).  So the last state is that of the compilation.

Nothing here depends on the source being well-formed.
-/
import Mathlib.Logic.Function.Iterate
import Mathlib.Logic.Relation
import Reckon.Proofs.Compile.Scanning

namespace Reckon.Compile

open Reckon.Expr (Stops)

/-! ## Configurations -/

/-- What a call does when the call that it waits for returns: a parenthesis is to be closed, or
an instruction is to be written.  After that come operators of precedence at least `p`. -/
inductive Frame where
  | closing (p : Precedence)
  | negating (p : Precedence) (line : Nat)
  | applying (p : Precedence) (op : Operator) (line : Nat)

namespace Frame

/-- What is done first when the awaited call has returned. -/
def resume : Frame → State → State
  | closing _, s => s.consume .rightParen .expectRightParen
  | negating _ line, s => s.writeOp .negate line
  | applying _ op line, s => s.writeOp op.opcode line

/-- The precedence that the waiting call was made for. -/
def level : Frame → Precedence
  | closing p => p
  | negating p _ => p
  | applying p _ _ => p

end Frame

/-- The points of the work. -/
inductive Point where
  /-- A call is made. -/
  | enter (p : Precedence)
  /-- The first token of the operand is next. -/
  | operand (p : Precedence)
  /-- Operators are next. -/
  | operators (p : Precedence)
  /-- The call is over. -/
  | leave
  /-- A call has returned to the one that made it. -/
  | returned
  /-- All is done. -/
  | done

/-- Where a compilation is.  The frames belong to the calls that wait, the innermost first. -/
structure Config where
  state : State
  depth : Nat
  point : Point
  frames : List Frame

namespace Config

/-- The first token is read and the first call is made. -/
def start (source : String) : Config :=
  ⟨(State.start source).advance, 0, .enter .assignment, []⟩

/-- One step of the work, with at most `max` active calls. -/
def next (max : Nat) : Config → Config
  | ⟨s, d, .enter p, fs⟩ =>
    if d < max then ⟨s, d + 1, .operand p, fs⟩
    else ⟨s.report s.current Complaint.nestedTooDeeply.message, d, .returned, fs⟩
  | ⟨s, d, .operand p, fs⟩ =>
    match s.advance.previous.kind with
    | .number => ⟨s.advance.writeNumber, d, .operators p, fs⟩
    | .leftParen => ⟨s.advance, d, .enter .assignment, .closing p :: fs⟩
    | .minus => ⟨s.advance, d, .enter .unary, .negating p s.advance.previous.line :: fs⟩
    | _ =>
      ⟨s.advance.report s.advance.previous Complaint.expectExpression.message, d, .leave, fs⟩
  | ⟨s, d, .operators p, fs⟩ =>
    match Operator.ofKind? s.current.kind with
    | none => ⟨s, d, .leave, fs⟩
    | some op =>
      if p.rank ≤ op.precedence.rank then
        ⟨s.advance, d, .enter op.precedence.next, .applying p op s.current.line :: fs⟩
      else ⟨s, d, .leave, fs⟩
  | ⟨s, d, .leave, fs⟩ => ⟨s, d - 1, .returned, fs⟩
  | ⟨s, d, .returned, f :: fs⟩ => ⟨f.resume s, d, .operators f.level, fs⟩
  | ⟨s, d, .returned, []⟩ =>
    let closed := s.consume .eof .expectEnd
    ⟨closed.writeOp .ret closed.previous.line, d, .done, []⟩
  | ⟨s, d, .done, fs⟩ => ⟨s, d, .done, fs⟩

/-- How many calls are active: those that wait and the one that is at work. -/
def active (c : Config) : Nat :=
  match c.point with
  | .operand _ | .operators _ | .leave => c.frames.length + 1
  | .enter _ | .returned | .done => c.frames.length

end Config

/-! ## What a step can do -/

/-- `Move max c c'`: a step leads from `c` to `c'`, when `max` calls may be active. -/
inductive Move (max : Nat) : Config → Config → Prop
  | refuse {s : State} {d : Nat} {p : Precedence} {fs : List Frame} : max ≤ d →
      Move max ⟨s, d, .enter p, fs⟩
        ⟨s.report s.current Complaint.nestedTooDeeply.message, d, .returned, fs⟩
  | begin {s : State} {d : Nat} {p : Precedence} {fs : List Frame} : d < max →
      Move max ⟨s, d, .enter p, fs⟩ ⟨s, d + 1, .operand p, fs⟩
  | number {s : State} {d : Nat} {p : Precedence} {fs : List Frame} :
      s.advance.previous.kind = .number →
      Move max ⟨s, d, .operand p, fs⟩ ⟨s.advance.writeNumber, d, .operators p, fs⟩
  | paren {s : State} {d : Nat} {p : Precedence} {fs : List Frame} :
      s.advance.previous.kind = .leftParen →
      Move max ⟨s, d, .operand p, fs⟩ ⟨s.advance, d, .enter .assignment, .closing p :: fs⟩
  | minus {s : State} {d : Nat} {p : Precedence} {fs : List Frame} :
      s.advance.previous.kind = .minus →
      Move max ⟨s, d, .operand p, fs⟩
        ⟨s.advance, d, .enter .unary, .negating p s.advance.previous.line :: fs⟩
  | missing {s : State} {d : Nat} {p : Precedence} {fs : List Frame} :
      s.advance.previous.kind ≠ .number → s.advance.previous.kind ≠ .leftParen →
      s.advance.previous.kind ≠ .minus →
      Move max ⟨s, d, .operand p, fs⟩
        ⟨s.advance.report s.advance.previous Complaint.expectExpression.message, d, .leave, fs⟩
  | operator {s : State} {d : Nat} {p : Precedence} {fs : List Frame} {op : Operator} :
      s.current.kind = op.kind → p.rank ≤ op.precedence.rank →
      Move max ⟨s, d, .operators p, fs⟩
        ⟨s.advance, d, .enter op.precedence.next, .applying p op s.current.line :: fs⟩
  | stop {s : State} {d : Nat} {p : Precedence} {fs : List Frame} : Stops p [s.current] →
      Move max ⟨s, d, .operators p, fs⟩ ⟨s, d, .leave, fs⟩
  | leave {s : State} {d : Nat} {fs : List Frame} :
      Move max ⟨s, d, .leave, fs⟩ ⟨s, d - 1, .returned, fs⟩
  | resume {s : State} {d : Nat} {f : Frame} {fs : List Frame} :
      Move max ⟨s, d, .returned, f :: fs⟩ ⟨f.resume s, d, .operators f.level, fs⟩
  | finish {s : State} {d : Nat} :
      Move max ⟨s, d, .returned, []⟩
        ⟨(s.consume .eof .expectEnd).writeOp .ret (s.consume .eof .expectEnd).previous.line, d,
          .done, []⟩
  | done {s : State} {d : Nat} {fs : List Frame} :
      Move max ⟨s, d, .done, fs⟩ ⟨s, d, .done, fs⟩

theorem move_next (max : Nat) (c : Config) : Move max c (c.next max) := by
  obtain ⟨s, d, point, fs⟩ := c
  cases point with
  | enter p =>
      by_cases hd : d < max
      · rw [Config.next, if_pos hd]
        exact .begin hd
      · rw [Config.next, if_neg hd]
        exact .refuse (Nat.le_of_not_lt hd)
  | operand p =>
      rw [Config.next]
      split
      · next hkind => exact .number hkind
      · next hkind => exact .paren hkind
      · next hkind => exact .minus hkind
      · next hnumber hparen hminus => exact .missing hnumber hparen hminus
  | operators p =>
      rw [Config.next]
      split
      · next hnone =>
        refine .stop (Stops.cons fun op hkind => ?_)
        rw [Operator.ofKind?_eq_some_iff.mpr hkind] at hnone
        cases hnone
      · next op hop =>
        have hkind := Operator.ofKind?_eq_some_iff.mp hop
        split
        · next hp => exact .operator hkind hp
        · next hp =>
          refine .stop (Stops.cons fun op' hkind' => ?_)
          rw [← Operator.kind_injective (hkind.symm.trans hkind')]
          exact Nat.lt_of_not_le hp
  | leave => exact .leave
  | returned =>
      cases fs with
      | nil => exact .finish
      | cons f fs => exact .resume
  | done => exact .done

/-- There is only one way to go on. -/
theorem Move.next_eq {max : Nat} {c c' : Config} (h : Move max c c') : c.next max = c' := by
  cases h with
  | refuse hd => exact if_neg (Nat.not_lt.mpr hd)
  | begin hd => exact if_pos hd
  | number hkind => rw [Config.next, hkind]
  | paren hkind => rw [Config.next, hkind]
  | minus hkind => rw [Config.next, hkind]
  | missing hnumber hparen hminus =>
      rw [Config.next]
      split
      · next hkind => exact absurd hkind hnumber
      · next hkind => exact absurd hkind hparen
      · next hkind => exact absurd hkind hminus
      · rfl
  | operator hkind hp =>
      rw [Config.next, Operator.ofKind?_eq_some_iff.mpr hkind]
      exact if_pos hp
  | @stop s d p fs hstop =>
      rw [Config.next]
      split
      · rfl
      · next op hop =>
        have hlt := hstop s.current rfl op (Operator.ofKind?_eq_some_iff.mp hop)
        exact if_neg (Nat.not_le.mpr hlt)
  | leave => rfl
  | resume => rfl
  | finish => rfl
  | done => rfl

/-! ## The end -/

/-- How far a point is from the end of its call. -/
def Point.rank : Point → Nat
  | enter _ => 5
  | operand _ => 4
  | operators _ => 3
  | leave => 2
  | returned => 1
  | done => 0

/-- How much there is still to do.  A token that is read pays for a call and for the return to
the one that waits. -/
def Config.potential (c : Config) : Nat :=
  6 * c.state.ahead + 3 * c.frames.length + c.point.rank

theorem ahead_resume_le (f : Frame) (s : State) : (f.resume s).ahead ≤ s.ahead := by
  cases f with
  | closing _ => exact State.ahead_consume_le ..
  | negating _ _ => exact Nat.le_refl _
  | applying _ _ _ => exact Nat.le_refl _

/-- A token that was passed and is not the end was ahead. -/
theorem ahead_advance_lt_of_passed {s : State} {k : Kind} (h : s.advance.previous.kind = k)
    (hk : k ≠ .eof) : s.advance.ahead < s.ahead := by
  refine State.ahead_advance_lt ?_
  rw [← State.previous_advance, h]
  exact hk

theorem Move.potential_lt {max : Nat} {c c' : Config} (h : Move max c c')
    (hc : c.point ≠ .done) : c'.potential < c.potential := by
  unfold Config.potential
  cases h with
  | refuse _ =>
      simp only [State.ahead_report, Point.rank]
      omega
  | begin _ =>
      simp only [Point.rank]
      omega
  | @number s _ _ _ _ =>
      have hahead := s.ahead_advance_le_ahead
      simp only [State.ahead_writeNumber, Point.rank]
      omega
  | paren hkind | minus hkind =>
      have hahead := ahead_advance_lt_of_passed hkind (by decide)
      simp only [Point.rank, List.length_cons]
      omega
  | @missing s _ _ _ _ _ _ =>
      have hahead := s.ahead_advance_le_ahead
      simp only [State.ahead_report, Point.rank]
      omega
  | @operator s _ _ _ op hkind _ =>
      have hahead : s.advance.ahead < s.ahead :=
        State.ahead_advance_lt (by rw [hkind]; exact op.kind_ne_eof)
      simp only [Point.rank, List.length_cons]
      omega
  | stop _ =>
      simp only [Point.rank]
      omega
  | leave =>
      simp only [Point.rank]
      omega
  | @resume s _ f _ =>
      have hahead := ahead_resume_le f s
      simp only [Point.rank, List.length_cons]
      omega
  | @finish s _ =>
      have hahead := State.ahead_consume_le s .eof .expectEnd
      simp only [State.ahead_writeOp, Point.rank]
      omega
  | done => exact absurd rfl hc

theorem next_of_done (max : Nat) {c : Config} (h : c.point = .done) : c.next max = c := by
  obtain ⟨s, d, point, fs⟩ := c
  cases h
  rfl

/-- The work ends after as many steps as there is to do. -/
theorem done_of_potential_le (max : Nat) {n : Nat} {c : Config} (h : c.potential ≤ n) :
    ((Config.next max)^[n] c).point = .done := by
  induction n generalizing c with
  | zero =>
      obtain ⟨s, d, point, fs⟩ := c
      unfold Config.potential at h
      cases point with
      | done => rfl
      | _ => simp [Point.rank] at h
  | succ n ih =>
      rw [Function.iterate_succ_apply]
      by_cases hdone : c.point = .done
      · rw [next_of_done max hdone, Function.iterate_fixed (next_of_done max hdone)]
        exact hdone
      · exact ih (Nat.le_of_lt_succ (Nat.lt_of_lt_of_le ((move_next max c).potential_lt hdone) h))

/-! ## The counter -/

/-- The counter counts the active calls, and there are not too many. -/
structure Counted (max : Nat) (c : Config) : Prop where
  depth : c.depth = c.active
  active_le : c.active ≤ max

theorem counted_start (max : Nat) (source : String) : Counted max (Config.start source) :=
  ⟨rfl, Nat.zero_le max⟩

theorem Counted.move {max : Nat} {c c' : Config} (h : Counted max c) (hmove : Move max c c') :
    Counted max c' := by
  obtain ⟨hdepth, hle⟩ := h
  cases hmove with
  | begin hd =>
      simp only [Config.active] at hdepth hle
      refine ⟨?_, ?_⟩
      · simp only [Config.active, hdepth]
      · simp only [Config.active]
        omega
  | leave =>
      simp only [Config.active] at hdepth hle
      refine ⟨?_, ?_⟩
      · simp only [Config.active, hdepth, Nat.add_sub_cancel]
      · simp only [Config.active]
        omega
  | refuse _ | number _ | paren _ | minus _ | missing _ _ _ | operator _ _ | stop _ | resume
  | finish | done => exact ⟨hdepth, hle⟩

/-! ## Every call returns -/

/-- `Inside fs c`: a call that was made with the frames `fs` has not returned yet. -/
def Inside (fs : List Frame) (c : Config) : Prop :=
  fs <:+ c.frames ∧ (c.frames = fs → c.point ≠ .returned)

/-- What is inside a call that is made later is inside. -/
theorem Inside.pop {f : Frame} {fs : List Frame} {c : Config} (h : Inside (f :: fs) c) :
    Inside fs c := by
  refine ⟨(List.suffix_cons f fs).trans h.1, fun hframes => ?_⟩
  have hlength := h.1.length_le
  rw [hframes] at hlength
  exact absurd hlength (Nat.not_succ_le_self _)

theorem inside_here {fs : List Frame} {s : State} {d : Nat} {point : Point}
    (h : point ≠ .returned) : Inside fs ⟨s, d, point, fs⟩ :=
  ⟨List.suffix_refl fs, fun _ => h⟩

/-- `Within max fs c c'`: some steps lead from `c` to `c'`, all of them inside the call that was
made with the frames `fs`. -/
def Within (max : Nat) (fs : List Frame) : Config → Config → Prop :=
  Relation.ReflTransGen fun c c' => Inside fs c ∧ Move max c c'

section
variable {max budget d : Nat} {p : Precedence} {fs : List Frame}

theorem Within.pop {f : Frame} {c c' : Config} (h : Within max (f :: fs) c c') :
    Within max fs c c' :=
  Relation.ReflTransGen.mono (fun _ _ hstep => ⟨hstep.1.pop, hstep.2⟩) _ _ h

/-- A call that another one waits for, and the first thing that is done after it. -/
theorem within_awaited {q : Precedence} {s : State} (f : Frame)
    (h : ∀ (fs : List Frame) (p : Precedence) (s : State),
      Within max fs ⟨s, d, .enter p, fs⟩ ⟨s.parse budget p, d, .returned, fs⟩) :
    Within max fs ⟨s, d, .enter q, f :: fs⟩
      ⟨f.resume (s.parse budget q), d, .operators f.level, fs⟩ := by
  refine (h (f :: fs) q s).pop.tail ⟨⟨List.suffix_cons f fs, fun hframes => ?_⟩, .resume⟩
  exact absurd hframes (List.cons_ne_self f fs)

/-- The operators of a call, up to its end. -/
theorem within_operators
    (h : ∀ (fs : List Frame) (p : Precedence) (s : State),
      Within max fs ⟨s, d, .enter p, fs⟩ ⟨s.parse budget p, d, .returned, fs⟩) :
    ∀ s : State, Within max fs ⟨s, d, .operators p, fs⟩
      ⟨s.parseOperators budget p, d, .leave, fs⟩ := by
  refine State.operators_induct budget p ?_ ?_
  · intro s heq hstop
    rw [heq]
    exact .single ⟨inside_here (by simp), .stop hstop⟩
  · intro s op hkind hp heq ih
    rw [heq]
    have hmade : Within max fs ⟨s, d, .operators p, fs⟩
        ⟨s.advance, d, .enter op.precedence.next, .applying p op s.current.line :: fs⟩ :=
      .single ⟨inside_here (by simp), .operator hkind hp⟩
    exact (hmade.trans (within_awaited _ h)).trans ih

/-- A call does what the recursive parser does with the budget that is left, and the counter is
then what it was. -/
theorem within_parse (max budget d : Nat) (hd : d + budget = max) (fs : List Frame)
    (p : Precedence) (s : State) :
    Within max fs ⟨s, d, .enter p, fs⟩ ⟨s.parse budget p, d, .returned, fs⟩ := by
  induction budget generalizing d fs p s with
  | zero => exact .single ⟨inside_here (by simp), .refuse (Nat.le_of_eq hd.symm)⟩
  | succ budget ih =>
      have hcalls := ih (d + 1) (by omega)
      have hbegun : Within max fs ⟨s, d, .enter p, fs⟩ ⟨s, d + 1, .operand p, fs⟩ :=
        .single ⟨inside_here (by simp), .begin (by omega)⟩
      have hleave : ∀ s', Within max fs ⟨s', d + 1, .leave, fs⟩ ⟨s', d, .returned, fs⟩ :=
        fun s' => .single ⟨inside_here (by simp), .leave⟩
      have hrest : ∀ s', Within max fs ⟨s', d + 1, .operators p, fs⟩
          ⟨s'.parseOperators budget p, d, .returned, fs⟩ :=
        fun s' => (within_operators hcalls s').trans (hleave _)
      refine hbegun.trans ?_
      rw [State.parse_succ]
      split
      · next hkind =>
        exact .head ⟨inside_here (by simp), .number hkind⟩ (hrest _)
      · next hkind =>
        refine .head ⟨inside_here (by simp), .paren hkind⟩ ?_
        exact (within_awaited (.closing p) hcalls).trans (hrest _)
      · next hkind =>
        refine .head ⟨inside_here (by simp), .minus hkind⟩ ?_
        exact (within_awaited (.negating p s.advance.previous.line) hcalls).trans (hrest _)
      · next hnumber hparen hminus =>
        exact .head ⟨inside_here (by simp), .missing hnumber hparen hminus⟩ (hleave _)

end

/-- Steps as a number of steps. -/
theorem Within.exists_iterate {max : Nat} {fs : List Frame} {c c' : Config}
    (h : Within max fs c c') :
    ∃ n, (Config.next max)^[n] c = c' ∧
      ∀ m < n, Inside fs ((Config.next max)^[m] c) := by
  induction h using Relation.ReflTransGen.head_induction_on with
  | refl => exact ⟨0, rfl, fun m hm => absurd hm (Nat.not_lt_zero m)⟩
  | @head c c₁ hstep _ ih =>
      obtain ⟨n, hn, hinside⟩ := ih
      obtain rfl := hstep.2.next_eq
      refine ⟨n + 1, hn, fun m hm => ?_⟩
      cases m with
      | zero => exact hstep.1
      | succ m => exact hinside m (Nat.lt_of_succ_lt_succ hm)

/-! ## What parsing keeps -/

open State (Kept)

theorem kept_resume {P : State → Prop} (h : Kept P) (f : Frame) {s : State} (hs : P s) :
    P (f.resume s) := by
  cases f with
  | closing _ => exact h.consume hs _ (by decide)
  | negating _ _ => exact h.writeOp _ _ rfl hs
  | applying _ op _ => exact h.writeOp _ _ op.operandSize_opcode hs

/-- A property that the steps of parsing keep holds of every state on the way. -/
theorem kept_move {P : State → Prop} (h : Kept P) {max : Nat} {c c' : Config}
    (hmove : Move max c c') (hc : P c.state) : P c'.state := by
  cases hmove with
  | refuse _ => exact h.blame _ (by decide) hc
  | begin _ => exact hc
  | number hkind => exact h.writeNumber hc hkind
  | paren _ => exact h.advance hc
  | minus _ => exact h.advance hc
  | missing _ _ _ => exact h.blamePassed hc
  | operator _ _ => exact h.advance hc
  | stop _ => exact hc
  | leave => exact hc
  | resume => exact kept_resume h _ hc
  | finish => exact h.writeOp _ _ rfl (h.consume hc _ (by decide))
  | done => exact hc

/-! ## Whole sources -/

/-- The configuration after `n` steps. -/
def Config.after (max : Nat) (source : String) (n : Nat) : Config :=
  (Config.next max)^[n] (Config.start source)

section
variable {max : Nat} {source : String}

theorem after_add (max : Nat) (source : String) (m n : Nat) :
    (Config.next max)^[n] (Config.after max source m) = Config.after max source (m + n) := by
  rw [Config.after, ← Function.iterate_add_apply, Nat.add_comm, Config.after]

/-- What one step keeps is kept from any time on. -/
theorem after_induct {P : Config → Prop} (hstep : ∀ {c c'}, Move max c c' → P c → P c') {m n : Nat}
    (hmn : m ≤ n) (hm : P (Config.after max source m)) : P (Config.after max source n) := by
  induction hmn with
  | refl => exact hm
  | @step n _ ih =>
      rw [Nat.succ_eq_add_one, ← after_add]
      exact hstep (move_next max _) ih

theorem counted_after (max : Nat) (source : String) (n : Nat) :
    Counted max (Config.after max source n) :=
  after_induct (fun hmove h => h.move hmove) (Nat.zero_le n) (counted_start max source)

theorem after_of_done {m n : Nat} (h : (Config.after max source m).point = .done) (hmn : m ≤ n) :
    Config.after max source n = Config.after max source m := by
  obtain ⟨k, rfl⟩ := Nat.exists_eq_add_of_le hmn
  rw [← after_add, Function.iterate_fixed (next_of_done max h)]

/-- A call, seen from the time at which it is made. -/
theorem exists_return {m : Nat} {p : Precedence}
    (hm : (Config.after max source m).point = .enter p) :
    ∃ n, m < n ∧ Config.after max source n =
        ⟨(Config.after max source m).state.parse (max - (Config.after max source m).depth) p,
          (Config.after max source m).depth, .returned, (Config.after max source m).frames⟩ ∧
      (∀ k, m ≤ k → k < n →
        Inside (Config.after max source m).frames (Config.after max source k)) ∧
      ((Config.after max source m).depth = max → n = m + 1) := by
  have hcounted := counted_after max source m
  have hdepth := hcounted.depth ▸ hcounted.active_le
  generalize hc : Config.after max source m = c at hm hdepth ⊢
  obtain ⟨s, d, point, fs⟩ := c
  cases hm
  obtain ⟨n, hn, hinside⟩ :=
    (within_parse max (max - d) d (Nat.add_sub_cancel' hdepth) fs p s).exists_iterate
  rw [← hc, after_add] at hn
  have hpos : 0 < n := by
    rcases Nat.eq_zero_or_pos n with rfl | hpos
    · rw [Nat.add_zero, hc] at hn
      cases congrArg Config.point hn
    · exact hpos
  refine ⟨m + n, Nat.lt_add_of_pos_right hpos, hn, fun k hmk hkn => ?_, fun hfull => ?_⟩
  · obtain ⟨k, rfl⟩ := Nat.exists_eq_add_of_le hmk
    rw [← after_add, hc]
    exact hinside k (by omega)
  · -- After the one step of a refused call, the call is no longer inside.
    have hrefused : Move max ⟨s, d, .enter p, fs⟩ _ := .refuse (Nat.le_of_eq hfull.symm)
    rcases Nat.lt_or_ge 1 n with hlt | hle
    · have hlater := hinside 1 hlt
      rw [Function.iterate_one, hrefused.next_eq] at hlater
      exact absurd rfl (hlater.2 rfl)
    · rw [Nat.le_antisymm hle hpos]

/-- The last state is that of the compilation. -/
theorem state_of_done {n : Nat} (h : (Config.after max source n).point = .done) :
    (Config.after max source n).state = State.finish source max := by
  obtain ⟨m, _, hm, _, _⟩ := @exists_return max source 0 .assignment rfl
  have hlast : Config.after max source (m + 1) = ⟨State.finish source max, 0, .done, []⟩ := by
    rw [← after_add, hm]
    rfl
  rcases Nat.le_total n (m + 1) with hle | hle
  · rw [← after_of_done h hle, hlast]
  · rw [after_of_done (by rw [hlast]) hle, hlast]

end

/-- Compiling ends, after at most six steps for each token and five more, whatever the source is.
All the time the counter counts the calls that are active, and they are never more than the
limit allows.  Every call that is made returns, with the counter as it was when it was made and
the state that the parser computes with what was left of the limit; a call that is made at the
limit is not counted and returns at once.  The scanner is asked for one token after the other,
and its position only moves forward. -/
theorem compile_calls (o : Options) (source : String) :
    let config := Config.after o.maxNesting source
    let enough := 6 * (TokenStream.ofSource source).tokens.length + 5
    let place n := (Cursor.ofSource source).after (config n).state.scanned.length
    (∀ n ≥ enough, (config n).point = .done ∧
      (config n).state = State.finish source o.maxNesting) ∧
    ((config enough).state.failed = true →
      ∃ d, (config enough).state.diagnostics = [d] ∧
        (compile o source).result = .error ⟨[d]⟩) ∧
    ((config enough).state.failed = false →
      (compile o source).result = .ok (config enough).state.chunk) ∧
    (∀ n, (config n).depth = (config n).active ∧ (config n).active ≤ o.maxNesting) ∧
    (∀ m p, (config m).point = .enter p →
      ∃ n > m, config n =
          ⟨(config m).state.parse (o.maxNesting - (config m).depth) p, (config m).depth,
            .returned, (config m).frames⟩ ∧
        (∀ k, m ≤ k → k < n → Inside (config m).frames (config k)) ∧
        ((config m).depth = o.maxNesting → n = m + 1)) ∧
    (∀ n, (config n).state.scanned =
        (Cursor.ofSource source).answers (config n).state.scanned.length ∧
      (config n).state.stream = TokenStream.ofCursor (place n)) ∧
    ∀ m n, m ≤ n → (place m).position ≤ (place n).position := by
  intro config enough place
  have hdone : ∀ n ≥ enough, (config n).point = .done := by
    intro n hn
    refine done_of_potential_le o.maxNesting (Nat.le_trans ?_ hn)
    have hahead := (State.start source).ahead_advance_le
    exact Nat.add_le_add_right (Nat.mul_le_mul_left 6 hahead) 5
  have hcounted : ∀ n, Counted o.maxNesting (config n) := counted_after o.maxNesting source
  have hscans : ∀ least m n, m ≤ n →
      (config m).state.Scans (Cursor.ofSource source) least (config m).state.stream.tokens →
      (config n).state.Scans (Cursor.ofSource source) least (config n).state.stream.tokens :=
    fun least m n hmn => after_induct (fun hmove => kept_move (State.kept_scans _ least) hmove) hmn
  have hfirst : ∀ n, (config n).state.Scans (Cursor.ofSource source) 0
      (config n).state.stream.tokens :=
    fun n => hscans 0 0 n (Nat.zero_le n) (State.scans_first source)
  have hlast : (config enough).state = State.finish source o.maxNesting :=
    state_of_done (hdone enough (Nat.le_refl _))
  have hagrees := State.agrees_finish source o.maxNesting
  refine ⟨fun n hn => ⟨hdone n hn, state_of_done (hdone n hn)⟩, ?_, ?_, ?_, ?_, ?_, ?_⟩
  · intro hfailed
    rw [hlast] at hfailed ⊢
    obtain ⟨d, hd⟩ := hagrees.of_failed hfailed
    exact ⟨d, (hagrees.of_some hd).2, by rw [compile_of_diagnostic hd]⟩
  · intro hclear
    rw [hlast] at hclear ⊢
    have hd : (State.finish source o.maxNesting).diagnostic = none :=
      State.diagnostic_eq_none_iff.mpr (hagrees.failed ▸ hclear)
    rw [compile_of_clear hd]
  · exact fun n => ⟨(hcounted n).depth, (hcounted n).active_le⟩
  · exact fun m p hm => exists_return hm
  · exact fun n => ⟨(hfirst n).scanned, (hfirst n).stream⟩
  · intro m n hmn
    have hless := hscans _ m n hmn ⟨(hfirst m).scanned, (hfirst m).stream, Nat.le_refl _⟩
    exact Cursor.position_after_le _ hless.least

end Reckon.Compile
