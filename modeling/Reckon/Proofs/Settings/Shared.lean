/-
# The shared profile over any calls

A profile can be offered, asked for, or used to compile, execute or run something.  Some of
these calls bring a profile with them: whoever offers one brings that, and whoever asks for
the stored one, or runs something without further ado, brings the standard one in case there
is none.  The others bring nothing and are refused as long as nothing is stored.

One call stores what it brings if nothing is stored, and else changes nothing there
(`stored_serve`).  So after any calls the stored profile is the first that one of them brought
(`stored_after`), whichever way it came, and what a call does next depends on that profile
only (`first_profile_stays`).  What it leaves is found on the consoles that this profile names,
which tells whose log and whose texts they are (`leaves_serve`).
-/
import Reckon.Proofs.Run.Ways

namespace Reckon.Shared

/-- What can be asked of the shared profile. -/
inductive Request where
  /-- Offer a profile to be stored. -/
  | store (p : Profile)
  /-- Ask for the stored profile. -/
  | orStandard
  | compile (source : String)
  | execute (chunk : Chunk)
  | run (source : String)
  | quickRun (source : String)

/-- The answer to a request. -/
inductive Answer where
  | accepted (yes : Bool)
  | profile (p : Profile)
  | code (result : Except Failure Chunk)
  | value (result : Except Failure Float)

/-- The profile that a request brings along, to be stored if there is none. -/
def Request.brings? : Request → Option Profile
  | store p => some p
  | orStandard => some .standard
  | quickRun _ => some .standard
  | compile _ => none
  | execute _ => none
  | run _ => none

/-- The texts that a request prints if it is served under some options. -/
def Request.texts (o : Options) : Request → List String
  | store _ => []
  | orStandard => []
  | compile source => (compileSource o source).texts
  | execute chunk => (executeChunk o chunk).texts
  | run source => (runSource o source).texts
  | quickRun source => (runSource o source).texts

/-- The stored profile, and the consoles that profiles name. -/
structure Session where
  shared : Shared
  consoles : Consoles

theorem withStored_of_some {s : Shared} {p : Profile} (h : s.stored = some p) (cs : Consoles)
    {α : Type} (f : Profile → Consoles → Except Failure α × Consoles) :
    s.withStored cs f = f p cs := by
  simp only [withStored, h]

namespace Session

/-- The session before the first request. -/
def start (cs : Consoles) : Session := ⟨{}, cs⟩

/-- The answer to a request, and the session after it. -/
def serve (s : Session) : Request → Answer × Session
  | .store p =>
    let (yes, shared) := s.shared.store p
    (.accepted yes, { s with shared })
  | .orStandard =>
    let (p, shared) := s.shared.orStandard
    (.profile p, { s with shared })
  | .compile source =>
    let (result, consoles) := s.shared.compile s.consoles source
    (.code result, { s with consoles })
  | .execute chunk =>
    let (result, consoles) := s.shared.execute s.consoles chunk
    (.value result, { s with consoles })
  | .run source =>
    let (result, consoles) := s.shared.run s.consoles source
    (.value result, { s with consoles })
  | .quickRun source =>
    let (result, consoles, shared) := s.shared.quickRun s.consoles source
    (.value result, ⟨shared, consoles⟩)

/-- The session after some requests. -/
def after (s : Session) (requests : List Request) : Session :=
  requests.foldl (fun s request => (s.serve request).2) s

/-! ## What is stored -/

/-- A request stores what it brings if nothing is stored, and nothing otherwise. -/
theorem stored_serve (s : Session) (request : Request) :
    (s.serve request).2.shared.stored = s.shared.stored.or request.brings? := by
  cases hstored : s.shared.stored with
  | none => cases request <;> simp [serve, store, orStandard, quickRun, hstored, Request.brings?]
  | some p => cases request <;> simp [serve, store, orStandard, quickRun, hstored]

theorem stored_after (s : Session) (requests : List Request) :
    (s.after requests).shared.stored =
      s.shared.stored.or (requests.filterMap Request.brings?).head? := by
  induction requests generalizing s with
  | nil => exact Option.or_none.symm
  | cons request rest ih =>
      show ((s.serve request).2.after rest).shared.stored = _
      rw [ih, stored_serve, Option.or_assoc, List.filterMap_cons]
      cases request.brings? with
      | none => rfl
      | some p => rfl

/-! ## What is answered -/

section
variable (s : Session)

theorem accepted_iff (p : Profile) :
    (s.serve (.store p)).1 = .accepted true ↔ s.shared.stored = none := by
  cases hstored : s.shared.stored with
  | none => simp [serve, store, hstored]
  | some q => simp [serve, store, hstored]

/-- Without a profile there is only one answer, and it leaves no trace. -/
theorem serve_of_none (h : s.shared.stored = none) (source : String) (chunk : Chunk) :
    s.serve (.compile source) = (.code (.error .uninitialized), s) ∧
    s.serve (.execute chunk) = (.value (.error .uninitialized), s) ∧
    s.serve (.run source) = (.value (.error .uninitialized), s) := by
  simp [serve, Shared.compile, Shared.execute, Shared.run, withStored, h]

/-- With a profile the work is done under it. -/
theorem serve_of_some {p : Profile} (h : s.shared.stored = some p) (source : String)
    (chunk : Chunk) :
    s.serve (.compile source) = (.code (p.compile s.consoles source).1,
      { s with consoles := (p.compile s.consoles source).2 }) ∧
    s.serve (.execute chunk) = (.value (p.execute s.consoles chunk).1,
      { s with consoles := (p.execute s.consoles chunk).2 }) ∧
    s.serve (.run source) = (.value (p.run s.consoles source).1,
      { s with consoles := (p.run s.consoles source).2 }) := by
  simp [serve, Shared.compile, Shared.execute, Shared.run, withStored_of_some h]

theorem serve_quickRun {p : Profile} (source : String)
    (h : (s.serve (.quickRun source)).2.shared.stored = some p) :
    s.serve (.quickRun source) = (.value (p.run s.consoles source).1,
      ⟨⟨some p⟩, (p.run s.consoles source).2⟩) := by
  obtain ⟨⟨stored⟩, consoles⟩ := s
  cases stored with
  | none =>
      cases h
      rfl
  | some q =>
      cases h
      rfl

/-- What a request leaves on the consoles is left there by the profile that is stored after it:
its texts on the console for texts of that profile, its notes on that for the log, and nothing
anywhere else. -/
theorem leaves_serve {p : Profile} (request : Request)
    (h : (s.serve request).2.shared.stored = some p) :
    p.Leaves s.consoles (s.serve request).2.consoles (request.texts p.options) := by
  cases request with
  | store q => exact Profile.leaves_nothing s.consoles
  | orStandard => exact Profile.leaves_nothing s.consoles
  | compile source =>
      show p.Leaves _ (s.shared.compile s.consoles source).2 _
      rw [Shared.compile, withStored_of_some (s := s.shared) h]
      exact Profile.leaves_perform s.consoles _
  | execute chunk =>
      show p.Leaves _ (s.shared.execute s.consoles chunk).2 _
      rw [Shared.execute, withStored_of_some (s := s.shared) h]
      exact Profile.leaves_perform s.consoles _
  | run source =>
      show p.Leaves _ (s.shared.run s.consoles source).2 _
      rw [Shared.run, withStored_of_some (s := s.shared) h]
      exact Profile.leaves_run s.consoles source
  | quickRun source =>
      rw [s.serve_quickRun source h]
      exact Profile.leaves_run s.consoles source

theorem mapError_ne {ε α : Type} {f : ε → Failure} {failure : Failure}
    (h : ∀ e, f e ≠ failure) (r : Except ε α) : r.mapError f ≠ .error failure := by
  intro heq
  cases r with
  | ok a => cases heq
  | error e => exact h e (Except.error.inj heq)

/-- No work that is done under a profile fails for want of one. -/
theorem uninitialized_iff (source : String) (chunk : Chunk) :
    ((s.serve (.compile source)).1 = .code (.error .uninitialized) ↔ s.shared.stored = none) ∧
    ((s.serve (.execute chunk)).1 = .value (.error .uninitialized) ↔ s.shared.stored = none) ∧
    ((s.serve (.run source)).1 = .value (.error .uninitialized) ↔ s.shared.stored = none) := by
  cases hstored : s.shared.stored with
  | none =>
      obtain ⟨hcompile, hexecute, hrun⟩ := s.serve_of_none hstored source chunk
      simp [hcompile, hexecute, hrun]
  | some p =>
      obtain ⟨hcompile, hexecute, hrun⟩ := s.serve_of_some hstored source chunk
      have hcode : (p.compile s.consoles source).1 ≠ .error .uninitialized := by
        rw [p.compile_result]
        exact mapError_ne (fun _ => Failure.noConfusion) _
      have hvalue : (p.execute s.consoles chunk).1 ≠ .error .uninitialized := by
        rw [p.execute_result]
        exact mapError_ne (fun _ => Failure.noConfusion) _
      have hran : (p.run s.consoles source).1 ≠ .error .uninitialized := by
        rw [p.run_result]
        exact mapError_ne (fun e => by cases e <;> exact Failure.noConfusion) _
      simp [hcompile, hexecute, hrun, hcode, hvalue, hran]

end

/-- After any requests the stored profile, with the consoles that it names for the log and for
texts, is the first that one of them brought: the first that was offered, or the standard one if
the stored one was asked for or something was run without further ado before that.  It stays
whatever comes later, and a further offer is accepted exactly if there is none.  To compile, to
execute and to run are refused exactly as long as there is none, with nothing printed or logged;
after that they give what they give under the stored profile and leave the consoles as it does.
To run without further ado gives what a run gives under the profile that is stored after it.  Each
request prints on the console for texts of the stored profile and on no other, and logs on its
console for the log and on no other. -/
theorem first_profile_stays (cs : Consoles) (requests : List Request) :
    let s := (start cs).after requests
    s.shared.stored = (requests.filterMap Request.brings?).head? ∧
    (∀ p, s.shared.stored = some p → ∀ later, (s.after later).shared.stored = some p) ∧
    (∀ p, (s.serve (.store p)).1 = .accepted true ↔ s.shared.stored = none) ∧
    (∀ source chunk,
      ((s.serve (.compile source)).1 = .code (.error .uninitialized) ↔ s.shared.stored = none) ∧
      ((s.serve (.execute chunk)).1 = .value (.error .uninitialized) ↔ s.shared.stored = none) ∧
      ((s.serve (.run source)).1 = .value (.error .uninitialized) ↔ s.shared.stored = none)) ∧
    (s.shared.stored = none → ∀ source chunk, (s.serve (.compile source)).2 = s ∧
      (s.serve (.execute chunk)).2 = s ∧ (s.serve (.run source)).2 = s) ∧
    (∀ p, s.shared.stored = some p → ∀ source chunk,
      s.serve (.compile source) = (.code (p.compile s.consoles source).1,
        { s with consoles := (p.compile s.consoles source).2 }) ∧
      s.serve (.execute chunk) = (.value (p.execute s.consoles chunk).1,
        { s with consoles := (p.execute s.consoles chunk).2 }) ∧
      s.serve (.run source) = (.value (p.run s.consoles source).1,
        { s with consoles := (p.run s.consoles source).2 })) ∧
    (∀ source, ∃ p, (s.serve (.quickRun source)).2.shared.stored = some p ∧
      s.serve (.quickRun source) = (.value (p.run s.consoles source).1,
        ⟨⟨some p⟩, (p.run s.consoles source).2⟩)) ∧
    ∀ request p, (s.serve request).2.shared.stored = some p →
      p.Leaves s.consoles (s.serve request).2.consoles (request.texts p.options) := by
  intro s
  refine ⟨stored_after (start cs) requests, ?_, s.accepted_iff, s.uninitialized_iff, ?_, ?_, ?_,
    fun request p => s.leaves_serve request⟩
  · intro p hp later
    rw [stored_after, hp]
    rfl
  · intro hnone source chunk
    obtain ⟨hcompile, hexecute, hrun⟩ := s.serve_of_none hnone source chunk
    rw [hcompile, hexecute, hrun]
    exact ⟨rfl, rfl, rfl⟩
  · intro p hp
    exact s.serve_of_some hp
  · intro source
    have hsome : ∃ p, (s.serve (.quickRun source)).2.shared.stored = some p := by
      rw [stored_serve]
      cases s.shared.stored with
      | none => exact ⟨_, rfl⟩
      | some p => exact ⟨p, rfl⟩
    obtain ⟨p, hp⟩ := hsome
    exact ⟨p, hp, s.serve_quickRun source hp⟩

end Session

end Reckon.Shared
