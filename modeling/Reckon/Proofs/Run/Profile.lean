/-
# What a profile leaves on consoles

A profile sends notes to one console and texts to another, or both to the same, or either of
them nowhere.  Each console is left as if it alone had observed the events that are sent to it
(`getElem?_perform`).  So the texts of a computation are found on the console for texts and on no
other (`prints_perform`), nothing is logged but on the console for the log (`leaves_perform`),
and a profile that names one console for both leaves there what is left on a single console
(`run_on_one`).
-/
import Reckon.Proofs.Run.Observers
import Reckon.Settings.Shared

namespace Reckon

theorem Consoles.getElem?_change (cs : Consoles) (number : Option Nat) (f : Console → Console)
    (k : Nat) :
    (cs.change number f)[k]? = cs[k]?.map fun c => if number = some k then f c else c := by
  unfold change
  cases number with
  | none => simp
  | some n =>
      show (Array.modify cs n f)[k]? = _
      rw [Array.getElem?_modify]
      simp only [Option.some_inj]
      split
      · rfl
      · exact Option.map_id'.symm

namespace Profile

/-- Whether an event is sent to the console with a given number. -/
def reaches (p : Profile) (k : Nat) : Event → Bool
  | .text _ => p.text = some k
  | .note _ => p.log = some k

/-- Which of some texts are printed on the console with a given number: all or none. -/
def shown (p : Profile) (k : Nat) (texts : List String) : List String :=
  if p.text = some k then texts else []

/-- Some texts were printed between two states of the consoles, where the profile says, and
nothing else was printed on any console. -/
def Prints (p : Profile) (cs after : Consoles) (texts : List String) : Prop :=
  ∀ k : Nat, after[k]?.map Console.texts = cs[k]?.map fun c => c.texts ++ p.shown k texts

/-- What a computation that prints some texts does to the consoles: the texts are found where the
profile says, and a console that is not that for the log gets nothing else. -/
structure Leaves (p : Profile) (cs after : Consoles) (texts : List String) : Prop where
  prints : p.Prints cs after texts
  elsewhere : ∀ k : Nat, p.log ≠ some k →
    after[k]? = cs[k]?.map fun c => (p.shown k texts).foldl Console.print c

section
variable (p : Profile) (cs : Consoles) (k : Nat)

theorem shown_append (texts more : List String) :
    p.shown k (texts ++ more) = p.shown k texts ++ p.shown k more := by
  unfold shown
  split <;> rfl

theorem getElem?_observe (e : Event) :
    (p.observe cs e)[k]? = cs[k]?.map fun c => if p.reaches k e then c.observe e else c := by
  cases e with
  | text s => simp only [observe, Consoles.getElem?_change, reaches, decide_eq_true_eq]; rfl
  | note n => simp only [observe, Consoles.getElem?_change, reaches, decide_eq_true_eq]; rfl

/-- Every console observes what is sent to it, in order, and nothing else happens to it. -/
theorem getElem?_perform {α : Type} (t : Traced α) :
    (p.perform cs t).2[k]? = cs[k]?.map (·.observeAll (t.events.filter (p.reaches k))) := by
  show (t.events.foldl p.observe cs)[k]? = _
  induction t.events generalizing cs with
  | nil => exact Option.map_id'.symm
  | cons e rest ih =>
      rw [List.foldl_cons, ih, getElem?_observe, Option.map_map, List.filter_cons]
      refine congrArg (cs[k]?.map ·) (funext fun c => ?_)
      show Console.observeAll (if p.reaches k e then _ else _) _ = _
      split <;> rfl

end

section
variable {p : Profile} {k : Nat}

theorem filter_reaches_of_both (hlog : p.log = some k) (htext : p.text = some k)
    (events : List Event) : events.filter (p.reaches k) = events := by
  refine List.filter_eq_self.mpr fun e _ => ?_
  cases e with
  | text s => simpa [reaches] using htext
  | note n => simpa [reaches] using hlog

theorem texts_filter_reaches (events : List Event) :
    (events.filter (p.reaches k)).filterMap Event.text? =
      p.shown k (events.filterMap Event.text?) := by
  induction events with
  | nil => simp [shown]
  | cons e rest ih =>
      rw [List.filter_cons]
      cases e with
      | text s =>
          by_cases htext : p.text = some k
          · simpa [reaches, shown, htext, List.filterMap_cons, Event.text?] using ih
          · simpa [reaches, shown, htext] using ih
      | note n =>
          split
          · exact ih
          · exact ih

theorem filter_reaches_of_log_ne (hlog : p.log ≠ some k) (events : List Event) :
    events.filter (p.reaches k) = (p.shown k (events.filterMap Event.text?)).map .text := by
  rw [← texts_filter_reaches]
  induction events with
  | nil => rfl
  | cons e rest ih =>
      rw [List.filter_cons]
      split
      · next hreaches =>
        cases e with
        | text s => exact congrArg (Event.text s :: ·) ih
        | note n => exact absurd (of_decide_eq_true hreaches) hlog
      · exact ih

theorem texts_observeAll_reaches {α : Type} (t : Traced α) (c : Console) :
    (c.observeAll (t.events.filter (p.reaches k))).texts = c.texts ++ p.shown k t.texts := by
  rw [Console.texts_observeAll, texts_filter_reaches]
  rfl

theorem prints_perform (cs : Consoles) {α : Type} (t : Traced α) :
    p.Prints cs (p.perform cs t).2 t.texts := by
  intro k
  rw [getElem?_perform, Option.map_map]
  exact congrArg (cs[k]?.map ·) (funext (texts_observeAll_reaches t))

theorem Prints.nil (cs : Consoles) : p.Prints cs cs [] := by
  intro k
  simp [shown]

theorem Prints.trans {cs middle after : Consoles} {texts more : List String}
    (h : p.Prints cs middle texts) (h' : p.Prints middle after more) :
    p.Prints cs after (texts ++ more) := by
  intro k
  have hadded : middle[k]?.map (fun c => c.texts ++ p.shown k more) =
      (middle[k]?.map Console.texts).map (· ++ p.shown k more) := by
    rw [Option.map_map]
    rfl
  rw [h' k, hadded, h k, Option.map_map, shown_append]
  simp only [Function.comp_def, List.append_assoc]

/-- The console for the log is in a span of its own during a run. -/
theorem getElem?_run (cs : Consoles) (source : String) :
    (p.run cs source).2[k]? = cs[k]?.map fun c =>
      let observed (c : Console) :=
        c.observeAll ((runSource p.options source).events.filter (p.reaches k))
      if p.log = some k then
        (observed (c.withLogger (·.enter "run"))).withLogger (·.leave c.logger.nextSpan)
      else observed c := by
  unfold run
  simp only [Consoles.getElem?_change, getElem?_perform, Option.map_map]
  cases hc : cs[k]? with
  | none => rfl
  | some c =>
      simp only [Option.map_some, Function.comp_apply]
      split
      · next hlog =>
        have hlogger : p.logger cs = c.logger := by simp [logger, hlog, hc]
        rw [hlogger]
      · rfl

theorem prints_run (cs : Consoles) (source : String) :
    p.Prints cs (p.run cs source).2 (runSource p.options source).texts := by
  intro k
  rw [getElem?_run, Option.map_map]
  refine congrArg (cs[k]?.map ·) (funext fun c => ?_)
  simp only [Function.comp_apply]
  split
  · exact texts_observeAll_reaches _ (c.withLogger _)
  · exact texts_observeAll_reaches _ c

theorem leaves_nothing (cs : Consoles) : p.Leaves cs cs [] := by
  refine ⟨.nil cs, fun k _ => ?_⟩
  simp [shown]

theorem leaves_perform (cs : Consoles) {α : Type} (t : Traced α) :
    p.Leaves cs (p.perform cs t).2 t.texts := by
  refine ⟨prints_perform cs t, fun k hlog => ?_⟩
  rw [getElem?_perform, filter_reaches_of_log_ne hlog]
  refine congrArg (cs[k]?.map ·) (funext fun c => ?_)
  exact List.foldl_map

theorem leaves_run (cs : Consoles) (source : String) :
    p.Leaves cs (p.run cs source).2 (runSource p.options source).texts := by
  refine ⟨prints_run cs source, fun k hlog => ?_⟩
  rw [← (leaves_perform cs _).elsewhere k hlog, getElem?_run, getElem?_perform]
  simp only [if_neg hlog]

/-- With one console for both, a run under a profile is a run on that console. -/
theorem run_on_one (hlog : p.log = some k) (htext : p.text = some k) (cs : Consoles)
    (source : String) :
    (p.run cs source).2[k]? = cs[k]?.map fun c => (c.run p.options source).2 := by
  rw [getElem?_run]
  simp only [if_pos hlog, filter_reaches_of_both hlog htext]
  rfl

end

end Profile

end Reckon
