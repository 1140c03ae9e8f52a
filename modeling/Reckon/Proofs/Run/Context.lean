/-
# The source around a failure

A failed run is shown with the lines around the one that is blamed, and that one is
marked.  When the blamed line is a line of the text, exactly one row is marked, and it is
the row of that line (`showsLine_contextRows`).

Every failure of a run blames the line of a token: a diagnostic that of the token it is
about, a full stack that of the number which found no place.  So a failure is shown unless
its token was numbered one line too far, and then no row is shown at all
(`contextRows_of_run`).
-/
import Reckon.Context
import Reckon.Proofs.Run.Outcome
import Reckon.Proofs.Token.Line

namespace Reckon

open Reckon.Expr (Spells)

/-! ## Marked rows -/

/-- A row is marked at its head. -/
def isMarked (row : String) : Bool :=
  row.toList.head? = some '>'

/-- `ShowsLine rows source line`: exactly one of the rows is marked, and it shows the number and
the text of the line of the source with that number. -/
def ShowsLine (rows : List String) (source : String) (line : Nat) : Prop :=
  ∃ text width, 0 < line ∧ (Text.lines source)[line - 1]? = some text ∧
    rows.filter isMarked = [contextRow width line line text]

theorem isMarked_contextRow (width marked number : Nat) (text : String) :
    isMarked (contextRow width marked number text) = decide (number = marked) := by
  unfold isMarked contextRow
  by_cases h : number = marked
  · simp [h]
  · simp [h]

theorem filter_zipIdx_of_lt {α : Type} (l : List α) {n m : Nat} (h : m < n) :
    (l.zipIdx n).filter (fun p => p.2 = m) = [] := by
  rw [List.filter_eq_nil_iff]
  intro p hp hm
  have hle := List.le_snd_of_mem_zipIdx hp
  have heq : p.2 = m := of_decide_eq_true hm
  omega

theorem filter_drop_zipIdx {α : Type} (l : List α) {n k m : Nat} (h : n + k ≤ m) :
    ((l.zipIdx n).drop k).filter (fun p => p.2 = m) =
      (l[m - n]?).toList.map fun a => (a, m) := by
  induction l generalizing n k with
  | nil => simp
  | cons a rest ih =>
      rw [List.zipIdx_cons]
      by_cases hn : n = m
      · subst hn
        have hk : k = 0 := by omega
        subst hk
        rw [List.drop_zero, List.filter_cons_of_pos (by simp),
          filter_zipIdx_of_lt rest (Nat.lt_succ_self _), Nat.sub_self]
        rfl
      · obtain ⟨j, rfl⟩ : ∃ j, m = n + 1 + j := ⟨m - (n + 1), by omega⟩
        have hget : (a :: rest)[n + 1 + j - n]? = rest[n + 1 + j - (n + 1)]? := by
          rw [show n + 1 + j - n = (n + 1 + j - (n + 1)) + 1 by omega]
          rfl
        rw [hget]
        cases k with
        | zero =>
            rw [List.drop_zero, List.filter_cons_of_neg (by simpa using hn)]
            exact ih (k := 0) (by omega)
        | succ k => exact ih (by omega)

theorem filter_isMarked_window {lines : List String} {first line last : Nat} {text : String}
    (hpos : 0 < line) (hget : lines[line - 1]? = some text) (hfirst : first ≤ line)
    (hlast : line ≤ last) (width : Nat) :
    (((lines.take last).zipIdx 1).drop (first - 1) |>.map fun (text, number) =>
      contextRow width line number text).filter isMarked =
        [contextRow width line line text] := by
  have hmarked : (isMarked ∘ fun p : String × Nat => contextRow width line p.2 p.1) =
      fun p => decide (p.2 = line) := by
    funext p
    exact isMarked_contextRow ..
  rw [List.filter_map, hmarked, filter_drop_zipIdx _ (by omega),
    List.getElem?_take_of_lt (by omega), hget]
  rfl

/-- A line of the source is shown when it is asked for. -/
theorem showsLine_contextRows {source : String} {line : Nat} (hpos : 0 < line)
    (hle : line ≤ (Text.lines source).length) :
    ShowsLine (contextRows source line) source line := by
  have hlt : line - 1 < (Text.lines source).length := by omega
  have hget := List.getElem?_eq_getElem hlt
  unfold contextRows
  rw [if_neg (by omega)]
  refine ⟨_, _, hpos, hget, filter_isMarked_window hpos hget ?_ ?_ _⟩
  · omega
  · omega

theorem contextRows_eq_nil {source : String} {line : Nat}
    (h : (Text.lines source).length < line) : contextRows source line = [] :=
  if_pos (.inr h)

theorem not_showsLine_nil (source : String) (line : Nat) : ¬ShowsLine [] source line := by
  rintro ⟨_, _, _, _, h⟩
  cases h

/-! ## Failures of a run -/

/-- A diagnostic about the place where the text ends. -/
def Diagnostic.AtTextEnd (d : Diagnostic) : Prop :=
  d.location = .atEnd ∨
    d.location = .scan ∧ d.message = Misspelling.unterminatedString.message

/-- A failure that is blamed on the place where the text ends. -/
def RunError.AtTextEnd : RunError → Prop
  | compile e => ∃ d ∈ e.diagnostics, d.AtTextEnd
  | runtime _ => False

/-- A diagnostic is about the end of the text exactly when its token reaches there. -/
theorem atTextEnd_iff {d : Diagnostic} {t : Token}
    (hlocation : d.location = Compile.State.location t)
    (hmessage : t.kind = .fault → d.message = t.lexeme) : d.AtTextEnd ↔ t.ReachesEnd := by
  unfold Diagnostic.AtTextEnd Token.ReachesEnd
  rw [hlocation]
  unfold Compile.State.location
  split
  · next hkind => simp [hkind]
  · next hkind => simp [hkind, hmessage hkind]
  · next heof hfault =>
    constructor
    · rintro (h | ⟨h, _⟩) <;> cases h
    · rintro (h | ⟨h, _⟩)
      · exact absurd h heof
      · exact absurd h hfault

theorem exists_literal_of_overflowLine? {e : Expr} {room line : Nat}
    (h : e.overflowLine? room = some line) : ∃ t ∈ e.literals, t.line = line := by
  have hfind := e.overflowLine?_eq_find? (Nat.zero_le room)
  rw [Nat.sub_zero, h] at hfind
  obtain ⟨p, hp, hline⟩ := Option.map_eq_some_iff.mp hfind.symm
  refine ⟨p.1, ?_, hline⟩
  rw [← e.map_fst_pushes 0]
  exact List.mem_map_of_mem (List.mem_of_find?_eq_some hp)

/-- A failed run blames the line of a token, and the end of the text exactly when that token
reaches there. -/
theorem exists_token_of_run {o : Options} {source : String} {e : RunError}
    (h : (runSource o source).result = .error e) :
    ∃ t ∈ (TokenStream.ofSource source).toList,
      e.toFailure.line? = some t.line ∧
      e.toFailure.contextRows source = contextRows source t.line ∧
      (e.AtTextEnd ↔ t.ReachesEnd) := by
  rcases runSource_cases o source with ⟨d, hblames, hd⟩ | ⟨tree, htree, _, hrun⟩
  · rw [hd] at h
    cases h
    obtain ⟨t, ht, hline, hlocation, hmessage⟩ := hblames
    have hend : d.AtTextEnd ↔ t.ReachesEnd := by
      refine atTextEnd_iff hlocation fun hfault => ?_
      rw [if_pos hfault] at hmessage
      exact hmessage
    refine ⟨t, ht, congrArg some hline, congrArg (contextRows source) hline, ?_⟩
    rw [← hend]
    exact ⟨fun ⟨d', hd', hat⟩ => List.mem_singleton.mp hd' ▸ hat,
      fun hat => ⟨d, List.mem_singleton_self d, hat⟩⟩
  · rw [hrun] at h
    cases hover : tree.overflowLine? o.stackMax with
    | none =>
        rw [hover] at h
        cases h
    | some line =>
        rw [hover] at h
        cases h
        obtain ⟨t, ht, rfl⟩ := exists_literal_of_overflowLine? hover
        rw [← htree.literals_eq, List.mem_filter] at ht
        have hkind : t.kind = .number := of_decide_eq_true ht.2
        refine ⟨t, List.mem_append_left _ ht.1, rfl, rfl, ?_⟩
        simp [RunError.AtTextEnd, Token.ReachesEnd, hkind]

/-- A failed run of a source that is not empty is shown with exactly one marked row, that of the
blamed line, unless a newline closes the source, all of it is read and the failure is blamed on
its end; then nothing is shown. -/
theorem contextRows_of_run {source : String} (hsource : source ≠ "") (console : Console)
    (o : Options) {e : RunError} (h : (console.run o source).1 = .error e) :
    ∃ line, e.toFailure.line? = some line ∧
      (ShowsLine (e.toFailure.contextRows source) source line ↔
        ¬(source.toList.getLast? = some '\n' ∧ '\x00' ∉ source.toList ∧ e.AtTextEnd)) ∧
      (source.toList.getLast? = some '\n' ∧ '\x00' ∉ source.toList ∧ e.AtTextEnd →
        e.toFailure.contextRows source = []) := by
  obtain ⟨t, ht, hline, hrows, hend⟩ := exists_token_of_run h
  have hle := TokenStream.line_le_length_lines_iff hsource ht
  rw [← hend] at hle
  refine ⟨t.line, hline, ?_, ?_⟩
  · rw [hrows, ← hle]
    refine ⟨fun hshown => ?_, showsLine_contextRows (TokenStream.line_pos ht)⟩
    refine Nat.le_of_not_lt fun hlt => ?_
    rw [contextRows_eq_nil hlt] at hshown
    exact not_showsLine_nil _ _ hshown
  · intro hhidden
    rw [hrows]
    exact contextRows_eq_nil (Nat.lt_of_not_le fun hshown => hle.mp hshown hhidden)

theorem contextRows_misplaced_paren :
    ∃ e, (Console.silent.run {} "1 +\n)").1 = .error e ∧ e.toFailure.line? = some 2 ∧
      ShowsLine (e.toFailure.contextRows "1 +\n)") "1 +\n)" 2 := by
  have hrun : (Console.silent.run {} "1 +\n)").1 =
      .error (.compile ⟨[⟨2, .token ")", "Expect expression."⟩]⟩) :=
    run_of_diagnostic (by decide +kernel) .silent
  obtain ⟨line, hline, hshown, _⟩ := contextRows_of_run (by decide) .silent {} hrun
  cases hline
  refine ⟨_, hrun, rfl, hshown.mpr ?_⟩
  rintro ⟨hlast, _⟩
  revert hlast
  decide +kernel

/-- The line after the newline that closes a source is blamed, but it is not shown. -/
theorem contextRows_unfinished_sum :
    "1 +\n" ≠ "" ∧ ∃ e, (Console.silent.run {} "1 +\n").1 = .error e ∧
      e.toFailure.line? = some 2 ∧ e.toFailure.contextRows "1 +\n" = [] := by
  have hrun : (Console.silent.run {} "1 +\n").1 =
      .error (.compile ⟨[⟨2, .atEnd, "Expect expression."⟩]⟩) :=
    run_of_diagnostic (by decide +kernel) .silent
  have hlines : (Text.lines "1 +\n").length < 2 := by decide +kernel
  exact ⟨by decide, _, hrun, rfl, contextRows_eq_nil hlines⟩

end Reckon
