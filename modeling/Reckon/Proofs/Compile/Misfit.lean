/-
# Which token is blamed

Beginnings of sentences are what has a frontier.  So the pass over the tokens that finds what
the parser does stops where the tokens stop beginning a sentence: at the first misfit
(`diagnose_misfit`).  The token there is blamed, unless a fault is met first.  What is said of
it depends on the tokens before it alone (`expected_iff`).
-/
import Reckon.Proofs.Compile.Diagnosis

namespace Reckon

open Reckon.Expr (Frontier Admits Misfit)

/-- The tokens that are scanned before the one with number `n` among those that are no faults,
counted from 0. -/
def scannedBefore : Nat → List Token → List Token
  | _, [] => []
  | n, t :: rest =>
    if t.kind = .fault then t :: scannedBefore n rest
    else
      match n with
      | 0 => []
      | n + 1 => t :: scannedBefore n rest

/-- The first fault among some tokens. -/
def firstFault? (ts : List Token) : Option Token := ts.find? (·.kind = .fault)

/-- The tokens that are no faults. -/
def clean (ts : List Token) : List Token := ts.filter (·.kind ≠ .fault)

section
variable {t : Token} {rest : List Token}

theorem scannedBefore_fault (n : Nat) (ht : t.kind = .fault) :
    scannedBefore n (t :: rest) = t :: scannedBefore n rest := by
  simp only [scannedBefore, if_pos ht]

theorem scannedBefore_zero (ht : t.kind ≠ .fault) : scannedBefore 0 (t :: rest) = [] := by
  simp only [scannedBefore, if_neg ht]

theorem scannedBefore_succ (n : Nat) (ht : t.kind ≠ .fault) :
    scannedBefore (n + 1) (t :: rest) = t :: scannedBefore n rest := by
  simp only [scannedBefore, if_neg ht]

theorem firstFault?_fault (ht : t.kind = .fault) : firstFault? (t :: rest) = some t :=
  List.find?_cons_of_pos (decide_eq_true ht)

theorem firstFault?_clean (ht : t.kind ≠ .fault) : firstFault? (t :: rest) = firstFault? rest :=
  List.find?_cons_of_neg (by simpa using ht)

theorem clean_cons (ht : t.kind ≠ .fault) : clean (t :: rest) = t :: clean rest :=
  List.filter_cons_of_pos (decide_eq_true ht)

theorem mem_clean : t ∈ clean rest ↔ t ∈ rest ∧ t.kind ≠ .fault := by
  rw [clean, List.mem_filter, decide_eq_true_iff]

end

namespace Expr.Frontier

/-- How many tokens that are no faults can come before a fault which is met before the complaint
about the token with number `k`. -/
def reach : Frontier → Nat → Nat
  | operand _, k => k + 1
  | _, k => k

theorem reach_succ (f : Frontier) (k : Nat) : f.reach (k + 1) = f.reach k + 1 := by
  cases f <;> rfl

/-- Where the tokens that are no faults have a frontier, only a fault can be wrong. -/
theorem diagnose_viable {f g : Frontier} {ts : List Token} (h : f.run (clean ts) = some g) :
    f.diagnose ts = (firstFault? ts).map Token.misspelled := by
  induction ts generalizing f with
  | nil => rfl
  | cons t rest ih =>
      by_cases ht : t.kind = .fault
      · rw [diagnose_fault f rest ht, firstFault?_fault ht]
        rfl
      · rw [clean_cons ht] at h
        obtain ⟨f', hstep, hrest⟩ := Option.bind_eq_some_iff.mp h
        rw [diagnose_step rest ht hstep, ih hrest, firstFault?_clean ht]

/-- The objection to a token is a fault right after it or the complaint about it. -/
theorem objection_eq (f : Frontier) {t : Token} (rest : List Token) (ht : t.kind ≠ .fault) :
    f.objection t rest =
      ((firstFault? (scannedBefore (f.reach 0) (t :: rest))).map Token.misspelled).getD
        (t.blamed f.complaint.message) := by
  cases f with
  | operand depth =>
      rw [reach, scannedBefore_succ 0 ht, firstFault?_clean ht]
      cases rest with
      | nil => rfl
      | cons next more =>
          by_cases hnext : next.kind = .fault
          · rw [scannedBefore_fault 0 hnext, firstFault?_fault hnext]
            exact if_pos hnext
          · rw [scannedBefore_zero hnext]
            exact if_neg hnext
  | operator depth =>
      rw [show (operator depth).reach 0 = 0 from rfl, scannedBefore_zero ht, objection_operator]
      rfl
  | closed =>
      rw [show closed.reach 0 = 0 from rfl, scannedBefore_zero ht]
      cases rest <;> rfl

/-- Where a token cannot come next, it is blamed unless a fault is met first. -/
theorem diagnose_misfit {f g : Frontier} {ts : List Token} {k : Nat} {t : Token}
    (hrun : f.run ((clean ts).take k) = some g) (ht : (clean ts)[k]? = some t)
    (hstep : g.step t.kind = none) :
    f.diagnose ts = some
      (((firstFault? (scannedBefore (g.reach k) ts)).map Token.misspelled).getD
        (t.blamed g.complaint.message)) := by
  induction ts generalizing f k with
  | nil => cases ht
  | cons u rest ih =>
      by_cases hu : u.kind = .fault
      · rw [diagnose_fault f rest hu, scannedBefore_fault _ hu, firstFault?_fault hu]
        rfl
      · rw [clean_cons hu] at hrun ht
        cases k with
        | zero =>
            cases hrun
            cases ht
            rw [diagnose_stuck rest hu hstep, objection_eq _ rest hu]
        | succ k =>
            obtain ⟨f', hfirst, hrest⟩ := Option.bind_eq_some_iff.mp hrun
            rw [diagnose_step rest hu hfirst, ih hrest ht, reach_succ, scannedBefore_succ _ hu,
              firstFault?_clean hu]

end Expr.Frontier

/-! ## What is met before a complaint -/

/-- A fault that is scanned before a token is scanned before the next one. -/
theorem firstFault?_scannedBefore_succ {k : Nat} {ts : List Token} {t : Token}
    (h : firstFault? (scannedBefore k ts) = some t) :
    firstFault? (scannedBefore (k + 1) ts) = some t := by
  induction ts generalizing k with
  | nil => cases h
  | cons u rest ih =>
      by_cases hu : u.kind = .fault
      · rw [scannedBefore_fault _ hu, firstFault?_fault hu] at h ⊢
        exact h
      · cases k with
        | zero =>
            rw [scannedBefore_zero hu] at h
            cases h
        | succ k =>
            rw [scannedBefore_succ _ hu, firstFault?_clean hu] at h ⊢
            exact ih h

/-- Before the last token everything else is scanned. -/
theorem firstFault?_scannedBefore_last {k : Nat} {ts : List Token} {last : Token}
    (hlast : last.kind ≠ .fault) (h : (clean ts).length ≤ k) :
    firstFault? (scannedBefore k (ts ++ [last])) = firstFault? ts := by
  induction ts generalizing k with
  | nil =>
      cases k with
      | zero => rw [List.nil_append, scannedBefore_zero hlast]
      | succ k =>
          rw [List.nil_append, scannedBefore_succ k hlast, firstFault?_clean hlast]
          rfl
  | cons u rest ih =>
      rw [List.cons_append]
      by_cases hu : u.kind = .fault
      · rw [scannedBefore_fault k hu, firstFault?_fault hu, firstFault?_fault hu]
      · rw [clean_cons hu] at h
        cases k with
        | zero => exact absurd h (Nat.not_succ_le_zero _)
        | succ k =>
            rw [scannedBefore_succ k hu, firstFault?_clean hu, firstFault?_clean hu]
            exact ih (Nat.le_of_succ_le_succ h)

/-! ## What is expected -/

/-- What is said of a token that cannot come after the tokens `before`: there an operand is
expected, or an operator while a parenthesis is open, or an operator outside of them all. -/
inductive Expected (before : List Token) : String → Prop
  | operand (h : Admits before .number) : Expected before "Expect expression."
  | closing (h : Admits before .plus)
      (hopen : before.countP (·.kind = .rightParen) < before.countP (·.kind = .leftParen)) :
      Expected before "Expect ')' after expression."
  | ending (h : Admits before .plus)
      (hopen : before.countP (·.kind = .rightParen) = before.countP (·.kind = .leftParen)) :
      Expected before "Expect end of expression."

namespace Expr.Frontier

/-- Only the end token closes a frontier. -/
theorem run_ne_closed {f g : Frontier} {us : List Token} (h : f.run us = some g)
    (hf : f ≠ closed) (hus : ∀ t ∈ us, t.kind ≠ .eof) : g ≠ closed := by
  induction us generalizing f with
  | nil =>
      cases h
      exact hf
  | cons t us ih =>
      obtain ⟨f', hstep, hrest⟩ := Option.bind_eq_some_iff.mp h
      refine ih hrest ?_ fun u hu => hus u (List.mem_cons_of_mem _ hu)
      rintro rfl
      cases f with
      | operand depth => obtain ⟨_, h⟩ | ⟨_, h⟩ | ⟨_, h⟩ := step_operand_eq_some hstep <;> cases h
      | operator depth =>
          obtain ⟨_, _, _, h⟩ | ⟨heof, _⟩ | ⟨_, _, h⟩ := step_operator_eq_some hstep
          · cases h
          · exact hus t List.mem_cons_self heof
          · cases h
      | closed => exact hf rfl

variable {before : List Token} {f : Frontier} {depth : Nat}

theorem admits_number_iff (h : start.run before = some f) :
    Admits before .number ↔ ∃ depth, f = operand depth := by
  rw [Expr.admits_iff]
  constructor
  · rintro ⟨f', g, hf', hstep⟩
    cases h.symm.trans hf'
    cases f with
    | operand depth => exact ⟨depth, rfl⟩
    | operator depth => cases depth <;> cases hstep
    | closed => cases hstep
  · rintro ⟨depth, rfl⟩
    exact ⟨_, _, h, rfl⟩

theorem admits_plus_iff (h : start.run before = some f) :
    Admits before .plus ↔ ∃ depth, f = operator depth := by
  rw [Expr.admits_iff]
  constructor
  · rintro ⟨f', g, hf', hstep⟩
    cases h.symm.trans hf'
    cases f with
    | operand depth => cases hstep
    | operator depth => exact ⟨depth, rfl⟩
    | closed => cases hstep
  · rintro ⟨depth, rfl⟩
    have hplus : Kind.plus = Operator.add.kind := rfl
    exact ⟨_, _, h, step_operator depth hplus⟩

/-- What is expected is what the frontier wants. -/
theorem expected_iff (h : start.run before = some f) (hf : f ≠ closed) {message : String} :
    Expected before message ↔ message = f.complaint.message := by
  have hdepth : 0 + _ = _ := depth_run h
  constructor
  · intro hexpected
    cases hexpected with
    | operand hnumber =>
        obtain ⟨depth, rfl⟩ := (admits_number_iff h).mp hnumber
        rfl
    | closing hplus hopen =>
        obtain ⟨depth, rfl⟩ := (admits_plus_iff h).mp hplus
        cases depth with
        | zero =>
            simp only [Frontier.depth] at hdepth
            omega
        | succ depth => rfl
    | ending hplus hopen =>
        obtain ⟨depth, rfl⟩ := (admits_plus_iff h).mp hplus
        cases depth with
        | zero => rfl
        | succ depth =>
            simp only [Frontier.depth] at hdepth
            omega
  · rintro rfl
    cases f with
    | operand depth => exact .operand ((admits_number_iff h).mpr ⟨depth, rfl⟩)
    | operator depth =>
        have hplus := (admits_plus_iff h).mpr ⟨depth, rfl⟩
        cases depth with
        | zero =>
            simp only [Frontier.depth] at hdepth
            exact .ending hplus (by omega)
        | succ depth =>
            simp only [Frontier.depth] at hdepth
            exact .closing hplus (by omega)
    | closed => exact absurd rfl hf

end Expr.Frontier

/-! ## The diagnostic of a source -/

/-- `Blamed all k t d`: where `t` is the first misfit among the tokens `all`, with number `k` of
those that are no faults, `d` is the diagnostic. -/
inductive Blamed (all : List Token) (k : Nat) (t : Token) : Diagnostic → Prop
  /-- A fault is scanned before the token. -/
  | scanned {f : Token} (hf : firstFault? (scannedBefore k all) = some f) :
      Blamed all k t ⟨f.line, .scan, f.lexeme⟩
  /-- An operand was expected, and a fault is scanned between the token and the next one. -/
  | ahead {f : Token} (hscanned : firstFault? (scannedBefore k all) = none)
      (hoperand : Admits ((clean all).take k) .number) (ht : t.kind ≠ .eof)
      (hf : firstFault? (scannedBefore (k + 1) all) = some f) :
      Blamed all k t ⟨f.line, .scan, f.lexeme⟩
  | token {message : String} (hscanned : firstFault? (scannedBefore k all) = none)
      (hahead : Admits ((clean all).take k) .number → t.kind ≠ .eof →
        firstFault? (scannedBefore (k + 1) all) = none)
      (hmessage : Expected ((clean all).take k) message) :
      Blamed all k t ⟨t.line, if t.kind = .eof then .atEnd else .token t.lexeme, message⟩

section
variable {all : List Token} {k : Nat} {t : Token} {d : Diagnostic}

theorem misspelled_of_firstFault? {ts : List Token} {u : Token} (h : firstFault? ts = some u) :
    u.misspelled = ⟨u.line, .scan, u.lexeme⟩ := by
  have hu : u.kind = .fault :=
    of_decide_eq_true (List.find?_some (p := fun t : Token => decide (t.kind = .fault)) h)
  rw [Token.misspelled, Token.blamed, Compile.State.location, hu]

/-- A fault before the token comes first. -/
theorem blamed_iff_of_scanned {u : Token} (hu : firstFault? (scannedBefore k all) = some u) :
    Blamed all k t d ↔ d = u.misspelled := by
  rw [misspelled_of_firstFault? hu]
  constructor
  · intro h
    cases h with
    | scanned hf =>
        cases hu.symm.trans hf
        rfl
    | ahead hscanned => cases hu.symm.trans hscanned
    | token hscanned => cases hu.symm.trans hscanned
  · rintro rfl
    exact .scanned hu

/-- A fault right after the token comes first where an operand was expected. -/
theorem blamed_iff_of_ahead {u : Token} (hscanned : firstFault? (scannedBefore k all) = none)
    (hoperand : Admits ((clean all).take k) .number) (ht : t.kind ≠ .eof)
    (hu : firstFault? (scannedBefore (k + 1) all) = some u) :
    Blamed all k t d ↔ d = u.misspelled := by
  rw [misspelled_of_firstFault? hu]
  constructor
  · intro h
    cases h with
    | scanned hf => cases hscanned.symm.trans hf
    | ahead _ _ _ hf =>
        cases hu.symm.trans hf
        rfl
    | token _ hahead => cases hu.symm.trans (hahead hoperand ht)
  · rintro rfl
    exact .ahead hscanned hoperand ht hu

/-- Else the token is blamed. -/
theorem blamed_iff_of_clean {f : Frontier} (hrun : Frontier.start.run ((clean all).take k) = some f)
    (hf : f ≠ .closed) (ht : t.kind ≠ .fault)
    (hscanned : firstFault? (scannedBefore k all) = none)
    (hahead : Admits ((clean all).take k) .number → t.kind ≠ .eof →
      firstFault? (scannedBefore (k + 1) all) = none) :
    Blamed all k t d ↔ d = t.blamed f.complaint.message := by
  rw [Token.blamed_eq ht]
  constructor
  · intro h
    cases h with
    | scanned hu => cases hscanned.symm.trans hu
    | ahead _ hoperand heof hu => cases (hahead hoperand heof).symm.trans hu
    | token _ _ hmessage => rw [(Expr.Frontier.expected_iff hrun hf).mp hmessage]
  · rintro rfl
    exact .token hscanned hahead ((Expr.Frontier.expected_iff hrun hf).mpr rfl)

/-- What the pass says at a misfit is what is blamed. -/
theorem blamed_iff {f : Frontier} (hrun : Frontier.start.run ((clean all).take k) = some f)
    (hf : f ≠ .closed) (ht : t.kind ≠ .fault)
    (hlast : t.kind = .eof →
      firstFault? (scannedBefore (k + 1) all) = firstFault? (scannedBefore k all)) :
    Blamed all k t d ↔
      d = ((firstFault? (scannedBefore (f.reach k) all)).map Token.misspelled).getD
        (t.blamed f.complaint.message) := by
  cases hscanned : firstFault? (scannedBefore k all) with
  | some u =>
      have hreach : firstFault? (scannedBefore (f.reach k) all) = some u := by
        cases f with
        | operand depth => exact firstFault?_scannedBefore_succ hscanned
        | operator depth => exact hscanned
        | closed => exact hscanned
      rw [blamed_iff_of_scanned hscanned, hreach]
      rfl
  | none =>
      cases f with
      | operand depth =>
          have hoperand := (Expr.Frontier.admits_number_iff hrun).mpr ⟨depth, rfl⟩
          rw [show (Frontier.operand depth).reach k = k + 1 from rfl]
          cases hahead : firstFault? (scannedBefore (k + 1) all) with
          | some u =>
              have heof : t.kind ≠ .eof := by
                intro heof
                cases (hlast heof).symm.trans hahead |>.symm.trans hscanned
              exact blamed_iff_of_ahead hscanned hoperand heof hahead
          | none => exact blamed_iff_of_clean hrun hf ht hscanned fun _ _ => hahead
      | operator depth =>
          rw [show (Frontier.operator depth).reach k = k from rfl, hscanned]
          refine blamed_iff_of_clean hrun hf ht hscanned fun hoperand => ?_
          obtain ⟨_, h⟩ := (Expr.Frontier.admits_number_iff hrun).mp hoperand
          cases h
      | closed => exact absurd rfl hf

end

/-! ## The tokens of a source -/

namespace TokenStream

variable {source : String} {k : Nat} {t : Token}

theorem clean_toList (stream : TokenStream) :
    clean stream.toList = clean stream.tokens ++ [stream.eof] := by
  rw [toList, clean, List.filter_append]
  rfl

/-- Among the tokens that are no faults, only the last one is the end token. -/
theorem eq_length_of_eof (ht : (clean (ofSource source).toList)[k]? = some t)
    (heof : t.kind = .eof) : k = (clean (ofSource source).tokens).length := by
  rw [clean_toList] at ht
  have hle := List.getElem?_eq_some_iff.mp ht |>.1
  rw [List.length_append, List.length_singleton] at hle
  refine Nat.le_antisymm (Nat.le_of_lt_succ hle) (Nat.le_of_not_lt fun hlt => ?_)
  rw [List.getElem?_append_left hlt] at ht
  exact kind_ne_eof_of_mem (mem_clean.mp (List.mem_of_getElem? ht)).1 heof

theorem kind_ne_eof_of_mem_take (hk : k < (clean (ofSource source).toList).length)
    (ht : t ∈ (clean (ofSource source).toList).take k) : t.kind ≠ .eof := by
  rw [clean_toList] at hk ht
  rw [List.length_append, List.length_singleton] at hk
  rw [List.take_append_of_le_length (Nat.le_of_lt_succ hk)] at ht
  exact kind_ne_eof_of_mem (mem_clean.mp (List.mem_of_mem_take ht)).1

end TokenStream

/-- Within the limits a source that does not compile gets one diagnostic.  Let `all` be its
tokens and `k` the first place where those that are no faults do not begin a sentence.  The
diagnostic is a fault scanned before the token there, or right after it where an operand was
expected, and else it blames that token for what was expected instead.  Where there is no such
place, only a fault can keep the source from compiling. -/
theorem compile_blames_misfit {o : Options} {source : String}
    (hnest : (clean (TokenStream.ofSource source).toList).length ≤ o.maxNesting)
    (hnumbers : (TokenStream.ofSource source).tokens.countP (·.kind = .number) ≤ 256) :
    let all := (TokenStream.ofSource source).toList
    (∀ k t, Misfit (clean all) k → (clean all)[k]? = some t →
      ∃ d, (compile o source).result = .error ⟨[d]⟩ ∧ ∀ d', Blamed all k t d' ↔ d' = d) ∧
    ((∀ k, ¬Misfit (clean all) k) →
      (∀ f, firstFault? all = some f →
        (compile o source).result = .error ⟨[⟨f.line, .scan, f.lexeme⟩]⟩) ∧
      (firstFault? all = none → ∃ c, (compile o source).result = .ok c)) := by
  intro all
  have hfound : (Compile.State.finish source o.maxNesting).diagnostic =
      Frontier.start.diagnose all := by
    refine Compile.State.diagnostic_finish ?_ hnumbers
    rw [Compile.State.readable, List.countP_eq_length_filter]
    exact hnest
  rw [compile_result, hfound]
  refine ⟨fun k t hmisfit ht => ?_, fun hnone => ?_⟩
  · obtain ⟨f, hrun, hstuck⟩ := hmisfit.stuck ht
    have hclean : t.kind ≠ .fault := (mem_clean.mp (List.mem_of_getElem? ht)).2
    have hopen : f ≠ .closed := Expr.Frontier.run_ne_closed hrun (by decide)
      fun u hu => TokenStream.kind_ne_eof_of_mem_take hmisfit.lt hu
    have hlast : t.kind = .eof →
        firstFault? (scannedBefore (k + 1) all) = firstFault? (scannedBefore k all) := by
      intro heof
      have hk := TokenStream.eq_length_of_eof ht heof
      have heofClean : (TokenStream.ofSource source).eof.kind ≠ .fault := Kind.noConfusion
      exact (firstFault?_scannedBefore_last heofClean (by omega)).trans
        (firstFault?_scannedBefore_last heofClean (by omega)).symm
    rw [Expr.Frontier.diagnose_misfit hrun ht hstuck]
    exact ⟨_, rfl, fun d' => blamed_iff hrun hopen hclean hlast⟩
  · obtain ⟨f, hrun⟩ := Expr.run_of_no_misfit hnone
    rw [Expr.Frontier.diagnose_viable hrun]
    refine ⟨fun u hu => ?_, fun hclear => ?_⟩
    · rw [hu, Option.map_some, misspelled_of_firstFault? hu]
    · rw [hclear]
      exact ⟨_, rfl⟩

theorem compile_blames_fault_after_paren :
    let source := "2 * ) @ 3"
    let all := (TokenStream.ofSource source).toList
    let o : Options := {}
    (clean all).length ≤ o.maxNesting ∧
      (TokenStream.ofSource source).tokens.countP (·.kind = .number) ≤ 256 ∧
      Misfit (clean all) 2 ∧
      (compile o source).result = .error ⟨[⟨1, .scan, "Unexpected character."⟩]⟩ := by
  intro source all o
  have htokens : (TokenStream.ofSource source).tokens =
      [⟨.number, 0, 1, 1, "2"⟩, ⟨.star, 2, 1, 1, "*"⟩, ⟨.rightParen, 4, 1, 1, ")"⟩,
        ⟨.fault, 6, 1, 1, "Unexpected character."⟩, ⟨.number, 8, 1, 1, "3"⟩] := by
    decide +kernel
  have hnest : (clean all).length ≤ o.maxNesting := by
    show (clean (_ ++ [_])).length ≤ _
    rw [htokens]
    decide
  have hnumbers : (TokenStream.ofSource source).tokens.countP (·.kind = .number) ≤ 256 := by
    rw [htokens]
    decide
  have hmisfit : Misfit (clean all) 2 := by
    show Misfit (clean (_ ++ [_])) 2
    rw [htokens]
    exact ⟨by decide, by decide, by decide⟩
  obtain ⟨d, hresult, hblamed⟩ := (compile_blames_misfit hnest hnumbers).1 2
    ⟨.rightParen, 4, 1, 1, ")"⟩ hmisfit (by decide +kernel)
  have hahead : Blamed all 2 ⟨.rightParen, 4, 1, 1, ")"⟩ ⟨1, .scan, "Unexpected character."⟩ :=
    .ahead (f := ⟨.fault, 6, 1, 1, "Unexpected character."⟩) (by decide +kernel)
      ⟨Expr.sample .number, rfl, by decide +kernel⟩ (by decide) (by decide +kernel)
  rw [(hblamed _).mp hahead]
  exact ⟨hnest, hnumbers, hmisfit, hresult⟩

end Reckon
