import LineGrammar.Proofs.Halts
import LineGrammar.Proofs.Remarks

/-! What the limit on errors does to the diagnostics. Only a stop reports that there were too many errors,
and it is the last error of its run. A run that is not stopped keeps within the limit, up to what is
reported after its last line. -/

namespace LineGrammar

theorem Cause.not_stop_of_isOwn {cause : Cause} (h : cause.isOwn = true) : cause.code ≠ "E0207" := by
  revert h
  cases cause <;> simp [Cause.isOwn, Cause.code]

namespace Analysis

theorem not_stop_of_remark {line : Line} {block? : Option CodeBlock} {d : Diagnostic}
    (h : Remark line block? d) : d.code ≠ "E0207" := by
  cases h with
  | own hown hmarks => exact Cause.not_stop_of_isOwn hown
  | refusal cause hcause hraw =>
    have hcodes : ∀ cause ∈ refusals, cause.code ≠ "E0207" := by decide
    exact hcodes cause hcause
  | unexpected => simp [Cause.code]
  | external walker interface b hb => simp [Cause.code]

/-- The lines themselves never report a stop. -/
theorem not_stop_after (lines : List String) :
    ∀ d ∈ (after lines).reader.diagnostics, d.code ≠ "E0207" := by
  induction lines using after_induction with
  | nil => exact fun d hd => by cases hd
  | turn lines raw a' ih hturn =>
    obtain ⟨ds, hds, hremarks⟩ := diagnostics_turn hturn
    intro d hd
    rw [hds] at hd
    rcases List.mem_append.1 hd with hd | hd
    · rcases List.mem_append.1 hd with hd | hd
      · exact ih d hd
      · unfold due at hd
        split at hd
        · rcases code_of_overdue hd with hcode | hcode <;> simp [hcode]
        · cases hd
    · exact not_stop_of_remark (hremarks d hd)

/-- After the last line there are at most two reports. -/
theorem errorCount_outstanding_le (a : Analysis) : errorCount a.outstanding ≤ 2 := by
  refine Nat.le_trans List.countP_le_length ?_
  unfold outstanding
  split
  · simp
  · unfold Reader.overdue
    split
    · split
      · split <;> simp
      · simp
    · simp

theorem errorCount_warnings (a : Analysis) : errorCount a.undefinedWarnings = 0 :=
  List.countP_eq_zero.2 fun d hd => by simp [(warning_of_undefined hd).2]

/-- The diagnostics of a run that is stopped by a line. -/
theorem diagnostics_halt (limit unread : Nat) (a : Analysis) :
    (a.halt limit unread).finish.diagnostics =
      a.reader.diagnostics ++ a.reader.line.problem (.tooManyErrors limit) :: a.undefinedWarnings := by
  rw [diagnostics_finish_of_stopped (a := a.halt limit unread) rfl, List.append_cons]
  rfl

end Analysis

open Analysis

/-- One report of a stop, with too many errors before it and only warnings about undefined names after
it. -/
structure StoppedReports (limit : Nat) (ds : List Diagnostic) : Prop where
  shape : ∃ before stop warnings, ds = before ++ stop :: warnings ∧
    stop.code = "E0207" ∧ stop.isError = true ∧ limit < errorCount before ∧
    (∀ d ∈ before, d.code ≠ "E0207") ∧ ∀ d ∈ warnings, d.code = "W0301" ∧ d.isError = false
  once : ds.countP (·.code = "E0207") = 1

/-- No more errors than allowed up to the last line, and at most two after it. -/
structure CompleteReports (limit : Nat) (a : Analysis) (ds : List Diagnostic) : Prop where
  within : errorCount a.reader.diagnostics ≤ limit
  count : errorCount ds ≤ limit + 2
  beyond : ∃ ending, a.conclude.reader.diagnostics = a.reader.diagnostics ++ ending ∧
    ∀ d ∈ (ds.filter Diagnostic.isError).drop limit,
      d ∈ ending ∧ d.code ∈ ["E0201", "E0202", "E0206"]

theorem stoppedReports_halt {limit unread : Nat} {front : List String} {raw : String}
    (h : Overruns limit front raw) :
    StoppedReports limit ((after (front ++ [raw])).halt limit unread).finish.diagnostics := by
  have hbefore := not_stop_after (front ++ [raw])
  have hafter : ∀ d ∈ (after (front ++ [raw])).undefinedWarnings, d.code ≠ "E0207" :=
    fun d hd => by simp [(warning_of_undefined hd).1]
  rw [diagnostics_halt]
  refine ⟨⟨_, _, _, rfl, rfl, rfl, h.beyond, hbefore, fun d hd => warning_of_undefined hd⟩, ?_⟩
  have hnone : ∀ {ds : List Diagnostic}, (∀ d ∈ ds, d.code ≠ "E0207") →
      ds.countP (·.code = "E0207") = 0 := fun hds =>
    List.countP_eq_zero.2 fun d hd => by simpa using hds d hd
  rw [List.countP_append, List.countP_cons, hnone hbefore, hnone hafter]
  simp [Cause.code]

theorem completeReports_finish {limit : Nat} {lines : List String}
    (h : (run limit lines).aborted = false) :
    CompleteReports limit (run limit lines) (run limit lines).finish.diagnostics := by
  have hwithin : errorCount (run limit lines).reader.diagnostics ≤ limit := by
    rw [run_of_running h]
    exact errors_le_of_running h
  have hending := errorCount_outstanding_le (run limit lines)
  rw [diagnostics_finish_of_running h]
  refine ⟨hwithin, ?_, _, diagnostics_conclude_of_running h, fun d hd => ?_⟩
  · rw [errorCount_append, errorCount_append, errorCount_warnings]
    omega
  · have herror : d.isError = true := (List.mem_filter.1 (List.mem_of_mem_drop hd)).2
    rw [List.append_assoc] at hd
    rcases List.mem_append.1 (mem_of_mem_drop_errors hwithin hd) with hd | hd
    · exact ⟨hd, code_of_outstanding hd⟩
    · exact absurd (herror.symm.trans (warning_of_undefined hd).2) (by simp)

/-- The analysis of a document is stopped if and only if this is reported, and then it is reported once,
as the last error. Otherwise there are at most two errors beyond the limit, which are about blocks that
are missing or open at the end. -/
theorem limit_shape (limit : Nat) (text : String) :
    ((analyze limit text).aborted = true ↔
      ∃ d ∈ (analyze limit text).diagnostics, d.code = "E0207") ∧
    ((analyze limit text).aborted = true → StoppedReports limit (analyze limit text).diagnostics) ∧
    ((analyze limit text).aborted = false →
      CompleteReports limit (run limit (Text.lines text)) (analyze limit text).diagnostics) := by
  have hstopped : (analyze limit text).aborted = true →
      StoppedReports limit (analyze limit text).diagnostics := by
    rw [analyze, analyzeLines, aborted_finish]
    intro haborted
    obtain ⟨front, raw, rest, hlines, hover⟩ := exists_overruns_of_aborted haborted
    rw [hlines, run_eq_halt hover]
    exact stoppedReports_halt hover
  have hcomplete : (analyze limit text).aborted = false →
      CompleteReports limit (run limit (Text.lines text)) (analyze limit text).diagnostics := by
    rw [analyze, analyzeLines, aborted_finish]
    exact completeReports_finish
  refine ⟨⟨fun haborted => ?_, ?_⟩, hstopped, hcomplete⟩
  · obtain ⟨⟨before, stop, warnings, hds, hcode, -⟩, -⟩ := hstopped haborted
    exact ⟨stop, by simp [hds], hcode⟩
  · rintro ⟨d, hd, hcode⟩
    by_contra hrunning
    rw [Bool.not_eq_true] at hrunning
    rw [analyze, analyzeLines, aborted_finish] at hrunning
    rw [analyze, analyzeLines, diagnostics_finish_of_running hrunning, run_of_running hrunning] at hd
    rcases List.mem_append.1 hd with hd | hd
    · rcases List.mem_append.1 hd with hd | hd
      · exact not_stop_after _ d hd hcode
      · have hother := code_of_outstanding hd
        rw [hcode] at hother
        exact absurd hother (by decide)
    · exact absurd (hcode.symm.trans (warning_of_undefined hd).1) (by decide)

/-- A run that is stopped before its last line, and one with two errors more than allowed. -/
theorem limit_shape_both :
    (analyze 1 "x := MISSING;\nbad\nbad\nbad").aborted = true ∧
      StoppedReports 1 (analyze 1 "x := MISSING;\nbad\nbad\nbad").diagnostics ∧
      (analyze 0 "r := A").aborted = false ∧ errorCount (analyze 0 "r := A").diagnostics = 2 ∧
      CompleteReports 0 (run 0 (Text.lines "r := A")) (analyze 0 "r := A").diagnostics :=
  have hstopped : (analyze 1 "x := MISSING;\nbad\nbad\nbad").aborted = true := by decide +kernel
  have hrunning : (analyze 0 "r := A").aborted = false := by decide +kernel
  ⟨hstopped, (limit_shape 1 "x := MISSING;\nbad\nbad\nbad").2.1 hstopped, hrunning,
    by decide +kernel, (limit_shape 0 "r := A").2.2 hrunning⟩

end LineGrammar
