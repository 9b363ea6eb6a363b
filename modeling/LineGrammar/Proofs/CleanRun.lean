import LineGrammar.Proofs.StepContent

/-! Documents in which nothing is wrong. The limit on errors plays no part in their analysis, which is a
plain run over the lines that ends with nothing left to be reported. -/

namespace LineGrammar

namespace Analysis

theorem aborted_closeBlock (block : CodeBlock) (a : Analysis) :
    (a.closeBlock block).aborted = a.aborted := by
  have hreject : ∀ b : CodeBlock, (a.rejectExternal b).2.aborted = a.aborted := by
    intro b
    unfold rejectExternal
    split <;> rfl
  exact hreject _

theorem aborted_prepare (a : Analysis) : a.prepare.aborted = a.aborted := by
  have hleave : a.leaveName.aborted = a.aborted := by
    unfold leaveName
    split <;> rfl
  rw [prepare, checkExpectation_eq, expectBlock, ← hleave]
  split
  · rfl
  · split
    · rfl
    · split <;> rfl

theorem aborted_dispatch (a : Analysis) : a.dispatch.aborted = a.aborted := by
  unfold dispatch
  dsimp only
  repeat' split
  all_goals rfl

theorem aborted_step (a : Analysis) (raw : String) : (a.step raw).aborted = a.aborted := by
  cases h : a.reader.block? with
  | some block =>
    rw [step_inside h]
    split
    · exact aborted_closeBlock block (a.moveTo raw)
    · rfl
  | none =>
    rw [step_outside h]
    split
    · rfl
    · rw [aborted_dispatch, aborted_prepare]
      rfl

theorem aborted_foldl (lines : List String) (a : Analysis) :
    (lines.foldl step a).aborted = a.aborted := by
  induction lines generalizing a with
  | nil => rfl
  | cons raw rest ih => rw [List.foldl_cons, ih, aborted_step]

theorem diagnostics_advance (limit : Nat) (a : Analysis) (raw : String) (h : a.aborted = false) :
    (a.step raw).reader.diagnostics <+: (a.advance limit raw).reader.diagnostics := by
  rw [advance, h, if_neg Bool.false_ne_true, checkLimit]
  split
  · exact List.prefix_append _ _
  · exact List.prefix_rfl

theorem advance_of_clean {limit : Nat} {a : Analysis} {raw : String} (ha : a.aborted = false)
    (h : (a.step raw).reader.diagnostics = []) : a.advance limit raw = a.step raw := by
  have herrors : (a.step raw).reader.errors = 0 := by rw [Reader.errors, h]; rfl
  rw [advance, ha, if_neg Bool.false_ne_true, checkLimit, herrors, if_neg (Nat.not_lt_zero limit)]

theorem foldl_advance_of_clean {limit : Nat} {lines : List String} {a : Analysis}
    (ha : a.aborted = false) (h : (lines.foldl step a).reader.diagnostics = []) :
    lines.foldl (advance limit) a = lines.foldl step a := by
  induction lines generalizing a with
  | nil => rfl
  | cons raw rest ih =>
    have hgrows := diagnostics_foldl rest (a.step raw)
    rw [List.foldl_cons] at h
    rw [h, List.prefix_nil] at hgrows
    rw [List.foldl_cons, advance_of_clean ha hgrows, ih ((aborted_step a raw).trans ha) h]
    rfl

theorem diagnostics_foldl_advance (limit : Nat) (lines : List String) (a : Analysis) :
    a.reader.diagnostics <+: (lines.foldl (advance limit) a).reader.diagnostics := by
  induction lines generalizing a with
  | nil => exact List.prefix_rfl
  | cons raw rest ih =>
    refine List.IsPrefix.trans ?_ (ih (a.advance limit raw))
    cases ha : a.aborted with
    | true => rw [advance, ha, if_pos rfl]; exact List.prefix_rfl
    | false => exact (diagnostics_step a raw).trans (diagnostics_advance limit a raw ha)

/-- A run that has reported nothing has not come near the limit. -/
theorem foldl_advance_eq {limit : Nat} {lines : List String} {a : Analysis}
    (ha : a.aborted = false) (h : (lines.foldl (advance limit) a).reader.diagnostics = []) :
    lines.foldl (advance limit) a = lines.foldl step a := by
  induction lines generalizing a with
  | nil => rfl
  | cons raw rest ih =>
    have hgrows := (diagnostics_advance limit a raw ha).trans
      (diagnostics_foldl_advance limit rest (a.advance limit raw))
    rw [List.foldl_cons] at h
    rw [h, List.prefix_nil] at hgrows
    rw [advance_of_clean ha hgrows] at h
    rw [List.foldl_cons, advance_of_clean ha hgrows, ih ((aborted_step a raw).trans ha) h]
    rfl

/-- Nothing has been reported, and nothing is left to be. -/
structure Clean (a : Analysis) : Prop where
  diagnostics : a.reader.diagnostics = []
  closed : a.reader.block? = none
  complete : a.reader.expectsBlock = false
  resolved : a.index.unresolved = []
  running : a.aborted = false

/-- The document of a run at whose end nothing is reported. -/
def document (a : Analysis) : Document := { nodes := a.slots, index := a.index.clearPending }

theorem conclude_of_clean {a : Analysis} (h : a.Clean) : a.conclude = a := by
  rw [conclude, h.closed]
  simp [h.complete]

theorem finish_of_clean {a : Analysis} (h : a.Clean) : a.finish = a.document := by
  rw [finish, conclude_of_clean h, document, h.diagnostics, h.resolved, h.running]
  rfl

theorem diagnostics_conclude (a : Analysis) :
    a.reader.diagnostics <+: a.conclude.reader.diagnostics := by
  unfold conclude
  split
  · dsimp only
    split
    · exact List.prefix_rfl
    · exact List.prefix_append _ _
  · split
    · have hreport : a.reader.diagnostics <+: (a.reader.report .blockExpected).diagnostics :=
        List.prefix_append _ _
      exact hreport.trans (Reader.diagnostics_abandonBlock _)
    · exact List.prefix_rfl

theorem diagnostics_finish (a : Analysis) : a.reader.diagnostics <+: a.finish.diagnostics :=
  (diagnostics_conclude a).trans (List.prefix_append _ _)

/-- At the end an open block is reported, and so is a block that has not come. -/
theorem clean_of_finish {a : Analysis} (ha : a.aborted = false) (h : a.finish.diagnostics = []) :
    a.Clean := by
  obtain ⟨hconclude, hunresolved⟩ := List.append_eq_nil_iff.1 h
  have hdiagnostics := diagnostics_conclude a
  rw [hconclude, List.prefix_nil] at hdiagnostics
  cases hblock : a.reader.block? with
  | some block =>
    rw [conclude, hblock, ha] at hconclude
    exact absurd hconclude (by simp [place, Reader.dropBlock, Reader.reportAt, Reader.reportAll])
  | none =>
    cases hexpects : a.reader.expectsBlock with
    | true =>
      rw [conclude, hblock, ha, hexpects] at hconclude
      have hreport := Reader.diagnostics_abandonBlock (a.reader.report .blockExpected)
      rw [show (a.reader.report .blockExpected).abandonBlock.diagnostics = [] from hconclude,
        List.prefix_nil] at hreport
      exact absurd hreport (report_ne_nil a .blockExpected)
    | false =>
      have hself : a.conclude = a := by
        rw [conclude, hblock]
        simp [hexpects]
      rw [hself] at hunresolved
      exact ⟨hdiagnostics, hblock, hexpects, List.map_eq_nil_iff.1 hunresolved, ha⟩

/-- Whether something is left to be reported does not depend on columns. -/
theorem Clean.of_content {a a' : Analysis} (ha : a.Clean) (h : a'.content = a.content) :
    a'.Clean where
  diagnostics := by
    have hmap : a'.reader.diagnostics.map Diagnostic.content =
        a.reader.diagnostics.map Diagnostic.content :=
      congrArg (fun a : Analysis => a.reader.diagnostics) h
    rw [ha.diagnostics] at hmap
    exact List.map_eq_nil_iff.1 hmap
  closed := block?_of_content h ha.closed
  complete := (congrArg (fun a : Analysis => a.reader.expectsBlock) h).trans ha.complete
  resolved := by
    have hmap := congrArg (fun a : Analysis => a.index.unresolved) h
    dsimp only [content] at hmap
    rw [Index.unresolved_content, Index.unresolved_content, ha.resolved] at hmap
    exact List.map_eq_nil_iff.1 hmap
  running := (congrArg Analysis.aborted h).trans ha.running

end Analysis

open Analysis

theorem clean_of_analyzeLines {limit : Nat} {lines : List String}
    (h : (analyzeLines limit lines).diagnostics = []) : (lines.foldl step {}).Clean := by
  rw [analyzeLines] at h
  have hrun := diagnostics_finish (run limit lines)
  rw [h, List.prefix_nil] at hrun
  have heq : run limit lines = lines.foldl step {} := foldl_advance_eq rfl hrun
  rw [heq] at h
  exact clean_of_finish (aborted_foldl lines {}) h

theorem analyzeLines_of_clean {lines : List String} (h : (lines.foldl step {}).Clean) (limit : Nat) :
    analyzeLines limit lines = (lines.foldl step {}).document := by
  rw [analyzeLines, run, foldl_advance_of_clean rfl h.diagnostics, finish_of_clean h]

end LineGrammar
