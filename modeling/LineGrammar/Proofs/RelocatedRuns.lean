import LineGrammar.Proofs.StepContent
import LineGrammar.Proofs.RecastAnalysis
import LineGrammar.Proofs.Relocation

/-! Runs over lines that are moved to the right. Each step on the moved lines does what it did before, with
its places moved; so does the whole run, and with it the document. -/

namespace LineGrammar

namespace Relocation

/-- Every place stays on its line. -/
def KeepsLines (m : Relocation) : Prop := ∀ p, (m.place p).line = p.line

variable {m : Relocation}

theorem KeepsLines.startLine (h : m.KeepsLines) (b : CodeBlock) :
    (b.recast m.recast).startLine = b.startLine := h b.opening.span.start

theorem Takes.keepsLine {l : Line} {d : Nat} (h : m.Takes l (m.line l) d) : m.recast.KeepsLine l :=
  h.lineSpan

theorem Takes.close {l : Line} {d : Nat} (h : m.Takes l (m.line l) d) (b : CodeBlock) :
    (b.close l.whole).recast m.recast = (b.recast m.recast).close (m.line l).whole := by
  rw [CodeBlock.recast, CodeBlock.close, CodeBlock.recast, CodeBlock.close, ← h.whole]
  rfl

theorem Takes.span_close {l : Line} {d : Nat} (h : m.Takes l (m.line l) d) (b : CodeBlock) :
    ((b.close l.whole).recast m.recast).span = m.recast.span (b.close l.whole).span := by
  have hstop : m.place ⟨l.whole.line, l.whole.stop⟩ = ⟨(m.line l).whole.line, (m.line l).whole.stop⟩ := by
    have hlast : (m.line l).whole.stop = l.whole.stop + d := by
      rw [Line.whole, Line.whole, h.body]
      exact Slice.stop_shift d l.body
    rw [hlast]
    exact h.place l.whole.stop
  rw [h.close]
  simp only [CodeBlock.span, CodeBlock.close, CodeBlock.recast, Option.map_some, recast, Relocation.span,
    hstop]
  rfl

end Relocation

namespace Analysis

/-- What is done once the reader has come to a line. -/
def readLine (a : Analysis) : Analysis :=
  match a.reader.block? with
  | some block =>
    if a.reader.line.closesBlock then (a.closeBlock block).endLine none
    else endLine none { a with reader := a.reader.pushLine }
  | none =>
    if a.reader.expectsName && a.reader.line.namesBlock then a.readBlockName else a.prepare.dispatch

theorem step_eq (a : Analysis) (raw : String) : a.step raw = (a.moveTo raw).readLine := rfl

variable {m : Relocation} {a : Analysis} {d : Nat}

section
variable (h : m.Takes a.reader.line (m.line a.reader.line) d)
include h

theorem recast_closeBlock (hkeeps : m.KeepsLines) (b : CodeBlock) :
    (a.closeBlock b).recast m.recast = (a.recast m.recast).closeBlock (b.recast m.recast) := by
  rw [closeBlock_eq, closeBlock_eq,
    recast_settleBlock (hkeeps.startLine (b.close a.reader.line.whole)) (h.span_close b), h.close]
  rfl

theorem recast_readBlockName :
    a.readBlockName.recast m.recast = (a.recast m.recast).readBlockName := by
  have hrule : ((a.recast m.recast).reader.rule?.map fun rule => rule.name.text) =
      a.reader.rule?.map fun rule => rule.name.text := by
    dsimp only [recast, Reader.recast]
    cases a.reader.rule? <;> rfl
  have hread := BlockName.read_moved h a.index (a.reader.rule?.map fun rule => rule.name.text)
  unfold readBlockName
  rw [recast_accept, hrule]
  dsimp only [recast, Reader.recast]
  rw [show BlockName.read (m.recast.line a.reader.line) _ _ = _ from hread]
  rfl

theorem recast_prepare : a.prepare.recast m.recast = (a.recast m.recast).prepare := by
  have hline : a.leaveName.reader.line = a.reader.line := line_leaveName a
  have hopens : (a.recast m.recast).leaveName.reader.line.opensBlock = a.reader.line.opensBlock := by
    rw [line_leaveName]
    exact h.opensBlock
  have hblank : (a.recast m.recast).leaveName.reader.line.isBlank = a.reader.line.isBlank := by
    rw [line_leaveName]
    exact h.isBlank
  rw [prepare, prepare, checkExpectation_eq, checkExpectation_eq, hopens, hblank, hline,
    recast_expectBlock, recast_leaveName]
  rw [hline]
  exact h.keepsLine

theorem recast_report (cause : Cause) :
    (a.report cause).recast m.recast = (a.recast m.recast).report cause := by
  unfold report
  dsimp only [recast]
  rw [Reader.recast_report h.keepsLine]

theorem recast_dispatch : a.dispatch.recast m.recast = (a.recast m.recast).dispatch := by
  have hline : (a.recast m.recast).reader.line = m.line a.reader.line := rfl
  have hshape : Shape.of? (m.line a.reader.line).body =
      (Shape.of? a.reader.line.body).map (Shape.shift d) := by
    rw [h.body, Shape.of?_shift]
  unfold dispatch
  dsimp only
  rw [hline, h.isBlank, h.opensBlock, h.closesBlock, h.namesBlock, hshape]
  split
  · exact recast_endLine none a
  · split
    · rw [recast_endLine, openBlock_eq, openBlock_eq, recast_openAt h.keepsLine, hline, h.whole]
      rfl
    · split
      · rw [recast_endLine, recast_report h]
        rfl
      · split
        · rw [recast_endLine, recast_report h]
          rfl
        · cases Shape.of? a.reader.line.body with
          | none =>
            dsimp only [Option.map_none]
            rw [recast_endLine, recast_report h]
            rfl
          | some shape =>
            dsimp only [Option.map_some]
            rw [recast_accept, ← Node.read_moved h]
            rfl

theorem recast_readLine (hkeeps : m.KeepsLines)
    (hbody : ∀ b ∈ a.reader.block?, m.body b.startLine (b.body ++ [a.reader.line.raw]) =
      m.body b.startLine b.body ++ [(m.line a.reader.line).raw]) :
    a.readLine.recast m.recast = (a.recast m.recast).readLine := by
  unfold readLine
  cases hblock : a.reader.block? with
  | some b =>
    have hblock' : (a.recast m.recast).reader.block? = some (b.recast m.recast) := by
      dsimp only [recast, Reader.recast]
      rw [hblock]
      rfl
    have hcloses : (a.recast m.recast).reader.line.closesBlock = a.reader.line.closesBlock := h.closesBlock
    rw [hblock']
    dsimp only
    rw [hcloses]
    split
    · rw [recast_endLine, recast_closeBlock h hkeeps]
      rfl
    · have hpush : (b.push a.reader.line.raw).recast m.recast =
          (b.recast m.recast).push (m.line a.reader.line).raw := by
        rw [CodeBlock.recast, CodeBlock.push, CodeBlock.recast, CodeBlock.push]
        congr 1
        exact hbody b hblock
      have hreader : a.reader.pushLine.recast m.recast = (a.reader.recast m.recast).pushLine := by
        unfold Reader.pushLine Reader.recast
        dsimp only
        rw [hblock]
        dsimp only [Option.map_some]
        rw [hpush]
        rfl
      rw [recast_endLine]
      dsimp only [recast]
      rw [hreader]
      rfl
  | none =>
    have hblock' : (a.recast m.recast).reader.block? = none := by
      dsimp only [recast, Reader.recast]
      rw [hblock]
      rfl
    have hnames : (a.recast m.recast).reader.line.namesBlock = a.reader.line.namesBlock := h.namesBlock
    have hexpects : (a.recast m.recast).reader.expectsName = a.reader.expectsName := rfl
    have hline : a.prepare.reader.line = a.reader.line := (prepare_spec a).1
    rw [hblock']
    dsimp only
    rw [hnames, hexpects]
    split
    · exact recast_readBlockName h
    · rw [recast_dispatch (by rw [hline]; exact h), recast_prepare h]

theorem recast_checkLimit (limit : Nat) :
    (a.checkLimit limit).recast m.recast = (a.recast m.recast).checkLimit limit := by
  have herrors : (a.recast m.recast).reader.errors = a.reader.errors := errorCount_recast _ _
  unfold checkLimit
  rw [herrors]
  split
  · rw [← recast_report h]
    rfl
  · rfl

end

theorem recast_conclude (hkeeps : m.KeepsLines)
    (h : a.aborted = false → a.reader.expectsBlock = true → m.recast.KeepsLine a.reader.line) :
    a.conclude.recast m.recast = (a.recast m.recast).conclude := by
  unfold conclude
  cases hblock : a.reader.block? with
  | some b =>
    have hblock' : (a.recast m.recast).reader.block? = some (b.recast m.recast) := by
      dsimp only [recast, Reader.recast]
      rw [hblock]
      rfl
    have haborted : (a.recast m.recast).aborted = a.aborted := rfl
    have hreader : (if a.aborted then a.reader
        else a.reader.reportAt .unclosedBlock b.opening.span).recast m.recast =
        if a.aborted then a.reader.recast m.recast
        else (a.reader.recast m.recast).reportAt .unclosedBlock (b.recast m.recast).opening.span := by
      split
      · rfl
      · exact Reader.recast_reportAt _ _ _
    rw [hblock']
    dsimp only
    rw [recast_place (hkeeps.startLine b), haborted]
    dsimp only [recast]
    rw [← hreader]
    rfl
  | none =>
    have hblock' : (a.recast m.recast).reader.block? = none := by
      dsimp only [recast, Reader.recast]
      rw [hblock]
      rfl
    have hexpects : (a.recast m.recast).reader.expectsBlock = a.reader.expectsBlock := rfl
    have haborted : (a.recast m.recast).aborted = a.aborted := rfl
    rw [hblock']
    dsimp only
    rw [hexpects, haborted]
    split
    · next hdue =>
      rw [Bool.and_eq_true, Bool.not_eq_true'] at hdue
      dsimp only [recast]
      rw [Reader.recast_abandonBlock, Reader.recast_report (h hdue.1 hdue.2)]
    · rfl

theorem recast_finish (hkeeps : m.KeepsLines)
    (h : a.aborted = false → a.reader.expectsBlock = true → m.recast.KeepsLine a.reader.line) :
    a.finish.recast m.recast = (a.recast m.recast).finish := by
  unfold finish
  rw [← recast_conclude hkeeps h]
  generalize a.conclude = a
  have hunresolved : (a.index.recast m.recast).unresolved.map
      (fun use => Diagnostic.of (.notDefined use.symbol) use.span) =
        (a.index.unresolved.map fun use => .of (.notDefined use.symbol) use.span).map
          (Diagnostic.recast m.recast) := by
    rw [Index.unresolved_recast, List.map_map, List.map_map]
    rfl
  dsimp only [recast, Reader.recast]
  rw [hunresolved, ← List.map_append]
  rfl

end Analysis

end LineGrammar
