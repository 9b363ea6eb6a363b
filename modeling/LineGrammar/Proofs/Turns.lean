import LineGrammar.Proofs.BlockContent
import LineGrammar.Proofs.Coherence

/-! What one more line does to an analysis. A turn is one of seven, told by the line and by what is waited
for, and each of them leaves the reader coherent. So a line that is read by itself finds nothing that is
waited for. -/

namespace LineGrammar

/-- Whether a line opens a block, wherever it stands. -/
def opens (raw : String) : Bool := Text.trim raw.toList == openingMark.toList

/-- Whether a line starts like the name of a block. -/
def names (raw : String) : Bool := (Text.trim raw.toList).head? == some '@'

namespace Line

theorem opensBlock_eq (l : Line) : l.opensBlock = opens l.raw := by
  rw [opensBlock, chars_body, opens]

theorem namesBlock_eq (l : Line) : l.namesBlock = names l.raw := by
  rw [namesBlock, chars_body, names]

theorem isBlank_eq (l : Line) : l.isBlank = isBlankLine l.raw := by
  rw [Bool.eq_iff_iff, isBlank, Slice.isEmpty, chars_body, List.isEmpty_iff, Text.trim_eq_nil]
  simp [isBlankLine]

end Line

namespace Reader

/-- What is reported when the block that must follow does not come. -/
def overdue (r : Reader) : List Diagnostic :=
  if r.expectsBlock then
    .of .blockExpected r.line.span :: match r.rule? with
      | some rule =>
        if rule.blocks = 0 then [.of (.ruleNeedsBlock rule.name.text) rule.span] else []
      | none => []
  else []

theorem abandonBlock_eq {r : Reader} (h : r.expectsBlock = true) :
    (r.report .blockExpected).abandonBlock =
      { r.finishRule with diagnostics := r.diagnostics ++ r.overdue } := by
  unfold overdue
  rw [if_pos h]
  cases hrule : r.rule? with
  | none => simp [abandonBlock, report, reportAt, reportAll, hrule, finishRule]
  | some rule =>
    by_cases hblocks : rule.blocks = 0 <;>
      simp [abandonBlock, refuseRule, report, reportAt, reportAll, hrule, hblocks, finishRule]

end Reader

namespace Analysis

/-- The line is read with nothing left to wait for. -/
def giveUp (raw : String) (a : Analysis) : Analysis :=
  { a with
    reader := {
      line := a.nextLine raw
      diagnostics := a.reader.diagnostics ++ (a.moveTo raw).reader.overdue }
    lateBlock := isBlankLine raw && (a.reader.expectsBlock || a.lateBlock) }

theorem leaveName_eq (a : Analysis) :
    a.leaveName =
      { a with
        reader :=
          if a.reader.expectsName && !a.reader.expectsBlock then a.reader.finishRule
          else { a.reader with expectsName := false } } := by
  obtain ⟨⟨line, rule?, block?, target?, expectsName, expectsBlock, ds⟩, index, slots, late, aborted⟩ := a
  cases expectsName <;> cases expectsBlock <;> rfl

section
variable {a : Analysis} (h : a.reader.Coherent a.lateBlock) (hblock : a.reader.block? = none)
  {raw : String}
include h hblock

/-- When no block must follow, the line is no name either and nothing is left. -/
theorem leaveName_of_not_expects (hexpects : a.reader.expectsBlock = false) :
    (a.moveTo raw).leaveName =
      { a with reader := { line := a.nextLine raw, diagnostics := a.reader.diagnostics } } := by
  rw [leaveName_eq]
  cases hname : a.reader.expectsName with
  | true =>
    simp [moveTo, Reader.moveTo, hname, hexpects, Reader.finishRule, hblock, nextLine]
  | false =>
    have hidle := h.idle hblock hname hexpects
    simp [moveTo, Reader.moveTo, hname, hexpects, hidle.rule, hidle.target, hblock, nextLine]

/-- A line that opens no block ends all expectations. -/
theorem prepare_of_not_opens (hopens : opens raw = false) :
    (a.moveTo raw).prepare = a.giveUp raw := by
  have hline : (a.moveTo raw).leaveName.reader.line = a.nextLine raw := line_leaveName _
  have hopensLine : (a.nextLine raw).opensBlock = false := (Line.opensBlock_eq _).trans hopens
  have hblank : (a.nextLine raw).isBlank = isBlankLine raw := Line.isBlank_eq _
  rw [prepare, checkExpectation_eq, hline, hopensLine, hblank, expectBlock,
    if_neg Bool.false_ne_true]
  cases hexpects : a.reader.expectsBlock with
  | true =>
    have hleave : (a.moveTo raw).leaveName =
        { a.moveTo raw with reader := { (a.moveTo raw).reader with expectsName := false } } := by
      rw [leaveName_eq]
      simp [moveTo, Reader.moveTo, hexpects]
    have hstill : (a.moveTo raw).leaveName.reader.expectsBlock = true := by
      rw [hleave]; exact hexpects
    rw [if_pos hstill, Reader.abandonBlock_eq hstill, hleave]
    simp [giveUp, Reader.finishRule, moveTo, Reader.moveTo, hexpects, hblock, Reader.overdue,
      nextLine]
  | false =>
    rw [leaveName_of_not_expects h hblock hexpects, if_neg Bool.false_ne_true]
    cases hraw : isBlankLine raw <;>
      simp [giveUp, hexpects, hraw, Reader.overdue, moveTo, Reader.moveTo]

/-- A line that opens a block leaves the rule alone, unless that has had its blocks. -/
theorem prepare_of_opens (hopens : opens raw = true) :
    (a.moveTo raw).prepare =
      { a with
        reader := { a.reader with
          line := a.nextLine raw
          rule? := if a.reader.expectsBlock then a.reader.rule? else none
          expectsName := false } } := by
  have hline : (a.moveTo raw).leaveName.reader.line = a.nextLine raw := line_leaveName _
  have hopensLine : (a.nextLine raw).opensBlock = true := (Line.opensBlock_eq _).trans hopens
  rw [prepare, checkExpectation_eq, hline, hopensLine, expectBlock, if_pos rfl]
  cases hexpects : a.reader.expectsBlock with
  | true =>
    rw [leaveName_eq]
    simp [moveTo, Reader.moveTo, hexpects, nextLine]
  | false =>
    rw [leaveName_of_not_expects h hblock hexpects]
    simp [h.unaimed hexpects, hblock, hexpects]

end

/-- A line by itself that gives no node is reported for one of these. -/
def refusals : List Cause := [.unrecognisedLine, .unmatchedBlockEnd, .unexpectedBlockName]

/-- Every way in which an analysis goes on. -/
inductive Turn (a : Analysis) (raw : String) : Analysis → Prop
  | inside (b : CodeBlock) (hblock : a.reader.block? = some b) (hraw : closes raw = false) :
    Turn a raw (endLine none { a.moveTo raw with reader := (a.moveTo raw).reader.pushLine })
  | closing (b : CodeBlock) (hblock : a.reader.block? = some b) (hraw : closes raw = true) :
    Turn a raw (((a.moveTo raw).closeBlock b).endLine none)
  | name (hblock : a.reader.block? = none) (hexpects : a.reader.expectsName = true)
    (hraw : names raw = true) :
    Turn a raw ((a.moveTo raw).accept ((BlockName.read (a.nextLine raw)
      (a.reader.rule?.map fun rule => rule.name.text) a.index).map .blockName))
  | opening (hblock : a.reader.block? = none) (hraw : opens raw = true) :
    Turn a raw ((openAt (a.nextLine raw).whole
      { a with
        reader := { a.reader with
          line := a.nextLine raw
          rule? := if a.reader.expectsBlock then a.reader.rule? else none
          expectsName := false } }).endLine none)
  | blank (hblock : a.reader.block? = none) (hraw : isBlankLine raw = true) :
    Turn a raw ((a.giveUp raw).endLine none)
  | refused (hblock : a.reader.block? = none) (hraw : isBlankLine raw = false)
    (hopens : opens raw = false) (hname : a.reader.expectsName = true → names raw = false)
    (cause : Cause) (hcause : cause ∈ refusals) :
    Turn a raw (((a.giveUp raw).report cause).endLine none)
  | node (hblock : a.reader.block? = none) (shape : Shape)
    (hshape : Shape.of? (a.nextLine raw).body = some shape) :
    Turn a raw ((a.giveUp raw).accept (Node.read (a.nextLine raw) a.index shape))

theorem not_opens_of_blank {raw : String} (h : isBlankLine raw = true) :
    opens raw = false ∧ names raw = false ∧ closes raw = false := by
  have hnil : Text.trim raw.toList = [] := Text.trim_eq_nil.2 (by simpa [isBlankLine] using h)
  rw [opens, names, closes, hnil]
  exact ⟨rfl, rfl, rfl⟩

/-- A line that gives no node, is not blank and has nothing to do with an expected block. -/
theorem step_refused {a : Analysis} (h : a.reader.Coherent a.lateBlock)
    (hblock : a.reader.block? = none) {raw : String} (hraw : isBlankLine raw = false)
    (hopens : opens raw = false) (hname : a.reader.expectsName = true → names raw = false)
    (hshape : Shape.of? (a.nextLine raw).body = none) :
    ∃ cause ∈ refusals, a.step raw = ((a.giveUp raw).report cause).endLine none := by
  have hline : (a.giveUp raw).reader.line = a.nextLine raw := rfl
  have hblank : (a.nextLine raw).isBlank = false := (Line.isBlank_eq _).trans hraw
  have hopensLine : (a.nextLine raw).opensBlock = false := (Line.opensBlock_eq _).trans hopens
  have hguard : ¬(a.reader.expectsName && (a.moveTo raw).reader.line.namesBlock) = true := by
    rw [Line.namesBlock_eq, Bool.and_eq_true, not_and, Bool.not_eq_true]
    exact hname
  rw [step_outside hblock, if_neg hguard, prepare_of_not_opens h hblock hopens, dispatch, hline,
    hblank, hopensLine, hshape, if_neg Bool.false_ne_true, if_neg Bool.false_ne_true]
  split
  · exact ⟨_, by simp [refusals], rfl⟩
  · split <;> exact ⟨_, by simp [refusals], rfl⟩

theorem turn_step {a : Analysis} (h : a.reader.Coherent a.lateBlock) (raw : String) :
    a.Turn raw (a.step raw) := by
  cases hblock : a.reader.block? with
  | some b =>
    cases hraw : closes raw with
    | true => rw [step_closing hblock hraw]; exact .closing b hblock hraw
    | false => rw [step_collecting hblock hraw]; exact .inside b hblock hraw
  | none =>
    cases hblank : isBlankLine raw with
    | true =>
      rw [step_blank hblock ((Line.isBlank_eq _).trans hblank),
        prepare_of_not_opens h hblock (not_opens_of_blank hblank).1]
      exact .blank hblock hblank
    | false =>
      cases hopens : opens raw with
      | true =>
        rw [step_opening hblock ((Line.opensBlock_eq _).trans hopens),
          prepare_of_opens h hblock hopens]
        exact .opening hblock hopens
      | false =>
        cases hshape : Shape.of? (a.nextLine raw).body with
        | some shape =>
          rw [step_shape hblock hshape, prepare_of_not_opens h hblock hopens]
          exact .node hblock shape hshape
        | none =>
          by_cases hname : a.reader.expectsName = true ∧ names raw = true
          · rw [step_name hblock hname.1 ((Line.namesBlock_eq _).trans hname.2)]
            exact .name hblock hname.1 hname.2
          · have hnames : a.reader.expectsName = true → names raw = false := by
              simpa using hname
            obtain ⟨cause, hcause, hstep⟩ :=
              step_refused h hblock hblank hopens hnames hshape
            rw [hstep]
            exact .refused hblock hblank hopens hnames cause hcause

/-- Inside of a block the line tells whether a turn goes on with the block or ends it. -/
theorem turn_block {a a' : Analysis} {raw : String} {b : CodeBlock}
    (hblock : a.reader.block? = some b) (hturn : a.Turn raw a') :
    (closes raw = false ∧
        a' = endLine none { a.moveTo raw with reader := (a.moveTo raw).reader.pushLine }) ∨
      (closes raw = true ∧ a' = ((a.moveTo raw).closeBlock b).endLine none) := by
  cases hturn with
  | inside b' hopen hraw => exact .inl ⟨hraw, rfl⟩
  | closing b' hopen hraw =>
    obtain rfl : b = b' := Option.some.inj (hblock.symm.trans hopen)
    exact .inr ⟨hraw, rfl⟩
  | name hnone | opening hnone | blank hnone | refused hnone | node hnone =>
    exact absurd (hblock.symm.trans hnone) (by simp)

/-- Inside of a block a turn goes on with the block, or ends it. -/
theorem turn_inside {a a' : Analysis} {raw : String} {b : CodeBlock}
    (hblock : a.reader.block? = some b) (hturn : a.Turn raw a') :
    a' = endLine none { a.moveTo raw with reader := (a.moveTo raw).reader.pushLine } ∨
      a' = ((a.moveTo raw).closeBlock b).endLine none :=
  (turn_block hblock hturn).imp And.right And.right

/-- What is reported on the line of a block that belongs to nothing. -/
def ownerProblems (line : Line) : Except (List Cause) (String × String) → List Diagnostic
  | .ok _ => []
  | .error causes => causes.map line.problem

theorem foldl_report (causes : List Cause) (r : Reader) :
    causes.foldl (fun r cause => r.report cause) r =
      { r with diagnostics := r.diagnostics ++ causes.map r.line.problem } := by
  induction causes generalizing r with
  | nil => simp
  | cons cause rest ih =>
    rw [List.foldl_cons, ih]
    simp [Reader.report, Reader.reportAt, Reader.reportAll, Line.problem]

/-- A block that opens takes the target, and ends all expectations. -/
theorem openAt_eq (opening : Lexeme) (a : Analysis) :
    a.openAt opening =
      { a with
        reader := Reader.openBlock
          { opening
            name := (blockOwner a.reader a.index a.lateBlock).toOption.map Prod.fst
            walker := (blockOwner a.reader a.index a.lateBlock).toOption.map Prod.snd
            isInline := false }
          { a.reader with
            target? := none
            diagnostics := a.reader.diagnostics ++
              ownerProblems a.reader.line (blockOwner a.reader a.index a.lateBlock) }
        lateBlock := false } := by
  unfold openAt
  cases blockOwner a.reader a.index a.lateBlock with
  | ok owner => simp [ownerProblems, Reader.aimAt, Except.toOption]
  | error causes =>
    dsimp only
    rw [foldl_report]
    rfl

/-- Marking a block only reports it, where it opens. -/
theorem rejectExternal_reports (b : CodeBlock) (a : Analysis) :
    ∃ external reported,
      (∀ d ∈ reported, ∃ walker interface,
        d = Diagnostic.of (.inlineImplementation walker interface) b.opening.span) ∧
      a.rejectExternal b = ({ b with external },
        { a with reader := { a.reader with diagnostics := a.reader.diagnostics ++ reported } }) := by
  unfold rejectExternal
  split
  · next walker interface _ _ =>
    exact ⟨_, [.of (.inlineImplementation walker interface) b.opening.span],
      fun d hd => ⟨walker, interface, List.mem_singleton.1 hd⟩, rfl⟩
  · exact ⟨b.external, [], by simp, by simp⟩

/-- The closed block is placed and entered, and a rule counts it and may have more. -/
theorem closeBlock_spec (b : CodeBlock) (a : Analysis) :
    ∃ external reported,
      (∀ d ∈ reported, ∃ walker interface,
        d = Diagnostic.of (.inlineImplementation walker interface) b.opening.span) ∧
      a.closeBlock b = place { b.close a.reader.line.whole with external }
        { a with
          reader := expectMore { b.close a.reader.line.whole with external }
            { a.reader with block? := none, diagnostics := a.reader.diagnostics ++ reported }
          index := a.index.enterAll
            (CodeBlock.definitions { b.close a.reader.line.whole with external }) } := by
  obtain ⟨external, reported, hreported, hreject⟩ :=
    rejectExternal_reports (b.close a.reader.line.whole) a
  refine ⟨external, reported, hreported, ?_⟩
  rw [closeBlock_eq, settleBlock, hreject]
  rfl

end Analysis

namespace Analysis

/-- The name of a block asks for the block. -/
theorem reader_name (a : Analysis) (line : Line) (rule? : Option String) (ix : Index) :
    (a.accept ((BlockName.read line rule? ix).map .blockName)).reader =
      (a.reader.reportAll (BlockName.read line rule? ix).problems).follow
        (.name (BlockName.read line rule? ix).node.target) := by
  rw [← Node.sequel_readName, accept, endLine, Reading.map]

/-- Any other line asks for what its node asks for. -/
theorem reader_node (a : Analysis) (line : Line) (ix : Index) (shape : Shape) :
    (a.accept (Node.read line ix shape)).reader =
      (a.reader.reportAll (Node.read line ix shape).problems).follow
        (Node.read line ix shape).node.sequel := by
  rw [← Node.sequel_read, accept, endLine]

theorem idle_giveUp (raw : String) (a : Analysis) :
    (a.giveUp raw).reader.block? = none ∧ (a.giveUp raw).reader.Idle :=
  ⟨rfl, rfl, rfl, rfl, rfl⟩

theorem late_giveUp {raw : String} (h : isBlankLine raw = false) (a : Analysis) :
    (a.giveUp raw).lateBlock = false := by
  simp [giveUp, h]

theorem coherent_turn {a a' : Analysis} (h : a.reader.Coherent a.lateBlock) {raw : String}
    (hturn : a.Turn raw a') : a'.reader.Coherent a'.lateBlock := by
  have hmoved : (a.moveTo raw).reader.Coherent a.lateBlock := h.same rfl rfl rfl rfl rfl
  obtain ⟨hblank, hidle⟩ := idle_giveUp raw a
  cases hturn with
  | inside b hblock hraw =>
    have hlate : a.lateBlock = false := h.not_late_of_block hblock
    obtain ⟨hname, hexpects, htarget⟩ := h.inside (by simp [hblock])
    have hopen : (a.moveTo raw).reader.pushLine =
        Reader.openBlock (b.push raw) (a.moveTo raw).reader := by
      simp [Reader.pushLine, Reader.openBlock, moveTo, Reader.moveTo, hblock, hname, hexpects]
    change (a.moveTo raw).reader.pushLine.Coherent a.lateBlock
    rw [hopen, hlate]
    exact Reader.coherent_openBlock htarget (h.inline b hblock)
  | closing b hblock hraw =>
    obtain ⟨external, reported, -, hclose⟩ := closeBlock_spec b (a.moveTo raw)
    rw [hclose]
    exact Reader.coherent_expectMore hmoved hblock rfl _
  | name hblock hexpects hraw =>
    have hlate : a.lateBlock = false := h.not_late_of_name hexpects
    change Reader.Coherent _ a.lateBlock
    rw [hlate, reader_name]
    exact Reader.coherent_follow_name (r := (a.moveTo raw).reader.reportAll _) hblock
      (h.named hexpects) _
  | opening hblock hraw =>
    rw [openAt_eq]
    exact Reader.coherent_openBlock rfl (by simp)
  | blank hblock hraw => exact Reader.coherent_of_idle hblank hidle _
  | refused hblock hraw hopens hname cause hcause =>
    exact (Reader.coherent_of_idle hblank hidle (a.giveUp raw).lateBlock).same rfl rfl rfl rfl rfl
  | node hblock shape hshape =>
    have hnonblank : isBlankLine raw = false := by
      rw [← (Line.ordinary_of_shape hshape).isBlank, Line.isBlank_eq]
      rfl
    change Reader.Coherent _ (a.giveUp raw).lateBlock
    rw [late_giveUp hnonblank, reader_node]
    exact Reader.coherent_follow (r := (a.giveUp raw).reader.reportAll _) hblank
      ⟨hidle.rule, hidle.target, hidle.name, hidle.block⟩ (Node.read_ne_blockName _ _ _)

theorem coherent_step {a : Analysis} (h : a.reader.Coherent a.lateBlock) (raw : String) :
    (a.step raw).reader.Coherent (a.step raw).lateBlock :=
  coherent_turn h (turn_step h raw)

theorem coherent_advance {a : Analysis} (h : a.reader.Coherent a.lateBlock) (limit : Nat)
    (raw : String) : (a.advance limit raw).reader.Coherent (a.advance limit raw).lateBlock := by
  unfold advance checkLimit
  split
  · exact h
  · split
    · exact (coherent_step h raw).same rfl rfl rfl rfl rfl
    · exact coherent_step h raw

theorem coherent_empty : ({} : Analysis).reader.Coherent false :=
  Reader.coherent_of_idle rfl ⟨rfl, rfl, rfl, rfl⟩ _

theorem coherent_run (limit : Nat) (lines : List String) :
    (run limit lines).reader.Coherent (run limit lines).lateBlock := by
  have hfrom : ∀ a : Analysis, a.reader.Coherent a.lateBlock →
      (lines.foldl (advance limit) a).reader.Coherent (lines.foldl (advance limit) a).lateBlock := by
    induction lines with
    | nil => exact fun a h => h
    | cons raw rest ih => exact fun a h => ih _ (coherent_advance h limit raw)
  exact hfrom {} coherent_empty

theorem idle_prepare {a : Analysis} (h : a.reader.Coherent a.lateBlock)
    (hblock : a.reader.block? = none) {raw : String} (hopens : opens raw = false) :
    (a.moveTo raw).prepare.reader.block? = none ∧ (a.moveTo raw).prepare.reader.Idle := by
  rw [prepare_of_not_opens h hblock hopens]
  exact idle_giveUp raw a

end Analysis

open Analysis in
/-- After every line the reader is coherent. So a line that is read by itself, and does not open a
block, finds no open block and nothing that is waited for. -/
theorem coherent_lines (limit : Nat) (text : String) (k : Nat) :
    let a := run limit ((Text.lines text).take k)
    a.reader.Coherent a.lateBlock ∧
      ∀ raw, a.reader.block? = none → (a.reader.expectsName && names raw) = false →
        opens raw = false →
          a.step raw = (a.moveTo raw).prepare.dispatch ∧
            (a.moveTo raw).prepare.reader.block? = none ∧
            (a.moveTo raw).prepare.reader.Idle := by
  intro a
  have h : a.reader.Coherent a.lateBlock := coherent_run limit _
  refine ⟨h, fun raw hblock hname hopens => ⟨?_, idle_prepare h hblock hopens⟩⟩
  rw [step_outside hblock, Line.namesBlock_eq, show (a.moveTo raw).reader.line.raw = raw from rfl,
    hname]
  exact if_neg Bool.false_ne_true

open Analysis in
/-- A line after a rule that waits for a block and for its name. -/
theorem coherent_lines_rule :
    let a := run 25 ((Text.lines "r := A").take 1)
    a.reader.expectsName = true ∧ a.reader.expectsBlock = true ∧
      a.step "%start r;" = (a.moveTo "%start r;").prepare.dispatch ∧
      (a.moveTo "%start r;").prepare.reader.block? = none ∧
      (a.moveTo "%start r;").prepare.reader.Idle :=
  ⟨by decide +kernel, by decide +kernel,
    (coherent_lines 25 "r := A" 1).2 "%start r;" (by decide +kernel) (by decide +kernel)
      (by decide +kernel)⟩

end LineGrammar
