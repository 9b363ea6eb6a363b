import LineGrammar.Proofs.AnalysisContent
import LineGrammar.Proofs.Bookkeeping
import LineGrammar.Proofs.LineContent

/-! What a line can be when nothing is wrong with it, and what reading it does then. Diagnostics are
only ever added, so a run that ends without any has met nothing but such lines; each kind of line has
one equation for its step, from which a line of the same kind gives the same content. -/

namespace LineGrammar

namespace Reader

theorem diagnostics_abandonBlock (r : Reader) :
    r.diagnostics <+: r.abandonBlock.diagnostics := by
  unfold abandonBlock refuseRule
  split
  · split
    · exact List.prefix_append _ _
    · exact List.prefix_rfl
  · exact List.prefix_rfl

theorem diagnostics_foldl_report (causes : List Cause) (r : Reader) :
    r.diagnostics <+: (causes.foldl (fun r cause => r.report cause) r).diagnostics := by
  induction causes generalizing r with
  | nil => exact List.prefix_rfl
  | cons cause rest ih => exact (List.prefix_append _ _).trans (ih (r.report cause))

end Reader

namespace Analysis

theorem diagnostics_accept (reading : Reading Node) (a : Analysis) :
    (a.accept reading).reader.diagnostics = a.reader.diagnostics ++ reading.problems :=
  Reader.diagnostics_follow _ _

theorem diagnostics_openBlock (a : Analysis) :
    a.reader.diagnostics <+: a.openBlock.reader.diagnostics := by
  unfold openBlock
  dsimp only
  split
  · exact List.prefix_rfl
  · exact Reader.diagnostics_foldl_report _ _

theorem diagnostics_closeBlock (block : CodeBlock) (a : Analysis) :
    a.reader.diagnostics <+: (a.closeBlock block).reader.diagnostics := by
  rw [closeBlock_eq]
  generalize block.close a.reader.line.whole = b
  have hreject : a.reader.diagnostics <+: (a.rejectExternal b).2.reader.diagnostics := by
    unfold rejectExternal
    split
    · exact List.prefix_append _ _
    · exact List.prefix_rfl
  have hmore := (expectMore_spec (a.rejectExternal b).1 (a.rejectExternal b).2.reader.dropBlock).2
  change _ <+: (expectMore (a.rejectExternal b).1 (a.rejectExternal b).2.reader.dropBlock).diagnostics
  rw [hmore]
  exact hreject

/-- Everything that is checked before a line is read by itself. -/
def prepare (a : Analysis) : Analysis := a.leaveName.checkExpectation

theorem line_leaveName (a : Analysis) : a.leaveName.reader.line = a.reader.line := by
  unfold leaveName
  split
  · dsimp only
    split <;> rfl
  · rfl

theorem prepare_spec (a : Analysis) :
    a.prepare.reader.line = a.reader.line ∧ a.prepare.index = a.index ∧
      a.prepare.slots = a.slots ∧ a.prepare.reader.block? = a.reader.block? ∧
      a.reader.diagnostics <+: a.prepare.reader.diagnostics := by
  have hleave : a.leaveName.reader.line = a.reader.line ∧ a.leaveName.index = a.index ∧
      a.leaveName.slots = a.slots ∧ a.leaveName.reader.block? = a.reader.block? ∧
      a.leaveName.reader.diagnostics = a.reader.diagnostics := by
    unfold leaveName
    split
    · dsimp only
      split <;> exact ⟨rfl, rfl, rfl, rfl, rfl⟩
    · exact ⟨rfl, rfl, rfl, rfl, rfl⟩
  obtain ⟨hline, hindex, hslots, hblock, hdiagnostics⟩ := hleave
  unfold prepare
  rw [checkExpectation_eq, expectBlock, ← hline, ← hindex, ← hslots, ← hblock, ← hdiagnostics]
  split
  · exact ⟨rfl, rfl, rfl, rfl, List.prefix_rfl⟩
  · split
    · have hreport : a.leaveName.reader.diagnostics <+:
          (a.leaveName.reader.report .blockExpected).diagnostics := List.prefix_append _ _
      exact ⟨Reader.line_abandonBlock _, rfl, rfl, Reader.block?_abandonBlock _,
        hreport.trans (Reader.diagnostics_abandonBlock _)⟩
    · split <;> exact ⟨rfl, rfl, rfl, rfl, List.prefix_rfl⟩

theorem diagnostics_dispatch (a : Analysis) :
    a.reader.diagnostics <+: a.dispatch.reader.diagnostics := by
  unfold dispatch
  dsimp only
  split
  · exact List.prefix_rfl
  · split
    · exact diagnostics_openBlock a
    · split
      · exact List.prefix_append _ _
      · split
        · exact List.prefix_append _ _
        · split
          · rw [diagnostics_accept]; exact List.prefix_append _ _
          · exact List.prefix_append _ _

theorem step_inside {a : Analysis} {block : CodeBlock} (h : a.reader.block? = some block)
    (raw : String) :
    a.step raw =
      if (a.moveTo raw).reader.line.closesBlock then ((a.moveTo raw).closeBlock block).endLine none
      else endLine none { a.moveTo raw with reader := (a.moveTo raw).reader.pushLine } := by
  have hmoved : (a.reader.moveTo { number := a.slots.size, raw }).block? = some block := h
  unfold step
  dsimp only
  rw [hmoved]
  rfl

theorem step_outside {a : Analysis} (h : a.reader.block? = none) (raw : String) :
    a.step raw =
      if a.reader.expectsName && (a.moveTo raw).reader.line.namesBlock then
        (a.moveTo raw).readBlockName
      else (a.moveTo raw).prepare.dispatch := by
  have hmoved : (a.reader.moveTo { number := a.slots.size, raw }).block? = none := h
  unfold step
  dsimp only
  rw [hmoved]
  rfl

theorem diagnostics_step (a : Analysis) (raw : String) :
    a.reader.diagnostics <+: (a.step raw).reader.diagnostics := by
  have hmove : (a.moveTo raw).reader.diagnostics = a.reader.diagnostics := rfl
  rw [← hmove]
  cases h : a.reader.block? with
  | some block =>
    rw [step_inside h]
    split
    · exact diagnostics_closeBlock block (a.moveTo raw)
    · exact List.prefix_rfl
  | none =>
    rw [step_outside h]
    split
    · rw [readBlockName, diagnostics_accept]
      exact List.prefix_append _ _
    · exact (prepare_spec (a.moveTo raw)).2.2.2.2.trans (diagnostics_dispatch _)

theorem diagnostics_foldl (lines : List String) (a : Analysis) :
    a.reader.diagnostics <+: (lines.foldl step a).reader.diagnostics := by
  induction lines generalizing a with
  | nil => exact List.prefix_rfl
  | cons raw rest ih => exact (diagnostics_step a raw).trans (ih (a.step raw))

/-- The line that an analysis comes to next. -/
def nextLine (a : Analysis) (raw : String) : Line := { number := a.slots.size, raw }

/-- What a line outside of code blocks can be. -/
inductive CleanLine (a : Analysis) (line : Line) : Prop
  | blank (h : line.isBlank = true)
  | opening (h : line.opensBlock = true)
  | name (hexpects : a.reader.expectsName = true) (hnames : line.namesBlock = true)
    (hclean : (BlockName.read line (a.reader.rule?.map fun rule => rule.name.text)
      a.index).problems = [])
  | shape (shape : Shape) (hshape : Shape.of? line.body = some shape)
    (hclean : (Node.read line a.index shape).problems = [])

theorem report_ne_nil (a : Analysis) (cause : Cause) : (a.report cause).reader.diagnostics ≠ [] := by
  simp [report, Reader.report, Reader.reportAt, Reader.reportAll]

theorem cleanLine_of_step {a : Analysis} {raw : String} (hblock : a.reader.block? = none)
    (h : (a.step raw).reader.diagnostics = []) : CleanLine a (a.nextLine raw) := by
  rw [step_outside hblock] at h
  split at h
  · next hname =>
    obtain ⟨hexpects, hnames⟩ := Bool.and_eq_true_iff.1 hname
    rw [readBlockName, diagnostics_accept] at h
    exact .name hexpects hnames (List.append_eq_nil_iff.1 h).2
  · have hline : (a.moveTo raw).prepare.reader.line = a.nextLine raw := (prepare_spec _).1
    have hindex : (a.moveTo raw).prepare.index = a.index := (prepare_spec _).2.1
    generalize (a.moveTo raw).prepare = b at h hline hindex
    unfold dispatch at h
    dsimp only at h
    rw [hline] at h
    split at h
    · next hblank => exact .blank hblank
    · split at h
      · next hopens => exact .opening hopens
      · split at h
        · exact absurd h (report_ne_nil _ _)
        · split at h
          · exact absurd h (report_ne_nil _ _)
          · split at h
            · next shape hshape =>
              rw [diagnostics_accept, hindex] at h
              exact .shape shape hshape (List.append_eq_nil_iff.1 h).2
            · exact absurd h (report_ne_nil _ _)

theorem namesBlock_of_blank {line : Line} (h : line.isBlank = true) : line.namesBlock = false := by
  have hnil : line.body.chars = [] := List.isEmpty_iff.1 h
  simp [Line.namesBlock, hnil]

theorem chars_of_opensBlock {line : Line} (h : line.opensBlock = true) :
    line.body.chars = openingMark.toList := by
  simpa [Line.opensBlock] using h

section
variable {a : Analysis} (hblock : a.reader.block? = none) {raw : String}
include hblock

theorem step_unnamed (h : (a.nextLine raw).namesBlock = false) :
    a.step raw = (a.moveTo raw).prepare.dispatch := by
  have hnames : (a.moveTo raw).reader.line.namesBlock = false := h
  rw [step_outside hblock, hnames, Bool.and_false, if_neg Bool.false_ne_true]

theorem step_blank (h : (a.nextLine raw).isBlank = true) :
    a.step raw = (a.moveTo raw).prepare.endLine none := by
  have hline : (a.moveTo raw).prepare.reader.line = a.nextLine raw := (prepare_spec _).1
  rw [step_unnamed hblock (namesBlock_of_blank h), dispatch, hline, if_pos h]

theorem step_opening (h : (a.nextLine raw).opensBlock = true) :
    a.step raw = ((a.moveTo raw).prepare.openAt (a.nextLine raw).whole).endLine none := by
  have hline : (a.moveTo raw).prepare.reader.line = a.nextLine raw := (prepare_spec _).1
  have hbody := chars_of_opensBlock h
  have hblank : (a.nextLine raw).isBlank = false := by simp [Line.isBlank, Slice.isEmpty, hbody]; decide
  rw [step_unnamed hblock (by simp [Line.namesBlock, hbody]; decide), dispatch, hline, hblank,
    if_neg Bool.false_ne_true, if_pos h, openBlock_eq, hline]

theorem step_name (hexpects : a.reader.expectsName = true)
    (hnames : (a.nextLine raw).namesBlock = true) :
    a.step raw = (a.moveTo raw).accept ((BlockName.read (a.nextLine raw)
      (a.reader.rule?.map fun rule => rule.name.text) a.index).map .blockName) := by
  have hline : (a.moveTo raw).reader.line.namesBlock = true := hnames
  rw [step_outside hblock, hexpects, hline, Bool.and_self, if_pos rfl]
  rfl

theorem step_shape {shape : Shape} (h : Shape.of? (a.nextLine raw).body = some shape) :
    a.step raw =
      (a.moveTo raw).prepare.accept (Node.read (a.nextLine raw) a.index shape) := by
  have hline : (a.moveTo raw).prepare.reader.line = a.nextLine raw := (prepare_spec _).1
  have hindex : (a.moveTo raw).prepare.index = a.index := (prepare_spec _).2.1
  obtain ⟨hblank, hopens, hcloses, hnames⟩ := Line.ordinary_of_shape h
  rw [step_unnamed hblock hnames, dispatch, hline, hblank, hopens, hcloses, hnames, h, hindex]
  rfl

end

section
variable {a a' : Analysis} (h : a'.content = a.content)
include h

theorem size_of_content : a'.slots.size = a.slots.size := by
  have hsize := congrArg (fun a : Analysis => a.slots.size) h
  simpa [content] using hsize

theorem block?_of_content (hblock : a.reader.block? = none) : a'.reader.block? = none := by
  have hmap : a'.reader.block?.map CodeBlock.content = a.reader.block?.map CodeBlock.content :=
    congrArg (fun a : Analysis => a.reader.block?) h
  rwa [hblock, Option.map_none, Option.map_eq_none_iff] at hmap

theorem ruleName_of_content :
    (a'.reader.rule?.map fun rule => rule.name.text) =
      a.reader.rule?.map fun rule => rule.name.text := by
  have hname : ∀ r : Reader, (r.rule?.map fun rule => rule.name.text) =
      r.content.rule?.map fun rule => rule.name.text := by
    intro r
    rw [Reader.content, Option.map_map]
    rfl
  rw [hname a'.reader, hname a.reader]
  exact congrArg (fun a : Analysis => a.reader.rule?.map fun rule => rule.name.text) h

theorem number_of_content (raw raw' : String) :
    (a'.nextLine raw').number = (a.nextLine raw).number := size_of_content h

theorem content_moveTo_congr (raw raw' : String) :
    (a'.moveTo raw').content = (a.moveTo raw).content := by
  rw [content_moveTo, content_moveTo, h]

theorem content_prepare_congr (hopens : a'.reader.line.opensBlock = a.reader.line.opensBlock)
    (hblank : a'.reader.line.isBlank = a.reader.line.isBlank) :
    a'.prepare.content = a.prepare.content := by
  rw [prepare, prepare, checkExpectation_eq, checkExpectation_eq, line_leaveName, line_leaveName,
    content_expectBlock, content_expectBlock, content_leaveName, content_leaveName, h, hopens,
    hblank]

variable (hblock : a.reader.block? = none) {raw raw' : String}
include hblock

theorem content_step_blank (hl : (a.nextLine raw).isBlank = true)
    (hl' : (a'.nextLine raw').isBlank = true) :
    (a'.step raw').content = (a.step raw).content := by
  have hopens : ∀ {line : Line}, line.isBlank = true → line.opensBlock = false := by
    intro line hblank
    have hnil : line.body.chars = [] := List.isEmpty_iff.1 hblank
    simp [Line.opensBlock, hnil]; decide
  have hprepare := content_prepare_congr (content_moveTo_congr h raw raw')
    ((hopens hl').trans (hopens hl).symm) (hl'.trans hl.symm)
  rw [step_blank (block?_of_content h hblock) hl', step_blank hblock hl, content_endLine,
    content_endLine, hprepare]

theorem content_step_opening (hl : (a.nextLine raw).opensBlock = true)
    (hl' : (a'.nextLine raw').opensBlock = true) :
    (a'.step raw').content = (a.step raw).content := by
  have hbody : (a'.nextLine raw').body.chars = (a.nextLine raw).body.chars :=
    (chars_of_opensBlock hl').trans (chars_of_opensBlock hl).symm
  have hblank : (a'.nextLine raw').isBlank = (a.nextLine raw).isBlank := by
    rw [Line.isBlank, Line.isBlank, Slice.isEmpty, Slice.isEmpty, hbody]
  have hprepare := content_prepare_congr (content_moveTo_congr h raw raw') (hl'.trans hl.symm) hblank
  rw [step_opening (block?_of_content h hblock) hl', step_opening hblock hl, content_endLine,
    content_endLine, content_openAt, content_openAt, hprepare]
  rw [Line.whole, Line.whole, content_lexeme_congr (number_of_content h raw raw') hbody]

theorem content_step_name (hexpects : a.reader.expectsName = true)
    (hl : (a.nextLine raw).namesBlock = true) (hl' : (a'.nextLine raw').namesBlock = true)
    (hread : (BlockName.read (a'.nextLine raw') (a.reader.rule?.map fun rule => rule.name.text)
        a'.index).content BlockName.content =
      (BlockName.read (a.nextLine raw) (a.reader.rule?.map fun rule => rule.name.text)
        a.index).content BlockName.content) :
    (a'.step raw').content = (a.step raw).content := by
  have hexpects' : a'.reader.expectsName = true :=
    (congrArg (fun a : Analysis => a.reader.expectsName) h).trans hexpects
  have hnode := Reading.content_map_congr (f := Node.blockName) (d := Node.content) (fun _ => rfl) hread
  rw [step_name (block?_of_content h hblock) hexpects' hl', step_name hblock hexpects hl,
    content_accept, content_accept, content_moveTo_congr h raw, ruleName_of_content h, hnode]

theorem content_step_shape {shape shape' : Shape}
    (hl : Shape.of? (a.nextLine raw).body = some shape)
    (hl' : Shape.of? (a'.nextLine raw').body = some shape')
    (hread : (Node.read (a'.nextLine raw') a'.index shape').content Node.content =
      (Node.read (a.nextLine raw) a.index shape).content Node.content) :
    (a'.step raw').content = (a.step raw).content := by
  obtain ⟨hblank, hopens, -, -⟩ := Line.ordinary_of_shape hl
  obtain ⟨hblank', hopens', -, -⟩ := Line.ordinary_of_shape hl'
  have hprepare := content_prepare_congr (content_moveTo_congr h raw raw')
    (hopens'.trans hopens.symm) (hblank'.trans hblank.symm)
  rw [step_shape (block?_of_content h hblock) hl', step_shape hblock hl, content_accept,
    content_accept, hprepare, hread]

end

end Analysis

end LineGrammar
