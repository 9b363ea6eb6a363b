import LineGrammar.Proofs.BlockLines
import LineGrammar.Proofs.Redaction
import LineGrammar.Proofs.Truncation

/-! Code blocks are opaque. Two runs that differ only in the lines of an open block stay the same up to
these lines, whatever follows. So the text of a block has no influence on anything but its own body. -/

namespace LineGrammar

namespace Analysis

/-- The analyses differ at most in the lines of the block on one line, and in the current line as long as
a block is open. -/
structure Alike (line : Nat) (a a' : Analysis) : Prop where
  /-- The slot is there already, so no node that is read later is redacted. -/
  held : line < a.slots.size
  same : a.redact line = a'.redact line
  current : a.reader.block? = none → a.reader.line = a'.reader.line

namespace Alike

variable {line : Nat} {a a' : Analysis}

/-- What a redaction does not touch is the same. -/
theorem field_eq {β : Type} (h : Alike line a a') (field : Analysis → β) :
    field (a.redact line) = field (a'.redact line) := by
  rw [h.same]

theorem slots_eq (h : Alike line a a') :
    a.slots.modify line (Option.map Node.redact) = a'.slots.modify line (Option.map Node.redact) :=
  h.field_eq Analysis.slots

theorem diagnostics_eq (h : Alike line a a') : a.reader.diagnostics = a'.reader.diagnostics :=
  h.field_eq fun a => a.reader.diagnostics

theorem index_eq (h : Alike line a a') : a.index = a'.index :=
  h.field_eq Analysis.index

theorem aborted_eq (h : Alike line a a') : a.aborted = a'.aborted :=
  h.field_eq Analysis.aborted

theorem block?_eq (h : Alike line a a') :
    a.reader.block?.map (CodeBlock.redactAt line) =
      a'.reader.block?.map (CodeBlock.redactAt line) :=
  h.field_eq fun a => a.reader.block?

theorem size_eq (h : Alike line a a') : a'.slots.size = a.slots.size := by
  have hsize := congrArg Array.size h.slots_eq
  rw [Array.size_modify, Array.size_modify] at hsize
  exact hsize.symm

/-- The open blocks of both differ in their lines only. -/
theorem exists_block (h : Alike line a a') {b : CodeBlock} (hb : a.reader.block? = some b) :
    ∃ b', a'.reader.block? = some b' ∧ b'.redactAt line = b.redactAt line := by
  have hblock := h.block?_eq
  rw [hb, Option.map_some] at hblock
  exact Option.map_eq_some_iff.1 hblock.symm

/-- Outside of blocks only the slots differ. -/
theorem eq_of_outside (h : Alike line a a') (hnone : a.reader.block? = none) :
    a' = { a with slots := a'.slots } := by
  have hblock := h.block?_eq
  have hline := h.current hnone
  have hsame := h.same
  rw [hnone, Option.map_none, eq_comm, Option.map_eq_none_iff] at hblock
  obtain ⟨⟨line, rule?, block?, target?, expectsName, expectsBlock, ds⟩, index, slots, late,
    aborted⟩ := a
  obtain ⟨⟨line', rule?', block?', target?', expectsName', expectsBlock', ds'⟩, index', slots', late',
    aborted'⟩ := a'
  simp_all [redact, Reader.redact]

theorem of_slots (hheld : line < a.slots.size) {slots : Array (Option Node)}
    (hslots : a.slots.modify line (Option.map Node.redact) =
      slots.modify line (Option.map Node.redact)) :
    Alike line a { a with slots } where
  held := hheld
  same := by rw [redact, redact, hslots]
  current := fun _ => rfl

theorem endLine (h : Alike line a a') (node? : Option Node) :
    Alike line (a.endLine node?) (a'.endLine node?) where
  held := by
    rw [Analysis.endLine, Array.size_push]
    exact Nat.lt_succ_of_lt h.held
  same := by rw [redact_endLine h.held, redact_endLine (h.size_eq ▸ h.held), h.same]
  current := h.current

theorem report (h : Alike line a a') (hline : a.reader.line = a'.reader.line) (cause : Cause) :
    Alike line (a.report cause) (a'.report cause) where
  held := h.held
  same := by
    have hreport : ∀ a : Analysis, (a.report cause).redact line =
        { a.redact line with
          reader := (a.redact line).reader.reportAt cause a.reader.line.span } := fun _ => rfl
    rw [hreport, hreport, h.same, hline]
  current := h.current

theorem moveTo (h : Alike line a a') (raw : String) :
    Alike line (a.moveTo raw) (a'.moveTo raw) ∧ a.nextLine raw = a'.nextLine raw := by
  have hline : a.nextLine raw = a'.nextLine raw := by rw [nextLine, nextLine, h.size_eq]
  exact ⟨⟨h.held, h.same, fun _ => hline⟩, hline⟩

theorem pushLine (h : Alike line a a') (hline : a.reader.line = a'.reader.line) {b b' : CodeBlock}
    (hb : a.reader.block? = some b) (hb' : a'.reader.block? = some b') :
    Alike line { a with reader := a.reader.pushLine } { a' with reader := a'.reader.pushLine } where
  held := h.held
  same := by
    have hpush : ∀ {a : Analysis} {b : CodeBlock}, a.reader.block? = some b →
        ({ a with reader := a.reader.pushLine } : Analysis).redact line =
          { a.redact line with
            reader := { (a.redact line).reader with
              block? := some ((b.push a.reader.line.raw).redactAt line) } } := fun hb => by
      simp only [Reader.pushLine, hb, redact, Reader.redact, Option.map_some]
    have hblock := h.block?_eq
    rw [hb, hb', Option.map_some, Option.map_some, Option.some_inj] at hblock
    have hstart : (b.redactAt line).startLine = (b'.redactAt line).startLine := by rw [hblock]
    change b.startLine = b'.startLine at hstart
    rw [hpush hb, hpush hb', h.same, CodeBlock.redactAt_push, CodeBlock.redactAt_push, hblock, hstart,
      hline]
  current := fun _ => hline

theorem closeBlock (h : Alike line a a') (hline : a.reader.line = a'.reader.line) {b b' : CodeBlock}
    (hb : b.redactAt line = b'.redactAt line) :
    Alike line (a.closeBlock b) (a'.closeBlock b') where
  held := by
    obtain ⟨external, reported, -, hclose⟩ := closeBlock_spec b a
    rw [hclose, place, Array.size_modify]
    exact h.held
  same := by
    have hmark : ∀ (b : CodeBlock) (mark : Lexeme),
        (b.close mark).redactAt line = (b.redactAt line).close mark := fun _ _ => rfl
    rw [closeBlock_eq, closeBlock_eq, redact_settleBlock, redact_settleBlock, hmark, hmark, h.same, hb,
      hline]
  current := fun _ => by
    rw [closeBlock_eq, closeBlock_eq, line_settleBlock, line_settleBlock, hline]

theorem step_inside (h : Alike line a a') (raw : String) {b : CodeBlock}
    (hb : a.reader.block? = some b) :
    Alike line (a.step raw) (a'.step raw) ∧ (a.step raw).reader.line = (a'.step raw).reader.line := by
  obtain ⟨b', hb', hsame⟩ := h.exists_block hb
  obtain ⟨hmoved, hline⟩ := h.moveTo raw
  cases hraw : closes raw with
  | true =>
    rw [step_closing hb hraw, step_closing hb' hraw]
    refine ⟨(hmoved.closeBlock hline hsame.symm).endLine none, ?_⟩
    change ((a.moveTo raw).closeBlock b).reader.line = ((a'.moveTo raw).closeBlock b').reader.line
    rw [closeBlock_eq, closeBlock_eq, line_settleBlock, line_settleBlock]
    exact hline
  | false =>
    rw [step_collecting hb hraw, step_collecting hb' hraw]
    exact ⟨(hmoved.pushLine hline hb hb').endLine none, hline⟩

theorem step_outside (h : Alike line a a') (raw : String) (hnone : a.reader.block? = none) :
    Alike line (a.step raw) (a'.step raw) ∧ (a.step raw).reader.line = (a'.step raw).reader.line := by
  obtain ⟨node?, hread⟩ := step_slots hnone raw
  have hslots : (a.step raw).slots = a.slots.push node? := congrArg Analysis.slots (hread a.slots rfl)
  have hstep : a'.step raw = { a.step raw with slots := a'.slots.push node? } := by
    have hsecond := hread a'.slots h.size_eq
    rwa [← h.eq_of_outside hnone] at hsecond
  have hheld : line < (a.step raw).slots.size := by
    rw [hslots, Array.size_push]
    exact Nat.lt_succ_of_lt h.held
  -- Both take the same node, each into its own slots.
  rw [hstep]
  refine ⟨of_slots hheld ?_, rfl⟩
  rw [hslots, modify_push h.held, modify_push (h.size_eq ▸ h.held), h.slots_eq]

theorem step (h : Alike line a a') (raw : String) :
    Alike line (a.step raw) (a'.step raw) ∧ (a.step raw).reader.line = (a'.step raw).reader.line := by
  cases hblock : a.reader.block? with
  | none => exact h.step_outside raw hblock
  | some b => exact h.step_inside raw hblock

theorem advance (h : Alike line a a') (limit : Nat) (raw : String) :
    Alike line (a.advance limit raw) (a'.advance limit raw) := by
  obtain ⟨hstep, hline⟩ := h.step raw
  have herrors : (a.step raw).reader.errors = (a'.step raw).reader.errors := by
    rw [Reader.errors, hstep.diagnostics_eq, Reader.errors]
  rw [Analysis.advance, Analysis.advance, ← h.aborted_eq, checkLimit, checkLimit, ← herrors]
  split
  · exact h.endLine none
  · split
    · have hreport := hstep.report hline (.tooManyErrors limit)
      exact ⟨hreport.held, congrArg (fun a => { a with aborted := true }) hreport.same,
        hreport.current⟩
    · exact hstep

theorem foldl_advance (h : Alike line a a') (limit : Nat) (rest : List String) :
    Alike line (rest.foldl (Analysis.advance limit) a) (rest.foldl (Analysis.advance limit) a') := by
  induction rest generalizing a a' with
  | nil => exact h
  | cons raw rest ih => exact ih (h.advance limit raw)

theorem outstanding_eq (h : Alike line a a') : a.outstanding = a'.outstanding := by
  cases hblock : a.reader.block? with
  | none =>
    rw [h.eq_of_outside hblock]
    rfl
  | some b =>
    obtain ⟨b', hb', hsame⟩ := h.exists_block hblock
    have hopening : (b'.redactAt line).opening = (b.redactAt line).opening := by rw [hsame]
    change b'.opening = b.opening at hopening
    rw [outstanding, outstanding, hblock, hb']
    dsimp only
    rw [hopening]

theorem slots_conclude_eq (h : Alike line a a') :
    a.conclude.slots.modify line (Option.map Node.redact) =
      a'.conclude.slots.modify line (Option.map Node.redact) := by
  have hplace : ∀ (a : Analysis) (b : CodeBlock), a.reader.block? = some b →
      a.conclude.slots.modify line (Option.map Node.redact) =
        (place (b.redactAt line) (a.redact line)).slots := by
    intro a b hb
    have hslots : a.conclude.slots = (place b a).slots := by
      rw [conclude, hb]
      rfl
    rw [hslots, ← redact_place]
    rfl
  cases hblock : a.reader.block? with
  | none =>
    have hkept : ∀ a : Analysis, a.reader.block? = none → a.conclude.slots = a.slots := by
      intro a hnone
      apply Array.toList_inj.1
      rw [slots_conclude, hnone]
    have hblock' : a'.reader.block? = none := by
      rw [h.eq_of_outside hblock]
      exact hblock
    rw [hkept a hblock, hkept a' hblock', h.slots_eq]
  | some b =>
    obtain ⟨b', hb', hsame⟩ := h.exists_block hblock
    rw [hplace a b hblock, hplace a' b' hb', h.same, hsame]

theorem redact_finish (h : Alike line a a') : a.finish.redact line = a'.finish.redact line := by
  have hindex : a.finish.index = a'.finish.index := by
    rw [Analysis.finish, Analysis.finish, index_conclude, index_conclude, h.index_eq]
  have hwarnings : a.undefinedWarnings = a'.undefinedWarnings := by
    rw [undefinedWarnings, undefinedWarnings, h.index_eq]
  have hdiagnostics : a.finish.diagnostics = a'.finish.diagnostics := by
    have haborted' := h.aborted_eq
    cases haborted : a.aborted with
    | true =>
      rw [haborted] at haborted'
      rw [diagnostics_finish_of_stopped haborted, diagnostics_finish_of_stopped haborted'.symm,
        h.diagnostics_eq, hwarnings]
    | false =>
      rw [haborted] at haborted'
      rw [diagnostics_finish_of_running haborted, diagnostics_finish_of_running haborted'.symm,
        h.diagnostics_eq, h.outstanding_eq, hwarnings]
  have haborted : a.finish.aborted = a'.finish.aborted := by
    rw [aborted_finish, aborted_finish, h.aborted_eq]
  have hnodes : a.finish.nodes.modify line (Option.map Node.redact) =
      a'.finish.nodes.modify line (Option.map Node.redact) := h.slots_conclude_eq
  rw [Document.redact, Document.redact, hindex, hdiagnostics, haborted, hnodes]

end Alike

section
variable {a : Analysis} {b : CodeBlock}

/-- After the lines of a block it does not matter what they say. -/
theorem alike_foldl_inside (hb : a.reader.block? = some b) (hheld : b.startLine < a.slots.size)
    {body body' : List String} (hlength : body.length = body'.length)
    (hbody : ∀ raw ∈ body, closes raw = false) (hbody' : ∀ raw ∈ body', closes raw = false) :
    Alike b.startLine (body.foldl step a) (body'.foldl step a) := by
  obtain ⟨hopen, -, hslots⟩ := foldl_inside_spec hb hbody
  have hmove : ∀ a : Analysis, a.redact b.startLine = (a.moveTo "").redact b.startLine :=
    fun _ => rfl
  have hcollect : (a.collect b body).redact b.startLine = (a.collect b body').redact b.startLine := by
    simp [collect, redact, Reader.redact, CodeBlock.redactAt, CodeBlock.startLine, hlength]
  refine ⟨?_, ?_, fun hnone => absurd (hopen.symm.trans hnone) (by simp)⟩
  · rw [hslots, Array.size_append]
    exact Nat.lt_add_right _ hheld
  · rw [hmove, hmove (body'.foldl step a), moveTo_foldl_inside hb hbody,
      moveTo_foldl_inside hb hbody']
    exact hcollect

variable {limit : Nat} {front : List String}

theorem after_inside (hb : (after front).reader.block? = some b) {body : List String}
    (hbody : ∀ raw ∈ body, closes raw = false) :
    (after (front ++ body)).reader.errors = (after front).reader.errors ∧
      (after (front ++ body)).reader.block? = some { b with body := b.body ++ body } := by
  obtain ⟨hopen, hreports, -⟩ := foldl_inside_spec hb hbody
  rw [after, List.foldl_append, ← after, Reader.errors, hreports]
  exact ⟨rfl, hopen⟩

/-- A run passes over the lines of a block. -/
theorem run_inside (herrors : (after front).reader.errors ≤ limit)
    (hb : (after front).reader.block? = some b) {body : List String}
    (hbody : ∀ raw ∈ body, closes raw = false) (rest : List String) :
    run limit (front ++ body ++ rest) =
      rest.foldl (advance limit) (body.foldl step (after front)) := by
  have hmore : (after (front ++ body)).reader.errors ≤ limit := by
    rwa [(after_inside hb hbody).1]
  rw [run, List.foldl_append, ← run, run_eq_after hmore, after, List.foldl_append]
  rfl

end

/-- The same block with more lines. -/
structure Grown (b c : CodeBlock) : Prop where
  opening : c.opening = b.opening
  body : b.body <+: c.body

/-- The block is still open, or has come into its slot for good. -/
inductive Kept (b : CodeBlock) (a : Analysis) : Prop
  | opened (c : CodeBlock) (hblock : a.reader.block? = some c) (hgrown : Grown b c)
  | placed (n : Node) (c : CodeBlock) (hsettled : b.startLine < a.settled)
    (hn : a.slots.toList[b.startLine]?.join = some n) (hc : n.codeBlock? = some c)
    (hgrown : Grown b c)

theorem Grown.startLine {b c : CodeBlock} (h : Grown b c) : c.startLine = b.startLine := by
  rw [CodeBlock.startLine, h.opening, CodeBlock.startLine]

theorem kept_turn {b : CodeBlock} {a a' : Analysis} {raw : String} (hacc : Accounted a)
    (h : Kept b a) (hturn : a.Turn raw a') : Kept b a' := by
  cases h with
  | opened c hblock hgrown =>
    rcases turn_inside hblock hturn with rfl | rfl
    · exact .opened _ (block?_inside hblock)
        ⟨hgrown.opening, hgrown.body.trans (List.prefix_append _ _)⟩
    · obtain ⟨external, front, slot, k, n, slots', hfills, hslots'⟩ := slots_closing hacc hblock raw
      have hstart : front.length = b.startLine := hfills.start.trans hgrown.startLine
      have hsize := size_turn hturn
      refine .placed n _ ?_ ?_ hfills.placed.codeBlock? ⟨hgrown.opening, hgrown.body⟩
      · have hcount := hfills.length
        rw [hgrown.startLine, Array.length_toList] at hcount
        rw [settled_none (block?_closing c), hsize]
        omega
      · rw [hslots', hfills.after, ← hstart]
        simp
  | placed n c hsettled hn hc hgrown =>
    obtain ⟨hle, htake⟩ := settled_turn hacc hturn
    refine .placed n c (Nat.lt_of_lt_of_le hsettled hle) ?_ hc hgrown
    rwa [getElem?_of_take_eq htake hsettled]

theorem kept_after {lines : List String} {b : CodeBlock}
    (hb : (after lines).reader.block? = some b) (rest : List String) :
    Kept b (after (lines ++ rest)) := by
  induction rest using List.reverseRecOn with
  | nil =>
    rw [List.append_nil]
    exact .opened b hb ⟨rfl, List.prefix_rfl⟩
  | append_singleton rest raw ih =>
    rw [← List.append_assoc, after_concat]
    exact kept_turn (accounted_after _) ih (turn_step (coherent_after _) raw)

/-- At the end the block is in its slot. -/
theorem Kept.conclude {b : CodeBlock} {a : Analysis} (h : Kept b a) (hacc : Accounted a) :
    ∃ n c, a.conclude.slots.toList[b.startLine]?.join = some n ∧ n.codeBlock? = some c ∧
      Grown b c := by
  cases h with
  | opened c hblock hgrown =>
    obtain ⟨front, slot, k, n, hfills⟩ := (hacc.reserved c hblock).fills c rfl rfl
    refine ⟨n, c, ?_, hfills.placed.codeBlock?, hgrown⟩
    rw [slots_conclude, hblock]
    dsimp only
    rw [hfills.after, ← hgrown.startLine, ← hfills.start]
    simp
  | placed n c hsettled hn hc hgrown =>
    refine ⟨n, c, ?_, hc, hgrown⟩
    rwa [getElem?_of_take_eq (settled_conclude hacc) hsettled]

end Analysis

open Analysis in
/-- Lines of a block that is open after some lines do not count. With other lines in their place, as many
of them, the document is the same up to the text of the block. -/
theorem block_lines_opaque (limit : Nat) (front rest : List String) (b : CodeBlock)
    (hrunning : (run limit front).aborted = false)
    (hblock : (run limit front).reader.block? = some b)
    (body body' : List String) (hlength : body.length = body'.length)
    (hbody : ∀ raw ∈ body, closes raw = false) (hbody' : ∀ raw ∈ body', closes raw = false) :
    (analyzeLines limit (front ++ body ++ rest)).redact b.startLine =
        (analyzeLines limit (front ++ body' ++ rest)).redact b.startLine ∧
      ∃ n c, (analyzeLines limit (front ++ body ++ rest)).nodeAt? b.startLine = some n ∧
        n.codeBlock? = some c ∧ c.opening = b.opening ∧ b.body ++ body <+: c.body := by
  rw [run_of_running hrunning] at hblock
  have herrors := errors_le_of_running hrunning
  have hheld : b.startLine < (after front).slots.size :=
    ((accounted_after front).reserved b hblock).startLine_lt
  refine ⟨?_, ?_⟩
  · rw [analyzeLines, analyzeLines, run_inside herrors hblock hbody, run_inside herrors hblock hbody']
    have halike := alike_foldl_inside hblock hheld hlength hbody hbody'
    exact (halike.foldl_advance limit rest).redact_finish
  · obtain ⟨hsame, hopen⟩ := after_inside hblock hbody
    have hmore := Nat.le_trans (Nat.le_of_eq hsame) herrors
    obtain ⟨k, hk, hreads⟩ := exists_readsUpTo_of_errors_le hmore rest
    obtain ⟨m, rfl⟩ := Nat.exists_eq_add_of_le hk
    obtain ⟨n, c, hn, hc, hgrown⟩ := (kept_after hopen (rest.take m)).conclude (accounted_after _)
    rw [nodeAt?_of_readsUpTo hreads, List.take_length_add_append]
    exact ⟨n, c, hn, hc, hgrown.opening, hgrown.body⟩

open Analysis in
/-- The lines of a members block may look like anything, also when the run is stopped after the block. -/
theorem block_lines_opaque_members :
    let front := ["%walkers W;", "%members W %\x7b", " x"]
    let body := ["%\x7b", "@W", "%start r;"]
    let body' := ["r := A", "", "// %\x7d"]
    let rest := ["%\x7d", "?", "%\x7b"]
    ∃ b, (run 0 front).aborted = false ∧ (run 0 front).reader.block? = some b ∧ b.startLine = 1 ∧
      body.length = body'.length ∧ (∀ raw ∈ body, closes raw = false) ∧
      (∀ raw ∈ body', closes raw = false) ∧ (analyzeLines 0 (front ++ body ++ rest)).aborted = true ∧
      (analyzeLines 0 (front ++ body ++ rest)).redact b.startLine =
        (analyzeLines 0 (front ++ body' ++ rest)).redact b.startLine ∧
      ∃ n c, (analyzeLines 0 (front ++ body ++ rest)).nodeAt? b.startLine = some n ∧
        n.codeBlock? = some c ∧ c.opening = b.opening ∧ b.body ++ body <+: c.body := by
  intro front body body' rest
  have hrunning : (run 0 front).aborted = false := by decide +kernel
  obtain ⟨b, hblock, hstart⟩ : ∃ b, (run 0 front).reader.block? = some b ∧ b.startLine = 1 :=
    ⟨{ opening := ⟨"%\x7b", .onLine 1 11 13⟩
       name := some "W::Members"
       walker := some "W"
       body := [" x"]
       isInline := true }, by decide +kernel, rfl⟩
  have hbody : ∀ raw ∈ body, closes raw = false := by decide
  have hbody' : ∀ raw ∈ body', closes raw = false := by decide
  exact ⟨b, hrunning, hblock, hstart, rfl, hbody, hbody', by decide +kernel,
    block_lines_opaque 0 front rest b hrunning hblock body body' rfl hbody hbody'⟩

end LineGrammar
