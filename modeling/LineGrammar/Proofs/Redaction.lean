import LineGrammar.Proofs.Slots

/-! Redaction: the lines of one code block are blanked out. Nothing that the end of a block does depends on
its lines, and outside of blocks a line is read without a look at the slots. So two analyses with the same
redaction go on with the same redaction. -/

namespace LineGrammar

/-- As many blank lines in place of the lines. -/
def CodeBlock.redact (b : CodeBlock) : CodeBlock :=
  { b with body := List.replicate b.body.length "" }

/-- Redacts the block if it opens on the line. -/
def CodeBlock.redactAt (line : Nat) (b : CodeBlock) : CodeBlock :=
  { b with body := if b.startLine = line then List.replicate b.body.length "" else b.body }

def Pragma.redact (p : Pragma) : Pragma :=
  match p.body with
  | .members walker opening block =>
    { p with body := .members walker opening (block.map CodeBlock.redact) }
  | _ => p

def Node.redact : Node → Node
  | .pragma p => .pragma p.redact
  | .block b => .block b.redact
  | n => n

/-- The document with the lines of the block on one line blanked out. -/
def Document.redact (line : Nat) (d : Document) : Document :=
  { d with nodes := d.nodes.modify line (Option.map Node.redact) }

namespace CodeBlock

theorem redactAt_of_eq {line : Nat} {b : CodeBlock} (h : b.startLine = line) :
    b.redactAt line = b.redact := by
  rw [redactAt, if_pos h, redact]

theorem redactAt_of_ne {line : Nat} {b : CodeBlock} (h : b.startLine ≠ line) :
    b.redactAt line = b := by
  rw [redactAt, if_neg h]

/-- Of a redacted block only the number of lines is left. -/
theorem redactAt_push (line : Nat) (b : CodeBlock) (raw : String) :
    (b.push raw).redactAt line = (b.redactAt line).push (if b.startLine = line then "" else raw) := by
  have hstart : (b.push raw).startLine = b.startLine := rfl
  by_cases h : b.startLine = line
  · rw [if_pos h, redactAt_of_eq h, redactAt_of_eq (hstart.trans h)]
    simp [redact, push, List.replicate_succ']
  · rw [if_neg h, redactAt_of_ne h, redactAt_of_ne (by rwa [hstart])]

end CodeBlock

theorem Pragma.attach?_redact (p : Pragma) (b : CodeBlock) :
    p.redact.attach? b.redact = (p.attach? b).map Pragma.redact := by
  obtain ⟨mark, name, parameters, keyword?, body, span⟩ := p
  cases body with
  | members walker opening attached => cases opening <;> cases attached <;> rfl
  | _ => rfl

theorem redact_placeBlock (b : CodeBlock) (slot : Option Node) :
    (placeBlock b slot).map Node.redact = placeBlock b.redact (slot.map Node.redact) := by
  cases slot with
  | none => rfl
  | some n =>
    cases n with
    | pragma p =>
      have hinline : b.redact.isInline = b.isInline := rfl
      dsimp only [placeBlock, Option.map_some, Node.redact]
      rw [hinline, Pragma.attach?_redact]
      split
      · cases p.attach? b <;> rfl
      · rfl
    | _ => rfl

/-- What is remembered, without the current line. -/
def Reader.redact (line : Nat) (r : Reader) : Reader :=
  { r with line := {}, block? := r.block?.map (CodeBlock.redactAt line) }

def Analysis.redact (line : Nat) (a : Analysis) : Analysis :=
  { a with
    reader := a.reader.redact line
    slots := a.slots.modify line (Option.map Node.redact) }

theorem modify_push {α : Type} {slots : Array α} {line : Nat} (h : line < slots.size) (f : α → α)
    (x : α) : (slots.push x).modify line f = (slots.modify line f).push x := by
  apply Array.ext_getElem?
  intro i
  rw [Array.getElem?_modify, Array.getElem?_push, Array.getElem?_push, Array.size_modify,
    Array.getElem?_modify]
  by_cases hi : i = slots.size
  · rw [if_pos hi, if_pos hi, if_neg (by omega)]
  · rw [if_neg hi, if_neg hi]

namespace Analysis

variable {line : Nat} {a : Analysis}

theorem redact_endLine (h : line < a.slots.size) (node? : Option Node) :
    (a.endLine node?).redact line = (a.redact line).endLine node? := by
  rw [endLine, redact, endLine, modify_push h]
  rfl

theorem redact_place (b : CodeBlock) (a : Analysis) :
    (place b a).redact line = place (b.redactAt line) (a.redact line) := by
  have hslots : (a.slots.modify b.startLine (placeBlock b)).modify line (Option.map Node.redact) =
      (a.slots.modify line (Option.map Node.redact)).modify b.startLine
        (placeBlock (b.redactAt line)) := by
    apply Array.toList_inj.1
    simp only [Array.toList_modify]
    by_cases h : b.startLine = line
    · rw [CodeBlock.redactAt_of_eq h, h, List.modify_modify_eq, List.modify_modify_eq]
      congr 1
      funext slot
      exact redact_placeBlock b slot
    · rw [CodeBlock.redactAt_of_ne h, List.modify_modify_ne _ _ _ h]
  rw [place, redact, hslots]
  rfl

theorem redact_rejectExternal (b : CodeBlock) (a : Analysis) :
    (a.redact line).rejectExternal (b.redactAt line) =
      ((a.rejectExternal b).1.redactAt line, (a.rejectExternal b).2.redact line) := by
  obtain ⟨opening, closing, name, walker, body, isInline, external⟩ := b
  cases walker with
  | none => rfl
  | some walker =>
    unfold rejectExternal
    dsimp only [CodeBlock.redactAt, redact, Option.bind_some]
    cases a.index.interfaceOf walker <;> rfl

/-- The end of a block does not depend on its lines. -/
theorem redact_settleBlock (b : CodeBlock) (a : Analysis) :
    (a.settleBlock b).redact line = (a.redact line).settleBlock (b.redactAt line) := by
  unfold settleBlock
  rw [redact_rejectExternal]
  obtain ⟨b, a⟩ := a.rejectExternal b
  dsimp only
  rw [redact_place]
  have hmore : (expectMore b a.reader.dropBlock).redact line =
      expectMore (b.redactAt line) (a.redact line).reader.dropBlock := by
    unfold expectMore
    rw [show (a.redact line).reader.dropBlock.rule? = a.reader.dropBlock.rule? from rfl,
      show (b.redactAt line).isInline = b.isInline from rfl]
    split <;> rfl
  rw [← hmore]
  rfl

theorem line_settleBlock (b : CodeBlock) (a : Analysis) :
    (a.settleBlock b).reader.line = a.reader.line := by
  have hreject : (a.rejectExternal b).2.reader.line = a.reader.line := by
    unfold rejectExternal
    split <;> rfl
  unfold settleBlock
  refine Eq.trans ?_ hreject
  dsimp only [place, expectMore]
  split <;> rfl

theorem prepare_slots (a : Analysis) (slots : Array (Option Node)) :
    ({ a with slots } : Analysis).prepare = { a.prepare with slots } := by
  have hleave : ({ a with slots } : Analysis).leaveName = { a.leaveName with slots } := by
    unfold leaveName
    dsimp only
    split <;> rfl
  rw [prepare, hleave, prepare, checkExpectation_eq, checkExpectation_eq, expectBlock, expectBlock]
  dsimp only
  split
  · rfl
  · split
    · rfl
    · split <;> rfl

/-- What is done on a line adds one slot, and does not look at the others. -/
def AddsSlot (f : Analysis → Analysis) (a : Analysis) : Prop :=
  ∃ node?, ∀ slots, f { a with slots } = { f a with slots := slots.push node? }

theorem addsSlot_accept (reading : Reading Node) (a : Analysis) : AddsSlot (accept reading) a :=
  ⟨some reading.node, fun _ => rfl⟩

theorem addsSlot_readBlockName (a : Analysis) : AddsSlot readBlockName a := by
  obtain ⟨node?, hread⟩ := addsSlot_accept ((BlockName.read a.reader.line
    (a.reader.rule?.map fun rule => rule.name.text) a.index).map .blockName) a
  refine ⟨node?, fun slots => ?_⟩
  rw [readBlockName, readBlockName]
  exact hread slots

theorem addsSlot_dispatch (a : Analysis) : AddsSlot dispatch a := by
  unfold AddsSlot dispatch
  dsimp only
  split
  · exact ⟨none, fun _ => rfl⟩
  · split
    · exact ⟨none, fun _ => rfl⟩
    · split
      · exact ⟨none, fun _ => rfl⟩
      · split
        · exact ⟨none, fun _ => rfl⟩
        · split
          · next shape hshape =>
            exact addsSlot_accept (Node.read a.reader.line a.index shape) a
          · exact ⟨none, fun _ => rfl⟩

/-- Outside of blocks a line only looks at how many slots there are. -/
theorem step_slots (h : a.reader.block? = none) (raw : String) :
    ∃ node?, ∀ slots, slots.size = a.slots.size →
      ({ a with slots } : Analysis).step raw = { a.step raw with slots := slots.push node? } := by
  have hmove : ∀ slots : Array (Option Node), slots.size = a.slots.size →
      ({ a with slots } : Analysis).moveTo raw = { a.moveTo raw with slots } := fun slots hsize => by
    rw [moveTo, hsize]
    rfl
  by_cases hname : (a.reader.expectsName && (a.moveTo raw).reader.line.namesBlock) = true
  · obtain ⟨node?, hread⟩ := addsSlot_readBlockName (a.moveTo raw)
    refine ⟨node?, fun slots hsize => ?_⟩
    rw [step_outside h, step_outside (a := { a with slots }) h, hmove slots hsize, if_pos hname,
      if_pos hname]
    exact hread slots
  · obtain ⟨node?, hread⟩ := addsSlot_dispatch (a.moveTo raw).prepare
    refine ⟨node?, fun slots hsize => ?_⟩
    rw [step_outside h, step_outside (a := { a with slots }) h, hmove slots hsize, if_neg hname,
      if_neg hname, prepare_slots]
    exact hread slots

end Analysis

end LineGrammar
