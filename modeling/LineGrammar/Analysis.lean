import LineGrammar.Document
import LineGrammar.Reader
import LineGrammar.Reading.BlockName
import LineGrammar.Reading.Line
import LineGrammar.Text.Lines

/-! The analysis of a document, one line after the other. Inside a code block only the closing
mark is read. Outside, a line that must open or name a block is checked first, and is then
treated like any other line. Each line fills exactly one slot; a block is put into the slot of
the line on which it opened. -/

namespace LineGrammar

structure Analysis where
  reader : Reader := {}
  index : Index := {}
  /-- One slot for each line that has been read. -/
  slots : Array (Option Node) := #[]
  /-- Whether blank lines came between the last line and the block it asked for, which has been
  reported once and need not be reported again. -/
  lateBlock : Bool := false
  aborted : Bool := false

/-- Puts a block into the slot of its first line: into the pragma that opened it, or as a node of
its own. -/
def placeBlock (block : CodeBlock) (slot : Option Node) : Option Node :=
  match slot with
  | some (.pragma p) =>
    if block.isInline then
      match p.attach? block with
      | some p => some (.pragma p)
      | none => some (.block block)
    else some (.block block)
  | _ => some (.block block)

/-- The key and the walker of a block that opens now, or the causes to report if it belongs to
nothing. A block without a name belongs to the default walker. -/
def blockOwner (r : Reader) (ix : Index) (lateBlock : Bool) :
    Except (List Cause) (String × String) :=
  let rule? := r.rule?.map OpenRule.internalName
  match r.target? with
  | some target =>
    .ok (blockKey (if target.isMembers then none else rule?) target.walker target.function,
      target.walker)
  | none =>
    if rule?.isSome then
      match ix.settings.defaultWalker with
      | some walker => .ok (blockKey rule? walker implicitFunction, walker)
      | none => .error [.noDefaultWalker]
    else .error (if lateBlock then [] else [.unexpectedBlock])

namespace Analysis

/-- Ends the line: its node, if it has one, takes the next slot. -/
def endLine (node? : Option Node) (a : Analysis) : Analysis :=
  { a with slots := a.slots.push node? }

def report (cause : Cause) (a : Analysis) : Analysis := { a with reader := a.reader.report cause }

/-- Takes over what was read on the line. -/
def accept (reading : Reading Node) (a : Analysis) : Analysis :=
  endLine (some reading.node)
    { a with
      reader := (a.reader.reportAll reading.problems).follow reading.sequel
      index := reading.index }

def place (block : CodeBlock) (a : Analysis) : Analysis :=
  { a with slots := a.slots.modify block.startLine (placeBlock block) }

def openBlock (a : Analysis) : Analysis :=
  let opening := a.reader.line.whole
  let (reader, name, walker) :=
    match blockOwner a.reader a.index a.lateBlock with
    | .ok (name, walker) => (a.reader, some name, some walker)
    | .error causes => (causes.foldl (fun r cause => r.report cause) a.reader, none, none)
  { a with
    reader := (reader.aimAt none).openBlock { opening, name, walker, isInline := false }
    lateBlock := false }

/-- Reports a block whose walker is implemented from outside and marks it so. -/
def rejectExternal (block : CodeBlock) (a : Analysis) : CodeBlock × Analysis :=
  match block.walker, block.walker.bind a.index.interfaceOf with
  | some walker, some interface =>
    ({ block with external := some interface },
      { a with
        reader :=
          a.reader.reportAt (.inlineImplementation walker interface) block.opening.span })
  | _, _ => (block, a)

/-- A rule may have more blocks after one that has just been closed. -/
def expectMore (block : CodeBlock) (r : Reader) : Reader :=
  if !block.isInline && r.rule?.isSome then { r.countBlock with expectsName := true } else r

def closeBlock (block : CodeBlock) (a : Analysis) : Analysis :=
  let (block, a) := a.rejectExternal (block.close a.reader.line.whole)
  place block
    { a with
      reader := expectMore block a.reader.dropBlock
      index := a.index.enterAll block.definitions }

def readBlockName (a : Analysis) : Analysis :=
  a.accept ((BlockName.read a.reader.line (a.reader.rule?.map fun rule => rule.name.text)
    a.index).map .blockName)

/-- The line names no block; a rule that has had its blocks is then complete. -/
def leaveName (a : Analysis) : Analysis :=
  if a.reader.expectsName then
    let reader := { a.reader with expectsName := false }
    { a with reader := if reader.expectsBlock then reader else reader.finishRule }
  else a

/-- Reports a block that does not come. -/
def checkExpectation (a : Analysis) : Analysis :=
  let line := a.reader.line
  if line.opensBlock then a
  else if a.reader.expectsBlock then
    { a with
      reader := (a.reader.report .blockExpected).abandonBlock
      lateBlock := line.isBlank }
  else if line.isBlank then a
  else { a with lateBlock := false }

/-- Reads a line by itself. -/
def dispatch (a : Analysis) : Analysis :=
  let line := a.reader.line
  if line.isBlank then a.endLine none
  else if line.opensBlock then a.openBlock.endLine none
  else if line.closesBlock then (a.report .unmatchedBlockEnd).endLine none
  else if line.namesBlock then (a.report .unexpectedBlockName).endLine none
  else
    match Shape.of? line.body with
    | some shape => a.accept (Node.read line a.index shape)
    | none => (a.report .unrecognisedLine).endLine none

/-- Reads one more line. -/
def step (a : Analysis) (raw : String) : Analysis :=
  let a := { a with reader := a.reader.moveTo { number := a.slots.size, raw } }
  match a.reader.block? with
  | some block =>
    if a.reader.line.closesBlock then (a.closeBlock block).endLine none
    else endLine none { a with reader := a.reader.pushLine }
  | none =>
    if a.reader.expectsName && a.reader.line.namesBlock then a.readBlockName
    else a.leaveName.checkExpectation.dispatch

/-- Stops the analysis when there are more errors than allowed. -/
def checkLimit (limit : Nat) (a : Analysis) : Analysis :=
  if limit < a.reader.errors then { a.report (.tooManyErrors limit) with aborted := true } else a

/-- Reads one more line, unless the analysis has stopped. -/
def advance (limit : Nat) (a : Analysis) (raw : String) : Analysis :=
  if a.aborted then a.endLine none else (a.step raw).checkLimit limit

def run (limit : Nat) (lines : List String) : Analysis := lines.foldl (advance limit) {}

/-- Reports what is still missing after the last line, unless the analysis was stopped. -/
def conclude (a : Analysis) : Analysis :=
  match a.reader.block? with
  | some block =>
    let reader :=
      if a.aborted then a.reader else a.reader.reportAt .unclosedBlock block.opening.span
    place block { a with reader := reader.dropBlock }
  | none =>
    if !a.aborted && a.reader.expectsBlock then
      { a with reader := (a.reader.report .blockExpected).abandonBlock }
    else a

/-- The document, with a warning for each use that was never defined. -/
def finish (a : Analysis) : Document :=
  let a := a.conclude
  { nodes := a.slots
    index := a.index.clearPending
    diagnostics := a.reader.diagnostics ++
      a.index.unresolved.map fun use => .of (.notDefined use.symbol) use.span
    aborted := a.aborted }

end Analysis

/-- How many errors an analysis allows unless told otherwise. -/
def defaultErrorLimit : Nat := 25

def analyzeLines (limit : Nat) (lines : List String) : Document := (Analysis.run limit lines).finish

/-- Analyses a text; with more errors than the limit the rest of the text is left unread. -/
def analyze (limit : Nat) (text : String) : Document := analyzeLines limit (Text.lines text)

end LineGrammar
