import LineGrammar.Reading

/-! The reader: what is remembered from one line to the next. It knows the current line, the
rule body that waits for blocks, the block whose lines are being collected, what the next block
implements, whether a block or the name of one must follow, and the diagnostics so far. -/

namespace LineGrammar

structure Reader where
  line : Line := {}
  rule? : Option OpenRule := none
  block? : Option CodeBlock := none
  target? : Option Target := none
  /-- Whether the next line may name a block. -/
  expectsName : Bool := false
  /-- Whether a block must follow. -/
  expectsBlock : Bool := false
  diagnostics : List Diagnostic := []

namespace Reader

def inBlock (r : Reader) : Bool := r.block?.isSome

def errors (r : Reader) : Nat := errorCount r.diagnostics

def moveTo (line : Line) (r : Reader) : Reader := { r with line }

def reportAll (ds : List Diagnostic) (r : Reader) : Reader :=
  { r with diagnostics := r.diagnostics ++ ds }

def reportAt (cause : Cause) (span : Span) (r : Reader) : Reader :=
  r.reportAll [.of cause span]

/-- Reports a cause on the current line. -/
def report (cause : Cause) (r : Reader) : Reader := r.reportAt cause r.line.span

/-- Reports a cause with a given severity, on some columns of the current line or on all. -/
def reportAs (cause : Cause) (severity : Severity) (columns : Option (Nat × Nat)) (r : Reader) :
    Reader :=
  let span := match columns with
    | some (start, stop) => .onLine r.line.number start stop
    | none => r.line.span
  r.reportAll [{ cause, span, severity }]

def beginRule (rule : OpenRule) (r : Reader) : Reader :=
  { r with rule? := some rule, expectsName := true, expectsBlock := true }

/-- Forgets the rule and all that was expected for it. -/
def finishRule (r : Reader) : Reader :=
  { r with rule? := none, target? := none, expectsName := false, expectsBlock := false }

/-- Reports the rule as lacking a block and forgets it. -/
def refuseRule (r : Reader) : Reader :=
  match r.rule? with
  | some rule => (r.reportAt (.ruleNeedsBlock rule.name.text) rule.span).finishRule
  | none => r.finishRule

/-- Gives up an expected block; a rule that has had no block lacks one. -/
def abandonBlock (r : Reader) : Reader :=
  match r.rule? with
  | some rule => if rule.blocks = 0 then r.refuseRule else r.finishRule
  | none => r.finishRule

/-- One more block of the rule has been closed. -/
def countBlock (r : Reader) : Reader :=
  { r with rule? := r.rule?.map fun rule => { rule with blocks := rule.blocks + 1 } }

def openBlock (block : CodeBlock) (r : Reader) : Reader :=
  { r with block? := some block, expectsName := false, expectsBlock := false }

/-- The current line becomes a line of the block. -/
def pushLine (r : Reader) : Reader :=
  { r with block? := r.block?.map fun block => block.push r.line.raw }

def dropBlock (r : Reader) : Reader := { r with block? := none }

def aimAt (target? : Option Target) (r : Reader) : Reader := { r with target? }

/-- Does what a line asks of the lines after it. -/
def follow (sequel : Sequel) (r : Reader) : Reader :=
  match sequel with
  | .nothing => r
  | .rule rule => r.beginRule rule
  | .body block => r.openBlock block
  | .name target? => { r with target?, expectsName := false, expectsBlock := true }
  | .block target => { r with target? := some target, expectsBlock := true }

end Reader

end LineGrammar
