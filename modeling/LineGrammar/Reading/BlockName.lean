import LineGrammar.Reading

/-! Reading the names of code blocks. A malformed name still announces a block, which then
belongs to the default walker. -/

namespace LineGrammar

/-- Accepts `@Walker` or `@Walker::function` and nothing after it. -/
def Slice.blockName? (s : Slice) : Option (Slice × Option Slice) := do
  let (_, s) ← s.accept? "@"
  let (walker, s) ← s.name?
  let (function?, s) := s.optional fun s => do
    let (_, s) ← s.accept? "::"
    s.name?
  if s.isEmpty then some (walker, function?) else none

namespace BlockName

/-- The walker and the function should have been declared. -/
def problems (n : BlockName) (ix : Index) : List Diagnostic :=
  (match n.walker? with
    | some walker =>
      if ix.isDefined (.walker walker.text) then []
      else [.of (.unknownWalker walker.text) walker.span]
    | none => []) ++
  (match n.functionKey? with
    | some (function, key) =>
      if ix.isDefined (.function key) then [] else [.of (.unknownFunction key) function.span]
    | none => [])

/-- What the block after the name implements. -/
def target (n : BlockName) : Option Target :=
  n.walker?.map fun walker => { walker := walker.text, function := n.functionName }

def read (line : Line) (rule? : Option String) (ix : Index) : Reading BlockName :=
  let bare : BlockName :=
    { marker := line.lexeme (line.body.split 1).1, rule?, span := line.span }
  match line.body.blockName? with
  | none =>
    { node := bare
      problems := [line.problem .invalidBlockName]
      index := ix
      sequel := .name none }
  | some (walker, function?) =>
    let n :=
      { bare with
        walker? := some (line.lexeme walker)
        function? := function?.map line.lexeme }
    { node := n
      problems := n.problems ix
      index := ix
      sequel := .name n.target }

end BlockName

end LineGrammar
