import LineGrammar.Highlight
import LineGrammar.Indentation
import LineGrammar.Line
import LineGrammar.Text.Blank

/-! Code blocks: lines of code between an opening and a closing mark, kept as they are written.
Laying a block out moves all its lines by the same amount, so their relative indentation
stays. -/

namespace LineGrammar

structure CodeBlock where
  opening : Lexeme
  closing : Option Lexeme := none
  /-- The key under which the block is defined; a block that belongs to nothing has none. -/
  name : Option String
  walker : Option String
  body : List String := []
  /-- Whether the opening mark stands at the end of a pragma and not on a line of its own. -/
  isInline : Bool
  /-- The type that implements the walker from outside, which leaves no room for the block. -/
  external : Option String := none
deriving DecidableEq

/-- The number of blanks in front of a line. -/
def leadingBlanks (line : String) : Nat := (line.toList.takeWhile isBlank).length

/-- The least number of leading blanks among the lines that are not blank. -/
def commonIndent (lines : List String) : Nat :=
  (((lines.filter fun line => !isBlankLine line).map leadingBlanks).min?).getD 0

/-- Replaces the first `common` characters of a line by a margin and trims its end; a blank
line becomes empty. -/
def reindentLine (margin : String) (common : Nat) (line : String) : String :=
  if isBlankLine line then ""
  else margin ++ String.ofList (Text.trimEnd (line.toList.drop common))

/-- Moves the lines together so that the least indented ones stand at the margin. -/
def reindent (ind : Indentation) (lines : List String) : List String :=
  lines.map (reindentLine (ind.margin 1) (commonIndent lines))

namespace CodeBlock

def push (b : CodeBlock) (raw : String) : CodeBlock := { b with body := b.body ++ [raw] }

def close (b : CodeBlock) (mark : Lexeme) : CodeBlock := { b with closing := some mark }

def isClosed (b : CodeBlock) : Bool := b.closing.isSome

def startLine (b : CodeBlock) : Nat := b.opening.line

/-- From the opening mark to the end of the closing one. -/
def span (b : CodeBlock) : Span :=
  ⟨b.opening.span.start, b.closing.map fun mark => ⟨mark.line, mark.stop⟩⟩

/-- How many lines the block takes, with those of its marks. -/
def lineSpan (b : CodeBlock) : Nat :=
  match b.closing with
  | some mark => mark.line - b.opening.line + 1
  | none => b.body.length + 1

/-- A block counts as defined once it is closed, named and not implemented from outside. -/
def definitions (b : CodeBlock) : List Definition :=
  match b.name, b.external with
  | some name, none =>
    if b.isClosed then [⟨.codeBlock name, b.opening.span, b.span, .plain⟩] else []
  | _, _ => []

def highlights (b : CodeBlock) : List Highlight :=
  (if b.isInline then [] else [b.opening.as .blockMark]) ++
    (b.closing.toList.map fun mark => mark.as .blockMark)

def render (ind : Indentation) (b : CodeBlock) : List String :=
  (if b.isInline then [] else [openingMark]) ++ reindent ind b.body ++
    (if b.isClosed then [closingMark] else [])

end CodeBlock

end LineGrammar
