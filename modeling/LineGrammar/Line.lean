import LineGrammar.Diagnostic
import LineGrammar.Lexeme

/-! A line of a document. What is read is its body, the line without the blanks around it;
columns are counted on the whole line. -/

namespace LineGrammar

structure Line where
  number : Nat := 0
  raw : String := ""

/-- The mark that opens a code block. -/
def openingMark : String := "%\x7b"

/-- The mark that closes a code block. -/
def closingMark : String := "%\x7d"

namespace Line

def body (l : Line) : Slice := Slice.trim ⟨0, l.raw.toList⟩

/-- A part of the line as a lexeme. -/
def lexeme (l : Line) (s : Slice) : Lexeme := s.lexeme l.number

/-- The body as one lexeme. -/
def whole (l : Line) : Lexeme := l.lexeme l.body

def span (l : Line) : Span := l.whole.span

/-- The empty span at the end of the body. -/
def endSpan (l : Line) : Span := .onLine l.number l.body.stop l.body.stop

def isBlank (l : Line) : Bool := l.body.isEmpty

/-- Whether the body is the mark that opens a code block. -/
def opensBlock (l : Line) : Bool := l.body.chars == openingMark.toList

/-- Whether the body is the mark that closes a code block. -/
def closesBlock (l : Line) : Bool := l.body.chars == closingMark.toList

/-- Whether the body starts like the name of a code block. -/
def namesBlock (l : Line) : Bool := l.body.chars.head? == some '@'

/-- Something wrong with the line as a whole. -/
def problem (l : Line) (cause : Cause) : Diagnostic := .of cause l.span

/-- Reports a terminator that is missing at the end of the line. -/
def checkTerminator (l : Line) (terminated : Bool) : List Diagnostic :=
  if terminated then [] else [.of .missingTerminator l.endSpan]

end Line

end LineGrammar
