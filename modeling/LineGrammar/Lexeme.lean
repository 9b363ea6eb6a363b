import LineGrammar.Slice
import LineGrammar.Span

/-! A lexeme is a text together with the place where it is written. The lexemes of a document
are made from slices of its lines, so their columns are those of their text. -/

namespace LineGrammar

structure Lexeme where
  text : String
  span : Span
deriving DecidableEq

namespace Lexeme

def line (l : Lexeme) : Nat := l.span.start.line

def start (l : Lexeme) : Nat := l.span.start.column

def stop (l : Lexeme) : Nat := l.span.lastPosition.column

def isEmpty (l : Lexeme) : Bool := l.text.isEmpty

/-- Both ends belong to the lexeme; an open lexeme has no columns. -/
def containsColumn (l : Lexeme) (column : Nat) : Bool :=
  match l.span.stop with
  | some stop => l.start ≤ column && column ≤ stop.column
  | none => false

def contains (l : Lexeme) (p : Position) : Bool := p.line == l.line && l.containsColumn p.column

def emptyAt (p : Position) : Lexeme := ⟨"", p, some p⟩

/-- The text with its columns. -/
def slice (l : Lexeme) : Slice := ⟨l.start, l.text.toList⟩

end Lexeme

/-- The slice as a lexeme of the given line. -/
def Slice.lexeme (line : Nat) (s : Slice) : Lexeme := ⟨s.text, .onLine line s.column s.stop⟩

end LineGrammar
