import LineGrammar.Name
import LineGrammar.Text.Blank

/-! A slice is a run of characters that remembers the column of its first one. Slices are
made smaller only by `split`, which cuts one slice into two that touch, so every part of a
line that is ever recognised knows its own columns. -/

namespace LineGrammar

structure Slice where
  column : Nat
  chars : List Char
deriving DecidableEq

namespace Slice

/-- The column after the last character. -/
def stop (s : Slice) : Nat := s.column + s.chars.length

def isEmpty (s : Slice) : Bool := s.chars.isEmpty

def text (s : Slice) : String := String.ofList s.chars

/-- The first `n` characters and the rest. -/
def split (n : Nat) (s : Slice) : Slice × Slice :=
  (⟨s.column, s.chars.take n⟩, ⟨s.column + (s.chars.take n).length, s.chars.drop n⟩)

/-- The longest front part whose characters satisfy `p`, and the rest. -/
def splitWhile (p : Char → Bool) (s : Slice) : Slice × Slice :=
  s.split (s.chars.takeWhile p).length

def trimStart (s : Slice) : Slice := (s.splitWhile isBlank).2

def trimEnd (s : Slice) : Slice := (s.split (Text.trimEnd s.chars).length).1

def trim (s : Slice) : Slice := s.trimStart.trimEnd

/-- Accepts the given characters at the front. -/
def accept? (front : String) (s : Slice) : Option (Slice × Slice) :=
  if front.toList.isPrefixOf s.chars then some (s.split front.toList.length) else none

/-- Accepts a front part that is spelled with the two character classes and is as long as
possible. -/
def spelled? (first rest : Char → Bool) (s : Slice) : Option (Slice × Slice) :=
  match s.chars with
  | [] => none
  | c :: cs => if first c then some (s.split ((cs.takeWhile rest).length + 1)) else none

def name? (s : Slice) : Option (Slice × Slice) := s.spelled? isNameStart isNameChar

/-- Accepts at least one blank and skips all of them. -/
def blanks? (s : Slice) : Option Slice :=
  match s.chars with
  | [] => none
  | c :: _ => if isBlank c then some s.trimStart else none

/-- Accepts a part that may be missing. -/
def optional (part? : Slice → Option (Slice × Slice)) (s : Slice) : Option Slice × Slice :=
  match part? s with
  | some (part, rest) => (some part, rest)
  | none => (none, s)

/-- Accepts a name in parentheses and gives the name. -/
def parenthesised? (s : Slice) : Option (Slice × Slice) := do
  let (_, s) ← s.accept? "("
  let (name, s) ← s.trimStart.name?
  let (_, s) ← s.trimStart.accept? ")"
  return (name, s)

/-- Accepts the end of a definition: blanks, and a terminator that may be missing. Tells
whether it was there. -/
def terminator? (s : Slice) : Option Bool :=
  match s.trimStart.chars with
  | [] => some false
  | [';'] => some true
  | _ => none

/-- Takes one terminator and the blanks before it off the end. Tells whether it was there. -/
def cutTerminator (s : Slice) : Slice × Bool :=
  if s.chars.getLast? = some ';' then ((s.split (s.chars.length - 1)).1.trimEnd, true)
  else (s.trimEnd, false)

end Slice

end LineGrammar
