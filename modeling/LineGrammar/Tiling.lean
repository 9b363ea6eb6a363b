import LineGrammar.Lexeme

/-! Tiling a text with the matches of a pattern. A finder gives the leftmost match at or after
an offset; a text is tiled when each match starts where the one before it stopped and the last
one stops at the end. A gap, an empty match or a missing match means that there is no tiling. -/

namespace LineGrammar

/-- Where a match starts and stops, as offsets into the text, and what it captured. -/
structure Match (α : Type) where
  start : Nat
  stop : Nat
  captured : α

/-- Collects the matches that tile the offsets from `pos` to `size`. -/
def tileFrom {α : Type} (find? : Nat → Option (Match α)) (size pos : Nat) : Option (List α) :=
  if pos < size then
    match find? pos with
    | some m =>
      if m.start = pos ∧ pos < m.stop then
        (tileFrom find? size m.stop).map (m.captured :: ·)
      else none
    | none => none
  else some []
termination_by size - pos

/-- Reads the slice as a sequence of items and nothing else. -/
def Slice.sequence? {α : Type} (item? : Slice → Option (α × Slice)) (s : Slice) :
    Option (List α) :=
  tileFrom
    (fun pos => (item? (s.split pos).2).map fun (item, rest) =>
      ⟨pos, rest.column - s.column, item⟩)
    s.chars.length 0

/-- A part of a text, by offsets. -/
structure Extent where
  start : Nat
  stop : Nat
deriving DecidableEq

/-- What a match captures: one extent for each group that took part. -/
abbrev Groups := List (Option Extent)

abbrev Finder := List Char → Nat → Option (Match Groups)

/-- The part of the lexeme between two offsets into its text. -/
def Lexeme.part (l : Lexeme) (e : Extent) : Lexeme :=
  ((l.slice.split e.start).2.split (e.stop - e.start)).1.lexeme l.line

/-- The groups of each repetition, if the matches tile the lexeme. -/
def Lexeme.repetitions? (find? : Finder) (l : Lexeme) : Option (List (List (Option Lexeme))) :=
  (tileFrom (find? l.text.toList) l.text.toList.length 0).map fun repetitions =>
    repetitions.map fun groups => groups.map fun group => group.map l.part

/-- The groups of the first match in the lexeme. -/
def Lexeme.firstMatch? (find? : Finder) (l : Lexeme) : Option (List (Option Lexeme)) :=
  (find? l.text.toList 0).map fun m => m.captured.map fun group => group.map l.part

/-- The lexeme itself, or an empty one at the end of `whole` for a group that took no part. -/
def Lexeme.orEndOf (part : Option Lexeme) (whole : Lexeme) : Lexeme :=
  part.getD (.emptyAt ⟨whole.line, whole.stop⟩)

end LineGrammar
