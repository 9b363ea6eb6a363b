/-! Splitting a document into lines. Every document has at least one line, and a line ends
at a line feed, with or without a carriage return before it. -/

namespace LineGrammar.Text

/-- The parts between line feeds. -/
def splitLines : List Char → List (List Char)
  | [] => [[]]
  | c :: cs =>
    if c = '\n' then [] :: splitLines cs
    else match splitLines cs with
      | [] => [[c]]
      | line :: rest => (c :: line) :: rest

/-- Drops one carriage return at the end. -/
def chomp : List Char → List Char
  | [] => []
  | ['\r'] => []
  | c :: cs => c :: chomp cs

def lines (text : String) : List String :=
  (splitLines text.toList).map fun line => String.ofList (chomp line)

theorem splitLines_ne_nil (cs : List Char) : splitLines cs ≠ [] := by
  cases cs with
  | nil => simp [splitLines]
  | cons c cs =>
    rw [splitLines]
    split
    · simp
    · split <;> simp

/-- A document has at least one line. -/
theorem lines_ne_nil (text : String) : lines text ≠ [] := by
  simp [lines, splitLines_ne_nil]

end LineGrammar.Text
