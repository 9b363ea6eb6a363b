/-! Blanks, the characters that separate names and pad lines, and the three things done with
them: trimming, splitting into words, and collapsing runs of them to single spaces. -/

namespace LineGrammar

/-- The characters with the `White_Space` property: the controls from tab to carriage return,
the space and next-line characters, and the Unicode spaces. -/
def isBlank (c : Char) : Bool :=
  let n := c.toNat
  (9 ≤ n && n ≤ 13) || n == 32 || n == 0x85 || n == 0xA0 || n == 0x1680 ||
    (0x2000 ≤ n && n ≤ 0x200A) || n == 0x2028 || n == 0x2029 || n == 0x202F || n == 0x205F ||
    n == 0x3000

namespace Text

def trimStart (cs : List Char) : List Char := cs.dropWhile isBlank

/-- The text up to its last character that is not blank. -/
def trimEnd : List Char → List Char
  | [] => []
  | c :: cs =>
    match trimEnd cs with
    | [] => if isBlank c then [] else [c]
    | rest => c :: rest

def trim (cs : List Char) : List Char := trimEnd (trimStart cs)

/-- The maximal runs without a blank, in order. -/
def words : List Char → List (List Char)
  | [] => []
  | c :: cs =>
    if isBlank c then words cs
    else match cs, words cs with
      | d :: _, w :: ws => if isBlank d then [c] :: w :: ws else (c :: w) :: ws
      | _, ws => [c] :: ws

/-- Joins words with one space between neighbours. -/
def unwords : List (List Char) → List Char
  | [] => []
  | [w] => w
  | w :: ws => w ++ ' ' :: unwords ws

/-- Moves each terminator next to the word before it. -/
def tightenTerminators : List Char → List Char
  | ' ' :: ';' :: cs => ';' :: tightenTerminators cs
  | c :: cs => c :: tightenTerminators cs
  | [] => []

/-- One space between words and none before a terminator. -/
def collapse (cs : List Char) : List Char := tightenTerminators (unwords (words cs))

end Text

/-- A line that holds nothing but blanks. -/
def isBlankLine (line : String) : Bool := line.toList.all isBlank

end LineGrammar
