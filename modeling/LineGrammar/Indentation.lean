/-! How far the lines of a code block are indented when they are laid out. -/

namespace LineGrammar

structure Indentation where
  tabSize : Nat := 4
  useSpaces : Bool := true
deriving DecidableEq

/-- The blanks in front of a line at the given level. -/
def Indentation.margin (ind : Indentation) (level : Nat) : String :=
  if ind.useSpaces then String.ofList (List.replicate (ind.tabSize * level) ' ')
  else String.ofList (List.replicate level '\t')

end LineGrammar
