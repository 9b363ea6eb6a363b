import LineGrammar.Tiling

/-! Patterns that recognise the front of a slice, and the finder that looks for the leftmost
place where a pattern matches. -/

namespace LineGrammar

/-- Recognises the front of a slice: what each group captured, and the rest. -/
abbrev Pattern := Slice → Option (List (Option Slice) × Slice)

namespace Pattern

/-- The leftmost match at or after an offset. -/
def finder (p : Pattern) : Finder := fun text pos =>
  (List.range' pos (text.length + 1 - pos)).findSome? fun start =>
    (p ⟨start, text.drop start⟩).map fun (groups, rest) =>
      ⟨start, rest.column, groups.map fun group => group.map fun s => ⟨s.column, s.stop⟩⟩

/-- A name with the blanks around it. -/
def item : Pattern := fun s => do
  let (name, s) ← s.trimStart.name?
  return ([some name], s.trimStart)

end Pattern

end LineGrammar
