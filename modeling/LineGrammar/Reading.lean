import LineGrammar.Index
import LineGrammar.Node

/-! What reading one line gives. Besides its node a line has problems to report, changes the
index, and may ask something of the lines that follow; this is its sequel. -/

namespace LineGrammar

/-- A rule body without terminator, which waits for its code blocks. -/
structure OpenRule where
  name : Lexeme
  internalName : String
  span : Span
  /-- How many of its blocks have been closed. -/
  blocks : Nat := 0
deriving DecidableEq

/-- What the next code block implements. -/
structure Target where
  walker : String
  function : String
  /-- Whether the block belongs to the walker itself and not to a rule. -/
  isMembers : Bool := false
deriving DecidableEq

inductive Sequel
  | nothing
  /-- Code blocks for a rule body, named or not. -/
  | rule (rule : OpenRule)
  /-- The lines of a block that has just been opened. -/
  | body (block : CodeBlock)
  /-- One code block, which the line has named. -/
  | name (target? : Option Target)
  /-- One code block. -/
  | block (target : Target)
deriving DecidableEq

structure Reading (α : Type) where
  node : α
  problems : List Diagnostic := []
  index : Index
  sequel : Sequel := .nothing

def Reading.map {α β : Type} (f : α → β) (r : Reading α) : Reading β :=
  { r with node := f r.node }

end LineGrammar
