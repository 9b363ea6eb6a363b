import LineGrammar.Document

/-! The layout of a document: every node written in its one standard form, with the operators of
neighbouring token definitions in one column. Only a document without any diagnostic is laid
out, and it keeps its number of lines. -/

namespace LineGrammar

/-- The token definitions at the front, up to the first line that is anything else. -/
def leadingTokens : List (Option Node) → List TokenDef
  | some (.token t) :: rest => t :: leadingTokens rest
  | _ => []

/-- The width of the longest name. -/
def nameWidth (tokens : List TokenDef) : Nat :=
  (tokens.map fun t => t.name.text.length).foldl max 0

/-- Lays out the slots in order. A node that takes more than one line stands for the slots of all
its lines. -/
def layoutSlots (ind : Indentation) : List (Option Node) → List String
  | [] => []
  | none :: rest => "" :: layoutSlots ind rest
  | some (.token t) :: rest =>
    let run := t :: leadingTokens rest
    run.map (TokenDef.render (nameWidth run)) ++ layoutSlots ind (rest.drop (run.length - 1))
  | some node :: rest => node.render ind ++ layoutSlots ind (rest.drop (node.lineSpan - 1))
termination_by slots => slots.length

def layout (ind : Indentation) (d : Document) : List String :=
  if d.diagnostics.isEmpty then layoutSlots ind d.nodes.toList else []

end LineGrammar
