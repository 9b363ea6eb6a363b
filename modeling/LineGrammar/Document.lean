import LineGrammar.Index
import LineGrammar.Node

/-! An analysed document: a node, or nothing, for each line, the index of its symbols, and what
is wrong with it. -/

namespace LineGrammar

structure Document where
  nodes : Array (Option Node) := #[]
  index : Index := {}
  diagnostics : List Diagnostic := []
  /-- Whether the analysis stopped early because of too many errors. -/
  aborted : Bool := false

namespace Document

def lineCount (d : Document) : Nat := d.nodes.size

def hasErrors (d : Document) : Bool := d.diagnostics.any Diagnostic.isError

def nodeAt? (d : Document) (line : Nat) : Option Node := d.nodes[line]?.join

/-- The nodes with their lines, from first to last. -/
def numberedNodes (d : Document) : List (Nat × Node) :=
  d.nodes.toList.zipIdx.filterMap fun (node?, line) => node?.map fun node => (line, node)

def nodeList (d : Document) : List Node := d.nodes.toList.filterMap id

/-- Whether the position is on a line of the document. -/
def hasLine (d : Document) (p : Position) : Bool := p.line < d.lineCount

end Document

end LineGrammar
