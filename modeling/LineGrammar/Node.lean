import LineGrammar.Node.BlockName
import LineGrammar.Node.CodeBlock
import LineGrammar.Node.Pragma
import LineGrammar.Node.RuleDef
import LineGrammar.Node.TokenDef

/-! Nodes. A line of a document holds at most one node; a code block counts for the line on
which it opens. What a node defines, mentions and highlights follows from the node alone. -/

namespace LineGrammar

inductive Node
  /-- The whole comment with its slashes. -/
  | comment (text : Lexeme)
  | pragma (p : Pragma)
  | token (t : TokenDef)
  | rule (r : RuleDef)
  | block (b : CodeBlock)
  | blockName (n : BlockName)
deriving DecidableEq

namespace Node

def span : Node → Span
  | comment text => text.span
  | pragma p => p.span
  | token t => t.span
  | rule r => r.span
  | block b => b.span
  | blockName n => n.span

/-- The names that are written in the node, with what they stand for. -/
def references : Node → List (Lexeme × Symbol)
  | pragma p => p.references
  | token t => t.references
  | rule r => r.references
  | blockName n => n.references
  | comment _ | block _ => []

/-- The name at a position. -/
def referenceAt? (n : Node) (p : Position) : Option (Lexeme × Symbol) :=
  n.references.find? fun (name, _) => name.contains p

/-- The places where a symbol is written in the node. -/
def occurrences (n : Node) (s : Symbol) : List Lexeme :=
  (n.references.filter fun (_, symbol) => symbol = s).map Prod.fst

def definitions : Node → List Definition
  | pragma p => p.definitions
  | token t => t.definitions
  | rule r => [r.definition]
  | block b => b.definitions
  | comment _ | blockName _ => []

def highlights : Node → List Highlight
  | comment text => [text.as .comment]
  | pragma p => p.highlights
  | token t => t.highlights
  | rule r => r.highlights
  | block b => b.highlights
  | blockName n => n.highlights

/-- How many lines the node takes. -/
def lineSpan : Node → Nat
  | block b => b.lineSpan
  | pragma p => p.lineSpan
  | _ => 1

/-- The lines of the node as they are laid out by themselves. -/
def render (ind : Indentation) : Node → List String
  | comment text => [text.text]
  | pragma p => p.render ind
  | token t => [t.render 0]
  | rule r => [r.render]
  | block b => b.render ind
  | blockName n => [n.render]

def codeBlock? : Node → Option CodeBlock
  | block b => some b
  | pragma p => p.block?
  | _ => none

/-- The text of a comment after its slashes. -/
def commentText (text : Lexeme) : String := String.ofList (text.text.toList.drop 2)

end Node

end LineGrammar
