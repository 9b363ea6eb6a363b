import LineGrammar.Document

/-! Views of a whole document: the outline of its definitions, its highlights in order, and the
lines of its code blocks that can be folded away. -/

namespace LineGrammar

structure OutlineItem where
  name : String
  detail : Option String
  kind : SymbolKind
  span : Span
  /-- Where the name is written. -/
  nameSpan : Span
deriving DecidableEq

/-- The items of one kind under a title. -/
structure OutlineGroup where
  title : String
  kind : SymbolKind
  span : Span
  items : List OutlineItem
deriving DecidableEq

/-- The number of a kind on the language server's scale. -/
def SymbolKind.outlineCode : SymbolKind → Nat
  | .token => 14
  | .rule => 12
  | .walker => 5
  | .function => 6
  | .lexerMode => 3
  | .walkerInterface => 11
  | .codeBlock => 2

namespace Outline

/-- The kinds that are shown, in order, with their titles. -/
def groups : List (SymbolKind × String) :=
  [(.token, "Tokens"), (.rule, "Rules"), (.walker, "Walkers"), (.function, "Functions"),
    (.lexerMode, "Lexer modes")]

def detail : Detail → Option String
  | .plain => none
  | .token literal => some literal
  | .rule internalName expectsBlocks =>
    some (internalName ++ if expectsBlocks then " (code blocks)" else "")
  | .function _ _ _ signature => some signature
  | .walkerInterface typeName => some typeName

def item (d : Definition) : OutlineItem :=
  { name := d.symbol.name
    detail := detail d.detail
    kind := d.symbol.kind
    span := d.fullSpan
    nameSpan := d.span }

/-- The least span that covers all items. -/
def cover : List OutlineItem → Option Span
  | [] => none
  | i :: rest =>
    some ⟨rest.foldl (fun p i => p.earlier i.span.start) i.span.start,
      some (rest.foldl (fun p i => p.later i.span.lastPosition) i.span.lastPosition)⟩

/-- The group of a kind, if anything of the kind is defined. -/
def group? (ix : Index) (kind : SymbolKind) (title : String) : Option OutlineGroup :=
  let items := (ix.definitionsOfKind kind).map item
  (cover items).map fun span => { title, kind, span, items }

end Outline

def Index.outline (ix : Index) : List OutlineGroup :=
  Outline.groups.filterMap fun (kind, title) => Outline.group? ix kind title

namespace Document

/-- All highlights, in the order of their spans. -/
def highlights (d : Document) : List Highlight :=
  (d.nodeList.flatMap Node.highlights).mergeSort fun g h => decide (g.span ≤ h.span)

/-- The first and the last line of each closed code block of more than one line. -/
def folds (d : Document) : List (Nat × Nat) :=
  d.nodeList.filterMap fun node => do
    let block ← node.codeBlock?
    let stop ← block.span.stop
    if block.startLine < stop.line then some (block.startLine, stop.line) else none

end Document

end LineGrammar
