import LineGrammar.Proofs.PragmaLine
import LineGrammar.Proofs.RecastAnalysis

/-! The content of an analysis. Apart from the text of the current line nothing in it depends on
columns, so every operation that does not look at that text can be done on the content alone. -/

namespace LineGrammar

/-- What is remembered, with the number of the current line but without its text. -/
def Reader.content (r : Reader) : Reader :=
  { r with
    line := { number := r.line.number }
    rule? := r.rule?.map OpenRule.content
    block? := r.block?.map CodeBlock.content
    diagnostics := r.diagnostics.map Diagnostic.content }

def Analysis.content (a : Analysis) : Analysis :=
  { a with
    reader := a.reader.content
    index := a.index.content
    slots := a.slots.map (Option.map Node.content) }

theorem keepsLine_content (l : Line) : Recast.content.KeepsLine l := rfl

namespace Analysis

theorem content_endLine (node? : Option Node) (a : Analysis) :
    (a.endLine node?).content = a.content.endLine (node?.map Node.content) :=
  @recast_endLine .content node? a

theorem content_accept (reading : Reading Node) (a : Analysis) :
    (a.accept reading).content = a.content.accept (reading.content Node.content) :=
  @recast_accept .content reading a

theorem content_openAt (opening : Lexeme) (a : Analysis) :
    (a.openAt opening).content = a.content.openAt opening.content :=
  @recast_openAt .content a (keepsLine_content _) opening

theorem content_settleBlock (block : CodeBlock) (a : Analysis) :
    (a.settleBlock block).content = a.content.settleBlock block.content :=
  @recast_settleBlock .content block rfl block.span_content a

theorem content_moveTo (raw : String) (a : Analysis) :
    (a.moveTo raw).content = a.content.moveTo "" := by
  simp [moveTo, content, Reader.moveTo, Reader.content]

theorem content_leaveName (a : Analysis) : a.leaveName.content = a.content.leaveName :=
  @recast_leaveName .content a

theorem content_expectBlock (opens blank : Bool) (a : Analysis) :
    (a.expectBlock opens blank).content = a.content.expectBlock opens blank :=
  @recast_expectBlock .content a (keepsLine_content _) opens blank

end Analysis

end LineGrammar
