import LineGrammar.Line.Shape
import LineGrammar.Reading.Pragma
import LineGrammar.Reading.Rule
import LineGrammar.Reading.Token

/-! Reading a line of a known shape, by the reader for that shape. -/

namespace LineGrammar

def Node.read (line : Line) (ix : Index) : Shape → Reading Node
  | .comment => { node := .comment line.whole, index := ix }
  | .pragma keyword name parameters =>
    (Pragma.read line keyword name parameters ix).map .pragma
  | .token name operator rest => (TokenDef.read line name operator rest ix).map .token
  | .rule name alias? operator rest =>
    (RuleDef.read line name alias? operator rest ix).map .rule

end LineGrammar
