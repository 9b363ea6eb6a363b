import LineGrammar.Node
import LineGrammar.Proofs.Collapse
import LineGrammar.Proofs.Recast
import LineGrammar.Proofs.Reindent

/-! What a node says, whatever the layout of its lines. The content of a node keeps the lines on
which its parts stand but not their columns, the parameters of a pragma as they are laid out, the
blanks in the types of a function not at all, and the lines of a block as if they stood at the left
margin. -/

namespace LineGrammar

/-- The lines of a span, without its columns. -/
def Span.onLines (s : Span) : Span := ⟨⟨s.start.line, 0⟩, s.stop.map fun p => ⟨p.line, 0⟩⟩

def Lexeme.content (l : Lexeme) : Lexeme := ⟨l.text, l.span.onLines⟩

/-- A lexeme in which blanks do not count. -/
def Lexeme.denseContent (l : Lexeme) : Lexeme :=
  ⟨String.ofList (Text.dense l.text.toList), l.span.onLines⟩

/-- The lines of a block at the left margin. -/
def flush (lines : List String) : List String := reindent { tabSize := 0, useSpaces := true } lines

def CodeBlock.content (b : CodeBlock) : CodeBlock :=
  { b with
    opening := b.opening.content
    closing := b.closing.map Lexeme.content
    body := flush b.body }

def FunctionDecl.content (f : FunctionDecl) : FunctionDecl :=
  { f with
    rule := f.rule.content
    walker? := f.walker?.map Lexeme.content
    function := f.function.content
    parameters := f.parameters.denseContent
    returnType := f.returnType.denseContent }

def PragmaBody.content : PragmaBody → PragmaBody
  | className name => .className name.content
  | walkers names declared => .walkers (names.map Lexeme.content) declared
  | defaultWalker walker => .defaultWalker walker.content
  | members walker opening block =>
    .members walker.content (opening.map Lexeme.content) (block.map CodeBlock.content)
  | associativity a tokens => .associativity a (tokens.map Lexeme.content)
  | function decl => .function decl.content
  | lexerMode mode => .lexerMode mode.content
  | lexerInclude mode => .lexerInclude mode.content
  | walkerInterface walker typeName declared =>
    .walkerInterface walker.content typeName.content declared
  | start rule => .start rule.content
  | reserved => .reserved
  | invalid => .invalid
  | unknown => .unknown

def Pragma.content (p : Pragma) : Pragma :=
  { mark := p.mark.content
    name := p.name.content
    parameters := ⟨p.renderedParameters, p.parameters.span.onLines⟩
    keyword? := p.keyword?
    body := p.body.content
    span := p.span.onLines }

def TokenDef.content (t : TokenDef) : TokenDef :=
  { t with
    name := t.name.content
    operator := t.operator.content
    literal? := t.literal?.map Lexeme.content
    bang? := t.bang?.map Lexeme.content
    mode? := t.mode?.map Lexeme.content
    span := t.span.onLines }

def RuleElement.content (e : RuleElement) : RuleElement :=
  ⟨e.anchor?.map Lexeme.content, e.name.content, e.alias?.map Lexeme.content⟩

def RuleDef.content (r : RuleDef) : RuleDef :=
  { r with
    name := r.name.content
    alias? := r.alias?.map Lexeme.content
    operator := r.operator.content
    elements := r.elements.map RuleElement.content
    span := r.span.onLines }

def BlockName.content (n : BlockName) : BlockName :=
  { n with
    marker := n.marker.content
    walker? := n.walker?.map Lexeme.content
    function? := n.function?.map Lexeme.content
    span := n.span.onLines }

def Node.content : Node → Node
  | comment text => .comment text.content
  | pragma p => .pragma p.content
  | token t => .token t.content
  | rule r => .rule r.content
  | block b => .block b.content
  | blockName n => .blockName n.content

/-- The detail of a definition; blanks in the signature of a function do not count. -/
def Detail.content : Detail → Detail
  | .function r w f signature => .function r w f (String.ofList (Text.dense signature.toList))
  | detail => detail

def Definition.content (d : Definition) : Definition :=
  ⟨d.symbol, d.span.onLines, d.fullSpan.onLines, d.detail.content⟩

/-- Everything told by its content. -/
def Recast.content : Recast where
  span := Span.onLines
  line l := { number := l.number }
  typeText text := String.ofList (Text.dense text.toList)
  parameters keyword? text :=
    match keyword? with
    | some keyword => if keyword.isReserved then text else String.ofList (Text.collapse text.toList)
    | none => text
  body _ := flush
  body_nil _ := rfl

@[simp] theorem Span.onLines_onLines (s : Span) : s.onLines.onLines = s.onLines := by
  obtain ⟨start, stop⟩ := s
  cases stop <;> rfl

@[simp] theorem Span.onLines_onLine (line start stop : Nat) :
    (Span.onLine line start stop).onLines = .onLine line 0 0 := rfl

@[simp] theorem Lexeme.text_content (l : Lexeme) : l.content.text = l.text := rfl

@[simp] theorem Lexeme.span_content (l : Lexeme) : l.content.span = l.span.onLines := rfl

@[simp] theorem Lexeme.line_content (l : Lexeme) : l.content.line = l.line := rfl

theorem Line.content_lexeme (l : Line) (s : Slice) :
    (l.lexeme s).content = ⟨s.text, .onLine l.number 0 0⟩ := rfl

theorem reindent_flush (ind : Indentation) (lines : List String) :
    reindent ind (flush lines) = reindent ind lines :=
  reindent_reindent ind _ lines

theorem flush_reindent (ind : Indentation) (lines : List String) :
    flush (reindent ind lines) = flush lines :=
  reindent_reindent _ ind lines

theorem Text.dense_dense (cs : List Char) : dense (dense cs) = dense cs := by
  simp [dense, List.filter_filter]

theorem Definition.content_content (d : Definition) : d.content.content = d.content := by
  obtain ⟨symbol, span, fullSpan, detail⟩ := d
  cases detail <;> simp [Definition.content, Detail.content, Text.dense_dense]

theorem CodeBlock.render_content (ind : Indentation) (b : CodeBlock) :
    b.content.render ind = b.render ind := by
  unfold CodeBlock.render CodeBlock.content CodeBlock.isClosed
  dsimp only
  rw [reindent_flush]
  cases b.closing <;> rfl

theorem CodeBlock.lineSpan_content (b : CodeBlock) : b.content.lineSpan = b.lineSpan := by
  unfold CodeBlock.lineSpan CodeBlock.content
  cases b.closing <;> simp [flush, reindent]

theorem Pragma.block?_content (p : Pragma) :
    p.content.block? = p.block?.map CodeBlock.content := by
  obtain ⟨mark, name, parameters, keyword?, body, span⟩ := p
  cases body <;> rfl

theorem Pragma.renderedParameters_content (p : Pragma) :
    p.content.renderedParameters = p.renderedParameters := by
  unfold Pragma.renderedParameters Pragma.content
  cases h : p.keyword? with
  | none => simp [Pragma.renderedParameters, h]
  | some keyword =>
    cases hr : keyword.isReserved <;> simp [Pragma.renderedParameters, h, hr, Text.collapse_collapse]

/-- The keyword with the parameters. -/
def Pragma.headLine (p : Pragma) : String :=
  p.mark.text ++ if p.renderedParameters.isEmpty then "" else " " ++ p.renderedParameters

theorem Pragma.render_eq (ind : Indentation) (p : Pragma) :
    p.render ind = p.headLine ::
      (match p.block? with | some block => block.render ind | none => []) := rfl

theorem Pragma.render_content (ind : Indentation) (p : Pragma) :
    p.content.render ind = p.render ind := by
  unfold Pragma.render
  rw [Pragma.renderedParameters_content, Pragma.block?_content]
  cases p.block? with
  | none => rfl
  | some block => simp [CodeBlock.render_content, Pragma.content]

theorem TokenDef.render_content (width : Nat) (t : TokenDef) :
    t.content.render width = t.render width := by
  unfold TokenDef.render TokenDef.content TokenDef.isNegated
  cases t.literal? <;> cases t.bang? <;> cases t.mode? <;> rfl

theorem RuleElement.render_content (e : RuleElement) : e.content.render = e.render := by
  unfold RuleElement.render RuleElement.content
  cases e.anchor? <;> cases e.alias? <;> rfl

theorem RuleDef.render_content (r : RuleDef) : r.content.render = r.render := by
  have helements : (r.elements.map RuleElement.content).map (fun e => " " ++ e.render) =
      r.elements.map fun e => " " ++ e.render := by
    rw [List.map_map]
    apply List.map_congr_left
    intro e _
    exact congrArg (" " ++ ·) e.render_content
  unfold RuleDef.render RuleDef.content
  rw [helements]
  cases r.alias? <;> rfl

theorem BlockName.render_content (n : BlockName) : n.content.render = n.render := by
  unfold BlockName.render BlockName.content
  cases n.walker? <;> cases n.function? <;> rfl

theorem Node.render_content (ind : Indentation) (n : Node) :
    n.content.render ind = n.render ind := by
  cases n with
  | comment text => rfl
  | pragma p => exact p.render_content ind
  | token t => exact congrArg (fun line => [line]) (t.render_content 0)
  | rule r => exact congrArg (fun line => [line]) r.render_content
  | block b => exact b.render_content ind
  | blockName n => exact congrArg (fun line => [line]) n.render_content

theorem Node.lineSpan_content (n : Node) : n.content.lineSpan = n.lineSpan := by
  cases n with
  | pragma p =>
    simp only [Node.content, Node.lineSpan, Pragma.lineSpan, Pragma.block?_content]
    cases p.block? with
    | none => rfl
    | some block => exact block.lineSpan_content
  | block b => exact b.lineSpan_content
  | _ => rfl

end LineGrammar
