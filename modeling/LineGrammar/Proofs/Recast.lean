import LineGrammar.Reading

/-! Telling the nodes of a document again with other places. A recast gives the spans, and the texts in
which the layout of a line shows: types, the parameters of a pragma, and the lines of a block. Everything
else stays, so no look-up in an index, and no check of a node, comes out differently. -/

namespace LineGrammar

structure Recast where
  span : Span → Span
  line : Line → Line := id
  /-- What becomes of a text that may hold blanks: a type, or the parameters of a function. -/
  typeText : String → String := id
  /-- The parameters of a pragma with some keyword. -/
  parameters : Option Keyword → String → String := fun _ text => text
  /-- The lines of a block, told by the line on which it opens and by those it had. -/
  body : Nat → List String → List String
  body_nil : ∀ start, body start [] = []

def Lexeme.recast (ρ : Recast) (l : Lexeme) : Lexeme := ⟨l.text, ρ.span l.span⟩

def Lexeme.recastType (ρ : Recast) (l : Lexeme) : Lexeme := ⟨ρ.typeText l.text, ρ.span l.span⟩

def CodeBlock.recast (ρ : Recast) (b : CodeBlock) : CodeBlock :=
  { b with
    opening := b.opening.recast ρ
    closing := b.closing.map (Lexeme.recast ρ)
    body := ρ.body b.startLine b.body }

def FunctionDecl.recast (ρ : Recast) (f : FunctionDecl) : FunctionDecl :=
  { f with
    rule := f.rule.recast ρ
    walker? := f.walker?.map (Lexeme.recast ρ)
    function := f.function.recast ρ
    parameters := f.parameters.recastType ρ
    returnType := f.returnType.recastType ρ }

def PragmaBody.recast (ρ : Recast) : PragmaBody → PragmaBody
  | className name => .className (name.recast ρ)
  | walkers names declared => .walkers (names.map (Lexeme.recast ρ)) declared
  | defaultWalker walker => .defaultWalker (walker.recast ρ)
  | members walker opening block =>
    .members (walker.recast ρ) (opening.map (Lexeme.recast ρ)) (block.map (CodeBlock.recast ρ))
  | associativity a tokens => .associativity a (tokens.map (Lexeme.recast ρ))
  | function decl => .function (decl.recast ρ)
  | lexerMode mode => .lexerMode (mode.recast ρ)
  | lexerInclude mode => .lexerInclude (mode.recast ρ)
  | walkerInterface walker typeName declared =>
    .walkerInterface (walker.recast ρ) (typeName.recast ρ) declared
  | start rule => .start (rule.recast ρ)
  | reserved => .reserved
  | invalid => .invalid
  | unknown => .unknown

def Pragma.recast (ρ : Recast) (p : Pragma) : Pragma :=
  { mark := p.mark.recast ρ
    name := p.name.recast ρ
    parameters := ⟨ρ.parameters p.keyword? p.parameters.text, ρ.span p.parameters.span⟩
    keyword? := p.keyword?
    body := p.body.recast ρ
    span := ρ.span p.span }

def TokenDef.recast (ρ : Recast) (t : TokenDef) : TokenDef :=
  { t with
    name := t.name.recast ρ
    operator := t.operator.recast ρ
    literal? := t.literal?.map (Lexeme.recast ρ)
    bang? := t.bang?.map (Lexeme.recast ρ)
    mode? := t.mode?.map (Lexeme.recast ρ)
    span := ρ.span t.span }

def RuleElement.recast (ρ : Recast) (e : RuleElement) : RuleElement :=
  ⟨e.anchor?.map (Lexeme.recast ρ), e.name.recast ρ, e.alias?.map (Lexeme.recast ρ)⟩

def RuleDef.recast (ρ : Recast) (r : RuleDef) : RuleDef :=
  { r with
    name := r.name.recast ρ
    alias? := r.alias?.map (Lexeme.recast ρ)
    operator := r.operator.recast ρ
    elements := r.elements.map (RuleElement.recast ρ)
    span := ρ.span r.span }

def BlockName.recast (ρ : Recast) (n : BlockName) : BlockName :=
  { n with
    marker := n.marker.recast ρ
    walker? := n.walker?.map (Lexeme.recast ρ)
    function? := n.function?.map (Lexeme.recast ρ)
    span := ρ.span n.span }

def Node.recast (ρ : Recast) : Node → Node
  | comment text => .comment (text.recast ρ)
  | pragma p => .pragma (p.recast ρ)
  | token t => .token (t.recast ρ)
  | rule r => .rule (r.recast ρ)
  | block b => .block (b.recast ρ)
  | blockName n => .blockName (n.recast ρ)

/-- A signature is made of types. -/
def Detail.recast (ρ : Recast) : Detail → Detail
  | function r w f signature => .function r w f (ρ.typeText signature)
  | detail => detail

def Definition.recast (ρ : Recast) (d : Definition) : Definition :=
  ⟨d.symbol, ρ.span d.span, ρ.span d.fullSpan, d.detail.recast ρ⟩

def Pending.recast (ρ : Recast) (p : Pending) : Pending := ⟨p.symbol, ρ.span p.span⟩

def Bucket.recast (ρ : Recast) (b : Bucket) : Bucket :=
  ⟨b.symbol, b.definitions.map (Definition.recast ρ)⟩

def Index.recast (ρ : Recast) (ix : Index) : Index :=
  ⟨ix.buckets.map (Bucket.recast ρ), ix.pending.map (Pending.recast ρ), ix.settings⟩

def Diagnostic.recast (ρ : Recast) (d : Diagnostic) : Diagnostic := { d with span := ρ.span d.span }

def OpenRule.recast (ρ : Recast) (r : OpenRule) : OpenRule :=
  { r with name := r.name.recast ρ, span := ρ.span r.span }

def Sequel.recast (ρ : Recast) : Sequel → Sequel
  | nothing => .nothing
  | rule r => .rule (r.recast ρ)
  | body b => .body (b.recast ρ)
  | name target? => .name target?
  | block target => .block target

/-- A reading told again, by what becomes of the node that is read. -/
def Reading.recast {α : Type} (ρ : Recast) (f : α → α) (r : Reading α) : Reading α :=
  ⟨f r.node, r.problems.map (Diagnostic.recast ρ), r.index.recast ρ, r.sequel.recast ρ⟩

variable (ρ : Recast)

@[simp] theorem Lexeme.text_recast (l : Lexeme) : (l.recast ρ).text = l.text := rfl

@[simp] theorem Lexeme.span_recast (l : Lexeme) : (l.recast ρ).span = ρ.span l.span := rfl

@[simp] theorem recast_of (cause : Cause) (span : Span) :
    (Diagnostic.of cause span).recast ρ = .of cause (ρ.span span) := rfl

theorem errorCount_recast (ds : List Diagnostic) :
    errorCount (ds.map (Diagnostic.recast ρ)) = errorCount ds := by
  rw [errorCount, List.countP_map]
  rfl

@[simp] theorem Definition.symbol_recast (d : Definition) : (d.recast ρ).symbol = d.symbol := rfl

@[simp] theorem Definition.internalName_recast (d : Definition) :
    (d.recast ρ).internalName = d.internalName := by
  obtain ⟨symbol, span, fullSpan, detail⟩ := d
  cases detail <;> rfl

@[simp] theorem Definition.expectsBlocks_recast (d : Definition) :
    (d.recast ρ).expectsBlocks = d.expectsBlocks := by
  obtain ⟨symbol, span, fullSpan, detail⟩ := d
  cases detail <;> rfl

namespace Index

@[simp] theorem settings_recast (ix : Index) : (ix.recast ρ).settings = ix.settings := rfl

theorem definitionsOf_recast (ix : Index) (s : Symbol) :
    (ix.recast ρ).definitionsOf s = (ix.definitionsOf s).map (Definition.recast ρ) := by
  obtain ⟨buckets, pending, settings⟩ := ix
  simp only [definitionsOf, recast, List.find?_map]
  have hfind : (buckets.find? ((fun b : Bucket => decide (b.symbol = s)) ∘ Bucket.recast ρ)) =
      buckets.find? fun b => decide (b.symbol = s) := rfl
  rw [hfind]
  cases buckets.find? fun b => decide (b.symbol = s) <;> rfl

@[simp] theorem isDefined_recast (ix : Index) (s : Symbol) :
    (ix.recast ρ).isDefined s = ix.isDefined s := by
  simp [isDefined, definitionsOf_recast]

theorem filter_kind_recast (ix : Index) (kind : SymbolKind) :
    (ix.recast ρ).buckets.filter (fun b => b.symbol.kind = kind) =
      (ix.buckets.filter fun b => b.symbol.kind = kind).map (Bucket.recast ρ) := by
  simp only [recast, List.filter_map]
  rfl

theorem definitionsOfKind_recast (ix : Index) (kind : SymbolKind) :
    (ix.recast ρ).definitionsOfKind kind = (ix.definitionsOfKind kind).map (Definition.recast ρ) := by
  simp only [definitionsOfKind, filter_kind_recast, List.flatMap_map, List.map_flatMap]
  rfl

theorem names_recast (ix : Index) (kind : SymbolKind) : (ix.recast ρ).names kind = ix.names kind := by
  simp only [names, filter_kind_recast, List.map_map]
  rfl

@[simp] theorem nextInternalName_recast (ix : Index) (rule : String) :
    (ix.recast ρ).nextInternalName rule = ix.nextInternalName rule := by
  simp [nextInternalName, ruleCount, definitionsOf_recast]

theorem functionsOfRule_recast (ix : Index) (rule : String) :
    (ix.recast ρ).functionsOfRule rule = (ix.functionsOfRule rule).map (Definition.recast ρ) := by
  simp only [functionsOfRule, definitionsOfKind_recast, List.filter_map]
  rfl

@[simp] theorem interfaceOf_recast (ix : Index) (walker : String) :
    (ix.recast ρ).interfaceOf walker = ix.interfaceOf walker := by
  simp only [interfaceOf, definitionsOf_recast, List.findSome?_map]
  congr 1
  funext d
  obtain ⟨symbol, span, fullSpan, detail⟩ := d
  cases detail <;> rfl

theorem recast_addToBuckets (d : Definition) (buckets : List Bucket) :
    (addToBuckets d buckets).map (Bucket.recast ρ) =
      addToBuckets (d.recast ρ) (buckets.map (Bucket.recast ρ)) := by
  induction buckets with
  | nil => rfl
  | cons b rest ih =>
    by_cases h : b.symbol = d.symbol
    · simp [addToBuckets, Bucket.recast, h]
    · have h' : (b.recast ρ).symbol ≠ (d.recast ρ).symbol := h
      rw [addToBuckets, if_neg h, List.map_cons, ih, List.map_cons, addToBuckets, if_neg h']

theorem recast_add (d : Definition) (ix : Index) :
    (ix.add d).recast ρ = (ix.recast ρ).add (d.recast ρ) := by
  simp only [add, recast, recast_addToBuckets]

theorem recast_await (s : Symbol) (span : Span) (ix : Index) :
    (ix.await s span).recast ρ = (ix.recast ρ).await s (ρ.span span) := by
  simp [await, recast, Pending.recast]

theorem recast_settle (s : Symbol) (ix : Index) :
    (ix.settle s).recast ρ = (ix.recast ρ).settle s := by
  simp only [settle, recast, List.filter_map]
  rfl

theorem recast_mention (s : Symbol) (span : Span) (ix : Index) :
    (ix.mention s span).recast ρ = (ix.recast ρ).mention s (ρ.span span) := by
  simp only [mention, isDefined_recast]
  split
  · rfl
  · exact recast_await ρ s span ix

theorem recast_enter (ix : Index) (d : Definition) :
    (ix.enter d).recast ρ = (ix.recast ρ).enter (d.recast ρ) := by
  simp only [enter, recast_settle, recast_add, Definition.symbol_recast]

variable {ρ} in
/-- A run of changes can be done on the items told again. -/
theorem recast_foldl {α : Type} {c : α → α} {f f' : Index → α → Index}
    (hf : ∀ ix a, (f ix a).recast ρ = f' (ix.recast ρ) (c a)) (as : List α) (ix : Index) :
    (as.foldl f ix).recast ρ = (as.map c).foldl f' (ix.recast ρ) := by
  induction as generalizing ix with
  | nil => rfl
  | cons a rest ih => rw [List.foldl_cons, ih, hf]; rfl

theorem recast_enterAll (ix : Index) (ds : List Definition) :
    (ix.enterAll ds).recast ρ = (ix.recast ρ).enterAll (ds.map (Definition.recast ρ)) :=
  recast_foldl (recast_enter ρ) ds ix

theorem recast_adjust (change : Settings → Settings) (ix : Index) :
    (ix.adjust change).recast ρ = (ix.recast ρ).adjust change := rfl

theorem unresolved_recast (ix : Index) :
    (ix.recast ρ).unresolved = ix.unresolved.map (Pending.recast ρ) := by
  simp only [unresolved, isDefined_recast]
  simp only [recast, List.filter_map]
  rfl

end Index

end LineGrammar
