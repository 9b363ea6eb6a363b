import LineGrammar.Proofs.Occurrences
import LineGrammar.Proofs.Rows

/-! The order of the highlights. Those of a node are parts of its line that stand side by side, and the
closing mark of its block lines below, before the next node. So in the order of their spans every
highlight ends before the next one starts. -/

namespace LineGrammar

namespace Span

/-- A part of the line that is not empty. -/
def FillsOn (s : Span) (line : Nat) : Prop := ∃ start stop, s = .onLine line start stop ∧ start < stop

/-- The span ends where the other one starts, or earlier. -/
def Before (s t : Span) : Prop := s.lastPosition ≤ t.start

def Apart (s t : Span) : Prop := s.Before t ∨ t.Before s

theorem Apart.symm {s t : Span} (h : s.Apart t) : t.Apart s := Or.symm h

variable {s t : Span} {line line' : Nat}

theorem FillsOn.line_start (h : s.FillsOn line) : s.start.line = line := by
  obtain ⟨start, stop, rfl, -⟩ := h
  rfl

theorem FillsOn.start_lt (h : s.FillsOn line) : s.start < s.lastPosition := by
  obtain ⟨start, stop, rfl, hlt⟩ := h
  exact .inr ⟨rfl, hlt⟩

/-- A span on an earlier line ends before one on a later line. -/
theorem FillsOn.before (h : s.FillsOn line) (h' : t.FillsOn line') (hlt : line < line') :
    s.Before t := by
  obtain ⟨start, stop, rfl, -⟩ := h
  exact .inl (by rw [h'.line_start]; exact hlt)

theorem Before.lt (h : s.Before t) (hs : s.FillsOn line) : s < t :=
  .inl <| by
    have hfills := hs.start_lt
    rw [Before, Position.le_iff] at h
    rw [Position.lt_iff] at *
    omega

theorem FillsOn.not_before_self (h : s.FillsOn line) : ¬s.Before s := by
  have hfills := h.start_lt
  rw [Before, Position.le_iff]
  rw [Position.lt_iff] at hfills
  omega

/-- Two spans apart are in the order in which they are sorted. -/
theorem Apart.before (h : s.Apart t) (ht : t.FillsOn line) (hle : s ≤ t) : s.Before t := by
  refine h.resolve_right fun hback => ?_
  have hstart : s.start < t.start ∨ s.start = t.start := by
    rcases hle with (hlt | ⟨heq, -⟩) | rfl
    · exact .inl hlt
    · exact .inr heq
    · exact .inr rfl
  have hfills := ht.start_lt
  rw [Before, Position.le_iff] at hback
  rw [Position.lt_iff] at *
  rcases hstart with hstart | hstart
  · omega
  · rw [hstart] at hback
    omega

end Span

/-- The spans are those of parts of the line that stand side by side. -/
def Line.Lays (line : Line) (spans : List Span) : Prop :=
  ∃ first parts last, Slice.Row first parts last ∧
    (parts.map fun s => (line.lexeme s).span).Perm spans

namespace Line.Lays

variable {line : Line} {spans : List Span}

theorem fillsOn (h : line.Lays spans) : ∀ span ∈ spans, span.FillsOn line.number := by
  obtain ⟨first, parts, last, hrow, hperm⟩ := h
  intro span hspan
  obtain ⟨s, hs, rfl⟩ := List.mem_map.1 (hperm.mem_iff.2 hspan)
  exact ⟨s.column, s.stop, rfl, (hrow.nonempty s hs).2⟩

theorem apart (h : line.Lays spans) : spans.Pairwise Span.Apart := by
  obtain ⟨first, parts, last, hrow, hperm⟩ := h
  rw [← hperm.pairwise_iff Span.Apart.symm, List.pairwise_map]
  exact hrow.pairwise.imp fun h => .inl (.inr ⟨rfl, h⟩)

end Line.Lays

@[simp] theorem Lexeme.span_as (l : Lexeme) (role : Role) : (l.as role).span = l.span := rfl

@[simp] theorem Highlight.span_declared (h : Highlight) : h.declared.span = h.span := rfl

variable {line : Line}

namespace PragmaBody

/-- What is highlighted of the parameters are parts of the line in a row. -/
def Shows (line : Line) (first : Nat) (body : PragmaBody) : Prop :=
  ∀ p : Pragma, p.body = body → ∃ parts last, Slice.Row first parts last ∧
    p.parameterHighlights.map Highlight.span = parts.map fun s => (line.lexeme s).span

section
variable {parameters : Slice} {ix : Index} {r : Reading PragmaBody}

theorem shows_of {first : Nat} {body : PragmaBody} {parts : List Slice}
    (hrow : ∃ last, Slice.Row first parts last)
    (hspans : ∀ p : Pragma, p.body = body →
      p.parameterHighlights.map Highlight.span = parts.map fun s => (line.lexeme s).span) :
    body.Shows line first := by
  obtain ⟨last, hrow⟩ := hrow
  exact fun p hp => ⟨parts, last, hrow, hspans p hp⟩

/-- A body of which nothing is highlighted. -/
theorem shows_nothing {body : PragmaBody}
    (h : ∀ p : Pragma, p.body = body → p.parameterHighlights = []) (first : Nat) :
    body.Shows line first :=
  @shows_of line first body [] ⟨first, Nat.le_refl _⟩ fun p hp => by rw [h p hp]; rfl

theorem shows_readClassName? (h : readClassName? line parameters ix = some r) :
    r.node.Shows line parameters.column := by
  obtain ⟨⟨name, terminated⟩, hname, h⟩ := Option.bind_eq_some_iff.1 h
  dsimp only at h
  split at h <;> cases h
  all_goals
    exact shows_of (Slice.row_singleName? hname) fun p hp => by simp [Pragma.parameterHighlights, hp]

theorem shows_readWalkers? (h : readWalkers? line parameters ix = some r) :
    r.node.Shows line parameters.column := by
  obtain ⟨names, hnames, h⟩ := Option.bind_eq_some_iff.1 h
  dsimp only at h
  split at h <;> cases h
  all_goals
    exact shows_of (Slice.row_nameList? hnames) fun p hp => by
      simp [Pragma.parameterHighlights, hp, Function.comp_def]

theorem shows_readDefaultWalker? (h : readDefaultWalker? line parameters ix = some r) :
    r.node.Shows line parameters.column := by
  obtain ⟨⟨name, terminated⟩, hname, h⟩ := Option.bind_eq_some_iff.1 h
  have hshows : (defaultWalker (line.lexeme name)).Shows line parameters.column :=
    shows_of (Slice.row_singleName? hname) fun p hp => by simp [Pragma.parameterHighlights, hp]
  dsimp only at h
  split at h
  · cases h; exact hshows
  · split at h <;> cases h <;> exact hshows

theorem shows_readMembers? (h : readMembers? line parameters ix = some r) :
    r.node.Shows line parameters.column := by
  obtain ⟨⟨name, mark?⟩, hname, h⟩ := Option.bind_eq_some_iff.1 h
  cases h
  refine shows_of (Slice.row_membersParameters? hname) fun p hp => ?_
  cases mark? <;> simp [Pragma.parameterHighlights, hp]

theorem shows_readAssociativity? {associativity : Associativity}
    (h : readAssociativity? associativity line parameters ix = some r) :
    r.node.Shows line parameters.column := by
  obtain ⟨names, hnames, h⟩ := Option.bind_eq_some_iff.1 h
  cases h
  exact shows_of (Slice.row_nameList? hnames) fun p hp => by
    simp [Pragma.parameterHighlights, hp, Function.comp_def]

theorem shows_readFunction? (h : readFunction? line parameters ix = some r) :
    r.node.Shows line parameters.column := by
  obtain ⟨shape, hshape, -⟩ := Option.bind_eq_some_iff.1 h
  rw [readFunction?_eq hshape] at h
  cases h
  have hshows : ∀ decl : FunctionDecl, decl.rule = line.lexeme shape.rule →
      decl.walker? = shape.walker?.map line.lexeme → decl.function = line.lexeme shape.function →
      decl.returnType = line.lexeme shape.returnType →
        (PragmaBody.function decl).Shows line parameters.column := by
    intro decl hrule hwalker hfunction htype
    refine shows_of (Slice.row_functionParameters? hshape) fun p hp => ?_
    cases hw : shape.walker? <;>
      simp [Pragma.parameterHighlights, hp, hrule, hwalker, hfunction, htype, hw]
  unfold functionReading
  split
  · split <;> exact hshows _ rfl rfl rfl rfl
  · exact hshows _ rfl rfl rfl rfl

theorem shows_readLexerMode? (h : readLexerMode? line parameters ix = some r) :
    r.node.Shows line parameters.column := by
  obtain ⟨⟨name, terminated⟩, hname, h⟩ := Option.bind_eq_some_iff.1 h
  cases h
  exact shows_of (Slice.row_singleName? hname) fun p hp => by simp [Pragma.parameterHighlights, hp]

theorem shows_readLexerInclude? (h : readLexerInclude? line parameters ix = some r) :
    r.node.Shows line parameters.column := by
  obtain ⟨⟨name, terminated⟩, hname, h⟩ := Option.bind_eq_some_iff.1 h
  cases h
  exact shows_of (Slice.row_singleName? hname) fun p hp => by simp [Pragma.parameterHighlights, hp]

theorem shows_readWalkerInterface? (h : readWalkerInterface? line parameters ix = some r) :
    r.node.Shows line parameters.column := by
  obtain ⟨⟨name, typeName⟩, hname, h⟩ := Option.bind_eq_some_iff.1 h
  cases h
  exact shows_of (Slice.row_interfaceParameters? hname) fun p hp => by
    simp [Pragma.parameterHighlights, hp]

theorem shows_readStart? (h : readStart? line parameters ix = some r) :
    r.node.Shows line parameters.column := by
  obtain ⟨⟨name, terminated⟩, hname, h⟩ := Option.bind_eq_some_iff.1 h
  cases h
  exact shows_of (Slice.row_singleName? hname) fun p hp => by simp [Pragma.parameterHighlights, hp]

theorem shows_read? {keyword : Keyword} (h : read? keyword line parameters ix = some r) :
    r.node.Shows line parameters.column := by
  cases keyword with
  | className => exact shows_readClassName? h
  | walkers => exact shows_readWalkers? h
  | defaultWalker => exact shows_readDefaultWalker? h
  | members => exact shows_readMembers? h
  | left | right | token => exact shows_readAssociativity? h
  | function => exact shows_readFunction? h
  | lexerMode => exact shows_readLexerMode? h
  | lexerInclude => exact shows_readLexerInclude? h
  | walkerInterface => exact shows_readWalkerInterface? h
  | start => exact shows_readStart? h
  | namespaceName | prologue | epilogue | inclusion | checkUnusedTokens =>
    cases h
    exact shows_nothing (fun p hp => by simp [Pragma.parameterHighlights, hp]) _

theorem shows_readBody (name : Slice) :
    (readBody line name parameters ix).node.Shows line parameters.column := by
  unfold readBody
  split
  · next keyword _ =>
    cases h : read? keyword line parameters ix with
    | none => exact shows_nothing (fun p hp => by simp [Pragma.parameterHighlights, hp, readInvalid]) _
    | some r => exact shows_read? h
  · exact shows_nothing (fun p hp => by simp [Pragma.parameterHighlights, hp, readUnknown]) _

end

end PragmaBody

theorem Pragma.spans_highlights (p : Pragma) :
    p.highlights.map Highlight.span = p.mark.span :: p.parameterHighlights.map Highlight.span ++
      (p.block?.toList.flatMap CodeBlock.highlights).map Highlight.span := by
  have hspan : ∀ h : Highlight,
      (if p.definitions.any (fun d => d.span = h.span) then h.declared else h).span = h.span := by
    intro h
    split <;> rfl
  unfold highlights
  rw [List.map_append, List.map_map]
  refine congrArg₂ (· ++ ·) (List.map_congr_left fun h _ => hspan h) ?_
  cases p.block? <;> simp

namespace Node

theorem row_body (hblank : line.isBlank = false) :
    Slice.Row line.body.column [line.body] line.body.stop := by
  have hne : line.body.chars ≠ [] := by
    intro hnil
    simp [Line.isBlank, Slice.isEmpty, hnil] at hblank
  have hlength := List.length_pos_iff.2 hne
  exact ⟨Nat.le_refl _, by rw [Slice.stop]; omega, Nat.le_refl _⟩

theorem lays_whole (hblank : line.isBlank = false) : line.Lays [line.span] :=
  ⟨_, _, _, row_body hblank, .refl _⟩

theorem lays_pragma {mark name parameters : Slice} (ix : Index)
    (h : Shape.pragma? line.body = some (.pragma mark name parameters)) :
    line.Lays ((Node.pragma (Pragma.read line mark name parameters ix).node).highlights.map
      Highlight.span) := by
  have hbare : (Pragma.read line mark name parameters ix).node.block? = none :=
    codeBlock?_read line ix (.pragma mark name parameters)
  obtain ⟨parts, last, hrow, hspans⟩ :=
    @PragmaBody.shows_readBody line parameters ix name (Pragma.read line mark name parameters ix).node rfl
  refine ⟨_, _, _, (Shape.row_pragma? h).append hrow, ?_⟩
  rw [highlights, Pragma.spans_highlights, hspans, hbare]
  simp [Pragma.read_eq, Pragma.ofBody]

theorem lays_token {name operator rest : Slice} (ix : Index)
    (h : Shape.token? line.body = some (.token name operator rest)) :
    line.Lays ((Node.token (TokenDef.read line name operator rest ix).node).highlights.map
      Highlight.span) := by
  have hfront := Shape.row_token? h
  unfold TokenDef.read
  dsimp only
  split
  · exact ⟨_, _, _, hfront, by simp [highlights, TokenDef.highlights]⟩
  · next value hvalue =>
    obtain ⟨last, hrow⟩ := Slice.row_tokenValue? hvalue
    refine ⟨_, _, _, hfront.append hrow, .of_eq ?_⟩
    obtain ⟨literal, bang?, mode?, terminated⟩ := value
    cases bang? <;> cases mode? <;> simp [highlights, TokenDef.highlights, TokenDef.fill]

theorem spans_element (e : ElementShape) :
    (RuleElement.ofShape line e).highlights.map Highlight.span =
      e.parts.map fun s => (line.lexeme s).span := by
  obtain ⟨anchor?, name, alias?⟩ := e
  cases anchor? <;> cases alias? <;>
    simp [RuleElement.highlights, RuleElement.ofShape, ElementShape.parts]

theorem lays_rule {name operator rest : Slice} {alias? : Option Slice} (ix : Index)
    (h : Shape.rule? line.body = some (.rule name alias? operator rest)) :
    line.Lays ((Node.rule (RuleDef.read line name alias? operator rest ix).node).highlights.map
      Highlight.span) := by
  obtain ⟨last, hrow⟩ := Slice.row_elements? rest.cutTerminator.1
  rw [Slice.column_cutTerminator] at hrow
  refine ⟨_, _, _, (Shape.row_rule? h).append hrow, ?_⟩
  have helements : ((RuleDef.read line name alias? operator rest ix).node.elements.flatMap
      RuleElement.highlights).map Highlight.span =
        ((rest.cutTerminator.1.elements?.getD []).flatMap ElementShape.parts).map fun s =>
          (line.lexeme s).span := by
    simp only [RuleDef.read, List.map_flatMap, List.flatMap_map, spans_element]
  -- The operator is highlighted before the alias, which stands in front of it.
  rw [highlights, RuleDef.highlights, List.map_append, List.map_append, helements, List.map_append]
  refine List.Perm.append_right _ ?_
  cases alias? with
  | none => exact .refl _
  | some l => exact (List.Perm.swap _ _ []).cons _

theorem lays_read {shape : Shape} (hshape : Shape.of? line.body = some shape) (ix : Index) :
    line.Lays ((Node.read line ix shape).node.highlights.map Highlight.span) := by
  cases shape with
  | comment => exact lays_whole (Line.ordinary_of_shape hshape).isBlank
  | pragma mark name parameters => exact lays_pragma ix (Shape.pragma?_of_of? hshape)
  | token name operator rest => exact lays_token ix (Shape.token?_of_of? hshape)
  | rule name alias? operator rest => exact lays_rule ix (Shape.rule?_of_of? hshape)

theorem lays_blockName (hmark : line.namesBlock = true) (rule? : Option String) (ix : Index) :
    line.Lays ((Node.blockName (BlockName.read line rule? ix).node).highlights.map Highlight.span) := by
  have hne : line.body.chars ≠ [] := by
    intro hnil
    simp [Line.namesBlock, hnil] at hmark
  unfold BlockName.read
  dsimp only
  split
  · exact ⟨_, _, _, Slice.row_first hne, by simp [highlights, BlockName.highlights]⟩
  · next walker function? hname =>
    obtain ⟨last, hrow⟩ := Slice.row_blockName? hname
    refine ⟨_, _, _, hrow, .of_eq ?_⟩
    cases function? <;> simp [highlights, BlockName.highlights]

end Node

namespace Analysis

/-- A node that has a block was put together when the block went into its slot. -/
def SettledPlaced (slots : List (Option Node)) : Prop :=
  ∀ (line : Nat) n block, slots[line]?.join = some n → n.codeBlock? = some block →
    ∃ b slot, b.isInline = block.isInline ∧ Placed b block slot n

theorem SettledPlaced.fills {slots slots' front : List (Option Node)} {b block : CodeBlock}
    {slot : Option Node} {k : Nat} {n : Node} (h : SettledPlaced slots)
    (hinline : b.isInline = block.isInline) (hfills : Fills b block front slot k n slots slots') :
    SettledPlaced slots' := by
  intro line m c hm hc
  rw [hfills.after] at hm
  rcases node_append_iff.1 hm with hold | ⟨-, rfl⟩
  · refine h line m c ?_ hc
    have hlt : line < front.length := by
      by_contra hle
      rw [List.getElem?_eq_none (by omega)] at hold
      cases hold
    rw [hfills.before, List.getElem?_append_left hlt]
    exact hold
  · obtain rfl := Option.some.inj (hfills.placed.codeBlock?.symm.trans hc)
    exact ⟨b, slot, hinline, hfills.placed⟩

theorem settledPlaced_after (lines : List String) : SettledPlaced (after lines).slots.toList := by
  induction lines using after_induction with
  | nil => simp [SettledPlaced]
  | turn lines raw a' ih hturn =>
    have hpush : ∀ node?, (∀ n, node? = some n → n.codeBlock? = none) →
        SettledPlaced ((after lines).slots.push node?).toList := by
      intro node? hbare line n block hn hblock
      rw [Array.toList_push] at hn
      cases node? with
      | none => exact ih line n block (by rwa [node_append_none] at hn) hblock
      | some m =>
        rcases (node_append_iff (k := 0)).1 hn with hn | ⟨-, rfl⟩
        · exact ih line n block hn hblock
        · exact absurd ((hbare n rfl).symm.trans hblock) (by simp)
    cases hopen : (after lines).reader.block? with
    | none =>
      obtain ⟨node?, hslots, hbare⟩ := bare_turn hopen hturn
      rw [hslots]
      exact hpush node? hbare
    | some b =>
      rcases turn_inside hopen hturn with rfl | rfl
      · exact hpush none (by simp)
      · obtain ⟨external, front, slot, k, m, slots', hfills, hslots'⟩ :=
          slots_closing (accounted_after lines) hopen raw
        intro line n block hn hblock
        rw [hslots', node_append_none] at hn
        exact ih.fills (by rfl) hfills line n block hn hblock

theorem settledPlaced_conclude (lines : List String) :
    SettledPlaced (after lines).conclude.slots.toList := by
  have h := settledPlaced_after lines
  rw [slots_conclude]
  cases hopen : (after lines).reader.block? with
  | none => exact h
  | some b =>
    obtain ⟨front, slot, k, n, hfills⟩ := ((accounted_after lines).reserved b hopen).fills b rfl rfl
    exact h.fills rfl hfills

variable {limit : Nat} {lines : List String} {line : Nat} {n : Node} {b : CodeBlock}

/-- Only the mark of a block on a line of its own is highlighted by the block. -/
theorem placed_analyzeLines (hn : (analyzeLines limit lines).nodeAt? line = some n)
    (hb : n.codeBlock? = some b) : ∃ b₀ slot, b₀.isInline = b.isInline ∧ Placed b₀ b slot n := by
  obtain ⟨k, hreads⟩ := exists_readsUpTo limit lines
  rw [nodeAt?_of_readsUpTo hreads] at hn
  exact settledPlaced_conclude _ line n b hn hb

theorem opens_analyzeLines (hn : (analyzeLines limit lines).nodeAt? line = some (.block b)) :
    ∃ raw, lines[line]? = some raw ∧ opens raw = true ∧
      b.opening = Line.whole { number := line, raw } := by
  obtain ⟨k, hreads⟩ := exists_readsUpTo limit lines
  rw [nodeAt?_of_readsUpTo hreads] at hn
  have hopened := (openedAt_conclude hn).append (lines.drop k)
  rw [List.take_append_drop] at hopened
  exact hopened.mark

end Analysis

namespace Node

/-- The highlights on the line of a node. -/
def spansOnLine (n : Node) : List Span :=
  match n with
  | .block b => if b.isInline then [] else [b.opening.span]
  | n => n.bare.highlights.map Highlight.span

theorem spansOnLine_eq {n : Node} (h : ∀ b, n ≠ .block b) :
    n.spansOnLine = n.bare.highlights.map Highlight.span := by
  cases n with
  | block b => exact absurd rfl (h b)
  | _ => rfl

/-- The closing mark of the block of a node is highlighted after everything else. -/
theorem spans_highlights {n : Node}
    (h : ∀ b, n.codeBlock? = some b → ∃ b₀ slot, b₀.isInline = b.isInline ∧ Placed b₀ b slot n) :
    n.highlights.map Highlight.span = n.spansOnLine ++
      (n.codeBlock?.bind CodeBlock.closing).toList.map Lexeme.span := by
  cases hb : n.codeBlock? with
  | none =>
    cases n with
    | block b => cases hb
    | _ => simp [spansOnLine, bare_of_codeBlock? hb]
  | some b =>
    obtain ⟨b₀, slot, hinline, hplaced⟩ := h b hb
    cases hplaced with
    | alone hkind =>
      rw [hkind] at hinline
      simp [highlights, CodeBlock.highlights, spansOnLine, ← hinline, Function.comp_def]
    | attached p walker hkind hbody =>
      rw [hkind] at hinline
      simp [highlights, spansOnLine, bare, Pragma.bare, Pragma.spans_highlights, Pragma.block?,
        Pragma.parameterHighlights, CodeBlock.highlights, ← hinline, Function.comp_def]

end Node

namespace Analysis

variable {limit : Nat} {lines : List String} {line : Nat} {n : Node} {b : CodeBlock}

theorem not_blank_of_opens {raw : String} (h : opens raw = true) : isBlankLine raw = false := by
  cases hblank : isBlankLine raw with
  | false => rfl
  | true => exact absurd ((not_opens_of_blank hblank).1.symm.trans h) (by simp)

theorem not_blank_of_closes {raw : String} (h : closes raw = true) : isBlankLine raw = false := by
  cases hblank : isBlankLine raw with
  | false => rfl
  | true => exact absurd ((not_opens_of_blank hblank).2.2.symm.trans h) (by simp)

/-- What is highlighted on the line of a node stands there side by side. -/
theorem lays_analyzeLines (hn : (analyzeLines limit lines).nodeAt? line = some n) :
    ∃ raw, Line.Lays { number := line, raw } n.spansOnLine := by
  obtain ⟨raw, hraw, horigin⟩ := originAt_analyzeLines hn
  refine ⟨raw, ?_⟩
  rw [← nextLine_take hraw]
  generalize after (lines.take line) = a at horigin
  cases horigin with
  | shape hblock shape hshape _ hbare _ =>
    rw [Node.spansOnLine_eq, hbare]
    · exact Node.lays_read hshape _
    · rintro b rfl
      have hnone := Node.codeBlock?_read (a.nextLine raw) a.index shape
      rw [← hbare] at hnone
      cases hnone
  | name hblock hexpects hnames =>
    have hmark : (a.nextLine raw).namesBlock = true := (Line.namesBlock_eq _).trans hnames
    exact Node.lays_blockName hmark _ _
  | block b hopening =>
    obtain ⟨raw', hraw', hopens, -⟩ := opens_analyzeLines hn
    obtain rfl : raw = raw' := Option.some.inj (hraw.symm.trans hraw')
    rw [Node.spansOnLine]
    split
    · exact ⟨0, [], 0, Nat.le_refl _, .refl _⟩
    · have hnotBlank : (a.nextLine raw).isBlank = false :=
        (Line.isBlank_eq _).trans (not_blank_of_opens hopens)
      rw [hopening]
      exact Node.lays_whole hnotBlank

/-- The mark that closes the block of a node is on a line below, before the next node. -/
theorem closing_analyzeLines (hn : (analyzeLines limit lines).nodeAt? line = some n) {mark : Lexeme}
    (hmark : mark ∈ n.codeBlock?.bind CodeBlock.closing) :
    ∃ last, line < last ∧ mark.span.FillsOn last ∧
      ∀ i, line < i → i ≤ last → (analyzeLines limit lines).nodeAt? i = none := by
  obtain ⟨b, hb, hmark⟩ := Option.bind_eq_some_iff.1 hmark
  have hblock := blockLines_analyzeLines limit lines hn hb
  obtain ⟨raw, -, hcloses, hend, hclosing, -⟩ :=
    hblock.closed (Option.isSome_iff_exists.2 ⟨mark, hmark⟩)
  obtain rfl := Option.some.inj (hmark.symm.trans hclosing)
  have hnotBlank : Line.isBlank { number := line + b.body.length + 1, raw } = false :=
    (Line.isBlank_eq _).trans (not_blank_of_closes hcloses)
  refine ⟨line + b.body.length + 1, by omega,
    (Node.lays_whole hnotBlank).fillsOn _ (List.mem_singleton_self _), fun i hi hle => ?_⟩
  by_cases hlast : i = line + b.body.length + 1
  · rwa [hlast]
  · exact hblock.empty i hi (by omega)

theorem spans_analyzeLines (hn : (analyzeLines limit lines).nodeAt? line = some n) :
    n.highlights.map Highlight.span = n.spansOnLine ++
      (n.codeBlock?.bind CodeBlock.closing).toList.map Lexeme.span :=
  Node.spans_highlights fun _ hb => placed_analyzeLines hn hb

/-- A highlight is on the line of its node or on a later one, before the next node. -/
theorem fillsOn_analyzeLines (hn : (analyzeLines limit lines).nodeAt? line = some n) {span : Span}
    (hspan : span ∈ n.highlights.map Highlight.span) :
    ∃ last, line ≤ last ∧ span.FillsOn last ∧
      ∀ i, line < i → i ≤ last → (analyzeLines limit lines).nodeAt? i = none := by
  obtain ⟨raw, hlays⟩ := lays_analyzeLines hn
  rw [spans_analyzeLines hn] at hspan
  rcases List.mem_append.1 hspan with hspan | hspan
  · exact ⟨line, Nat.le_refl _, hlays.fillsOn span hspan, fun i hi hle => absurd hle (by omega)⟩
  · obtain ⟨mark, hmark, rfl⟩ := List.mem_map.1 hspan
    obtain ⟨last, hlt, hfills, hnone⟩ := closing_analyzeLines hn (Option.mem_toList.1 hmark)
    exact ⟨last, Nat.le_of_lt hlt, hfills, hnone⟩

/-- No two highlights of a node overlap. -/
theorem apart_analyzeLines (hn : (analyzeLines limit lines).nodeAt? line = some n) :
    (n.highlights.map Highlight.span).Pairwise Span.Apart := by
  obtain ⟨raw, hlays⟩ := lays_analyzeLines hn
  rw [spans_analyzeLines hn, List.pairwise_append]
  refine ⟨hlays.apart, ?_, fun span hspan span' hspan' => ?_⟩
  · cases n.codeBlock?.bind CodeBlock.closing <;> simp
  · obtain ⟨mark, hmark, rfl⟩ := List.mem_map.1 hspan'
    obtain ⟨last, hlt, hfills, -⟩ := closing_analyzeLines hn (Option.mem_toList.1 hmark)
    exact .inl ((hlays.fillsOn span hspan).before hfills hlt)

/-- Neither do those of two nodes. -/
theorem pairwise_apart (limit : Nat) (lines : List String) :
    ((analyzeLines limit lines).nodeList.flatMap Node.highlights).Pairwise fun g h =>
      g.span.Apart h.span := by
  rw [Document.nodeList_eq, List.pairwise_flatMap, List.pairwise_filterMap]
  constructor
  · intro n hn
    obtain ⟨line, -, hline⟩ := List.mem_filterMap.1 hn
    exact List.pairwise_map.1 (apart_analyzeLines hline)
  · refine List.pairwise_lt_range.imp fun {i j} hij n hn m hm g hg h hh => .inl ?_
    obtain ⟨last, hle, hfills, hnone⟩ := fillsOn_analyzeLines hn (List.mem_map_of_mem hg)
    obtain ⟨last', hle', hfills', -⟩ := fillsOn_analyzeLines hm (List.mem_map_of_mem hh)
    -- The second node would stand on a line of the first.
    have hlater : last < j := by
      by_contra hnot
      exact absurd ((hnone j hij (Nat.not_lt.1 hnot)).symm.trans hm) (by simp)
    exact hfills.before hfills' (Nat.lt_of_lt_of_le hlater hle')

end Analysis

namespace Document

theorem perm_highlights (d : Document) : d.highlights.Perm (d.nodeList.flatMap Node.highlights) :=
  List.mergeSort_perm _ _

theorem mem_highlights {d : Document} {h : Highlight} :
    h ∈ d.highlights ↔ ∃ n ∈ d.nodeList, h ∈ n.highlights :=
  d.perm_highlights.mem_iff.trans List.mem_flatMap

theorem sorted_highlights (d : Document) : d.highlights.Pairwise fun g h => g.span ≤ h.span := by
  have hsorted : d.highlights.Pairwise fun g h => decide (g.span ≤ h.span) = true :=
    List.pairwise_mergeSort
      (fun f g h hfg hgh => by simpa using Span.le_trans (by simpa using hfg) (by simpa using hgh))
      (fun g h => by simpa using Span.le_total g.span h.span) _
  simpa only [decide_eq_true_eq] using hsorted

end Document

open Analysis in
theorem fillsOn_highlight {limit : Nat} {lines : List String} {h : Highlight}
    (hh : h ∈ (analyzeLines limit lines).highlights) : ∃ line, h.span.FillsOn line := by
  obtain ⟨n, hn, hh⟩ := Document.mem_highlights.1 hh
  obtain ⟨line, hline⟩ := Document.mem_nodeList.1 hn
  obtain ⟨last, -, hfills, -⟩ := fillsOn_analyzeLines hline (List.mem_map_of_mem hh)
  exact ⟨last, hfills⟩

open Analysis in
theorem before_highlights (limit : Nat) (lines : List String) :
    (analyzeLines limit lines).highlights.Pairwise fun g h => g.span.Before h.span := by
  have hapart : (analyzeLines limit lines).highlights.Pairwise fun g h => g.span.Apart h.span :=
    ((Document.perm_highlights _).pairwise_iff Span.Apart.symm).2 (pairwise_apart limit lines)
  refine (hapart.and (Document.sorted_highlights _)).imp_of_mem fun {g h} hg hh hboth => ?_
  obtain ⟨line, hfills⟩ := fillsOn_highlight hh
  exact hboth.1.before hfills hboth.2

/-- The highlights of a text are those of its nodes, each of them on one line and not empty, and in
their order every one ends before the next one starts. -/
theorem highlights_in_order (limit : Nat) (text : String) :
    (analyze limit text).highlights.Perm ((analyze limit text).nodeList.flatMap Node.highlights) ∧
    (∀ h ∈ (analyze limit text).highlights, ∃ line start stop,
      h.span = .onLine line start stop ∧ start < stop) ∧
    (analyze limit text).highlights.Pairwise fun g h =>
      g.span.lastPosition ≤ h.span.start ∧ g.span < h.span := by
  refine ⟨Document.perm_highlights _, fun h hh => ?_, ?_⟩
  · obtain ⟨line, hfills⟩ := fillsOn_highlight hh
    exact ⟨line, hfills⟩
  · refine (before_highlights limit (Text.lines text)).imp_of_mem fun {g h} hg hh hbefore => ?_
    obtain ⟨line, hfills⟩ := fillsOn_highlight hg
    exact ⟨hbefore, hbefore.lt hfills⟩

end LineGrammar
