import LineGrammar.Outline
import LineGrammar.Proofs.Consistency
import LineGrammar.Proofs.IndexRefinement
import LineGrammar.Proofs.LayoutInvariance
import LineGrammar.Proofs.Occurrences
import Mathlib.Data.List.Forall2

/-! The outline is complete and properly nested. What a node defines, a code block apart, is named by a
word of its line, and no word reaches into the blanks around the line; a group covers its items and
nothing else. -/

namespace LineGrammar

namespace Position

theorem le_refl (p : Position) : p ≤ p := .inr ⟨rfl, Nat.le_refl _⟩

theorem le_trans {p q r : Position} (h : p ≤ q) (h' : q ≤ r) : p ≤ r := by
  rw [le_iff] at *
  omega

end Position

namespace Span

/-- The inner span is closed and both its ends belong to the outer one. -/
structure Encloses (outer inner : Span) : Prop where
  closed : inner.isClosed = true
  start : outer.contains inner.start = true
  stop : outer.contains inner.lastPosition = true

variable {outer inner name : Span}

theorem contains_iff (h : outer.isClosed = true) {p : Position} :
    outer.contains p = true ↔ outer.start ≤ p ∧ p ≤ outer.lastPosition := by
  obtain ⟨start, stop⟩ := outer
  cases stop with
  | none => cases h
  | some stop => simp [contains, lastPosition]

/-- A span with something in it lies within every span that starts no later and stops no earlier. -/
theorem Encloses.of_le (h : inner.Encloses name) (hinner : inner.isClosed = true)
    (houter : outer.isClosed = true) (hstart : outer.start ≤ inner.start)
    (hstop : inner.lastPosition ≤ outer.lastPosition) : outer.Encloses inner := by
  obtain ⟨hfirst, hlast⟩ := (contains_iff hinner).1 h.start
  have hle : inner.start ≤ inner.lastPosition := Position.le_trans hfirst hlast
  exact ⟨hinner, (contains_iff houter).2 ⟨hstart, Position.le_trans hle hstop⟩,
    (contains_iff houter).2 ⟨Position.le_trans hstart hle, hstop⟩⟩

end Span

namespace Line

/-- A line is its body with blanks around it. -/
theorem exists_blanks_body (l : Line) : ∃ front back, l.raw.toList = front ++ (l.body.chars ++ back) ∧
    l.body.column = front.length ∧ (∀ c ∈ front, LineGrammar.isBlank c = true) ∧
    ∀ c ∈ back, LineGrammar.isBlank c = true := by
  obtain ⟨back, hback, hend⟩ := Text.exists_trimEnd_blanks (Text.trimStart l.raw.toList)
  refine ⟨l.raw.toList.takeWhile LineGrammar.isBlank, back, ?_, ?_, ?_, hback⟩
  · rw [l.chars_body, Text.trim, ← hend]
    exact List.takeWhile_append_dropWhile.symm
  · rw [l.body_eq]
    rfl
  · exact List.all_eq_true.1 List.all_takeWhile

theorem encloses_word {line : Line} {l : Lexeme} (h : line.HoldsWord l) :
    line.span.Encloses l.span := by
  obtain ⟨s, hs, rfl⟩ := h
  obtain ⟨front, back, hraw, hcolumn, hfront, hback⟩ := line.exists_blanks_body
  have hsolid : ∀ i, s.column ≤ i → i < s.stop → ∃ c, line.raw.toList[i]? = some c ∧
      LineGrammar.isBlank c = false := by
    intro i hi hstop
    obtain ⟨c, hc, hget⟩ := hs.whole.getElem? hi hstop
    exact ⟨c, hget, isBlank_of_isNameChar (hs.text.chars c hc)⟩
  have hpos := hs.pos
  have hstart : line.body.column ≤ s.column := by
    by_contra hlt
    obtain ⟨c, hget, hsolid⟩ := hsolid s.column (Nat.le_refl _) hpos
    rw [hraw, List.getElem?_append_left (by omega)] at hget
    exact absurd (hfront c (List.mem_of_getElem? hget)) (by simp [hsolid])
  have hstop : s.stop ≤ line.body.stop := by
    by_contra hlt
    obtain ⟨c, hget, hsolid⟩ := hsolid (s.stop - 1) (by omega) (by omega)
    simp only [Slice.stop] at hlt hget
    rw [hraw, List.getElem?_append_right (by omega), List.getElem?_append_right (by omega)] at hget
    exact absurd (hback c (List.mem_of_getElem? hget)) (by simp [hsolid])
  refine ⟨rfl, ?_, ?_⟩ <;>
    simp [Line.span, Line.whole, Line.lexeme, Slice.lexeme, Span.onLine, Span.contains,
      Span.lastPosition, Position.le_iff] <;> omega

end Line

namespace Node

/-- What a node defines, its block apart. -/
def ownDefinitions (n : Node) : List Definition :=
  n.definitions.filter (·.symbol.kind ≠ .codeBlock)

theorem ownDefinitions_of_block (b : CodeBlock) :
    b.definitions.filter (·.symbol.kind ≠ .codeBlock) = [] := by
  rw [List.filter_eq_nil_iff]
  intro d hd
  simp [CodeBlock.kind_of_definition hd]

/-- A definition is named by a word of its node, the definitions in the order of the words, and takes
the whole node. -/
theorem ownDefinitions_named (n : Node) :
    (n.ownDefinitions.map Definition.span).Sublist (n.words.map Lexeme.span) ∧
      ∀ d ∈ n.ownDefinitions, d.fullSpan = n.span := by
  cases n with
  | comment text => exact ⟨List.Sublist.refl _, by simp [ownDefinitions, definitions]⟩
  | blockName name => exact ⟨List.nil_sublist _, by simp [ownDefinitions, definitions]⟩
  | block b =>
    rw [ownDefinitions, definitions, ownDefinitions_of_block]
    exact ⟨List.nil_sublist _, by simp⟩
  | rule r => simp [ownDefinitions, definitions, RuleDef.definition, words, Symbol.rule, span]
  | token t =>
    simp only [ownDefinitions, definitions, TokenDef.definitions]
    split
    · split <;> simp [words, Symbol.token, span]
    · simp
  | pragma p =>
    obtain ⟨mark, name, parameters, keyword?, body, span⟩ := p
    cases body with
    | walkers walkers declared =>
      cases declared <;>
        simp [ownDefinitions, definitions, Pragma.definitions, words, PragmaBody.words,
          Symbol.walker, Node.span, List.filter_map, Function.comp_def]
    | function decl =>
      simp only [ownDefinitions, definitions, Pragma.definitions]
      split <;> simp [words, PragmaBody.words, FunctionDecl.words, Symbol.function, Node.span]
    | lexerMode mode =>
      simp [ownDefinitions, definitions, Pragma.definitions, words, PragmaBody.words,
        Symbol.lexerMode, Node.span]
    | walkerInterface walker typeName declared =>
      cases declared <;>
        simp [ownDefinitions, definitions, Pragma.definitions, words, PragmaBody.words,
          Symbol.walkerInterface, Node.span]
    | members walker opening block =>
      cases block with
      | none => exact ⟨List.nil_sublist _, by simp [ownDefinitions, definitions, Pragma.definitions]⟩
      | some b =>
        simp only [ownDefinitions, definitions, Pragma.definitions, ownDefinitions_of_block]
        exact ⟨List.nil_sublist _, by simp⟩
    | _ => exact ⟨List.nil_sublist _, by simp [ownDefinitions, definitions, Pragma.definitions]⟩

@[simp] theorem span_bare (n : Node) : n.bare.span = n.span := by
  cases n with
  | pragma p =>
    obtain ⟨mark, name, parameters, keyword?, body, span⟩ := p
    cases body <;> rfl
  | _ => rfl

end Node

namespace Document

/-- The definitions of the nodes, those of code blocks apart. -/
def ownDefinitions (d : Document) : List Definition :=
  d.definitions.filter (·.symbol.kind ≠ .codeBlock)

theorem ownDefinitions_eq (d : Document) :
    d.ownDefinitions = d.nodeList.flatMap Node.ownDefinitions := by
  rw [ownDefinitions, definitions, List.filter_flatMap]
  rfl

end Document

namespace Analysis

variable {limit : Nat} {lines : List String} {line : Nat} {n : Node}

theorem OriginAt.span_eq {raw : String} (hraw : lines[line]? = some raw) (h : OriginAt lines line n)
    (hown : n.words ≠ []) : n.span = Line.span { number := line, raw } := by
  obtain ⟨raw', hraw', horigin⟩ := h
  obtain rfl := Option.some.inj (hraw.symm.trans hraw')
  rw [← nextLine_take hraw]
  cases horigin with
  | shape hblock shape hshape _ hbare _ => rw [← Node.span_bare, hbare, Node.span_read]
  | name hblock hexpects hnames =>
    change (BlockName.read _ _ _).node.span = _
    unfold BlockName.read
    dsimp only
    split <;> rfl
  | block b _ => exact absurd rfl hown

/-- The names of a node stand within it. -/
theorem encloses_name (hn : (analyzeLines limit lines).nodeAt? line = some n) {l : Lexeme}
    (hl : l ∈ n.words) : n.span.Encloses l.span ∧ l.span.start.line = line := by
  obtain ⟨raw, hraw, -, hword⟩ := standsOn_name hn hl
  rw [(originAt_analyzeLines hn).span_eq hraw (List.ne_nil_of_mem hl)]
  exact ⟨Line.encloses_word hword, hword.holds.number_eq⟩

theorem pairwise_ownDefinitions (limit : Nat) (lines : List String) :
    (analyzeLines limit lines).ownDefinitions.Pairwise fun d e => d.span.start < e.span.start := by
  have hname : ∀ {line n}, (analyzeLines limit lines).nodeAt? line = some n →
      ∀ d ∈ n.ownDefinitions, d.span.start.line = line := by
    intro line n hn d hd
    obtain ⟨l, hl, hspan⟩ := List.mem_map.1
      (n.ownDefinitions_named.1.subset (List.mem_map_of_mem hd))
    rw [← hspan]
    exact (encloses_name hn hl).2
  rw [Document.ownDefinitions_eq, Document.nodeList_eq, List.pairwise_flatMap, List.pairwise_filterMap]
  constructor
  · intro n hn
    obtain ⟨line, -, hline⟩ := List.mem_filterMap.1 hn
    have hwords : (n.words.map Lexeme.span).Pairwise fun s t => s.start < t.start := by
      rw [List.pairwise_map]
      rcases (originAt_analyzeLines hline).standsOn with ⟨raw, -, hstands | ⟨b, rfl, -⟩⟩
      · rw [← Node.words_bare]
        refine hstands.order.imp_of_mem fun {l l'} hl hl' hlt => .inr ⟨?_, hlt⟩
        exact (hstands.words l hl).holds.number_eq.trans (hstands.words l' hl').holds.number_eq.symm
      · exact .nil
    have hspans := hwords.sublist n.ownDefinitions_named.1
    rwa [List.pairwise_map] at hspans
  · refine List.pairwise_lt_range.imp fun {i j} hij n hn m hm d hd e he => .inl ?_
    rw [hname hn d hd, hname hm e he]
    exact hij

/-- A definition is named within the line that it takes. -/
theorem encloses_ownDefinitions {d : Definition}
    (hd : d ∈ (analyzeLines limit lines).ownDefinitions) :
    d.fullSpan.Encloses d.span ∧ d.fullSpan.isClosed = true := by
  rw [Document.ownDefinitions_eq] at hd
  obtain ⟨n, hn, hd⟩ := List.mem_flatMap.1 hd
  obtain ⟨line, hline⟩ := Document.mem_nodeList.1 hn
  obtain ⟨l, hl, hspan⟩ := List.mem_map.1
    (n.ownDefinitions_named.1.subset (List.mem_map_of_mem hd))
  rw [n.ownDefinitions_named.2 d hd, ← hspan]
  obtain ⟨raw, hraw, -, hword⟩ := standsOn_name hline hl
  refine ⟨(encloses_name hline hl).1, ?_⟩
  rw [(originAt_analyzeLines hline).span_eq hraw (List.ne_nil_of_mem hl)]
  rfl

end Analysis

/-- A bound that is kept over a list is one of its values. -/
theorem foldl_bound {α β : Type} {better : β → β → β} {R : β → β → Prop} (hrefl : ∀ p, R p p)
    (htrans : ∀ {p q r}, R p q → R q r → R p r) (hbound : ∀ p q, R (better p q) p ∧ R (better p q) q)
    (hchosen : ∀ p q, better p q = p ∨ better p q = q) (value : α → β) (xs : List α) (p : β) :
    R (xs.foldl (fun p x => better p (value x)) p) p ∧
    (∀ x ∈ xs, R (xs.foldl (fun p x => better p (value x)) p) (value x)) ∧
    (xs.foldl (fun p x => better p (value x)) p = p ∨
      ∃ x ∈ xs, value x = xs.foldl (fun p x => better p (value x)) p) := by
  induction xs generalizing p with
  | nil => exact ⟨hrefl p, by simp, .inl rfl⟩
  | cons x xs ih =>
    rw [List.foldl_cons]
    obtain ⟨hfirst, hrest, hvalue⟩ := ih (better p (value x))
    refine ⟨htrans hfirst (hbound _ _).1, fun y hy => ?_, ?_⟩
    · rcases List.mem_cons.1 hy with rfl | hy
      · exact htrans hfirst (hbound _ _).2
      · exact hrest y hy
    · rcases hvalue with hvalue | ⟨y, hy, hvalue⟩
      · rw [hvalue]
        rcases hchosen p (value x) with hp | hx
        · exact .inl hp
        · exact .inr ⟨x, by simp, hx.symm⟩
      · exact .inr ⟨y, by simp [hy], hvalue⟩

namespace Position

theorem earlier_le (p q : Position) : p.earlier q ≤ p ∧ p.earlier q ≤ q := by
  unfold earlier
  split
  · next h => exact ⟨le_refl p, h⟩
  · next h =>
    rw [le_iff] at h
    exact ⟨by rw [le_iff]; omega, le_refl q⟩

theorem le_later (p q : Position) : p ≤ p.later q ∧ q ≤ p.later q := by
  unfold later
  split
  · next h => exact ⟨h, le_refl q⟩
  · next h =>
    rw [le_iff] at h
    exact ⟨le_refl p, by rw [le_iff]; omega⟩

theorem earlier_or (p q : Position) : p.earlier q = p ∨ p.earlier q = q := by
  unfold earlier
  split <;> simp

theorem later_or (p q : Position) : p.later q = p ∨ p.later q = q := by
  unfold later
  split <;> simp

end Position

namespace Outline

/-- The span of a group covers the items, and no item less. -/
theorem cover_spec {items : List OutlineItem} {span : Span} (h : cover items = some span) :
    span.isClosed = true ∧
    (∀ i ∈ items, span.start ≤ i.span.start ∧ i.span.lastPosition ≤ span.lastPosition) ∧
    (∃ i ∈ items, i.span.start = span.start) ∧
    ∃ i ∈ items, i.span.lastPosition = span.lastPosition := by
  cases items with
  | nil => cases h
  | cons i rest =>
    cases h
    obtain ⟨hfirst, hrest, hattained⟩ := foldl_bound Position.le_refl Position.le_trans
      Position.earlier_le Position.earlier_or (fun i : OutlineItem => i.span.start) rest i.span.start
    obtain ⟨hfirst', hrest', hattained'⟩ := foldl_bound (R := fun p q => q ≤ p) Position.le_refl
      (fun h h' => Position.le_trans h' h) Position.le_later Position.later_or
      (fun i : OutlineItem => i.span.lastPosition) rest i.span.lastPosition
    refine ⟨rfl, List.forall_mem_cons.2 ⟨⟨hfirst, hfirst'⟩, fun j hj => ⟨hrest j hj, hrest' j hj⟩⟩,
      ?_, ?_⟩
    · rcases hattained with h | ⟨j, hj, h⟩
      · exact ⟨i, by simp, h.symm⟩
      · exact ⟨j, by simp [hj], h⟩
    · rcases hattained' with h | ⟨j, hj, h⟩
      · exact ⟨i, by simp, h.symm⟩
      · exact ⟨j, by simp [hj], h⟩

variable {ix : Index} {log : List Definition}

/-- There is a group for a kind just if there is a definition of the kind. -/
theorem heading_group? (h : ix.Records log) (p : SymbolKind × String) :
    (group? ix p.1 p.2).map (fun g => (g.kind, g.title)) =
      Option.guard (fun p => log.any (·.symbol.kind = p.1)) p := by
  rw [group?, h.definitionsOfKind_byName, Option.guard]
  cases hitems : Index.byName p.1 log with
  | nil =>
    have hnone : log.any (·.symbol.kind = p.1) = false := by
      rw [List.any_eq_false]
      intro d hd hkind
      have hmem := Index.mem_byName.2 ⟨hd, of_decide_eq_true hkind⟩
      rw [hitems] at hmem
      cases hmem
    rw [hnone]
    rfl
  | cons d rest =>
    obtain ⟨hd, hkind⟩ := Index.mem_byName.1 (hitems.symm ▸ List.mem_cons_self)
    have hsome : log.any (·.symbol.kind = p.1) = true :=
      List.any_eq_true.2 ⟨d, hd, decide_eq_true hkind⟩
    rw [hsome]
    rfl

theorem headings_outline (h : ix.Records log) :
    ix.outline.map (fun g => (g.kind, g.title)) =
      groups.filter fun p => log.any (·.symbol.kind = p.1) := by
  rw [Index.outline, List.map_filterMap, ← List.filterMap_eq_filter]
  exact List.filterMap_congr fun p _ => heading_group? h p

theorem exists_group_of_mem {g : OutlineGroup} (h : ix.Records log) (hg : g ∈ ix.outline) :
    g.kind ∈ groups.map Prod.fst ∧ g.items = (Index.byName g.kind log).map item ∧
      cover g.items = some g.span := by
  obtain ⟨⟨kind, title⟩, hp, hgroup⟩ := List.mem_filterMap.1 hg
  obtain ⟨span, hspan, rfl⟩ := Option.map_eq_some_iff.1 hgroup
  exact ⟨List.mem_map_of_mem hp, by rw [h.definitionsOfKind_byName], hspan⟩

end Outline

/-- What an item tells of a definition besides its name: the literal of a token, the signature of a function,
the type of a walker from outside, and of a rule body the name that is its alone, marked if code blocks are
expected for it. -/
inductive Outline.Tells : Detail → Option String → Prop
  | nothing : Tells .plain none
  | literal (text : String) : Tells (.token text) (some text)
  | body (name : String) : Tells (.rule name false) (some name)
  | bodyWithBlocks (name : String) : Tells (.rule name true) (some (name ++ " (code blocks)"))
  | signature (rule walker function text : String) :
      Tells (.function rule walker function text) (some text)
  | typeName (name : String) : Tells (.walkerInterface name) (some name)

/-- The item shows the definition: its name, its kind, where it is written as a whole and where its name is. -/
structure OutlineItem.Shows (i : OutlineItem) (d : Definition) : Prop where
  name : i.name = d.symbol.name
  kind : i.kind = d.symbol.kind
  span : i.span = d.fullSpan
  nameSpan : i.nameSpan = d.span
  detail : Outline.Tells d.detail i.detail

theorem Outline.shows_item (d : Definition) : (item d).Shows d where
  name := rfl
  kind := rfl
  span := rfl
  nameSpan := rfl
  detail := by
    unfold item
    cases d.detail with
    | plain => exact .nothing
    | token literal => exact .literal literal
    | rule name expectsBlocks =>
      cases expectsBlocks with
      | false =>
        change Tells (.rule name false) (some (name ++ ""))
        rw [String.append_empty]
        exact .body name
      | true => exact .bodyWithBlocks name
    | function rule walker function signature => exact .signature rule walker function signature
    | walkerInterface typeName => exact .typeName typeName

/-- The items of a group show the definitions of its kind one by one, each named within its own place, and
the group reaches from the first of these places to the last. -/
structure OutlineGroup.Shows (g : OutlineGroup) (definitions : List Definition) : Prop where
  items : List.Forall₂ OutlineItem.Shows g.items (Index.byName g.kind definitions)
  named : ∀ i ∈ g.items, i.span.Encloses i.nameSpan
  covered : ∀ i ∈ g.items, g.span.Encloses i.span
  start : ∃ i ∈ g.items, i.span.start = g.span.start
  stop : ∃ i ∈ g.items, i.span.lastPosition = g.span.lastPosition

/-- The outline of every text has a group for each kind that has a definition, and each group shows all
definitions of its kind, properly nested. The definitions come in source order. -/
theorem outline_nested (limit : Nat) (text : String) :
    (analyze limit text).index.outline.map (fun g => (g.kind, g.title)) =
      [(SymbolKind.token, "Tokens"), (.rule, "Rules"), (.walker, "Walkers"), (.function, "Functions"),
        (.lexerMode, "Lexer modes")].filter (fun p =>
          (analyze limit text).definitions.any (·.symbol.kind = p.1)) ∧
    (∀ g ∈ (analyze limit text).index.outline, g.Shows (analyze limit text).definitions) ∧
    ((analyze limit text).definitions.filter (·.symbol.kind ≠ .codeBlock)).Pairwise fun d e =>
      d.span.start < e.span.start := by
  have hrecords := records_analyze limit text
  refine ⟨Outline.headings_outline hrecords, fun g hg => ?_, Analysis.pairwise_ownDefinitions _ _⟩
  obtain ⟨hkind, hitems, hcover⟩ := Outline.exists_group_of_mem hrecords hg
  obtain ⟨hclosed, hcovered, hstart, hstop⟩ := Outline.cover_spec hcover
  have hown : ∀ i ∈ g.items, i.span.Encloses i.nameSpan ∧ i.span.isClosed = true := by
    intro i hi
    rw [hitems] at hi
    obtain ⟨d, hd, rfl⟩ := List.mem_map.1 hi
    obtain ⟨hd, hd'⟩ := Index.mem_byName.1 hd
    refine @Analysis.encloses_ownDefinitions limit (Text.lines text) d
      (List.mem_filter.2 ⟨hd, decide_eq_true ?_⟩)
    rw [hd']
    rintro heq
    rw [heq] at hkind
    simp [Outline.groups] at hkind
  exact {
    items := by
      rw [hitems, List.forall₂_map_left_iff]
      exact List.forall₂_same.2 fun d _ => Outline.shows_item d
    named := fun i hi => (hown i hi).1
    covered := fun i hi => (hown i hi).1.of_le (hown i hi).2 hclosed (hcovered i hi).1 (hcovered i hi).2
    start := hstart
    stop := hstop }

/-- Two bodies of one rule with another rule between them, whose block follows. -/
def outlinedText : String := "%walkers W;\nr := A;\ns := r\n%\x7b\n%\x7d\nr := s;\nA := \"a\";"

/-- Both bodies stand before the other rule, since their name comes first, and the block is not shown. -/
theorem outline_nested_rules :
    (analyze 25 outlinedText).index.outline.map (fun g => (g.kind, g.title)) =
      [(.token, "Tokens"), (.rule, "Rules"), (.walker, "Walkers")] ∧
    ∀ g ∈ (analyze 25 outlinedText).index.outline, g.kind = .rule →
      List.Forall₂ OutlineItem.Shows g.items
        [⟨.rule "r", .onLine 1 0 1, .onLine 1 0 7, .rule "r" false⟩,
          ⟨.rule "r", .onLine 5 0 1, .onLine 5 0 7, .rule "r_1" false⟩,
          ⟨.rule "s", .onLine 2 0 1, .onLine 2 0 6, .rule "s" true⟩] := by
  have hdefinitions : (analyze 25 outlinedText).definitions =
      [⟨.walker "W", .onLine 0 9 10, .onLine 0 0 11, .plain⟩,
        ⟨.rule "r", .onLine 1 0 1, .onLine 1 0 7, .rule "r" false⟩,
        ⟨.rule "s", .onLine 2 0 1, .onLine 2 0 6, .rule "s" true⟩,
        ⟨.codeBlock "s::W::go", .onLine 3 0 2, ⟨⟨3, 0⟩, some ⟨4, 2⟩⟩, .plain⟩,
        ⟨.rule "r", .onLine 5 0 1, .onLine 5 0 7, .rule "r_1" false⟩,
        ⟨.token "A", .onLine 6 0 1, .onLine 6 0 9, .token "\"a\""⟩] := by
    decide +kernel
  obtain ⟨hheadings, hshows, -⟩ := outline_nested 25 outlinedText
  rw [hdefinitions] at hheadings hshows
  refine ⟨hheadings.trans (by decide), fun g hg hkind => ?_⟩
  have hitems := (hshows g hg).items
  rw [hkind] at hitems
  exact hitems

end LineGrammar
