import LineGrammar.Proofs.BodyNames
import LineGrammar.Proofs.HighlightOrder
import LineGrammar.Proofs.Undefined

/-! Which highlights are declarations. Once nothing is wrong with a document, a name is highlighted as a
declaration just where it is defined; and so is the mark that opens a block at the end of a members
pragma, although no name is defined there. -/

namespace LineGrammar

@[simp] theorem Lexeme.isDeclaration_as (l : Lexeme) (role : Role) :
    (l.as role).isDeclaration = false := rfl

theorem CodeBlock.span_of_definition {b : CodeBlock} {d : Definition} (h : d ∈ b.definitions) :
    d.span = b.opening.span := by
  obtain ⟨name, -, -, -, rfl⟩ := mem_definitions.1 h
  rfl

theorem CodeBlock.not_declared {b : CodeBlock} {h : Highlight} (hh : h ∈ b.highlights) :
    h.isDeclaration = false := by
  rcases List.mem_append.1 hh with hh | hh
  · split at hh
    · cases hh
    · rw [List.mem_singleton.1 hh]
      rfl
  · obtain ⟨mark, -, rfl⟩ := List.mem_map.1 hh
    rfl

namespace Pragma

/-- A pragma defines names, or the block that it has opened. -/
theorem definition_of_block {p : Pragma} {d : Definition} (h : d ∈ p.definitions)
    (hkind : d.symbol.kind = .codeBlock) : ∃ b, p.block? = some b ∧ d ∈ b.definitions := by
  cases mem_definitions.1 h with
  | block hbody hdefined => exact ⟨_, by rw [block?, hbody], hdefined⟩
  | _ => cases hkind

theorem definitions_of_block {p : Pragma} {b : CodeBlock} (hb : p.block? = some b) :
    p.definitions = b.definitions := by
  unfold block? at hb
  split at hb
  · next hbody => rw [definitions, hbody, hb]
  · cases hb

/-- What a pragma defines is highlighted among its parameters. -/
theorem exists_parameterHighlight {p : Pragma} {d : Definition} (h : d ∈ p.definitions)
    (hopening : ∀ b, p.block? = some b → ∃ walker, p.body = .members walker (some b.opening) (some b)) :
    ∃ g ∈ p.parameterHighlights, g.span = d.span := by
  cases mem_definitions.1 h with
  | @walker _ walker hbody hwalker =>
    exact ⟨walker.as .walkerName, by rw [parameterHighlights, hbody]; exact List.mem_map_of_mem hwalker,
      rfl⟩
  | @function decl _ _ hbody =>
    exact ⟨decl.function.as .functionName, by simp [parameterHighlights, hbody], rfl⟩
  | @lexerMode mode hbody => exact ⟨mode.as .modeName, by simp [parameterHighlights, hbody], rfl⟩
  | @walkerInterface walker _ hbody =>
    exact ⟨walker.as .walkerName, by simp [parameterHighlights, hbody], rfl⟩
  | @block _ _ b _ hbody hdefined =>
    obtain ⟨walker, hopened⟩ := hopening b (by rw [block?, hbody])
    exact ⟨b.opening.as .blockMark, by simp [parameterHighlights, hopened],
      (CodeBlock.span_of_definition hdefined).symm⟩

/-- A parameter by itself is no declaration. -/
theorem parameter_not_declared (p : Pragma) : ∀ g ∈ p.parameterHighlights, g.isDeclaration = false := by
  unfold parameterHighlights
  split <;> simp [or_imp, forall_and]

/-- A highlight of a pragma is a declaration only where the pragma defines something. -/
theorem definition_of_declared {p : Pragma} {h : Highlight} (hh : h ∈ p.highlights)
    (hdeclared : h.isDeclaration = true) : ∃ d ∈ p.definitions, d.span = h.span := by
  rcases List.mem_append.1 hh with hh | hh
  · obtain ⟨g, hg, rfl⟩ := List.mem_map.1 hh
    split at hdeclared
    · next hdefined =>
      obtain ⟨d, hd, hspan⟩ := List.any_eq_true.1 hdefined
      refine ⟨d, hd, ?_⟩
      rw [if_pos hdefined]
      exact of_decide_eq_true hspan
    · rcases List.mem_cons.1 hg with rfl | hg
      · cases hdeclared
      · exact absurd ((parameter_not_declared p g hg).symm.trans hdeclared) (by simp)
  · split at hh
    · exact absurd ((CodeBlock.not_declared hh).symm.trans hdeclared) (by simp)
    · cases hh

theorem declared_of_definition {p : Pragma} {d : Definition} (h : d ∈ p.definitions)
    (hopening : ∀ b, p.block? = some b → ∃ walker, p.body = .members walker (some b.opening) (some b)) :
    ∃ g ∈ p.highlights, g.isDeclaration = true ∧ g.span = d.span := by
  obtain ⟨g, hg, hspan⟩ := exists_parameterHighlight h hopening
  have hdefined : p.definitions.any (fun d => d.span = g.span) = true :=
    List.any_eq_true.2 ⟨d, h, decide_eq_true hspan.symm⟩
  refine ⟨g.declared, List.mem_append_left _ (List.mem_map.2 ⟨g, List.mem_cons_of_mem _ hg, ?_⟩), rfl,
    hspan⟩
  rw [if_pos hdefined]

end Pragma

/-- Only the name of a token is a declaration. -/
theorem TokenDef.declared_iff {t : TokenDef} {h : Highlight} (hh : h ∈ t.highlights) :
    h.isDeclaration = true ↔ h = (t.name.as .tokenName).declared := by
  constructor
  · have hrest : ∀ g ∈ t.highlights.tail, g.isDeclaration = false := by
      simp [highlights, or_imp, forall_and]
    intro hdeclared
    rcases List.mem_cons.1 hh with hname | hh
    · exact hname
    · exact absurd ((hrest h hh).symm.trans hdeclared) (by simp)
  · rintro rfl
    rfl

theorem TokenDef.span_of_definition {t : TokenDef} {d : Definition} (h : d ∈ t.definitions) :
    d.span = t.name.span := by
  obtain ⟨literal, -, -, rfl⟩ := mem_definitions.1 h
  rfl

/-- A token without errors counts as defined. -/
theorem TokenDef.definitions_read_ne_nil {line : Line} {name operator rest : Slice} {ix : Index}
    (h : Harmless (TokenDef.read line name operator rest ix).problems) :
    (TokenDef.read line name operator rest ix).node.definitions ≠ [] := by
  unfold read at h ⊢
  dsimp only at h ⊢
  split at h
  · exact (not_harmless (List.mem_singleton_self _) rfl h).elim
  · simp [definitions, fill, terminated_of_harmless h]

theorem RuleElement.not_declared (e : RuleElement) : ∀ g ∈ e.highlights, g.isDeclaration = false := by
  simp only [highlights, List.mem_append, List.mem_map, List.mem_singleton]
  rintro g ((⟨l, -, rfl⟩ | rfl) | ⟨l, -, rfl⟩) <;> rfl

/-- Only the name of a rule is a declaration. -/
theorem RuleDef.declared_iff {r : RuleDef} {h : Highlight} (hh : h ∈ r.highlights) :
    h.isDeclaration = true ↔ h = (r.name.as .ruleName).declared := by
  constructor
  · have hrest : ∀ g ∈ r.highlights.tail, g.isDeclaration = false := by
      simp only [highlights, List.cons_append, List.tail_cons, List.mem_cons, List.mem_append,
        List.mem_map, List.mem_flatMap, List.not_mem_nil, false_or]
      rintro g (rfl | ⟨l, -, rfl⟩ | ⟨e, -, hg⟩)
      · rfl
      · rfl
      · exact e.not_declared g hg
    intro hdeclared
    rcases List.mem_cons.1 hh with hname | hh
    · exact hname
    · exact absurd ((hrest h hh).symm.trans hdeclared) (by simp)
  · rintro rfl
    rfl

namespace Node

/-- A declaration stands where its node defines something, and no block by itself has one. -/
theorem definition_of_declared {n : Node} {h : Highlight} (hh : h ∈ n.highlights)
    (hdeclared : h.isDeclaration = true) (htoken : ∀ t, n = .token t → t.definitions ≠ []) :
    (∀ b, n ≠ .block b) ∧ ∃ d ∈ n.definitions, d.span = h.span := by
  cases n with
  | comment text =>
    rw [List.mem_singleton.1 hh] at hdeclared
    cases hdeclared
  | pragma p => exact ⟨by simp, Pragma.definition_of_declared hh hdeclared⟩
  | token t =>
    obtain ⟨d, hd⟩ := List.exists_mem_of_ne_nil _ (htoken t rfl)
    refine ⟨by simp, d, hd, ?_⟩
    rw [(TokenDef.declared_iff hh).1 hdeclared]
    exact TokenDef.span_of_definition hd
  | rule r =>
    refine ⟨by simp, r.definition, List.mem_singleton_self _, ?_⟩
    rw [(RuleDef.declared_iff hh).1 hdeclared]
    rfl
  | block b => exact absurd ((CodeBlock.not_declared hh).symm.trans hdeclared) (by simp)
  | blockName n =>
    have hplain : ∀ g ∈ n.highlights, g.isDeclaration = false := by
      simp [BlockName.highlights, or_imp, forall_and]
    exact absurd ((hplain h hh).symm.trans hdeclared) (by simp)

/-- What a node defines is highlighted as a declaration, unless it is a block by itself. -/
theorem declared_of_definition {n : Node} {d : Definition} (hd : d ∈ n.definitions)
    (hblock : ∀ b, n ≠ .block b)
    (hopening : ∀ p b, n = .pragma p → p.block? = some b →
      ∃ walker, p.body = .members walker (some b.opening) (some b)) :
    ∃ g ∈ n.highlights, g.isDeclaration = true ∧ g.span = d.span := by
  cases n with
  | comment text => cases hd
  | pragma p => exact Pragma.declared_of_definition hd fun b => hopening p b rfl
  | token t => exact ⟨_, List.mem_cons_self, rfl, (TokenDef.span_of_definition hd).symm⟩
  | rule r =>
    rw [List.mem_singleton.1 hd]
    exact ⟨_, List.mem_cons_self, rfl, rfl⟩
  | block b => exact absurd rfl (hblock b)
  | blockName n => cases hd

end Node

namespace Analysis

variable {limit : Nat} {lines : List String}

/-- The index has what the nodes define. -/
theorem mem_definitionsOf {s : Symbol} {d : Definition} :
    d ∈ (analyzeLines limit lines).index.definitionsOf s ↔
      d.symbol = s ∧ ∃ n ∈ (analyzeLines limit lines).nodeList, d ∈ n.definitions := by
  have hrecords := ((accounted_run limit lines).conclude.books.records.congr
    (Index.buckets_clearPending _)).definitionsOf s
  change (analyzeLines limit lines).index.definitionsOf s = _ at hrecords
  rw [hrecords, List.mem_filter, decide_eq_true_eq, and_comm]
  exact and_congr_right fun _ => List.mem_flatMap

/-- Without errors every token of the document counts as defined. -/
theorem definitions_token_ne_nil (h : Harmless (analyzeLines limit lines).diagnostics) {t : TokenDef}
    (ht : .token t ∈ (analyzeLines limit lines).nodeList) : t.definitions ≠ [] := by
  obtain ⟨line, hline⟩ := Document.mem_nodeList.1 ht
  obtain ⟨raw, hraw, horigin⟩ := originAt_analyzeLines hline
  have hreports := diagnostics_subset_finish (after lines)
  rw [← analyzeLines_of_harmless h] at hreports
  generalize hfront : lines.take line = front at horigin
  cases horigin with
  | shape hblock shape hshape _ hbare hopening =>
    have hproblems := problems_read_subset hblock hshape
    rw [← hfront] at hproblems
    have hclean := h.mono
      (List.Subset.trans hproblems (List.Subset.trans (subset_diagnostics_line hraw) hreports))
    cases shape with
    | token name operator rest =>
      obtain rfl := Node.token.inj hbare
      rw [hfront] at hclean
      exact TokenDef.definitions_read_ne_nil hclean
    | _ => cases hbare

/-- The block of a pragma is opened by the mark that the pragma has. -/
theorem opening_of_block {p : Pragma} (hp : .pragma p ∈ (analyzeLines limit lines).nodeList) {b : CodeBlock}
    (hb : p.block? = some b) : ∃ walker, p.body = .members walker (some b.opening) (some b) := by
  obtain ⟨line, hline⟩ := Document.mem_nodeList.1 hp
  obtain ⟨raw, hraw, horigin⟩ := originAt_analyzeLines hline
  cases horigin with
  | shape hblock shape hshape _ hbare hopening => exact hopening p b rfl hb

end Analysis

/-- Two highlights with the same span are the same. -/
theorem highlight_unique {limit : Nat} {lines : List String} {g h : Highlight}
    (hg : g ∈ (analyzeLines limit lines).highlights) (hh : h ∈ (analyzeLines limit lines).highlights)
    (hspan : g.span = h.span) : g = h := by
  by_contra hne
  have hapart : (analyzeLines limit lines).highlights.Pairwise fun g h => g.span.Apart h.span :=
    (before_highlights limit lines).imp .inl
  have : Std.Symm fun g h : Highlight => g.span.Apart h.span := ⟨fun _ _ => Span.Apart.symm⟩
  obtain ⟨line, hfills⟩ := fillsOn_highlight hh
  refine hfills.not_before_self ?_
  rcases hapart.forall hg hh hne with hbefore | hbefore
  all_goals rwa [hspan] at hbefore

open Analysis in
/-- Without errors a highlight is a declaration exactly where the index has a definition that is no code
block, or where the mark stands that opens the defined block of a members pragma. -/
theorem declared_highlights (limit : Nat) (text : String)
    (hclean : ∀ d ∈ (analyze limit text).diagnostics, d.severity ≠ .error) :
    ∀ h ∈ (analyze limit text).highlights, h.isDeclaration = true ↔
      (∃ s, s.kind ≠ .codeBlock ∧ ∃ d ∈ (analyze limit text).index.definitionsOf s, d.span = h.span) ∨
      ∃ p b, .pragma p ∈ (analyze limit text).nodeList ∧ p.block? = some b ∧ b.definitions ≠ [] ∧
        b.opening.span = h.span := by
  intro h hh
  obtain ⟨n, hn, hnode⟩ := Document.mem_highlights.1 hh
  have hharmless : Harmless (analyze limit text).diagnostics := fun d hd => by
    simpa [Diagnostic.isError] using hclean d hd
  constructor
  · intro hdeclared
    obtain ⟨hblock, d, hd, hspan⟩ := n.definition_of_declared hnode hdeclared fun t ht =>
      definitions_token_ne_nil hharmless (ht ▸ hn)
    by_cases hkind : d.symbol.kind = .codeBlock
    · cases n with
      | pragma p =>
        obtain ⟨b, hb, hdefines⟩ := Pragma.definition_of_block hd hkind
        refine .inr ⟨p, b, hn, hb, List.ne_nil_of_mem hdefines, ?_⟩
        rw [← hspan, CodeBlock.span_of_definition hdefines]
      | token t => rw [TokenDef.kind_of_definition hd] at hkind; cases hkind
      | rule r => rw [List.mem_singleton.1 hd] at hkind; cases hkind
      | block b => exact absurd rfl (hblock b)
      | comment text => cases hd
      | blockName n => cases hd
    · exact .inl ⟨d.symbol, hkind, d, mem_definitionsOf.2 ⟨rfl, n, hn, hd⟩, hspan⟩
  · intro hdefined
    -- Either way some node that is no block by itself defines something just here.
    obtain ⟨m, hm, d, hd, hblock, hspan⟩ : ∃ m ∈ (analyze limit text).nodeList, ∃ d ∈ m.definitions,
        (∀ b, m ≠ .block b) ∧ d.span = h.span := by
      rcases hdefined with ⟨s, hkind, d, hd, hspan⟩ | ⟨p, b, hp, hb, hne, hspan⟩
      · obtain ⟨hsymbol, m, hm, hdefines⟩ := mem_definitionsOf.1 hd
        refine ⟨m, hm, d, hdefines, ?_, hspan⟩
        rintro b rfl
        exact hkind (by rw [← hsymbol]; exact CodeBlock.kind_of_definition hdefines)
      · obtain ⟨d, hd⟩ := List.exists_mem_of_ne_nil _ hne
        refine ⟨.pragma p, hp, d, ?_, by simp, (CodeBlock.span_of_definition hd).trans hspan⟩
        rwa [Node.definitions, Pragma.definitions_of_block hb]
    obtain ⟨g, hg, hdeclared, hsame⟩ := m.declared_of_definition hd hblock fun p b hp hb =>
      opening_of_block (hp ▸ hm) hb
    rw [← highlight_unique (Document.mem_highlights.2 ⟨m, hm, hg⟩) hh (hsame.trans hspan)]
    exact hdeclared

/-- A token, a rule and a walker in a text without errors. -/
theorem declared_highlights_names :
    (∀ d ∈ (analyze 25 "%walkers W;\nA := \"a\";\nr := A;").diagnostics, d.severity ≠ .error) ∧
      (∀ h ∈ (analyze 25 "%walkers W;\nA := \"a\";\nr := A;").highlights, h.isDeclaration = true ↔
        (∃ s, s.kind ≠ .codeBlock ∧
          ∃ d ∈ (analyze 25 "%walkers W;\nA := \"a\";\nr := A;").index.definitionsOf s, d.span = h.span) ∨
        ∃ p b, .pragma p ∈ (analyze 25 "%walkers W;\nA := \"a\";\nr := A;").nodeList ∧
          p.block? = some b ∧ b.definitions ≠ [] ∧ b.opening.span = h.span) ∧
      (⟨.onLine 0 9 10, .walkerName, true⟩ : Highlight) ∈
        (analyze 25 "%walkers W;\nA := \"a\";\nr := A;").highlights :=
  have hclean : ∀ d ∈ (analyze 25 "%walkers W;\nA := \"a\";\nr := A;").diagnostics,
      d.severity ≠ .error := by decide +kernel
  ⟨hclean, declared_highlights 25 _ hclean, Document.mem_highlights.2 (by decide +kernel)⟩

open Analysis in
/-- The mark that opens the block of a members pragma is highlighted as a declaration, and only the code
block is defined there. -/
theorem declared_mark :
    (∀ d ∈ (analyze 25 "%walkers W;\n%members W %\x7b\n%\x7d").diagnostics, d.severity ≠ .error) ∧
      ∃ h ∈ (analyze 25 "%walkers W;\n%members W %\x7b\n%\x7d").highlights, h.isDeclaration = true ∧
        ∀ s, s.kind ≠ .codeBlock →
          ∀ d ∈ (analyze 25 "%walkers W;\n%members W %\x7b\n%\x7d").index.definitionsOf s,
            d.span ≠ h.span := by
  refine ⟨by decide +kernel, ⟨.onLine 1 11 13, .blockMark, true⟩,
    Document.mem_highlights.2 (by decide +kernel), rfl, ?_⟩
  intro s hkind d hd
  obtain ⟨rfl, n, hn, hdefines⟩ := mem_definitionsOf.1 hd
  have hnodes : ∀ n ∈ (analyze 25 "%walkers W;\n%members W %\x7b\n%\x7d").nodeList,
      ∀ d ∈ n.definitions, d.symbol.kind ≠ .codeBlock → d.span ≠ .onLine 1 11 13 := by decide +kernel
  exact hnodes n hn d hdefines hkind

end LineGrammar
