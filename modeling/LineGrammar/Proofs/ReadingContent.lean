import LineGrammar.Proofs.IndexContent

/-! Parts of two lines with the same number. Where the texts agree the contents agree, and so do the
diagnostics that are reported on them. -/

namespace LineGrammar

/-- A text that can fill a line by itself. -/
structure Neat (s : String) : Prop where
  trimmed : Text.Trimmed s.toList
  noBreak : '\n' ∉ s.toList

theorem neat_of_solid {s : String} (h : ∀ c ∈ s.toList, isBlank c = false) : Neat s :=
  ⟨⟨fun c hc => h c (List.mem_of_mem_head? hc), fun c hc => h c (List.mem_of_getLast? hc)⟩,
    fun hmem => absurd (h _ hmem) (by decide)⟩

theorem neat_of_parts {s : String} {front middle back : List Char}
    (hs : s.toList = front ++ (middle ++ back)) (hne : front ≠ [])
    (hfront : ∀ c ∈ front, isBlank c = false) (hmiddle : '\n' ∉ middle) (hne' : back ≠ [])
    (hback : '\n' ∉ back) (hlast : ∀ c ∈ back.getLast?, isBlank c = false) : Neat s where
  trimmed := by
    rw [hs]
    exact Text.trimmed_append middle hne hne' (fun c hc => hfront c (List.mem_of_mem_head? hc)) hlast
  noBreak := by
    rw [hs, List.mem_append, List.mem_append]
    rintro (hmem | hmem | hmem)
    · exact absurd (hfront _ hmem) (by decide)
    · exact hmiddle hmem
    · exact hback hmem

theorem Reading.content_eq {α : Type} {f : α → α} {r r' : Reading α} (hnode : f r'.node = f r.node)
    (hproblems : r'.problems.map Diagnostic.content = r.problems.map Diagnostic.content)
    (hindex : r'.index.content = r.index.content)
    (hsequel : r'.sequel.content = r.sequel.content) : r'.content f = r.content f := by
  unfold Reading.content
  rw [hnode, hproblems, hindex, hsequel]

theorem Lexeme.text_of_content {l l' : Lexeme} (h : l'.content = l.content) : l'.text = l.text := by
  rw [← Lexeme.text_content, h, Lexeme.text_content]

theorem Lexeme.onLines_of_content {l l' : Lexeme} (h : l'.content = l.content) :
    l'.span.onLines = l.span.onLines := by
  rw [← Lexeme.span_content, h, Lexeme.span_content]

theorem content_flatMap_congr {α β : Type} {c : α → β} {f f' : α → List Diagnostic}
    (hf : ∀ a a', c a' = c a → (f' a').map Diagnostic.content = (f a).map Diagnostic.content)
    {as as' : List α} (has : as'.map c = as.map c) :
    (as'.flatMap f').map Diagnostic.content = (as.flatMap f).map Diagnostic.content := by
  induction as generalizing as' with
  | nil => rw [List.map_eq_nil_iff.1 has]; rfl
  | cons a rest ih =>
    cases as' with
    | nil => cases has
    | cons a' rest' =>
      obtain ⟨ha, hrest⟩ := List.cons.inj has
      rw [List.flatMap_cons, List.flatMap_cons, List.map_append, List.map_append, hf a a' ha,
        ih hrest]

theorem head?_text (ls : List Lexeme) :
    ls.head?.map Lexeme.text = (ls.map Lexeme.content).head?.map Lexeme.text := by
  cases ls <;> rfl

theorem content_of (cause : Cause) (span : Span) :
    (Diagnostic.of cause span).content = .of cause span.onLines := rfl

section
variable {line line' : Line} (hline : line'.number = line.number)
include hline

theorem content_lexeme_congr {s s' : Slice} (hs : s'.chars = s.chars) :
    (line'.lexeme s').content = (line.lexeme s).content := by
  rw [Line.content_lexeme, Line.content_lexeme, Slice.text, Slice.text, hs, hline]

theorem content_lexemes_congr {ss ss' : List Slice}
    (hs : ss'.map Slice.chars = ss.map Slice.chars) :
    (ss'.map line'.lexeme).map Lexeme.content = (ss.map line.lexeme).map Lexeme.content := by
  have hlexeme : ∀ (l : Line) (ss : List Slice), (ss.map l.lexeme).map Lexeme.content =
      (ss.map Slice.chars).map fun cs => ⟨String.ofList cs, .onLine l.number 0 0⟩ := by
    intro l ss
    rw [List.map_map, List.map_map]
    rfl
  rw [hlexeme, hlexeme, hs, hline]

theorem content_lexeme?_congr {s? s?' : Option Slice}
    (hs : s?'.map Slice.chars = s?.map Slice.chars) :
    (s?'.map line'.lexeme).map Lexeme.content = (s?.map line.lexeme).map Lexeme.content := by
  have hlexeme : ∀ (l : Line) (s? : Option Slice), (s?.map l.lexeme).map Lexeme.content =
      (s?.map Slice.chars).map fun cs => ⟨String.ofList cs, .onLine l.number 0 0⟩ := by
    intro l s?
    cases s? <;> rfl
  rw [hlexeme, hlexeme, hs, hline]

theorem onLines_span_congr : line'.span.onLines = line.span.onLines := by
  have h : (line'.lexeme ⟨0, line.body.chars⟩).content = (line.lexeme line.body).content :=
    content_lexeme_congr hline rfl
  exact congrArg Lexeme.span h

theorem content_problem_congr (cause : Cause) :
    (line'.problem cause).content = (line.problem cause).content := by
  rw [Line.problem, Line.problem, content_of, content_of, onLines_span_congr hline]

theorem content_checkTerminator_congr (terminated : Bool) :
    (line'.checkTerminator terminated).map Diagnostic.content =
      (line.checkTerminator terminated).map Diagnostic.content := by
  cases terminated with
  | true => rfl
  | false =>
    simp only [Line.checkTerminator, Line.endSpan, Bool.false_eq_true, if_false, List.map_cons,
      List.map_nil, content_of, Span.onLines_onLine, hline]

end

end LineGrammar
