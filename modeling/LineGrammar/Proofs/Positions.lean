import LineGrammar.Proofs.Lexemes
import LineGrammar.Proofs.Origins

/-! Source positions are exact. Every lexeme that a document keeps stands on one line of the text, at the
columns of its span, and every diagnostic is reported at a part of one line. -/

namespace LineGrammar

/-- The span lies on one line of the text, where these characters stand. -/
def Span.Covers (lines : List String) (span : Span) (cs : List Char) : Prop :=
  ∃ line start stop raw, lines[line]? = some raw ∧ span = .onLine line start stop ∧ start ≤ stop ∧
    stop ≤ raw.length ∧ (raw.toList.drop start).take (stop - start) = cs

variable {lines : List String}

theorem covers_of_holds {line : Line} (hline : lines[line.number]? = some line.raw) {l : Lexeme}
    (h : line.Holds l) : l.span.Covers lines l.text.toList := by
  obtain ⟨s, ⟨front, back, hraw, hcolumn, -, -⟩, rfl⟩ := h
  have hlength := congrArg List.length hraw
  simp only [List.length_append] at hlength
  refine ⟨line.number, s.column, s.stop, line.raw, hline, rfl, ?_, ?_, ?_⟩
  · exact Nat.le_add_right _ _
  · rw [← String.length_toList, Slice.stop]
    omega
  · rw [Slice.stop, Nat.add_sub_cancel_left, hraw, hcolumn, List.drop_left, List.take_left]
    simp [Line.lexeme, Slice.lexeme, Slice.text]

/-- The span of a part of some line of the text. -/
def Span.Marked (lines : List String) (span : Span) : Prop :=
  ∃ line : Line, lines[line.number]? = some line.raw ∧ line.Marks span

theorem Span.Marked.covers {span : Span} (h : span.Marked lines) : ∃ cs, span.Covers lines cs := by
  obtain ⟨line, hline, l, hl, rfl⟩ := h
  exact ⟨_, covers_of_holds hline hl⟩

theorem Span.Marked.append {span : Span} (h : span.Marked lines) (more : List String) :
    span.Marked (lines ++ more) := by
  obtain ⟨line, hline, hmarks⟩ := h
  refine ⟨line, ?_, hmarks⟩
  rwa [List.getElem?_append_left (List.getElem?_eq_some_iff.1 hline).1]

namespace Node

theorem words_bare (n : Node) : n.bare.words = n.words := by
  cases n with
  | pragma p =>
    obtain ⟨mark, name, parameters, keyword?, body, span⟩ := p
    cases body <;> rfl
  | _ => rfl

/-- Only the block of a pragma has lexemes that do not stand on the line of the pragma. -/
theorem mem_lexemes_bare {n : Node} {l : Lexeme} (h : l ∈ n.lexemes) :
    l ∈ n.bare.lexemes ∨ ∃ b, n.codeBlock? = some b ∧ l ∈ b.lexemes := by
  cases n with
  | pragma p =>
    obtain ⟨mark, name, parameters, keyword?, body, span⟩ := p
    cases body with
    | members walker opening block =>
      cases block with
      | none => exact .inl h
      | some b =>
        simp only [lexemes, PragmaBody.words, PragmaBody.parts, Option.toList_some,
          List.flatMap_singleton, List.mem_cons, List.mem_append] at h
        simp only [bare, Pragma.bare, lexemes, PragmaBody.words, PragmaBody.parts, List.mem_cons,
          List.mem_append, codeBlock?, Pragma.block?, Option.some.injEq, exists_eq_left']
        tauto
    | _ => exact .inl h
  | _ => exact .inl h

@[simp] theorem span_read (line : Line) (ix : Index) (shape : Shape) :
    (Node.read line ix shape).node.span = line.span := by
  cases shape with
  | token name operator rest =>
    simp only [Node.read, Reading.map, TokenDef.read]
    split <;> rfl
  | _ => rfl

end Node

namespace Analysis

/-- A line of a run, as the analysis of the lines above it has it. -/
theorem nextLine_take {line : Nat} {raw : String} (hraw : lines[line]? = some raw) :
    (after (lines.take line)).nextLine raw = { number := line, raw } := by
  rw [nextLine, size_after,
    List.length_take_of_le (Nat.le_of_lt (List.getElem?_eq_some_iff.1 hraw).1)]

theorem nextLine_concat (lines : List String) (raw : String) :
    (lines ++ [raw])[((after lines).nextLine raw).number]? = some ((after lines).nextLine raw).raw := by
  simp [nextLine]

/-- What is written in a node stands on its line, up to a block. -/
theorem OriginAt.standsOn {line : Nat} {n : Node} (h : OriginAt lines line n) :
    ∃ raw, lines[line]? = some raw ∧
      (n.bare.StandsOn { number := line, raw } ∨
        ∃ b, n = .block b ∧ b.opening = Line.whole { number := line, raw }) := by
  obtain ⟨raw, hraw, horigin⟩ := h
  refine ⟨raw, hraw, ?_⟩
  rw [← nextLine_take hraw]
  generalize after (lines.take line) = a at horigin
  cases horigin with
  | shape hblock shape hshape _ hbare hopening =>
    rw [hbare]
    exact .inl (Node.standsOn_read hshape _)
  | name hblock hexpects hnames =>
    have hmark : (a.nextLine raw).namesBlock = true := (Line.namesBlock_eq _).trans hnames
    exact .inl (Node.standsOn_blockName hmark _ _)
  | block b hopening => exact .inr ⟨b, rfl, hopening⟩

/-- A block opens with a lexeme of its node. -/
theorem OriginAt.opening {line : Nat} {n : Node} (h : OriginAt lines line n) {b : CodeBlock}
    (hb : n.codeBlock? = some b) : b.opening ∈ n.bare.lexemes := by
  obtain ⟨raw, hraw, horigin⟩ := h
  cases horigin with
  | shape hblock shape hshape _ hbare hopening =>
    cases n with
    | block c =>
      have hread := Node.codeBlock?_read ((after (lines.take line)).nextLine raw)
        (after (lines.take line)).index shape
      rw [← hbare] at hread
      cases hread
    | pragma p =>
      obtain ⟨walker, hbody⟩ := hopening p b rfl hb
      simp [Node.bare, Pragma.bare, hbody, Node.lexemes, PragmaBody.parts]
    | _ => cases hb
  | name hblock hexpects hnames => cases hb
  | block c hopening =>
    cases hb
    exact List.mem_cons_self

theorem marked_of_origin {line : Nat} {n : Node} (h : OriginAt lines line n) {l : Lexeme}
    (hl : l ∈ n.bare.lexemes) (hfirst : ∀ b, n = .block b → l = b.opening) :
    ∃ raw, lines[line]? = some raw ∧ Line.Holds { number := line, raw } l := by
  obtain ⟨raw, hraw, hstands | ⟨b, rfl, hopening⟩⟩ := h.standsOn
  · exact ⟨raw, hraw, hstands.lexemes l hl⟩
  · refine ⟨raw, hraw, ?_⟩
    rw [hfirst b rfl, hopening]
    exact Line.holds_whole _

/-- Every lexeme of a node stands in the text. -/
theorem covers_lexeme {limit line : Nat} {n : Node}
    (hn : (analyzeLines limit lines).nodeAt? line = some n) {l : Lexeme} (hl : l ∈ n.lexemes) :
    l.span.Covers lines l.text.toList := by
  have horigin := originAt_analyzeLines hn
  have hblock : ∀ b, n.codeBlock? = some b → l ∈ b.lexemes → l.span.Covers lines l.text.toList := by
    intro b hb hl
    rcases List.mem_cons.1 hl with rfl | hl
    · obtain ⟨raw, hraw, hholds⟩ := marked_of_origin horigin (horigin.opening hb)
        fun c hc => by rw [hc] at hb; exact congrArg _ (Option.some.inj hb).symm
      exact covers_of_holds hraw hholds
    · rw [Option.mem_toList] at hl
      obtain ⟨raw, hraw, -, -, hclosing, -⟩ := (blockLines_analyzeLines limit lines hn hb).closed
        (Option.isSome_iff_exists.2 ⟨l, hl⟩)
      obtain rfl := Option.some.inj (hl.symm.trans hclosing)
      exact covers_of_holds hraw (Line.holds_whole _)
  rcases Node.mem_lexemes_bare hl with hbare | ⟨b, hb, hl⟩
  · by_cases hkind : ∃ b, n = .block b
    · obtain ⟨b, rfl⟩ := hkind
      exact hblock b rfl hl
    · obtain ⟨raw, hraw, hholds⟩ := marked_of_origin horigin hbare fun b hb => absurd ⟨b, hb⟩ hkind
      exact covers_of_holds hraw hholds
  · exact hblock b hb hl

theorem marked_openRule {o : OpenRule} (ho : (after lines).reader.rule? = some o) :
    o.span.Marked lines := by
  obtain ⟨line, r, ⟨raw, hraw, horigin⟩, -, hspan⟩ := originAt_openRule lines ho
  refine ⟨{ number := line, raw }, hraw, ?_⟩
  cases horigin with
  | shape hblock shape hshape _ hbare hopening =>
    have hread := congrArg Node.span hbare
    rw [Node.span_read, nextLine_take hraw] at hread
    change r.span = _ at hread
    rw [hspan, hread]
    exact Line.marks_span _

theorem marked_openBlock {b : CodeBlock} (hb : (after lines).reader.block? = some b) :
    b.opening.span.Marked lines := by
  have hopened := (opened_after lines).pending b hb
  cases hkind : b.isInline with
  | false =>
    obtain ⟨raw, hraw, -, hmark⟩ := (hopened hkind).mark
    refine ⟨{ number := b.startLine, raw }, hraw, ?_⟩
    rw [hmark]
    exact Line.marks_span _
  | true =>
    obtain ⟨-, front, slot, k, hslots, hlength, hkeeps⟩ := (accounted_after lines).reserved b hb
    rw [Keeps, if_pos hkind] at hkeeps
    obtain ⟨p, walker, rfl, hbody⟩ := hkeeps
    have horigin := originAt_after lines front.length (.pragma p) (by rw [hslots]; simp)
    obtain ⟨raw, hraw, hholds⟩ := marked_of_origin horigin (l := b.opening)
      (by simp [Node.bare, Pragma.bare, hbody, Node.lexemes, PragmaBody.parts]) (by simp)
    exact ⟨_, hraw, hholds.marks⟩

theorem marked_overdue {r : Reader} (hline : lines[r.line.number]? = some r.line.raw)
    (hrule : ∀ rule, r.rule? = some rule → rule.span.Marked lines) {d : Diagnostic}
    (hd : d ∈ r.overdue) : d.span.Marked lines := by
  unfold Reader.overdue at hd
  split at hd
  · rcases List.mem_cons.1 hd with rfl | hd
    · exact ⟨r.line, hline, Line.marks_span _⟩
    · split at hd
      · next rule hsome =>
        split at hd
        · rw [List.mem_singleton.1 hd]
          exact hrule rule hsome
        · cases hd
      · cases hd
  · cases hd

theorem marked_remark {raw : String} {d : Diagnostic}
    (hd : Remark ((after lines).nextLine raw) (after lines).reader.block? d) :
    d.span.Marked (lines ++ [raw]) := by
  have hline := nextLine_concat lines raw
  cases hd with
  | own hown hmarks => exact ⟨_, hline, hmarks⟩
  | refusal cause hcause hraw => exact ⟨_, hline, Line.marks_span _⟩
  | unexpected => exact ⟨_, hline, Line.marks_span _⟩
  | external walker interface b hb => exact (marked_openBlock hb).append [raw]

/-- Everything is reported at a part of one of the lines. -/
theorem marked_after (lines : List String) :
    ∀ d ∈ (after lines).reader.diagnostics, d.span.Marked lines := by
  induction lines using after_induction with
  | nil => exact fun d hd => by cases hd
  | turn lines raw a' ih hturn =>
    obtain ⟨ds, hds, hremarks⟩ := diagnostics_turn hturn
    intro d hd
    rw [hds] at hd
    rcases List.mem_append.1 hd with hd | hd
    · rcases List.mem_append.1 hd with hd | hd
      · exact (ih d hd).append [raw]
      · unfold due at hd
        split at hd
        · exact marked_overdue (r := ((after lines).moveTo raw).reader) (nextLine_concat lines raw)
            (fun rule hrule => (marked_openRule hrule).append [raw]) hd
        · cases hd
    · exact marked_remark (hremarks d hd)

/-- The reader is at the last of the lines. -/
theorem line_after (h : lines ≠ []) :
    lines[(after lines).reader.line.number]? = some (after lines).reader.line.raw := by
  obtain ⟨front, raw, rfl⟩ := (List.eq_nil_or_concat' lines).resolve_left h
  rw [after_concat, line_turn (turn_step (coherent_after front) raw)]
  exact nextLine_concat front raw

theorem marked_outstanding {d : Diagnostic} (hd : d ∈ (after lines).outstanding) :
    d.span.Marked lines := by
  unfold outstanding at hd
  split at hd
  · next b hb =>
    rw [List.mem_singleton.1 hd]
    exact marked_openBlock hb
  · by_cases hlines : lines = []
    · subst hlines
      cases hd
    · exact marked_overdue (line_after hlines) (fun rule => marked_openRule) hd

/-- Also the report that stops a run. -/
theorem marked_run (limit : Nat) (lines : List String) :
    ∀ d ∈ (run limit lines).reader.diagnostics, d.span.Marked lines := by
  cases haborted : (run limit lines).aborted with
  | false =>
    rw [run_of_running haborted]
    exact marked_after lines
  | true =>
    obtain ⟨front, raw, rest, rfl, hover⟩ := exists_overruns_of_aborted haborted
    rw [run_eq_halt hover]
    intro d hd
    have hfront : front ++ raw :: rest = (front ++ [raw]) ++ rest := by simp
    rw [hfront]
    refine Span.Marked.append ?_ rest
    rcases List.mem_append.1 hd with hd | hd
    · exact marked_after _ d hd
    · rw [List.mem_singleton.1 hd]
      exact ⟨_, line_after (by simp), Line.marks_span _⟩

/-- What a node owes is owed where one of its names is written. -/
theorem exists_name_of_obligation {n : Node} {above : List Definition} {use : Pending}
    (h : use ∈ n.obligations above) : ∃ l ∈ n.words, use.span = l.span := by
  cases n with
  | rule r =>
    rcases List.mem_append.1 h with h | h
    · rw [RuleDef.owedElements_eq] at h
      obtain ⟨e, he, huse⟩ := List.mem_filterMap.1 h
      obtain ⟨s, -, rfl⟩ := Option.map_eq_some_iff.1 huse
      exact ⟨e.name, List.mem_cons_of_mem _ (List.mem_map_of_mem he), rfl⟩
    · split at h
      · cases h
      · obtain ⟨d, -, huse⟩ := List.mem_filterMap.1 h
        refine ⟨r.name, List.mem_cons_self, ?_⟩
        unfold RuleDef.owedBlock? at huse
        split at huse
        · split at huse
          · cases huse; rfl
          · cases huse
        · cases huse
  | token t =>
    simp only [Node.obligations, TokenDef.obligations] at h
    split at h
    · obtain ⟨mode, hmode, rfl⟩ := List.mem_map.1 h
      exact ⟨mode, List.mem_cons_of_mem _ hmode, rfl⟩
    · cases h
  | pragma p =>
    obtain ⟨mark, name, parameters, keyword?, body, span⟩ := p
    cases body with
    | associativity associativity tokens =>
      obtain ⟨token, htoken, rfl⟩ := List.mem_map.1 h
      exact ⟨token, (List.mem_filter.1 htoken).1, rfl⟩
    | function decl =>
      simp only [Node.obligations, PragmaBody.obligations, FunctionDecl.obligations] at h
      split at h
      · rcases List.mem_cons.1 h with rfl | h
        · exact ⟨decl.rule, List.mem_cons_self, rfl⟩
        · split at h
          · cases h
          · obtain ⟨d, -, rfl⟩ := List.mem_map.1 h
            exact ⟨decl.function, by simp [Node.words, PragmaBody.words, FunctionDecl.words], rfl⟩
      · cases h
    | lexerInclude mode | start rule =>
      rw [List.mem_singleton.1 h]
      exact ⟨_, List.mem_singleton_self _, rfl⟩
    | _ => cases h
  | _ => cases h

/-- The names of a node stand on its line. -/
theorem standsOn_name {limit line : Nat} {n : Node}
    (hn : (analyzeLines limit lines).nodeAt? line = some n) {l : Lexeme} (hl : l ∈ n.words) :
    ∃ raw, lines[line]? = some raw ∧ n.bare.StandsOn { number := line, raw } ∧
      Line.HoldsWord { number := line, raw } l := by
  obtain ⟨raw, hraw, hstands | ⟨b, rfl, -⟩⟩ := (originAt_analyzeLines hn).standsOn
  · rw [← Node.words_bare] at hl
    exact ⟨raw, hraw, hstands, hstands.words l hl⟩
  · cases hl

/-- A name is found on the line of its node. -/
theorem line_of_contains {limit line : Nat} {n : Node}
    (hn : (analyzeLines limit lines).nodeAt? line = some n) {l : Lexeme} (hl : l ∈ n.words)
    {p : Position} (hp : l.contains p = true) : p.line = line := by
  obtain ⟨raw, -, -, hword⟩ := standsOn_name hn hl
  have hline : p.line = l.line := by
    simp only [Lexeme.contains, Bool.and_eq_true, beq_iff_eq] at hp
    exact hp.1
  exact hline.trans hword.holds.number_eq

/-- A name of a node stands in the text. -/
theorem marked_name {limit : Nat} {n : Node} (hn : n ∈ (analyzeLines limit lines).nodeList) {l : Lexeme}
    (hl : l ∈ n.words) : l.span.Marked lines := by
  obtain ⟨line, hline⟩ := Document.mem_nodeList.1 hn
  obtain ⟨raw, hraw, -, hword⟩ := standsOn_name hline hl
  exact ⟨_, hraw, hword.holds.marks⟩

theorem marked_undefined {limit : Nat} {d : Diagnostic} (hd : d ∈ (run limit lines).undefinedWarnings) :
    d.span.Marked lines := by
  obtain ⟨use, huse, rfl⟩ := List.mem_map.1 hd
  rw [← index_conclude, (accounted_run limit lines).conclude.unresolved_eq] at huse
  obtain ⟨n, hn, above, huse⟩ := exists_of_mem_obligationsFrom (List.mem_filter.1 huse).1
  obtain ⟨l, hl, hspan⟩ := exists_name_of_obligation huse
  rw [Diagnostic.span_of, hspan]
  exact @marked_name _ limit _ hn _ hl

theorem marked_analyzeLines (limit : Nat) (lines : List String) :
    ∀ d ∈ (analyzeLines limit lines).diagnostics, d.span.Marked lines := by
  intro d hd
  rw [analyzeLines] at hd
  cases haborted : (run limit lines).aborted with
  | true =>
    rw [diagnostics_finish_of_stopped haborted] at hd
    rcases List.mem_append.1 hd with hd | hd
    · exact marked_run limit lines d hd
    · exact marked_undefined hd
  | false =>
    rw [diagnostics_finish_of_running haborted] at hd
    rcases List.mem_append.1 hd with hd | hd
    · rcases List.mem_append.1 hd with hd | hd
      · exact marked_run limit lines d hd
      · rw [run_of_running haborted] at hd
        exact marked_outstanding hd
    · exact marked_undefined hd

end Analysis

open Analysis in
/-- Every lexeme of a node has a closed span on one line of the text and is what stands there, and every
diagnostic has such a span. -/
theorem positions_exact (limit : Nat) (text : String) :
    (∀ n ∈ (analyze limit text).nodeList, ∀ l ∈ n.lexemes,
      l.span.Covers (Text.lines text) l.text.toList) ∧
    ∀ d ∈ (analyze limit text).diagnostics, ∃ cs, d.span.Covers (Text.lines text) cs := by
  refine ⟨fun n hn l hl => ?_, fun d hd => (marked_analyzeLines limit _ d hd).covers⟩
  obtain ⟨line, hline⟩ := Document.mem_nodeList.1 hn
  exact covers_lexeme hline hl

end LineGrammar
