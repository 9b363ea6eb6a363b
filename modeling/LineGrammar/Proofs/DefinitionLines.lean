import LineGrammar.Proofs.Partition
import LineGrammar.Proofs.Positions
import LineGrammar.Proofs.RuleBodies
import LineGrammar.Proofs.TokenValues
import LineGrammar.Proofs.Truncation
import Mathlib.Data.List.Forall2

/-! Lines that define rules and tokens. What such a line gives depends on whether the text behind its
operator has the form of a rule body or of a token value, and on whether it is terminated: this decides what
is reported, which node the line has, and what is entered into the index. -/

namespace LineGrammar

open Analysis

/-- A line that is read outside of code blocks. Below the line at which an analysis stops, if it does, no
line is read, and so none is a definition. -/
structure ReadsLine (limit : Nat) (lines : List String) (line : Line) : Prop where
  raw : lines[line.number]? = some line.raw
  running : (run limit (lines.take line.number)).aborted = false
  outside : (run limit (lines.take line.number)).reader.block? = none

/-- The index after the lines before the given one. -/
def indexBefore (limit : Nat) (lines : List String) (line : Nat) : Index :=
  (run limit (lines.take line)).index

namespace ReadsLine

section
variable {limit : Nat} {lines : List String} {line : Line} (h : ReadsLine limit lines line)
include h

theorem nextLine : (after (lines.take line.number)).nextLine line.raw = line :=
  nextLine_take h.raw

theorem length_take : (lines.take line.number).length = line.number :=
  List.length_take_of_le (Nat.le_of_lt (List.getElem?_eq_some_iff.1 h.raw).1)

theorem take_succ : lines.take (line.number + 1) = lines.take line.number ++ [line.raw] := by
  rw [List.take_add_one, h.raw]
  rfl

theorem run_take : run limit (lines.take line.number) = after (lines.take line.number) :=
  run_of_running h.running

theorem block?_after : (after (lines.take line.number)).reader.block? = none := by
  rw [← h.run_take]
  exact h.outside

theorem readsUpTo : ∃ k, line.number < k ∧ ReadsUpTo limit lines k := by
  have herrors := errors_le_of_running h.running
  obtain ⟨k, hk, hreads⟩ := readsUpTo_of_errors_le herrors line.raw (lines.drop (line.number + 1))
  rw [h.length_take] at hk
  rw [List.append_cons, ← h.take_succ, List.take_append_drop] at hreads
  exact ⟨k, hk, hreads⟩

variable {shape : Shape} (hshape : Shape.of? line.body = some shape)
include hshape

/-- What is read on the line is taken over, and all that was expected before is given up. -/
theorem step : (after (lines.take line.number)).step line.raw =
    ((after (lines.take line.number)).giveUp line.raw).accept
      (Node.read line (indexBefore limit lines line.number) shape) := by
  have hnext := h.nextLine
  have hindex : indexBefore limit lines line.number = (after (lines.take line.number)).index :=
    congrArg Analysis.index h.run_take
  have hcoherent := coherent_after (lines.take line.number)
  have hblock := h.block?_after
  rw [hindex]
  generalize after (lines.take line.number) = a at *
  rw [← hnext] at hshape
  rw [step_shape hblock hshape, hnext,
    prepare_of_not_opens hcoherent hblock (not_opens_of_shape hshape).1]

theorem indexBefore_succ : indexBefore limit lines (line.number + 1) =
    (Node.read line (indexBefore limit lines line.number) shape).index := by
  have hstep := h.step hshape
  have hrun : run limit (lines.take (line.number + 1)) =
      ((after (lines.take line.number)).step line.raw).checkLimit limit := by
    rw [h.take_succ, run, List.foldl_append, ← run, h.run_take]
    exact if_neg (by simp)
  rw [indexBefore, hrun, hstep]
  unfold checkLimit
  split <;> rfl

/-- What is reported on the line for its node is reported when it is read. -/
theorem reportsAt_line {code : String} (hcode : IsImmediate code) :
    reportsAt code line.number (analyzeLines limit lines).diagnostics =
      reportsAt code line.number
        (Node.read line (indexBefore limit lines line.number) shape).problems := by
  obtain ⟨k, hlt, hreads⟩ := h.readsUpTo
  have htake : (lines.take k).take line.number = lines.take line.number := by
    rw [List.take_take, Nat.min_eq_left (Nat.le_of_lt hlt)]
  have hraw : (lines.take k)[line.number]? = some line.raw := by
    rw [List.getElem?_take_of_lt hlt, h.raw]
  have hoverdue : ∀ d ∈ ((after (lines.take line.number)).moveTo line.raw).reader.overdue,
      d.code = code → d.span.start.line ≠ line.number := fun d hd hd' =>
    absurd (hd' ▸ hcode) (not_immediate_of_overdue hd)
  have hreported : ((after ((lines.take k).take line.number)).step line.raw).reader.diagnostics =
      (after ((lines.take k).take line.number)).reader.diagnostics ++
        (((after (lines.take line.number)).moveTo line.raw).reader.overdue ++
          (Node.read line (indexBefore limit lines line.number) shape).problems) := by
    rw [htake, h.step hshape, diagnostics_accept, giveUp, List.append_assoc]
  rw [reportsAt_of_readsUpTo hreads hcode, Analysis.reportsAt_line hraw hreported hcode,
    reportsAt_append, reportsAt_eq_nil hoverdue, List.nil_append]

/-- The node of the line, if it opens no block. -/
theorem nodeAt?_line
    (hopens : ∀ b, (Node.read line (indexBefore limit lines line.number) shape).sequel ≠ .body b) :
    (analyzeLines limit lines).nodeAt? line.number =
      some (Node.read line (indexBefore limit lines line.number) shape).node := by
  obtain ⟨k, hlt, hreads⟩ := h.readsUpTo
  have hafter : after (lines.take (line.number + 1)) =
      ((after (lines.take line.number)).giveUp line.raw).accept
        (Node.read line (indexBefore limit lines line.number) shape) := by
    rw [h.take_succ, after_concat, h.step hshape]
  have hblock : (after (lines.take (line.number + 1))).reader.block? = none := by
    cases hb : (after (lines.take (line.number + 1))).reader.block? with
    | none => rfl
    | some b =>
      rw [hafter] at hb
      rcases Reader.block?_follow hb with hsequel | hbefore
      · exact absurd hsequel (hopens b)
      · cases hbefore
  have hsettled : line.number < (after (lines.take (line.number + 1))).settled := by
    rw [settled_none hblock, size_after, h.take_succ, List.length_append, h.length_take]
    exact Nat.lt_succ_self _
  have hslots : ((after (lines.take line.number)).giveUp line.raw).slots.toList.length = line.number := by
    rw [Array.length_toList]
    exact (size_after _).trans h.length_take
  rw [nodeAt?_settled hreads hlt line.number hsettled, hafter, slots_accept, Array.toList_push,
    List.getElem?_append_right (Nat.le_of_eq hslots), hslots, Nat.sub_self]
  rfl

end

end ReadsLine

/-- What is wrong with the elements of a body is another thing than the form of the body. -/
theorem RuleElement.code_of_problems {anchored : Bool} {es : List RuleElement} {d : Diagnostic}
    (h : d ∈ RuleElement.problems anchored es) : d.code ∈ ["E0306", "E0307", "E0308"] := by
  induction es generalizing anchored with
  | nil => cases h
  | cons e es ih =>
    rcases List.mem_append.1 h with h | h
    · rcases List.mem_append.1 h with h | h
      · unfold anchorProblems at h
        split at h
        · split at h
          · rw [List.mem_singleton.1 h]
            simp [Cause.code]
          · cases h
        · cases h
      · unfold nameProblems at h
        split at h
        · rw [List.mem_singleton.1 h]
          simp [Cause.code]
        · split at h
          · cases h
          · dsimp only at h
            split at h <;> split at h
            all_goals first | (rw [List.mem_singleton.1 h]; simp [Cause.code]) | cases h
    · exact ih h

namespace RuleDef

section
variable (line : Line) (name : Slice) (alias? : Option Slice) (operator : Slice) {rest : Slice}
  (ix : Index)

theorem terminated_read : (read line name alias? operator rest ix).node.terminated = true ↔
    rest.chars.getLast? = some ';' :=
  rest.isTerminated_cutTerminator

theorem sequel_read_ne_body (b : CodeBlock) :
    (read line name alias? operator rest ix).sequel ≠ .body b := by
  intro h
  change (read line name alias? operator rest ix).node.sequel = .body b at h
  unfold sequel at h
  split at h <;> cases h

theorem elements_read : (read line name alias? operator rest ix).node.elements =
    (rest.cutTerminator.1.elements?.getD []).map (RuleElement.ofShape line) := rfl

theorem problems_read : (read line name alias? operator rest ix).problems =
    (if rest.cutTerminator.1.elements?.isSome then []
      else [.of .invalidRuleBody (line.lexeme rest.cutTerminator.1).span]) ++
      RuleElement.problems false (read line name alias? operator rest ix).node.elements := rfl

variable (hhead : ∀ c ∈ rest.chars.head?, isBlank c = false)
include hhead

/-- A body that has the form of one is read as the elements it is written with. -/
theorem read_of_isBody {es : List ElementShape}
    (h : IsBody rest.ruleBody.column rest.ruleBody.chars es) :
    (read line name alias? operator rest ix).node.elements = es.map (RuleElement.ofShape line) ∧
      reportsAt "E0103" line.number (read line name alias? operator rest ix).problems = [] := by
  have hread : rest.cutTerminator.1.elements? = some es := by
    rw [Slice.cutTerminator_of_head hhead]
    exact Slice.elements?_of_isBody h
  rw [problems_read, elements_read, hread]
  refine ⟨rfl, reportsAt_eq_nil fun d hd hcode => ?_⟩
  exact absurd (hcode ▸ RuleElement.code_of_problems hd) (by decide)

/-- Any other body is reported and has no elements. -/
theorem read_of_not_isBody (h : ∀ es, ¬IsBody rest.ruleBody.column rest.ruleBody.chars es) :
    (read line name alias? operator rest ix).node.elements = [] ∧
      reportsAt "E0103" line.number (read line name alias? operator rest ix).problems =
        [.of .invalidRuleBody (line.lexeme rest.ruleBody).span] := by
  have htrim := rest.trimmed_ruleBody
  have hread : rest.ruleBody.elements? = none :=
    Option.eq_none_iff_forall_ne_some.2 fun es hes =>
      h es ((Slice.elements?_eq_some_iff htrim.head htrim.last).1 hes)
  rw [problems_read, elements_read, Slice.cutTerminator_of_head hhead, hread]
  exact ⟨rfl, reportsAt_self (.of .invalidRuleBody (line.lexeme rest.ruleBody).span)⟩

end

end RuleDef

/-- The lexeme has the text of the slice and takes its columns on the line. -/
structure Lexeme.WrittenAs (l : Lexeme) (line : Nat) (s : Slice) : Prop where
  text : l.text.toList = s.chars
  span : l.span = .onLine line s.column (s.column + s.chars.length)

theorem Lexeme.writtenAs_iff {l : Lexeme} {line : Nat} {s : Slice} :
    l.WrittenAs line s ↔ l = s.lexeme line := by
  constructor
  · rintro ⟨htext, hspan⟩
    obtain ⟨text, span⟩ := l
    obtain rfl : text = s.text := by
      rw [← String.toList_inj, Slice.text, String.toList_ofList]
      exact htext
    obtain rfl : span = .onLine line s.column s.stop := hspan
    rfl
  · rintro rfl
    exact ⟨String.toList_ofList, rfl⟩

/-- Each part of the element is written as it stands in the text of a body, and no part is missing. -/
structure RuleElement.WrittenAs (e : RuleElement) (line : Nat) (shape : ElementShape) : Prop where
  anchor? : Option.Rel (fun l s => l.WrittenAs line s) e.anchor? shape.anchor?
  name : e.name.WrittenAs line shape.name
  alias? : Option.Rel (fun l s => l.WrittenAs line s) e.alias? shape.alias?

theorem RuleElement.writtenAs_iff {e : RuleElement} {line : Line} {shape : ElementShape} :
    e.WrittenAs line.number shape ↔ e = ofShape line shape := by
  have hpart : ∀ {l? : Option Lexeme} {s? : Option Slice},
      Option.Rel (fun l s => l.WrittenAs line.number s) l? s? ↔ l? = s?.map line.lexeme := by
    intro l? s?
    constructor
    · intro h
      cases h with
      | none => rfl
      | some h => exact congrArg some (Lexeme.writtenAs_iff.1 h)
    · rintro rfl
      cases s? with
      | none => exact .none
      | some s => exact .some (Lexeme.writtenAs_iff.2 rfl)
  constructor
  · rintro ⟨hanchor, hname, halias⟩
    obtain ⟨anchor?, name, alias?⟩ := e
    obtain rfl := hpart.1 hanchor
    obtain rfl := Lexeme.writtenAs_iff.1 hname
    obtain rfl := hpart.1 halias
    rfl
  · rintro rfl
    exact ⟨hpart.2 rfl, Lexeme.writtenAs_iff.2 rfl, hpart.2 rfl⟩

theorem RuleElement.forall₂_writtenAs {es : List RuleElement} {line : Line} {shapes : List ElementShape} :
    List.Forall₂ (fun e shape => e.WrittenAs line.number shape) es shapes ↔
      es = shapes.map (ofShape line) := by
  simp only [writtenAs_iff]
  rw [← List.forall₂_eq_eq_eq, List.forall₂_map_right_iff]

/-- A line that defines a rule. Behind its operator stands a body, and possibly a terminator; a text that is
no body is reported once, and the rule has then no elements. -/
theorem rule_body_read (limit : Nat) (text : String) {line : Line}
    (hline : ReadsLine limit (Text.lines text) line) {name operator rest : Slice}
    {alias? : Option Slice} (hshape : Shape.of? line.body = some (.rule name alias? operator rest)) :
    ∃ r, (analyze limit text).nodeAt? line.number = some (.rule r) ∧
      (r.terminated = true ↔ rest.chars.getLast? = some ';') ∧
      (reportsAt "E0103" line.number (analyze limit text).diagnostics = [] ↔
        ∃ es, IsBody rest.ruleBody.column rest.ruleBody.chars es) ∧
      (∀ es, IsBody rest.ruleBody.column rest.ruleBody.chars es →
        List.Forall₂ (fun e shape => e.WrittenAs line.number shape) r.elements es ∧
          ∀ es', IsBody rest.ruleBody.column rest.ruleBody.chars es' → es' = es) ∧
      ((∀ es, ¬IsBody rest.ruleBody.column rest.ruleBody.chars es) →
        reportsAt "E0103" line.number (analyze limit text).diagnostics =
            [.of .invalidRuleBody (line.lexeme rest.ruleBody).span] ∧
          r.elements = []) := by
  have hhead : ∀ c ∈ rest.chars.head?, isBlank c = false := by
    obtain ⟨_, _, _, _, hrule, -, -, -, _, _, tail, -, -, -, hrest⟩ :=
      Shape.rule?_eq_some (Shape.rule?_of_of? hshape)
    cases hrule
    rw [hrest]
    exact (Text.trimmed_trim tail).head
  have hreports : reportsAt "E0103" line.number (analyze limit text).diagnostics =
      reportsAt "E0103" line.number (RuleDef.read line name alias? operator rest
        (indexBefore limit (Text.lines text) line.number)).problems :=
    hline.reportsAt_line hshape (by decide)
  have hnode := hline.nodeAt?_line hshape (RuleDef.sequel_read_ne_body line name alias? operator _)
  have hbody := fun es (hes : IsBody rest.ruleBody.column rest.ruleBody.chars es) =>
    RuleDef.read_of_isBody line name alias? operator
      (indexBefore limit (Text.lines text) line.number) hhead hes
  have hnone := RuleDef.read_of_not_isBody line name alias? operator
    (indexBefore limit (Text.lines text) line.number) hhead
  rw [← hreports] at hnone
  refine ⟨_, hnode, RuleDef.terminated_read line name alias? operator _, ?_, ?_, ?_⟩
  · constructor
    · intro hquiet
      by_cases hes : ∃ es, IsBody rest.ruleBody.column rest.ruleBody.chars es
      · exact hes
      · rw [(hnone (not_exists.1 hes)).2] at hquiet
        cases hquiet
    · rintro ⟨es, hes⟩
      rw [hreports]
      exact (hbody es hes).2
  · exact fun es hes => ⟨RuleElement.forall₂_writtenAs.2 (hbody es hes).1,
      fun es' hes' => hes'.unique hes⟩
  · exact fun hes => ⟨(hnone hes).2, (hnone hes).1⟩

/-- An anchored element with an alias, a gap of two blanks, and a blank before the terminator. -/
theorem rule_body_read_anchored :
    ReadsLine 25 (Text.lines "r := ^A( x)  b ;") { number := 0, raw := "r := ^A( x)  b ;" } ∧
      Shape.of? (Line.body { number := 0, raw := "r := ^A( x)  b ;" }) =
        some (.rule ⟨0, ['r']⟩ none ⟨2, [':', '=']⟩ ⟨5, "^A( x)  b ;".toList⟩) ∧
      ∃ r, (analyze 25 "r := ^A( x)  b ;").nodeAt? 0 = some (.rule r) ∧ r.terminated = true ∧
        reportsAt "E0103" 0 (analyze 25 "r := ^A( x)  b ;").diagnostics = [] ∧
        r.elements =
          [⟨some ⟨"^", .onLine 0 5 6⟩, ⟨"A", .onLine 0 6 7⟩, some ⟨"x", .onLine 0 9 10⟩⟩,
            ⟨none, ⟨"b", .onLine 0 13 14⟩, none⟩] := by
  have hline : ReadsLine 25 (Text.lines "r := ^A( x)  b ;") { number := 0, raw := "r := ^A( x)  b ;" } :=
    ⟨by decide +kernel, by decide +kernel, by decide +kernel⟩
  have hshape : Shape.of? (Line.body { number := 0, raw := "r := ^A( x)  b ;" }) =
      some (.rule ⟨0, ['r']⟩ none ⟨2, [':', '=']⟩ ⟨5, "^A( x)  b ;".toList⟩) := rfl
  have haliased : IsElement 6 (['A'] ++ '(' :: ([' '] ++ (['x'] ++ ([] ++ [')']))))
      ⟨none, ⟨6, ['A']⟩, some ⟨9, ['x']⟩⟩ :=
    .aliased (by decide) (by simp; decide) (by decide) (List.forall_mem_nil _)
  have hlast : IsBody 13 ['b'] [⟨none, ⟨13, ['b']⟩, none⟩] := .last (.name (by decide))
  have hbody : IsBody 5 ("^A( x)".toList ++ ([' ', ' '] ++ ['b']))
      [⟨some ⟨5, ['^']⟩, ⟨6, ['A']⟩, some ⟨9, ['x']⟩⟩, ⟨none, ⟨13, ['b']⟩, none⟩] :=
    .more (.anchored haliased) (by decide) (by simp; decide) hlast
  have hslice : (⟨5, "^A( x)  b ;".toList⟩ : Slice).ruleBody = ⟨5, "^A( x)  b".toList⟩ := by
    decide +kernel
  obtain ⟨r, hnode, hterminated, hquiet, helements, -⟩ :=
    rule_body_read 25 "r := ^A( x)  b ;" hline hshape
  rw [hslice] at hquiet helements
  exact ⟨hline, hshape, r, hnode, hterminated.2 (by decide), hquiet.2 ⟨_, hbody⟩,
    RuleElement.forall₂_writtenAs.1 (helements _ hbody).1⟩

section
variable (limit : Nat) (text : String) (line : Line) (rest : Slice)

/-- The text behind the operator of a token is no value. This is reported, and no more comes of it. -/
structure TokenRefused : Prop where
  malformed : ∀ value, ¬IsTokenValue rest.column rest.chars value
  reported : reportsAt "E0102" line.number (analyze limit text).diagnostics =
    [line.problem .invalidTokenDefinition]
  quiet : reportsAt "E0105" line.number (analyze limit text).diagnostics = []
  unregistered : indexBefore limit (Text.lines text) (line.number + 1) =
    indexBefore limit (Text.lines text) line.number

/-- The text behind the operator of a token is a value without a terminator. The terminator is reported as
missing at the end of the line, and no more comes of it. -/
structure TokenUnterminated (value : TokenValue) : Prop where
  written : IsTokenValue rest.column rest.chars value
  unterminated : value.terminated = false
  quiet : reportsAt "E0102" line.number (analyze limit text).diagnostics = []
  reported : reportsAt "E0105" line.number (analyze limit text).diagnostics =
    [.of .missingTerminator line.endSpan]
  unregistered : indexBefore limit (Text.lines text) (line.number + 1) =
    indexBefore limit (Text.lines text) line.number

/-- The text behind the operator of a token is a value with a terminator. The token is defined once more,
with its literal, and is not waited for any longer. -/
structure TokenDefined (name : Slice) (value : TokenValue) : Prop where
  written : IsTokenValue rest.column rest.chars value
  terminated : value.terminated = true
  quiet : reportsAt "E0102" line.number (analyze limit text).diagnostics = [] ∧
    reportsAt "E0105" line.number (analyze limit text).diagnostics = []
  definitions : ∀ s, (indexBefore limit (Text.lines text) (line.number + 1)).definitionsOf s =
    (indexBefore limit (Text.lines text) line.number).definitionsOf s ++
      if .token name.text = s then
        [⟨.token name.text, (line.lexeme name).span, line.span, .token value.literal.text⟩]
      else []
  settled : ∀ use ∈ (indexBefore limit (Text.lines text) (line.number + 1)).pending,
    use.symbol ≠ .token name.text

end

namespace TokenDef

section
variable (line : Line) (name operator : Slice) {rest : Slice} (ix : Index)

/-- The definition without its value. -/
def bare : TokenDef :=
  { name := line.lexeme name, operator := line.lexeme operator, span := line.span }

theorem read_of_none (h : rest.tokenValue? = none) : read line name operator rest ix =
    { node := bare line name operator, problems := [line.problem .invalidTokenDefinition],
      index := ix } := by
  rw [read, h]
  rfl

theorem read_of_some {value : TokenValue} (h : rest.tokenValue? = some value) :
    read line name operator rest ix =
      { node := (bare line name operator).fill line value
        problems := line.checkTerminator value.terminated
        index := if value.terminated then ((bare line name operator).fill line value).register ix
          else ix } := by
  rw [read, h]
  rfl

variable {value : TokenValue} (hterminated : value.terminated = true)
include hterminated

theorem definitions_fill : ((bare line name operator).fill line value).definitions =
    [⟨.token name.text, (line.lexeme name).span, line.span, .token value.literal.text⟩] := by
  simp only [definitions, fill, hterminated, if_true]
  rfl

theorem definitionsOf_register (s : Symbol) :
    (((bare line name operator).fill line value).register ix).definitionsOf s =
      ix.definitionsOf s ++ if .token name.text = s then
        [⟨.token name.text, (line.lexeme name).span, line.span, .token value.literal.text⟩] else [] := by
  rw [Index.definitionsOf_of_addAll (buckets_register _ ix), definitions_fill _ _ _ hterminated]
  by_cases hs : Symbol.token name.text = s <;> simp [hs]

/-- Nothing waits for a token that has been defined. -/
theorem pending_register :
    ∀ use ∈ (((bare line name operator).fill line value).register ix).pending,
      use.symbol ≠ .token name.text := by
  have hentered : ∀ use ∈ (ix.enterAll ((bare line name operator).fill line value).definitions).pending,
      use.symbol ≠ .token name.text := by
    rw [definitions_fill _ _ _ hterminated]
    exact fun use huse => of_decide_eq_true (List.mem_filter.1 huse).2
  unfold register
  dsimp only
  split
  · unfold Index.mention
    split
    · exact hentered
    · intro use huse
      rcases List.mem_append.1 huse with huse | huse
      · exact hentered use huse
      · rw [List.mem_singleton.1 huse]
        simp [Symbol.lexerMode, Symbol.token]
  · exact hentered

end

end TokenDef

-- the three outcomes of a line that defines a token
section
variable {limit : Nat} {text : String} {line : Line} {name operator rest : Slice} {value : TokenValue}
  (hline : ReadsLine limit (Text.lines text) line)
  (hshape : Shape.of? line.body = some (.token name operator rest))
include hline hshape

/-- What comes of the line is what is read on it. -/
theorem token_effects {r : Reading TokenDef} (h : TokenDef.read line name operator rest
      (indexBefore limit (Text.lines text) line.number) = r) :
    indexBefore limit (Text.lines text) (line.number + 1) = r.index ∧
      reportsAt "E0102" line.number (analyze limit text).diagnostics =
        reportsAt "E0102" line.number r.problems ∧
      reportsAt "E0105" line.number (analyze limit text).diagnostics =
        reportsAt "E0105" line.number r.problems ∧
      (analyze limit text).nodeAt? line.number = some (.token r.node) := by
  have hsequel := (TokenDef.read_spec line name operator rest
    (indexBefore limit (Text.lines text) line.number)).2.1
  rw [← h]
  exact ⟨hline.indexBefore_succ hshape, hline.reportsAt_line hshape (by decide),
    hline.reportsAt_line hshape (by decide),
    hline.nodeAt?_line hshape fun b hb => by cases hsequel.symm.trans hb⟩

theorem token_refused (h : rest.tokenValue? = none) : TokenRefused limit text line rest := by
  obtain ⟨hindex, hmalformed, hmissing, -⟩ :=
    token_effects hline hshape (TokenDef.read_of_none _ _ _ _ h)
  refine ⟨fun value hvalue => ?_, hmalformed.trans (reportsAt_problem line .invalidTokenDefinition),
    hmissing, hindex⟩
  rw [Slice.tokenValue?_of_isTokenValue hvalue] at h
  cases h

theorem token_unterminated (h : rest.tokenValue? = some value) (hterminated : value.terminated = false) :
    TokenUnterminated limit text line rest value := by
  obtain ⟨hindex, hmalformed, hmissing, -⟩ :=
    token_effects hline hshape (TokenDef.read_of_some _ _ _ _ h)
  rw [hterminated] at hindex hmalformed hmissing
  exact ⟨Slice.isTokenValue_of_tokenValue? h, hterminated, hmalformed,
    hmissing.trans (reportsAt_self (.of .missingTerminator line.endSpan)), hindex⟩

theorem token_defined (h : rest.tokenValue? = some value) (hterminated : value.terminated = true) :
    TokenDefined limit text line rest name value := by
  obtain ⟨hindex, hmalformed, hmissing, -⟩ :=
    token_effects hline hshape (TokenDef.read_of_some _ _ _ _ h)
  rw [hterminated] at hindex hmalformed hmissing
  refine ⟨Slice.isTokenValue_of_tokenValue? h, hterminated, ⟨hmalformed, hmissing⟩, ?_, ?_⟩
  · rw [hindex]
    exact TokenDef.definitionsOf_register line name operator _ hterminated
  · rw [hindex]
    exact TokenDef.pending_register line name operator _ hterminated

end

/-- A line that defines a token. Whether the text behind its operator is a value, and whether it is
terminated, decides between three outcomes; a value is read as it is written, and can be written in one way
only. -/
theorem token_value_read (limit : Nat) (text : String) {line : Line}
    (hline : ReadsLine limit (Text.lines text) line) {name operator rest : Slice}
    (hshape : Shape.of? line.body = some (.token name operator rest)) :
    OneOf (TokenRefused limit text line rest)
        (∃ value, TokenUnterminated limit text line rest value)
        (∃ value, TokenDefined limit text line rest name value) ∧
      ∀ value, IsTokenValue rest.column rest.chars value →
        (analyze limit text).nodeAt? line.number =
            some (.token ((TokenDef.bare line name operator).fill line value)) ∧
          ∀ value', IsTokenValue rest.column rest.chars value' → value' = value := by
  refine ⟨?_, fun value hvalue => ⟨?_, fun value' hvalue' => hvalue'.unique hvalue⟩⟩
  · cases hread : rest.tokenValue? with
    | none =>
      have hrefused := token_refused hline hshape hread
      exact .inl ⟨hrefused, fun ⟨value, h⟩ => hrefused.malformed value h.written,
        fun ⟨value, h⟩ => hrefused.malformed value h.written⟩
    | some value =>
      have hvalue := Slice.isTokenValue_of_tokenValue? hread
      have hrefused : ¬TokenRefused limit text line rest := fun h => h.malformed value hvalue
      cases hterminated : value.terminated with
      | false =>
        refine .inr (.inl ⟨hrefused, ⟨value, token_unterminated hline hshape hread hterminated⟩, ?_⟩)
        rintro ⟨value', h⟩
        rw [h.written.unique hvalue] at h
        exact absurd (hterminated.symm.trans h.terminated) (by decide)
      | true =>
        refine .inr (.inr ⟨hrefused, ?_, ⟨value, token_defined hline hshape hread hterminated⟩⟩)
        rintro ⟨value', h⟩
        rw [h.written.unique hvalue] at h
        exact absurd (hterminated.symm.trans h.unterminated) (by decide)
  · exact (token_effects hline hshape
      (TokenDef.read_of_some _ _ _ _ (Slice.tokenValue?_of_isTokenValue hvalue))).2.2.2

/-- A literal with an escaped quote and a terminator in it, of a token that is used above its definition. -/
theorem token_value_read_escaped :
    ReadsLine 25 (Text.lines "r := STR;\nSTR := \"\\\";\"! [ ^ ];")
        { number := 1, raw := "STR := \"\\\";\"! [ ^ ];" } ∧
      Shape.of? (Line.body { number := 1, raw := "STR := \"\\\";\"! [ ^ ];" }) =
        some (.token ⟨0, "STR".toList⟩ ⟨4, [':', '=']⟩ ⟨7, "\"\\\";\"! [ ^ ];".toList⟩) ∧
      TokenDefined 25 "r := STR;\nSTR := \"\\\";\"! [ ^ ];"
        { number := 1, raw := "STR := \"\\\";\"! [ ^ ];" } ⟨7, "\"\\\";\"! [ ^ ];".toList⟩
        ⟨0, "STR".toList⟩
        ⟨⟨7, "\"\\\";\"".toList⟩, some ⟨12, ['!']⟩, some ⟨16, ['^']⟩, true⟩ := by
  have hline : ReadsLine 25 (Text.lines "r := STR;\nSTR := \"\\\";\"! [ ^ ];")
      { number := 1, raw := "STR := \"\\\";\"! [ ^ ];" } :=
    ⟨by decide +kernel, by decide +kernel, by decide +kernel⟩
  have hshape : Shape.of? (Line.body { number := 1, raw := "STR := \"\\\";\"! [ ^ ];" }) =
      some (.token ⟨0, "STR".toList⟩ ⟨4, [':', '=']⟩ ⟨7, "\"\\\";\"! [ ^ ];".toList⟩) := rfl
  have hbody : IsQuoted ['\\', '"', ';'] := .escaped (.plain (by decide) (by decide) .nil)
  have hmode : IsMode 14 ('[' :: ([' '] ++ (['^'] ++ ([' '] ++ [']'])))) (some ⟨16, ['^']⟩) :=
    .some (by simp; decide) (.inl rfl) (by simp; decide)
  have hvalue : IsTokenValue 7 ('"' :: (['\\', '"', ';'] ++ '"' :: (['!'] ++ ([' '] ++
      ('[' :: ([' '] ++ (['^'] ++ ([' '] ++ [']']))) ++ ([] ++ Slice.terminator true))))))
      ⟨⟨7, "\"\\\";\"".toList⟩, some ⟨12, ['!']⟩, some ⟨16, ['^']⟩, true⟩ :=
    .intro true hbody .some (by simp; decide) hmode (List.forall_mem_nil _)
  obtain ⟨⟨hrefused, -⟩ | ⟨-, ⟨value, hunterminated⟩, -⟩ | ⟨-, -, ⟨value, hdefined⟩⟩, -⟩ :=
    token_value_read 25 "r := STR;\nSTR := \"\\\";\"! [ ^ ];" hline hshape
  · exact absurd hvalue (hrefused.malformed _)
  · have hfalse := hunterminated.unterminated
    rw [hunterminated.written.unique hvalue] at hfalse
    cases hfalse
  · rw [hdefined.written.unique hvalue] at hdefined
    exact ⟨hline, hshape, hdefined⟩

end LineGrammar
