import LineGrammar.Proofs.Gathering

/-! Lines that say the same wherever they stand. A declarative line reports, uses and defines the same
whatever has been read before it; of its node only the internal name of a rule body depends on the bodies
above. So what a document of such lines says is what its lines say together. -/

namespace LineGrammar

/-- The pragmas for lexer modes and for the start rule, which are read the same on every index. -/
def Keyword.isDeclarative : Keyword → Bool
  | lexerMode | lexerInclude | start => true
  | _ => false

/-- A rule body must be terminated, since another one waits for blocks. -/
def Shape.isDeclarative : Shape → Bool
  | comment => true
  | pragma _ name _ => (Keyword.ofWord? name.text).any Keyword.isDeclarative
  | token .. => true
  | rule _ _ _ rest => rest.cutTerminator.2

/-- A blank line, a comment, a token, a rule whose body is terminated, or a pragma for a lexer mode or for
the start rule. Tokens, bodies and parameters may be malformed. -/
def isDeclarativeLine (raw : String) : Bool :=
  isBlankLine raw || (Shape.of? (Line.body { raw })).any Shape.isDeclarative

/-- What lines say: what they report, use and define. -/
structure Share where
  problems : List Diagnostic := []
  uses : List Pending := []
  symbols : List Symbol := []

namespace Share

def append (s t : Share) : Share :=
  ⟨s.problems ++ t.problems, s.uses ++ t.uses, s.symbols ++ t.symbols⟩

/-- What some lines say together. -/
def total (shares : List Share) : Share :=
  ⟨shares.flatMap problems, shares.flatMap uses, shares.flatMap symbols⟩

/-- The uses that nothing defines. -/
def undefined (s : Share) : List Pending := s.uses.filter fun use => use.symbol ∉ s.symbols

/-- All that is reported: the problems, and a warning for each use that nothing defines. -/
def diagnostics (s : Share) : List Diagnostic :=
  s.problems ++ s.undefined.map fun use => .of (.notDefined use.symbol) use.span

theorem total_concat (shares : List Share) (s : Share) :
    total (shares ++ [s]) = (total shares).append s := by
  simp [total, append]

@[simp] theorem append_empty (s : Share) : s.append {} = s := by
  simp [append]

end Share

def Reading.share (above : List Definition) (r : Reading Node) : Share :=
  ⟨r.problems, r.node.obligations above, r.node.definitions.map Definition.symbol⟩

/-- What a line says by itself. -/
def Line.share (l : Line) : Share :=
  match Shape.of? l.body with
  | some shape => (Node.read l {} shape).share []
  | none => {}

/-- What the lines of a document say together. -/
def documentShare (lines : List String) : Share :=
  .total (lines.mapIdx fun number raw => Line.share { number, raw })

/-- The parameters are read the same on every index, and owe the same under all definitions. -/
theorem PragmaBody.readBody_declarative {name : Slice}
    (h : (Keyword.ofWord? name.text).any Keyword.isDeclarative = true) (line : Line)
    (parameters : Slice) (ix : Index) (above : List Definition) :
    (readBody line name parameters ix).node = (readBody line name parameters {}).node ∧
      (readBody line name parameters ix).problems = (readBody line name parameters {}).problems ∧
      (readBody line name parameters ix).sequel = .nothing ∧
      (readBody line name parameters {}).node.obligations above =
        (readBody line name parameters {}).node.obligations [] := by
  unfold readBody
  cases hkeyword : Keyword.ofWord? name.text with
  | none =>
    rw [hkeyword] at h
    cases h
  | some keyword =>
    rw [hkeyword] at h
    cases keyword with
    | lexerMode | lexerInclude | start =>
      simp only [read?, readLexerMode?, readLexerInclude?, readStart?]
      cases parameters.singleName? <;> exact ⟨rfl, rfl, rfl, rfl⟩
    | _ => cases h

/-- What a declarative line says does not depend on what has been read before it, and nothing is asked of
the lines after it. -/
theorem Node.read_declarative {shape : Shape} (h : shape.isDeclarative = true) (line : Line) (ix : Index)
    (above : List Definition) :
    (Node.read line ix shape).share above = (Node.read line {} shape).share [] ∧
      (Node.read line ix shape).sequel = .nothing := by
  cases shape with
  | comment => exact ⟨rfl, rfl⟩
  | pragma mark name parameters =>
    obtain ⟨hnode, hproblems, hsequel, howes⟩ :=
      PragmaBody.readBody_declarative h line parameters ix above
    refine ⟨?_, hsequel⟩
    simp only [Reading.share, Node.read, Reading.map, Pragma.read_eq, Node.obligations, Node.definitions,
      hnode, hproblems, Pragma.ofBody, howes]
  | token name operator rest =>
    simp only [Reading.share, Node.read, Reading.map, TokenDef.read]
    cases rest.tokenValue? <;> exact ⟨rfl, rfl⟩
  | rule name alias? operator rest =>
    have hterminated : rest.cutTerminator.2 = true := h
    refine ⟨?_, if_pos hterminated⟩
    simp only [Reading.share, Node.read, Reading.map, RuleDef.read, Node.obligations,
      RuleDef.obligations, hterminated, if_true, Node.definitions]
    rfl

namespace Analysis

/-- What has been read so far, with nothing waited for. -/
structure Says (a : Analysis) (s : Share) : Prop where
  outside : a.reader.block? = none
  idle : a.reader.Idle
  diagnostics : a.reader.diagnostics = s.problems
  uses : obligationsFrom [] a.nodes = s.uses
  symbols : (a.nodes.flatMap Node.definitions).map Definition.symbol = s.symbols

theorem says_empty : Says {} {} := ⟨rfl, ⟨rfl, rfl, rfl, rfl⟩, rfl, rfl, rfl⟩

theorem overdue_of_idle {r : Reader} (h : r.Idle) : r.overdue = [] := by
  rw [Reader.overdue, h.block, if_neg Bool.false_ne_true]

section
variable {a : Analysis} {s : Share} (h : a.Says s) {raw : String}
include h

/-- A line that opens no block finds the analysis as it was left. -/
theorem Says.giveUp (raw : String) : (a.giveUp raw).Says s where
  outside := rfl
  idle := ⟨rfl, rfl, rfl, rfl⟩
  diagnostics := by
    have hidle : (a.moveTo raw).reader.Idle := ⟨h.idle.rule, h.idle.target, h.idle.name, h.idle.block⟩
    rw [Analysis.giveUp, overdue_of_idle hidle, List.append_nil]
    exact h.diagnostics
  uses := h.uses
  symbols := h.symbols

theorem Says.endLine : (a.endLine none).Says s := by
  have hnodes : (a.endLine none).nodes = a.nodes := by
    rw [nodes_endLine, Option.toList_none, List.append_nil]
  exact ⟨h.outside, h.idle, h.diagnostics, by rw [hnodes, h.uses], by rw [hnodes, h.symbols]⟩

/-- What the node owes is asked for under the definitions so far, so its share must not depend on them. -/
theorem Says.accept {r : Reading Node} (hsequel : r.sequel = .nothing)
    {t : Share} (hshare : ∀ above, r.share above = t) : (a.accept r).Says (s.append t) where
  outside := by
    rw [Analysis.accept, hsequel]
    exact h.outside
  idle := by
    rw [Analysis.accept, hsequel]
    exact ⟨h.idle.rule, h.idle.target, h.idle.name, h.idle.block⟩
  diagnostics := by
    rw [diagnostics_accept, h.diagnostics, ← hshare []]
    rfl
  uses := by
    rw [nodes_accept, obligationsFrom_concat, h.uses, ← hshare ([] ++ a.nodes.flatMap Node.definitions)]
    rfl
  symbols := by
    rw [nodes_accept, List.flatMap_append, List.map_append, h.symbols, List.flatMap_singleton, ← hshare []]
    rfl

/-- A declarative line adds what it says by itself. -/
theorem Says.step (hraw : isDeclarativeLine raw = true) :
    (a.step raw).Says (s.append (a.nextLine raw).share) := by
  have hcoherent := Reader.coherent_of_idle h.outside h.idle a.lateBlock
  cases hblank : isBlankLine raw with
  | true =>
    -- a blank line has no shape, so its share is empty
    have hshape : Shape.of? (a.nextLine raw).body = none := by
      cases hshape : Shape.of? (a.nextLine raw).body with
      | none => rfl
      | some shape => exact absurd (hblank.symm.trans (not_opens_of_shape hshape).2.2) (by simp)
    rw [step_blank h.outside ((Line.isBlank_eq _).trans hblank),
      prepare_of_not_opens hcoherent h.outside (not_opens_of_blank hblank).1, Line.share, hshape,
      Share.append_empty]
    exact (h.giveUp raw).endLine
  | false =>
    rw [isDeclarativeLine, hblank, Bool.false_or] at hraw
    obtain ⟨shape, hshape, hdeclarative⟩ := (Option.any_eq_true _ _).1 hraw
    change Shape.of? (a.nextLine raw).body = some shape at hshape
    rw [step_shape h.outside hshape,
      prepare_of_not_opens hcoherent h.outside (not_opens_of_shape hshape).1, Line.share, hshape]
    exact (h.giveUp raw).accept (Node.read_declarative hdeclarative _ _ []).2 fun above =>
      (Node.read_declarative hdeclarative _ _ above).1

/-- What is defined is told by the symbols. -/
theorem Says.length_definitionsOf (hbooks : Accounted a) (symbol : Symbol) :
    (a.index.definitionsOf symbol).length = s.symbols.count symbol := by
  rw [hbooks.books.records.definitionsOf, ← h.symbols, List.count_eq_countP, List.countP_map,
    List.countP_eq_length_filter]
  rfl

theorem Says.isDefined (hbooks : Accounted a) (symbol : Symbol) :
    a.index.isDefined symbol = decide (symbol ∈ s.symbols) := by
  have hlength := h.length_definitionsOf hbooks symbol
  rw [Bool.eq_iff_iff, decide_eq_true_iff, ← List.count_pos_iff, ← hlength, List.length_pos_iff]
  simp [Index.isDefined]

theorem Says.undefinedWarnings (hbooks : Accounted a) :
    a.undefinedWarnings = s.undefined.map fun use => .of (.notDefined use.symbol) use.span := by
  rw [Analysis.undefinedWarnings, hbooks.unresolved_eq, ← nodes, h.uses, Share.undefined]
  simp only [h.isDefined hbooks, decide_not]

end

/-- After declarative lines an analysis says what they say together. -/
theorem says_after {lines : List String} (h : ∀ raw ∈ lines, isDeclarativeLine raw = true) :
    (after lines).Says (documentShare lines) := by
  induction lines using List.reverseRecOn with
  | nil => exact says_empty
  | append_singleton lines raw ih =>
    have hstep := (ih fun r hr => h r (by simp [hr])).step (h raw (by simp))
    rw [nextLine, size_after] at hstep
    rw [after_concat, documentShare, List.mapIdx_concat, Share.total_concat]
    exact hstep

end Analysis

section
open Analysis
variable {limit : Nat} {lines : List String} (h : ∀ raw ∈ lines, isDeclarativeLine raw = true)
include h

theorem aborted_of_declarative :
    (analyzeLines limit lines).aborted = decide (limit < errorCount (documentShare lines).problems) := by
  rw [analyzeLines, aborted_finish, aborted_run, Reader.errors, (says_after h).diagnostics]

theorem diagnostics_of_declarative (hrunning : (analyzeLines limit lines).aborted = false) :
    (analyzeLines limit lines).diagnostics = (documentShare lines).diagnostics := by
  have hsays := says_after h
  have houtstanding : (after lines).outstanding = [] := by
    rw [outstanding, hsays.outside]
    exact overdue_of_idle hsays.idle
  rw [analyzeLines_of_running hrunning, diagnostics_finish_of_running (aborted_after lines), houtstanding,
    List.append_nil, hsays.diagnostics, hsays.undefinedWarnings (accounted_after lines), Share.diagnostics]

theorem length_definitionsOf_of_declarative (hrunning : (analyzeLines limit lines).aborted = false)
    (symbol : Symbol) :
    ((analyzeLines limit lines).index.definitionsOf symbol).length =
      (documentShare lines).symbols.count symbol := by
  rw [analyzeLines_of_running hrunning, Index.definitionsOf_congr (buckets_finish (after lines)),
    (says_after h).length_definitionsOf (accounted_after lines)]

end

end LineGrammar
