import LineGrammar.Proofs.Bookkeeping

/-! A finished document agrees with itself: its index is the list of what its nodes define, and its
warnings about undefined names are what its nodes owe and nobody defines. Both hold of every text,
however many errors it has and wherever the analysis stopped. -/

namespace LineGrammar

variable (limit : Nat) (text : String)

theorem accounted_analyze :
    Accounted (Analysis.run limit (Text.lines text)).conclude :=
  (accounted_run limit _).conclude

/-- Each symbol has exactly the definitions that the nodes report for it, in the order of lines. -/
theorem definitionsOf_analyze (s : Symbol) :
    (analyze limit text).index.definitionsOf s =
      ((analyze limit text).nodeList.flatMap Node.definitions).filter (·.symbol = s) :=
  ((accounted_analyze limit text).books.records.congr (Index.buckets_clearPending _)).definitionsOf s

/-- The definitions of all nodes, in the order of the lines. -/
def Document.definitions (d : Document) : List Definition := d.nodeList.flatMap Node.definitions

theorem records_analyze : (analyze limit text).index.Records (analyze limit text).definitions :=
  (accounted_analyze limit text).books.records.congr (Index.buckets_clearPending _)

theorem filter_quiet {ds : List Diagnostic} (h : Quiet ds) :
    ds.filter (·.code = "W0301") = [] := by
  rw [List.filter_eq_nil_iff]
  intro d hd
  simpa using h d hd

/-- One warning for each obligation without a definition, in order and where the name is
written. -/
theorem undefined_warnings_analyze :
    (analyze limit text).diagnostics.filter (·.code = "W0301") =
      ((analyze limit text).obligations.filter
        fun use => !(analyze limit text).index.isDefined use.symbol).map
          fun use => .of (.notDefined use.symbol) use.span := by
  have h := accounted_analyze limit text
  unfold analyze analyzeLines Analysis.finish Document.obligations Document.nodeList
  dsimp only
  generalize (Analysis.run limit (Text.lines text)).conclude = a at h ⊢
  have hdefined : a.index.clearPending.isDefined = a.index.isDefined :=
    funext (Index.isDefined_congr (Index.buckets_clearPending _))
  have howed := h.books.owed (fun s => !a.index.isDefined s) fun s hs => by simp [hs]
  have hwarn : ∀ uses : List Pending,
      (uses.map fun use => Diagnostic.of (.notDefined use.symbol) use.span).filter
        (·.code = "W0301") = uses.map fun use => .of (.notDefined use.symbol) use.span := by
    intro uses
    rw [List.filter_eq_self]
    intro d hd
    obtain ⟨use, -, rfl⟩ := List.mem_map.1 hd
    simp [Diagnostic.code, Diagnostic.of, Cause.code]
  rw [List.filter_append, filter_quiet h.quiet, List.nil_append, hwarn, hdefined, ← howed]
  rfl

/-- Two rules, two tokens and a block are owed. -/
def owingText : String :=
  "%walkers W;\n%function r W::f() -> int;\nr := ^A b\n%\x7b\n%\x7d\nb := B;\nB := \"x\";"

/-- The two rules and one of the tokens are defined; the other token is not, and the block that follows is
another one. -/
theorem undefined_warnings_analyze_unterminated :
    (analyze 25 owingText).obligations =
      [⟨.rule "r", .onLine 1 10 11⟩, ⟨.token "A", .onLine 2 6 7⟩, ⟨.rule "b", .onLine 2 8 9⟩,
        ⟨.codeBlock "r::W::f", .onLine 2 0 1⟩, ⟨.token "B", .onLine 5 5 6⟩] ∧
    (analyze 25 owingText).diagnostics.filter (·.code = "W0301") =
      [.of (.notDefined (.token "A")) (.onLine 2 6 7),
        .of (.notDefined (.codeBlock "r::W::f")) (.onLine 2 0 1)] := by
  have howed : (analyze 25 owingText).obligations =
      [⟨.rule "r", .onLine 1 10 11⟩, ⟨.token "A", .onLine 2 6 7⟩, ⟨.rule "b", .onLine 2 8 9⟩,
        ⟨.codeBlock "r::W::f", .onLine 2 0 1⟩, ⟨.token "B", .onLine 5 5 6⟩] := by
    decide +kernel
  refine ⟨howed, ?_⟩
  rw [undefined_warnings_analyze, howed]
  decide +kernel

end LineGrammar
