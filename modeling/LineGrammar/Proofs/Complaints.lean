import LineGrammar.Proofs.History
import LineGrammar.Proofs.Remarks
import Mathlib.Data.List.Basic

/-! What is reported about missing blocks. It is told by the nodes that ask for a block and by the lines
after them, line by line and in this order. -/

namespace LineGrammar

/-- Whether the line after a node is what the node asks for. -/
def Node.isAnsweredBy (n : Node) (raw : String) : Bool := opens raw || n.isRule && names raw

theorem Node.isAnsweredBy_rule (r : RuleDef) (raw : String) :
    (Node.rule r).isAnsweredBy raw = (opens raw || names raw) := rfl

theorem Node.isAnsweredBy_blockName (m : BlockName) : (Node.blockName m).isAnsweredBy = opens :=
  funext fun raw => Bool.or_false (opens raw)

/-- The rule that lacks a block when the block does not come that is asked for on a line. -/
def lacking? (marks : List (Option Node)) (line : Nat) : Option RuleDef :=
  match marks[line]?.join with
  | some (.rule r) => some r
  | some (.blockName _) =>
    match marks[line - 1]?.join with
    | some (.rule r) => some r
    | _ => none
  | _ => none

/-- The next line, or the line itself if it is the last one. -/
def nextOrSame (lines : List String) (line : Nat) : Line :=
  match lines[line + 1]? with
  | some raw => { number := line + 1, raw }
  | none => { number := line, raw := lines[line]?.getD "" }

/-- A block is missing in the place of a line, and perhaps a rule lacks it. -/
def complaints (line : Line) (rule? : Option RuleDef) : List Diagnostic :=
  .of .blockExpected line.span ::
    rule?.toList.map fun r => .of (.ruleNeedsBlock r.name.text) r.span

/-- What is reported when the block does not come that is asked for on a line. -/
def missingAt (lines : List String) (marks : List (Option Node)) (line : Nat) : List Diagnostic :=
  match marks[line]?.join with
  | some n =>
    if lines[line + 1]?.any n.isAnsweredBy then []
    else complaints (nextOrSame lines line) (lacking? marks line)
  | none => []

/-- Whether a diagnostic is about a missing block. -/
def Diagnostic.isMissing (d : Diagnostic) : Bool := d.code == "E0201" || d.code == "E0202"

namespace Analysis

variable {a a' : Analysis} {raw : String}

/-- The rule that lacks a block, told by the last lines. -/
theorem lacking?_of_follows {o : OpenRule} {slots : List (Option Node)} (h : Follows o slots) {n : Node}
    (hlast : slots.getLast?.join = some n) :
    (if o.blocks = 0 then [Diagnostic.of (.ruleNeedsBlock o.name.text) o.span] else []) =
      (lacking? (marks slots) (slots.length - 1)).toList.map
        fun r => .of (.ruleNeedsBlock r.name.text) r.span := by
  rcases h.last with ⟨front, r, rfl, hopen, rfl⟩ | ⟨front, m, rfl, hfront, hname⟩ |
    ⟨hblocks, front, rfl⟩
  · simp [lacking?, marks, Option.filter, Node.expectsBlock, hopen, RuleDef.opened]
  · have hmark : (marks (front ++ [some (.blockName m)]))[front.length]?.join =
        some (.blockName m) := by
      simp [marks, Option.filter, Node.expectsBlock]
    rw [List.length_append, List.length_singleton, Nat.add_sub_cancel, lacking?, hmark]
    dsimp only
    rcases hfront.last with ⟨before, r, rfl, hopen, rfl⟩ | ⟨before, m', rfl, -, -⟩ |
      ⟨hblocks, before, rfl⟩
    · simp [marks, Option.filter, Node.expectsBlock, hopen, RuleDef.opened]
    · exact absurd (by simp) (hname m')
    · simp [marks, hblocks]
  · simp at hlast

/-- What is overdue after some lines, told by their marks. -/
theorem overdue_eq (hcoh : a.reader.Coherent a.lateBlock) (hrecalls : Recalls a)
    (hfollows : RuleFollows a) (hblock : a.reader.block? = none) (line : Line) :
    (a.reader.moveTo line).overdue =
      match (marks a.slots.toList)[a.slots.size - 1]?.join with
      | some _ => complaints line (lacking? (marks a.slots.toList) (a.slots.size - 1))
      | none => [] := by
  have hmark := mark_last a
  rw [RuleFollows, take_settled hblock] at hfollows
  rw [hmark]
  cases hlast : a.last? with
  | none =>
    have hexpects : a.reader.expectsBlock = false := by rw [hrecalls.block, hlast]; rfl
    exact if_neg (by simp [Reader.moveTo, hexpects])
  | some n =>
    have hexpects : a.reader.expectsBlock = n.expectsBlock := by rw [hrecalls.block, hlast]; rfl
    have htarget : a.reader.target? = n.target? := by rw [hrecalls.target, hlast]; rfl
    cases hn : n.expectsBlock with
    | false =>
      rw [hn] at hexpects
      rw [Option.filter_some, if_neg (by simp [hn])]
      exact if_neg (by simp [Reader.moveTo, hexpects])
    | true =>
      rw [hn] at hexpects
      rw [hlast, Option.filter_some, if_pos hn] at hmark
      have hmoved : (a.reader.moveTo line).expectsBlock = true := hexpects
      rw [Option.filter_some, if_pos hn, Reader.overdue, if_pos hmoved]
      change _ :: _ = complaints line _
      rw [complaints, ← Array.length_toList]
      congr 1
      cases hrule : a.reader.rule? with
      | some o =>
        rw [← lacking?_of_follows (hfollows o hrule) hlast]
        simp only [Reader.moveTo, hrule]
      | none =>
        -- Without a rule only a members pragma asks for a block.
        obtain ⟨t, ht, hmembers⟩ := hcoh.members hexpects hrule
        have hnone : lacking? (marks a.slots.toList) (a.slots.toList.length - 1) = none := by
          rw [Array.length_toList, lacking?, hmark]
          cases n with
          | rule r => cases htarget.symm.trans ht
          | blockName m =>
            obtain ⟨walker, -, rfl⟩ := Option.map_eq_some_iff.1 (htarget.symm.trans ht)
            cases hmembers
          | _ => rfl
        rw [hnone]
        simp only [Reader.moveTo, hrule]
        rfl

/-- What is due with the next line is missing at the last one. -/
theorem due_eq {lines : List String} (hne : lines ≠ []) (raw : String) :
    (after lines).due raw =
      missingAt (lines ++ [raw]) (marks (after lines).slots.toList) (lines.length - 1) := by
  have hpos : 0 < lines.length := List.length_pos_iff.2 hne
  have hnext : (lines ++ [raw])[lines.length - 1 + 1]? = some raw := by
    rw [Nat.sub_add_cancel hpos]; simp
  have hanchor : nextOrSame (lines ++ [raw]) (lines.length - 1) = (after lines).nextLine raw := by
    rw [nextOrSame, hnext, Nat.sub_add_cancel hpos, nextLine, size_after]
  have hcoh := coherent_after lines
  have hrecalls := recalls_after lines
  have hfollows := ruleFollows_after lines
  have hsize := size_after lines
  rw [missingAt, hnext, hanchor, ← hsize]
  generalize after lines = a at *
  have hmark := mark_last a
  cases hm : (marks a.slots.toList)[a.slots.size - 1]?.join with
  | none =>
    -- Nothing is expected, so nothing is due.
    have hexpects := expects_of_no_mark hrecalls (hmark.symm.trans hm)
    unfold due
    split
    · exact if_neg (by simp [moveTo, Reader.moveTo, hexpects])
    · rfl
  | some n =>
    obtain ⟨hexpects, hname⟩ := expects_of_mark hrecalls (hmark.symm.trans hm)
    have hblock : a.reader.block? = none := hcoh.outside hexpects
    have hoverdue := overdue_eq hcoh hrecalls hfollows hblock (a.nextLine raw)
    rw [hm] at hoverdue
    dsimp only at hoverdue ⊢
    rw [Option.any_some, Node.isAnsweredBy, ← hname, ← hoverdue]
    cases hopens : opens raw with
    | true => rw [due_opening hopens, Bool.true_or, if_pos rfl]
    | false =>
      rw [Bool.false_or]
      split
      · next hanswer =>
        obtain ⟨hnamed, hnames⟩ := Bool.and_eq_true_iff.1 hanswer
        exact due_name hnamed hnames
      · next hanswer =>
        exact due_other hblock hopens (by simpa using hanswer)

theorem missingAt_append_marks (lines : List String) {ms : List (Option Node)}
    (more : List (Option Node)) {line : Nat} (h : line < ms.length) :
    missingAt lines (ms ++ more) line = missingAt lines ms line := by
  have hline : (ms ++ more)[line]? = ms[line]? := List.getElem?_append_left h
  have hbefore : (ms ++ more)[line - 1]? = ms[line - 1]? := List.getElem?_append_left (by omega)
  rw [missingAt, missingAt, lacking?, lacking?, hline, hbefore]

theorem missingAt_append_lines {lines : List String} (more : List String) (ms : List (Option Node))
    {line : Nat} (h : line + 1 < lines.length) :
    missingAt (lines ++ more) ms line = missingAt lines ms line := by
  have hnext : (lines ++ more)[line + 1]? = lines[line + 1]? := List.getElem?_append_left h
  have hanchor : nextOrSame (lines ++ more) line = nextOrSame lines line := by
    rw [nextOrSame, nextOrSame, hnext, List.getElem?_eq_getElem h]
  rw [missingAt, missingAt, hnext, hanchor]

theorem filter_missing_overdue (r : Reader) :
    r.overdue.filter Diagnostic.isMissing = r.overdue :=
  List.filter_eq_self.2 fun d hd => by
    rcases code_of_overdue hd with hcode | hcode <;> simp [Diagnostic.isMissing, hcode]

theorem filter_missing_due (raw : String) (a : Analysis) :
    (a.due raw).filter Diagnostic.isMissing = a.due raw := by
  unfold due
  split
  · exact filter_missing_overdue _
  · rfl

theorem not_missing_of_remark {line : Line} {block? : Option CodeBlock} {d : Diagnostic}
    (h : Remark line block? d) : d.isMissing = false := by
  cases h with
  | own hown hmarks =>
    have hcode := Cause.code_of_isOwn hown
    simp only [List.mem_cons, not_or] at hcode
    simp [Diagnostic.isMissing, Diagnostic.code, hcode]
  | refusal cause hcause hraw =>
    have hcodes : ∀ cause ∈ refusals, cause.code ≠ "E0201" ∧ cause.code ≠ "E0202" := by decide
    simp [Diagnostic.isMissing, hcodes cause hcause]
  | unexpected => simp [Diagnostic.isMissing, Cause.code]
  | external walker interface b hb =>
    simp [Diagnostic.isMissing, Cause.code]

/-- Of all lines but the last one it has been reported what is missing. -/
theorem missing_after (lines : List String) :
    (after lines).reader.diagnostics.filter Diagnostic.isMissing =
      (List.range (lines.length - 1)).flatMap
        (missingAt lines (marks (after lines).slots.toList)) := by
  induction lines using List.reverseRecOn with
  | nil => rfl
  | append_singleton lines raw ih =>
    have hturn := turn_step (coherent_after lines) raw
    obtain ⟨ds, hds, hremarks⟩ := diagnostics_turn hturn
    have hquiet : ds.filter Diagnostic.isMissing = [] :=
      List.filter_eq_nil_iff.2 fun d hd => by simp [not_missing_of_remark (hremarks d hd)]
    have hmarks := marks_turn (accounted_after lines) hturn
    have hlength := length_marks_after lines
    rw [after_concat, hds, List.filter_append, List.filter_append, ih, filter_missing_due, hquiet,
      List.append_nil, hmarks, List.length_append, List.length_singleton, Nat.add_sub_cancel]
    rcases List.eq_nil_or_concat lines with rfl | ⟨front, line, rfl⟩
    · have hdue : due raw (after []) = [] := by
        unfold due
        split <;> rfl
      rw [hdue]
      rfl
    · have hne : front ++ [line] ≠ [] := by simp
      rw [List.concat_eq_append] at *
      generalize hms : marks (after (front ++ [line])).slots.toList = ms at *
      rw [due_eq hne, hms]
      rw [List.length_append, List.length_singleton] at hlength ⊢
      rw [Nat.add_sub_cancel, List.range_succ, List.flatMap_append, List.flatMap_singleton,
        missingAt_append_marks _ _ (by omega)]
      congr 1
      refine List.flatMap_congr fun j hj => ?_
      have hlt := List.mem_range.1 hj
      have hnext : j + 1 < (front ++ [line]).length := by simp; omega
      rw [missingAt_append_marks _ _ (by omega), missingAt_append_lines [raw] ms hnext]

/-- The warnings about undefined names are not about missing blocks. -/
theorem filter_missing_finish {a : Analysis} (h : a.aborted = false) :
    a.finish.diagnostics.filter Diagnostic.isMissing =
      (a.reader.diagnostics ++ a.outstanding).filter Diagnostic.isMissing := by
  have hwarnings : (a.conclude.index.unresolved.map fun use =>
      Diagnostic.of (.notDefined use.symbol) use.span).filter Diagnostic.isMissing = [] := by
    rw [List.filter_eq_nil_iff]
    intro d hd
    obtain ⟨use, -, rfl⟩ := List.mem_map.1 hd
    simp [Diagnostic.isMissing, Cause.code]
  rw [← diagnostics_conclude_of_running h, finish]
  dsimp only
  rw [List.filter_append, hwarnings, List.append_nil]

/-- What is missing after the last line, told by the marks. -/
theorem filter_missing_outstanding (hcoh : a.reader.Coherent a.lateBlock) (hrecalls : Recalls a)
    (hfollows : RuleFollows a) :
    a.outstanding.filter Diagnostic.isMissing =
      match (marks a.slots.toList)[a.slots.size - 1]?.join with
      | some _ => complaints a.reader.line (lacking? (marks a.slots.toList) (a.slots.size - 1))
      | none => [] := by
  unfold outstanding
  cases hblock : a.reader.block? with
  | none => exact (filter_missing_overdue _).trans (overdue_eq hcoh hrecalls hfollows hblock a.reader.line)
  | some b =>
    cases hm : (marks a.slots.toList)[a.slots.size - 1]?.join with
    | none => simp [Diagnostic.isMissing, Cause.code]
    | some n =>
      have hexpects := (expects_of_mark hrecalls ((mark_last a).symm.trans hm)).1
      exact absurd (hblock.symm.trans (hcoh.outside hexpects)) (by simp)

/-- Everything that is reported about missing blocks, in order. -/
theorem missing_finish {lines : List String} (hne : lines ≠ []) :
    (after lines).finish.diagnostics.filter Diagnostic.isMissing =
      (List.range lines.length).flatMap
        (missingAt lines (marks (after lines).conclude.slots.toList)) := by
  have hpos : 0 < lines.length := List.length_pos_iff.2 hne
  have hanchor : nextOrSame lines (lines.length - 1) = (after lines).reader.line := by
    obtain ⟨front, raw, rfl⟩ := (List.eq_nil_or_concat lines).resolve_left hne
    rw [List.concat_eq_append, nextOrSame, after_concat,
      line_turn (turn_step (coherent_after front) raw)]
    simp [nextLine]
  have hend : lines[lines.length - 1 + 1]? = none := List.getElem?_eq_none (by omega)
  have hlast : (after lines).outstanding.filter Diagnostic.isMissing =
      missingAt lines (marks (after lines).slots.toList) (lines.length - 1) := by
    rw [filter_missing_outstanding (coherent_after lines) (recalls_after lines) (ruleFollows_after lines),
      missingAt, hend, hanchor, size_after]
    rfl
  rw [filter_missing_finish (aborted_after lines), List.filter_append, missing_after, hlast,
    marks_conclude (accounted_after lines)]
  conv_rhs => rw [← Nat.sub_add_cancel hpos, List.range_succ, List.flatMap_append,
    List.flatMap_singleton]

end Analysis

end LineGrammar
