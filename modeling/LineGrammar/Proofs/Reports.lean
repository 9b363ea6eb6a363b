import LineGrammar.Proofs.Halts
import LineGrammar.Proofs.Remarks

/-! What is reported on a line. All that is wrong with the node of a line, or with the place where it
stands, is reported when the line is read, and on this line; so for these codes the reports on a line of a
document are those of one turn. -/

namespace LineGrammar

/-- The diagnostics of a code that start on a line. -/
def reportsAt (code : String) (line : Nat) (ds : List Diagnostic) : List Diagnostic :=
  ds.filter fun d => d.code = code ∧ d.span.start.line = line

theorem reportsAt_append (code : String) (line : Nat) (ds es : List Diagnostic) :
    reportsAt code line (ds ++ es) = reportsAt code line ds ++ reportsAt code line es :=
  List.filter_append _ _

theorem reportsAt_eq_nil {code : String} {line : Nat} {ds : List Diagnostic}
    (h : ∀ d ∈ ds, d.code = code → d.span.start.line ≠ line) : reportsAt code line ds = [] :=
  List.filter_eq_nil_iff.2 fun d hd => by
    simp only [decide_eq_true_eq, not_and]
    exact h d hd

theorem reportsAt_self (d : Diagnostic) : reportsAt d.code d.span.start.line [d] = [d] :=
  List.filter_cons_of_pos (decide_eq_true ⟨rfl, rfl⟩)

theorem reportsAt_problem (line : Line) (cause : Cause) :
    reportsAt cause.code line.number [line.problem cause] = [line.problem cause] :=
  reportsAt_self (line.problem cause)

/-- Whether a code is only reported on the line that is read. The others are for blocks that are missing,
open or implemented from outside, for names without a definition, and for the end of a run. -/
abbrev IsImmediate (code : String) : Prop :=
  code ∉ ["E0201", "E0202", "E0206", "E0207", "E0305", "W0301"]

namespace Analysis

theorem line_of_remark {line : Line} {block? : Option CodeBlock} {d : Diagnostic}
    (h : Remark line block? d) (hcode : IsImmediate d.code) : d.span.start.line = line.number := by
  cases h with
  | own hown hmarks => exact hmarks.number_eq
  | refusal cause hcause hraw => rfl
  | unexpected => rfl
  | external walker interface b hb =>
    exact absurd hcode (by simp [Cause.code])

theorem not_immediate_of_overdue {r : Reader} {d : Diagnostic} (h : d ∈ r.overdue) :
    ¬IsImmediate d.code := by
  rcases code_of_overdue h with hcode | hcode <;> rw [hcode] <;> decide

variable {lines : List String} {raw : String}

theorem line_of_turn {a a' : Analysis} (hturn : a.Turn raw a') :
    ∃ ds, a'.reader.diagnostics = a.reader.diagnostics ++ ds ∧
      ∀ d ∈ ds, IsImmediate d.code → d.span.start.line = a.slots.size := by
  obtain ⟨ds, hds, hremarks⟩ := diagnostics_turn hturn
  refine ⟨a.due raw ++ ds, by rw [hds, List.append_assoc], fun d hd hcode => ?_⟩
  rcases List.mem_append.1 hd with hd | hd
  · unfold due at hd
    split at hd
    · exact absurd hcode (not_immediate_of_overdue hd)
    · cases hd
  · exact line_of_remark (hremarks d hd) hcode

theorem lines_before (lines : List String) :
    ∀ d ∈ (after lines).reader.diagnostics, IsImmediate d.code →
      d.span.start.line < lines.length := by
  induction lines using after_induction with
  | nil => exact fun d hd => by cases hd
  | turn lines raw a' ih hturn =>
    intro d hd hcode
    obtain ⟨ds, hds, hlines⟩ := line_of_turn hturn
    rw [List.length_append, List.length_singleton]
    rw [hds] at hd
    rcases List.mem_append.1 hd with hd | hd
    · exact Nat.lt_succ_of_lt (ih d hd hcode)
    · rw [hlines d hd hcode, size_after]
      exact Nat.lt_succ_self _

theorem lines_after (lines rest : List String) :
    ∃ ds, (after (lines ++ rest)).reader.diagnostics = (after lines).reader.diagnostics ++ ds ∧
      ∀ d ∈ ds, IsImmediate d.code → lines.length ≤ d.span.start.line := by
  induction rest using List.reverseRecOn with
  | nil => exact ⟨[], by simp, by simp⟩
  | append_singleton rest raw ih =>
    obtain ⟨ds, hds, hlines⟩ := ih
    obtain ⟨es, hes, hline⟩ := line_of_turn (turn_step (coherent_after (lines ++ rest)) raw)
    refine ⟨ds ++ es, ?_, fun d hd hcode => ?_⟩
    · rw [← List.append_assoc, after_concat, hes, hds, List.append_assoc]
    · rcases List.mem_append.1 hd with hd | hd
      · exact hlines d hd hcode
      · rw [hline d hd hcode, size_after, List.length_append]
        exact Nat.le_add_right _ _

/-- What is reported on a line is reported when it is read. -/
theorem reportsAt_line {line : Nat} (hline : lines[line]? = some raw) {ds : List Diagnostic}
    (hds : ((after (lines.take line)).step raw).reader.diagnostics =
      (after (lines.take line)).reader.diagnostics ++ ds) {code : String} (hcode : IsImmediate code) :
    reportsAt code line (after lines).reader.diagnostics = reportsAt code line ds := by
  have hlt : line < lines.length := (List.getElem?_eq_some_iff.1 hline).1
  have hfront : (lines.take line).length = line := List.length_take_of_le (Nat.le_of_lt hlt)
  have hsplit : lines.take line ++ [raw] ++ lines.drop (line + 1) = lines := by
    rw [show lines.take line ++ [raw] = lines.take (line + 1) by rw [List.take_add_one, hline]; rfl,
      List.take_append_drop]
  obtain ⟨es, hes, hlater⟩ := lines_after (lines.take line ++ [raw]) (lines.drop (line + 1))
  have hearlier := lines_before (lines.take line)
  rw [hsplit, after_concat, hds] at hes
  have hbefore : reportsAt code line (after (lines.take line)).reader.diagnostics = [] :=
    reportsAt_eq_nil fun d hd hd' => Nat.ne_of_lt (by
      have hlt := hearlier d hd (hd' ▸ hcode)
      rwa [hfront] at hlt)
  have hafter : reportsAt code line es = [] :=
    reportsAt_eq_nil fun d hd hd' => Nat.ne_of_gt (by
      have hle := hlater d hd (hd' ▸ hcode)
      rwa [List.length_append, hfront] at hle)
  rw [hes, reportsAt_append, reportsAt_append, hbefore, hafter, List.nil_append, List.append_nil]

/-- Neither the stop of a run nor the end of a document reports any more of these codes. -/
theorem reportsAt_of_readsUpTo {limit k : Nat} (h : ReadsUpTo limit lines k) {code : String}
    (hcode : IsImmediate code) (line : Nat) :
    reportsAt code line (analyzeLines limit lines).diagnostics =
      reportsAt code line (after (lines.take k)).reader.diagnostics := by
  obtain ⟨ds, hds, hstops⟩ := h.diagnostics
  obtain ⟨es, hes, hends⟩ := diagnostics_finish_eq (run limit lines)
  have hother : code ≠ "E0207" ∧ code ∉ ["E0201", "E0202", "E0206", "W0301"] := by
    simp only [IsImmediate, List.mem_cons, List.not_mem_nil, or_false, not_or] at hcode ⊢
    tauto
  have hstop : reportsAt code line ds = [] :=
    reportsAt_eq_nil fun d hd hd' => absurd (hd'.symm.trans (hstops d hd)) hother.1
  have hend : reportsAt code line es = [] :=
    reportsAt_eq_nil fun d hd hd' => absurd (hd' ▸ hends d hd) hother.2
  rw [analyzeLines, hes, hds, reportsAt_append, reportsAt_append, hstop, hend, List.append_nil,
    List.append_nil]

end Analysis

end LineGrammar
