import LineGrammar.Proofs.Complaints

/-! Blocks that do not come: how often each rule is reported, and where. A rule can only be reported for
its own line or for the name of a block on the next one, since no name stands after another. -/

namespace LineGrammar

namespace Analysis

variable {a a' : Analysis} {raw : String}

/-- A rule stands on its line, and the line after it names a block just if it starts like a name. -/
structure RulesMarked (lines : List String) (ms : List (Option Node)) : Prop where
  line : ∀ i (r : RuleDef), ms[i]?.join = some (.rule r) → r.span.start.line = i
  named : ∀ i (r : RuleDef) raw, ms[i]?.join = some (.rule r) → lines[i + 1]? = some raw →
    (names raw = true ↔ ∃ m, ms[i + 1]?.join = some (.blockName m))

theorem not_names_of_opens {raw : String} (h : opens raw = true) : names raw = false := by
  have hbody : Text.trim raw.toList = openingMark.toList := by simpa [opens] using h
  rw [names, hbody]
  decide

/-- After a rule that waits, a line that starts like a name is one. -/
theorem named_turn (hcoh : a.reader.Coherent a.lateBlock) (hrecalls : Recalls a)
    (hturn : a.Turn raw a') {r : RuleDef}
    (hlast : a.last?.filter Node.expectsBlock = some (.rule r)) :
    names raw = true ↔ ∃ m, a'.last?.filter Node.expectsBlock = some (.blockName m) := by
  obtain ⟨hexpects, hname⟩ := expects_of_mark hrecalls hlast
  have hblock : a.reader.block? = none := hcoh.outside hexpects
  have hneither : ∀ {n? : Option Node}, names raw = false → a'.last? = n? →
      (∀ m, n? ≠ some (.blockName m)) →
        (names raw = true ↔ ∃ m, a'.last?.filter Node.expectsBlock = some (.blockName m)) := by
    intro n? hraw hn hne
    simp only [hraw, Bool.false_eq_true, false_iff, not_exists, hn, Option.filter_eq_some_iff]
    exact fun m hm => hne m hm.1
  cases hturn with
  | inside b hopen hraw => exact absurd (hblock.symm.trans hopen) (by simp)
  | closing b hopen hraw => exact absurd (hblock.symm.trans hopen) (by simp)
  | name hblock hexpects hraw =>
    rw [last?_accept]
    exact ⟨fun _ => ⟨_, rfl⟩, fun _ => hraw⟩
  | opening hblock hraw =>
    exact hneither (not_names_of_opens hraw) (last?_endLine _ _) (by simp)
  | blank hblock hraw =>
    exact hneither (not_opens_of_blank hraw).2.1 (last?_endLine _ _) (by simp)
  | refused hblock hraw hopens hnames cause hcause =>
    exact hneither (hnames hname) (last?_endLine _ _) (by simp)
  | node hblock shape hshape =>
    exact hneither (not_opens_of_shape hshape).2.1 (last?_accept _ _) fun m hm =>
      Node.read_ne_blockName _ _ _ m (Option.some.inj hm)

/-- A rule that is read on a line stands there. -/
theorem rule_turn (hturn : a.Turn raw a') {r : RuleDef} (hlast : a'.last? = some (.rule r)) :
    r.span.start.line = a.slots.size := by
  cases hturn with
  | node hblock shape hshape =>
    rw [last?_accept] at hlast
    cases shape with
    | rule name alias? operator rest =>
      cases hlast
      rfl
    | _ => cases hlast
  | name hblock hexpects hraw => rw [last?_accept] at hlast; cases hlast
  | _ => rw [last?_endLine] at hlast; cases hlast

theorem rulesMarked_after (lines : List String) :
    RulesMarked lines (marks (after lines).slots.toList) := by
  induction lines using List.reverseRecOn with
  | nil => exact ⟨by simp [after, marks], by simp⟩
  | append_singleton lines raw ih =>
    have hturn := turn_step (coherent_after lines) raw
    have hlength := length_marks_after lines
    have hlast := mark_last (after lines)
    rw [size_after] at hlast
    rw [after_concat, marks_turn (accounted_after lines) hturn]
    generalize marks (after lines).slots.toList = ms at *
    constructor
    · intro i r hr
      rcases Nat.lt_trichotomy i ms.length with hi | rfl | hi
      · rw [List.getElem?_append_left hi] at hr
        exact ih.line i r hr
      · rw [List.getElem?_concat_length] at hr
        rw [rule_turn hturn (Option.filter_eq_some_iff.1 hr).1, size_after, hlength]
      · rw [List.getElem?_eq_none (by simp; omega)] at hr
        cases hr
    · intro i r raw' hr hraw'
      have hi : i < lines.length := by
        have hlt := (List.getElem?_eq_some_iff.1 hraw').1
        simp at hlt
        omega
      rw [List.getElem?_append_left (by omega)] at hr
      by_cases hnext : i + 1 < lines.length
      · rw [List.getElem?_append_left hnext] at hraw'
        rw [List.getElem?_append_left (by omega)]
        exact ih.named i r raw' hr hraw'
      · obtain rfl : i = lines.length - 1 := by omega
        rw [Nat.sub_add_cancel (by omega)] at hraw' ⊢
        rw [List.getElem?_concat_length] at hraw'
        cases hraw'
        rw [← hlength, List.getElem?_concat_length]
        exact named_turn (coherent_after lines) (recalls_after lines) hturn (hlast.symm.trans hr)

end Analysis

/-- Whether the lines after a rule give it a block, named or not. -/
def blockFollows (lines : List String) (line : Nat) : Bool :=
  lines[line + 1]?.any opens || lines[line + 1]?.any names && lines[line + 2]?.any opens

/-- Whether a diagnostic reports a rule that lacks a block. -/
def Diagnostic.refuses (d : Diagnostic) (span : Span) : Bool := d.code == "E0202" && d.span == span

/-- A count over what each line reports, where at most two lines that follow each other report. -/
theorem countP_flatMap_pair {α : Type} {p : α → Bool} (f : Nat → List α) (i n : Nat)
    (h : ∀ j, j ≠ i → j ≠ i + 1 → (f j).countP p = 0) :
    ((List.range n).flatMap f).countP p =
      (if i < n then (f i).countP p else 0) + if i + 1 < n then (f (i + 1)).countP p else 0 := by
  induction n with
  | zero => rfl
  | succ n ih =>
    rw [List.range_succ, List.flatMap_append, List.countP_append, ih, List.flatMap_singleton]
    by_cases hi : n = i
    · rw [hi, if_neg (by omega), if_neg (by omega), if_pos (by omega), if_neg (by omega)]
      omega
    · by_cases hi' : n = i + 1
      · rw [hi', if_pos (by omega), if_neg (by omega), if_pos (by omega), if_pos (by omega)]
        omega
      · have hlt : i < n + 1 ↔ i < n := by omega
        have hlt' : i + 1 < n + 1 ↔ i + 1 < n := by omega
        simp only [h n hi hi', hlt, hlt', Nat.add_zero]

theorem countP_complaints (line : Line) (rule? : Option RuleDef) (span : Span) :
    (complaints line rule?).countP (·.refuses span) =
      if rule?.any fun r => r.span == span then 1 else 0 := by
  cases rule? with
  | none => simp [complaints, Diagnostic.refuses, Cause.code]
  | some r =>
    by_cases hspan : r.span = span <;>
      simp [complaints, Diagnostic.refuses, Cause.code, hspan]

theorem countP_missingAt (lines : List String) (ms : List (Option Node)) (j : Nat) (span : Span) :
    (missingAt lines ms j).countP (·.refuses span) =
      if (ms[j]?.join.any fun n => !lines[j + 1]?.any n.isAnsweredBy) &&
          (lacking? ms j).any fun r => r.span == span then 1 else 0 := by
  unfold missingAt
  cases ms[j]?.join with
  | none => rfl
  | some n =>
    dsimp only
    split
    · next hanswer => simp [hanswer]
    · next hanswer =>
      rw [countP_complaints]
      simp [hanswer]

namespace Analysis

/-- A rule is only reported for itself, and for the name after it. -/
theorem lacking?_span {lines : List String} {ms : List (Option Node)} (h : RulesMarked lines ms)
    {i j : Nat} {r r' : RuleDef} (hr : ms[i]?.join = some (.rule r)) (hj : lacking? ms j = some r')
    (hspan : r'.span = r.span) : j = i ∨ j = i + 1 := by
  have hline : r'.span.start.line = i := by rw [hspan]; exact h.line i r hr
  unfold lacking? at hj
  split at hj
  · next hm =>
    cases hj
    exact .inl ((h.line j r' hm).symm.trans hline)
  · next n hm =>
    split at hj
    · next hm' =>
      cases hj
      have hbefore := (h.line (j - 1) r' hm').symm.trans hline
      cases j with
      | zero => rw [hm] at hm'; cases hm'
      | succ j => exact .inr (by omega)
    · cases hj
  · cases hj

/-- The line after a rule that does not name a block reports no rule again. -/
theorem lacking?_next {lines : List String} {ms : List (Option Node)} (h : RulesMarked lines ms)
    {i : Nat} {r : RuleDef} (hr : ms[i]?.join = some (.rule r)) {raw : String}
    (hline : lines[i + 1]? = some raw) (hnames : names raw = false) :
    ((lacking? ms (i + 1)).any fun r' => r'.span == r.span) = false := by
  have hstart : r.span.start.line = i := h.line i r hr
  unfold lacking?
  split
  · next r' hm =>
    have hne : r'.span ≠ r.span := by
      intro hspan
      rw [← hspan, h.line (i + 1) r' hm] at hstart
      omega
    simp [hne]
  · next m hm =>
    exact absurd (hnames.symm.trans ((h.named i r raw hr hline).2 ⟨m, hm⟩)) (by simp)
  · rfl

theorem count_refusals {lines : List String} {ms : List (Option Node)} (h : RulesMarked lines ms)
    (hlength : ms.length = lines.length) {i : Nat} {r : RuleDef}
    (hr : ms[i]?.join = some (.rule r)) :
    ((List.range lines.length).flatMap (missingAt lines ms)).countP (·.refuses r.span) =
      if blockFollows lines i then 0 else 1 := by
  have hi : i < lines.length := by
    rw [← hlength]
    cases hm : ms[i]? with
    | none => rw [hm] at hr; cases hr
    | some x => exact (List.getElem?_eq_some_iff.1 hm).1
  rw [countP_flatMap_pair _ i]
  · have hself : lacking? ms i = some r := by rw [lacking?, hr]
    simp only [countP_missingAt, if_pos hi, hr, hself, Option.any_some, beq_self_eq_true,
      Bool.and_true]
    cases hline : lines[i + 1]? with
    | none =>
      have hend : ¬i + 1 < lines.length := by simpa using hline
      simp [blockFollows, hend]
    | some raw =>
      have hnext : i + 1 < lines.length := (List.getElem?_eq_some_iff.1 hline).1
      simp only [if_pos hnext, blockFollows, hline, Option.any_some, Node.isAnsweredBy_rule]
      rcases Bool.eq_false_or_eq_true (names raw) with hnames | hnames
      · have hopens : opens raw = false := by
          cases hopens : opens raw with
          | false => rfl
          | true => exact absurd (hnames.symm.trans (not_names_of_opens hopens)) (by simp)
        obtain ⟨m, hm⟩ := (h.named i r raw hr hline).1 hnames
        have hlack : lacking? ms (i + 1) = some r := by
          rw [lacking?, hm, Nat.add_sub_cancel, hr]
        simp only [hm, hlack, hnames, hopens, Option.any_some, Node.isAnsweredBy_blockName]
        cases lines[i + 2]?.any opens <;> simp
      · simp only [lacking?_next h hr hline hnames, hnames, Bool.or_false, Bool.and_false, Bool.false_and]
        rcases Bool.eq_false_or_eq_true (opens raw) with hopens | hopens <;> simp [hopens]
  · intro j hne hne'
    rw [countP_missingAt, if_neg]
    intro hcount
    obtain ⟨-, hspan⟩ := Bool.and_eq_true_iff.1 hcount
    cases hlack : lacking? ms j with
    | none => rw [hlack] at hspan; cases hspan
    | some r' =>
      rw [hlack] at hspan
      rcases lacking?_span h hr hlack (by simpa using hspan) with rfl | rfl
      · exact hne rfl
      · exact hne' rfl

end Analysis

/-- Only rules without terminator are reported to lack a block. -/
theorem rule_of_missingAt {lines : List String} {ms : List (Option Node)} {j : Nat} {d : Diagnostic}
    (hd : d ∈ missingAt lines ms j) (hcode : d.code = "E0202") :
    ∃ (i : Nat) (r : RuleDef), ms[i]?.join = some (.rule r) ∧ d.span = r.span := by
  unfold missingAt at hd
  split at hd
  · split at hd
    · cases hd
    · rcases List.mem_cons.1 hd with rfl | hd
      · exact absurd hcode (by simp [Cause.code])
      · obtain ⟨r, hr, rfl⟩ := List.mem_map.1 hd
        rw [Option.mem_toList] at hr
        unfold lacking? at hr
        split at hr
        · next hm => cases hr; exact ⟨j, r, hm, rfl⟩
        · split at hr
          · next hm => cases hr; exact ⟨j - 1, r, hm, rfl⟩
          · cases hr
        · cases hr
  · cases hd

/-- The place where it is reported that a line's block does not come. -/
def missingSpan? (lines : List String) (line : Nat) (n : Node) : Option Span :=
  if lines[line + 1]?.any n.isAnsweredBy then none else some (nextOrSame lines line).span

theorem spans_missingAt (lines : List String) (ms : List (Option Node)) (j : Nat) :
    ((missingAt lines ms j).filter (·.code = "E0201")).map (·.span) =
      (ms[j]?.join.bind (missingSpan? lines j)).toList := by
  unfold missingAt
  cases ms[j]?.join with
  | none => rfl
  | some n =>
    rw [Option.bind_some, missingSpan?]
    dsimp only
    split
    · rfl
    · cases lacking? ms j <;>
        simp [complaints, Cause.code]

open Analysis in
/-- A rule without terminator is reported once if no block follows it, named or not, and otherwise never;
nothing else is reported as such a rule. For each line that asks for a block, and is not followed by what
it asks for, the missing block is reported once, on the next line or on the line itself if it is the
last. -/
theorem missing_blocks (limit : Nat) (text : String) (h : (analyze limit text).aborted = false) :
    (∀ line r, (analyze limit text).nodeAt? line = some (.rule r) → r.terminated = false →
      (analyze limit text).diagnostics.countP (·.refuses r.span) =
        if blockFollows (Text.lines text) line then 0 else 1) ∧
    (∀ d ∈ (analyze limit text).diagnostics, d.code = "E0202" →
      ∃ line r, (analyze limit text).nodeAt? line = some (.rule r) ∧ r.terminated = false ∧
        d.span = r.span) ∧
    ((analyze limit text).diagnostics.filter (·.code = "E0201")).map (·.span) =
      (List.range (Text.lines text).length).filterMap fun line =>
        ((analyze limit text).expectingAt? line).bind (missingSpan? (Text.lines text) line) := by
  have hrun : analyze limit text = (after (Text.lines text)).finish := analyzeLines_of_running h
  rw [hrun]
  have hmissing := missing_finish (Text.lines_ne_nil text)
  generalize Text.lines text = lines at *
  have hrules := rulesMarked_after lines
  rw [← marks_conclude (accounted_after lines)] at hrules
  have hlength : (marks (after lines).conclude.slots.toList).length = lines.length := by
    rw [marks_conclude (accounted_after lines), length_marks_after]
  have hmark : ∀ line, (after lines).finish.expectingAt? line =
      (marks (after lines).conclude.slots.toList)[line]?.join := fun line => by
    rw [Document.expectingAt?, nodeAt?_finish, join_marks]
  have hrule : ∀ line r, (marks (after lines).conclude.slots.toList)[line]?.join = some (.rule r) ↔
      (after lines).finish.nodeAt? line = some (.rule r) ∧ r.terminated = false := by
    intro line r
    rw [← hmark, Document.expectingAt?, Option.filter_eq_some_iff]
    simp [Node.expectsBlock]
  generalize marks (after lines).conclude.slots.toList = ms at *
  refine ⟨fun line r hr hopen => ?_, fun d hd hcode => ?_, ?_⟩
  · rw [← count_refusals hrules hlength ((hrule line r).2 ⟨hr, hopen⟩), ← hmissing, List.countP_filter]
    refine List.countP_congr fun d _ => ?_
    by_cases hcode : d.code = "E0202" <;>
      simp [Diagnostic.refuses, Diagnostic.isMissing, hcode]
  · have hd' : d ∈ (after lines).finish.diagnostics.filter Diagnostic.isMissing :=
      List.mem_filter.2 ⟨hd, by simp [Diagnostic.isMissing, hcode]⟩
    rw [hmissing] at hd'
    obtain ⟨j, -, hj⟩ := List.mem_flatMap.1 hd'
    obtain ⟨line, r, hr, hspan⟩ := rule_of_missingAt hj hcode
    exact ⟨line, r, ((hrule line r).1 hr).1, ((hrule line r).1 hr).2, hspan⟩
  · have hsame : (after lines).finish.diagnostics.filter (·.code = "E0201") =
        ((after lines).finish.diagnostics.filter Diagnostic.isMissing).filter (·.code = "E0201") := by
      rw [List.filter_filter]
      refine List.filter_congr fun d _ => ?_
      by_cases hcode : d.code = "E0201" <;> simp [Diagnostic.isMissing, hcode]
    rw [hsame, hmissing, List.filter_flatMap, List.map_flatMap, List.filterMap_eq_flatMap_toList]
    refine List.flatMap_congr fun j _ => ?_
    rw [hmark, spans_missingAt]

/-- A rule whose block is named and does not come: only the name's line is followed by no block. -/
theorem missing_blocks_named :
    (analyze 25 "r := A\n@W").aborted = false ∧
      ((analyze 25 "r := A\n@W").diagnostics.filter (·.code = "E0201")).map (·.span) =
        [Span.onLine 1 0 2] :=
  ⟨by decide +kernel, (missing_blocks 25 "r := A\n@W" (by decide +kernel)).2.2.trans (by decide +kernel)⟩

end LineGrammar
