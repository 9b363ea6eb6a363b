import LineGrammar.Proofs.BlockOwners
import LineGrammar.Proofs.TooManyErrors

/-! A lower limit on errors only cuts an analysis short. What it leaves is the beginning of what a higher
limit gives, up to the line that stops it, and no later line has any part in it. -/

namespace LineGrammar

namespace Analysis

variable {limit limit' : Nat} {lines front rest : List String} {raw : String}

/-- The line that stops a run settles all the slots before it. -/
theorem settled_of_overruns (h : Overruns limit front raw) :
    front.length ≤ (after (front ++ [raw])).settled := by
  have hturn := turn_step (coherent_after front) raw
  have hsize := size_after front
  have hsettled := (settled_turn (accounted_after front) hturn).1
  have hbefore := h.before
  have hbeyond := h.beyond
  rw [after_concat] at hbeyond ⊢
  generalize after front = a at *
  cases hblock : a.reader.block? with
  | none => rwa [settled_none hblock, hsize] at hsettled
  | some b =>
    rcases turn_inside hblock hturn with hstep | hstep
    · -- A line of a block reports nothing.
      rw [hstep] at hbeyond
      exact absurd hbeyond (Nat.not_lt.2 hbefore)
    · have hcount := size_turn hturn
      rw [hstep] at hcount ⊢
      rw [settled_none (block?_closing b), hcount, hsize]
      exact Nat.le_succ _

/-- A higher limit lets a run read at least as far. -/
theorem readsUpTo_of_errors_le (h : (after front).reader.errors ≤ limit) (raw : String)
    (rest : List String) :
    ∃ k, front.length + 1 ≤ k ∧ ReadsUpTo limit (front ++ raw :: rest) k := by
  cases haborted : (run limit (front ++ raw :: rest)).aborted with
  | false => exact ⟨_, by simp, readsUpTo_of_running haborted⟩
  | true =>
    obtain ⟨front', raw', rest', hlines, hover⟩ := exists_overruns_of_aborted haborted
    have hreads := hover.readsUpTo rest'
    rw [← hlines] at hreads
    refine ⟨_, Nat.succ_le_succ (Nat.le_of_not_lt fun hlt => ?_), hreads⟩
    -- The stop would come too early, among lines without too many errors.
    have hstop : front' ++ [raw'] <+: front ++ raw :: rest := by
      rw [hlines, List.append_cons front' raw' rest']
      exact List.prefix_append _ _
    have hprefix : front' ++ [raw'] <+: front :=
      List.prefix_of_prefix_length_le hstop (List.prefix_append _ _) (by rwa [List.length_append])
    obtain ⟨more, rfl⟩ := hprefix
    have hgrows := errors_le_append (front' ++ [raw']) more
    exact absurd hover.beyond (Nat.not_lt.2 (Nat.le_trans hgrows h))

/-- A run reads on as long as there are not too many errors. -/
theorem exists_readsUpTo_of_errors_le (h : (after front).reader.errors ≤ limit) (rest : List String) :
    ∃ k, front.length ≤ k ∧ ReadsUpTo limit (front ++ rest) k := by
  cases rest with
  | nil =>
    have hrunning : (run limit front).aborted = false := by
      rw [run_eq_after h, aborted_after]
    rw [List.append_nil]
    exact ⟨_, Nat.le_refl _, readsUpTo_of_running hrunning⟩
  | cons raw rest =>
    obtain ⟨k, hk, hreads⟩ := readsUpTo_of_errors_le h raw rest
    exact ⟨k, Nat.le_of_succ_le hk, hreads⟩

/-- The diagnostics of the lines that a run has read come first. -/
theorem diagnostics_prefix (h : ReadsUpTo limit lines k) {j : Nat} (hj : j ≤ k) :
    (after (lines.take j)).reader.diagnostics <+: (analyzeLines limit lines).diagnostics := by
  obtain ⟨ds, hds, -⟩ := h.diagnostics
  have hgrows := diagnostics_foldl ((lines.take k).drop j) (after (lines.take j))
  have hwhole : ((lines.take k).drop j).foldl step (after (lines.take j)) = after (lines.take k) := by
    rw [after, ← List.foldl_append, ← Nat.min_eq_left hj, ← List.take_take, Nat.min_eq_left hj,
      List.take_append_drop]
    rfl
  rw [hwhole] at hgrows
  refine hgrows.trans (List.IsPrefix.trans ?_ (diagnostics_finish (run limit lines)))
  rw [hds]
  exact List.prefix_append _ _

/-- A run that is not stopped is the same with a higher limit. -/
theorem run_of_le (hle : limit ≤ limit') (h : (run limit lines).aborted = false) :
    run limit' lines = run limit lines := by
  rw [run_of_running h]
  exact run_eq_after (Nat.le_trans (errors_le_of_running h) hle)

/-- Lines that are not read do not count. -/
theorem analyzeLines_of_overruns (h : Overruns limit front raw) (rest rest' : List String) :
    (analyzeLines limit (front ++ raw :: rest')).diagnostics =
        (analyzeLines limit (front ++ raw :: rest)).diagnostics ∧
      (analyzeLines limit (front ++ raw :: rest')).index =
        (analyzeLines limit (front ++ raw :: rest)).index ∧
      (analyzeLines limit (front ++ raw :: rest')).aborted =
        (analyzeLines limit (front ++ raw :: rest)).aborted ∧
      ∀ i, (analyzeLines limit (front ++ raw :: rest')).nodeAt? i =
        (analyzeLines limit (front ++ raw :: rest)).nodeAt? i := by
  have hindex : ∀ rest, (analyzeLines limit (front ++ raw :: rest)).index =
      (after (front ++ [raw])).index.clearPending := fun rest => by
    rw [analyzeLines, run_eq_halt h, finish, index_conclude]
    rfl
  refine ⟨?_, (hindex rest').trans (hindex rest).symm, ?_, fun i => ?_⟩
  · rw [analyzeLines, analyzeLines, run_eq_halt h, run_eq_halt h, diagnostics_halt, diagnostics_halt]
  · rw [analyzeLines, analyzeLines, run_eq_halt h, run_eq_halt h, aborted_finish, aborted_finish]
    rfl
  · rw [nodeAt?_of_readsUpTo (h.readsUpTo rest'), nodeAt?_of_readsUpTo (h.readsUpTo rest),
      take_succ_append_cons, take_succ_append_cons]

end Analysis

open Analysis

/-- What a lower limit leaves of the analysis of a text that it stops on a line. -/
structure CutOff (limit limit' : Nat) (text : String) (line : Line) : Prop where
  among : (Text.lines text)[line.number]? = some line.raw
  aborted : (analyze limit text).aborted = true
  reports : ∃ before warnings,
    (analyze limit text).diagnostics =
      before ++ line.problem (.tooManyErrors limit) :: warnings ∧
    (∀ d ∈ before, d.code ≠ "E0207") ∧ (∀ d ∈ warnings, d.code = "W0301") ∧
    before <+: (analyze limit' text).diagnostics
  before : ∀ i < line.number, (analyze limit text).nodeAt? i = (analyze limit' text).nodeAt? i
  unread : ∀ i, line.number < i → (analyze limit text).nodeAt? i = none
  determined : ∀ text',
    (Text.lines text').take (line.number + 1) = (Text.lines text).take (line.number + 1) →
      (analyze limit text').diagnostics = (analyze limit text).diagnostics ∧
      (analyze limit text').index = (analyze limit text).index ∧
      (analyze limit text').aborted = (analyze limit text).aborted ∧
      ∀ i ≤ line.number, (analyze limit text').nodeAt? i = (analyze limit text).nodeAt? i

theorem cutOff_of_overruns {limit limit' : Nat} (hle : limit ≤ limit') {text : String}
    {front rest : List String} {raw : String} (hlines : Text.lines text = front ++ raw :: rest)
    (h : Overruns limit front raw) :
    CutOff limit limit' text { number := front.length, raw } := by
  have hread := take_succ_append_cons front raw rest
  have hreads := h.readsUpTo rest
  obtain ⟨k, hk, hreads'⟩ := readsUpTo_of_errors_le (Nat.le_trans h.before hle) raw rest
  have hdiagnostics := diagnostics_halt limit rest.length (after (front ++ [raw]))
  have hprefix := diagnostics_prefix hreads' hk
  rw [← run_eq_halt h] at hdiagnostics
  rw [hread] at hprefix
  have hline : (after (front ++ [raw])).reader.line = { number := front.length, raw } := by
    rw [after_concat, line_turn (turn_step (coherent_after front) raw), nextLine, size_after]
  constructor
  case among => simp [hlines]
  case aborted =>
    rw [analyze, hlines, analyzeLines, run_eq_halt h, aborted_finish]
    rfl
  case reports =>
    refine ⟨(after (front ++ [raw])).reader.diagnostics, (after (front ++ [raw])).undefinedWarnings,
      ?_, not_stop_after (front ++ [raw]), fun d hd => (warning_of_undefined hd).1, ?_⟩
    · rw [analyze, hlines, ← hline]
      exact hdiagnostics
    · rw [analyze, hlines]
      exact hprefix
  case before =>
    intro i hi
    have hsettled := Nat.lt_of_lt_of_le hi (settled_of_overruns h)
    rw [← hread] at hsettled
    rw [analyze, analyze, hlines, nodeAt?_settled hreads (Nat.le_refl _) i hsettled,
      nodeAt?_settled hreads' hk i hsettled]
  case unread =>
    intro i hi
    have hlength : (after (front ++ [raw])).conclude.slots.toList.length ≤ i := by
      rw [Array.length_toList, size_conclude, size_after, List.length_append]
      exact hi
    rw [analyze, hlines, nodeAt?_of_readsUpTo hreads, hread, List.getElem?_eq_none hlength]
    rfl
  case determined =>
    intro text' htext
    have hfront : Text.lines text' =
        front ++ raw :: (Text.lines text').drop (front.length + 1) := by
      have hsplit := List.take_append_drop (front.length + 1) (Text.lines text')
      rw [htext, hlines, hread, List.append_assoc] at hsplit
      exact hsplit.symm
    rw [analyze, analyze, hlines, hfront]
    obtain ⟨hds, hindex, haborted, hnodes⟩ := analyzeLines_of_overruns h rest
      ((Text.lines text').drop (front.length + 1))
    exact ⟨hds, hindex, haborted, fun i _ => hnodes i⟩

/-- With a higher limit on errors an analysis that was not stopped is the same, and one that was stopped
goes on from the line that stopped it. -/
theorem lower_limit_truncates {limit limit' : Nat} (hle : limit ≤ limit') (text : String) :
    ((analyze limit text).aborted = false →
      analyze limit' text = analyze limit text ∧ (analyze limit' text).aborted = false) ∧
    ((analyze limit text).aborted = true → ∃ line, CutOff limit limit' text line) := by
  refine ⟨fun hrunning => ?_, fun haborted => ?_⟩
  · have hsame : analyze limit' text = analyze limit text := by
      rw [analyze, analyzeLines, aborted_finish] at hrunning
      rw [analyze, analyze, analyzeLines, analyzeLines, run_of_le hle hrunning]
    exact ⟨hsame, by rw [hsame]; exact hrunning⟩
  · rw [analyze, analyzeLines, aborted_finish] at haborted
    obtain ⟨front, raw, rest, hlines, hover⟩ := exists_overruns_of_aborted haborted
    exact ⟨_, cutOff_of_overruns hle hlines hover⟩

/-- A block that opens on the line that stops the run is only read on with the higher limit. -/
theorem lower_limit_truncates_block :
    1 ≤ 2 ∧ (analyze 1 "?\n%\x7b\n x\n%\x7d").aborted = true ∧
      (analyze 2 "?\n%\x7b\n x\n%\x7d").aborted = false ∧
      ∃ line, CutOff 1 2 "?\n%\x7b\n x\n%\x7d" line :=
  ⟨by decide, by decide +kernel, by decide +kernel,
    (lower_limit_truncates (by decide) "?\n%\x7b\n x\n%\x7d").2 (by decide +kernel)⟩

end LineGrammar
