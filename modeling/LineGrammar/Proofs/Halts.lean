import LineGrammar.Proofs.Runs

/-! Where a run is stopped. The errors of a run only grow with its lines, so a run is stopped at the first
line after which there are more of them than the limit allows, or never. The diagnostics of a run tell
which of the two it is. -/

namespace LineGrammar

theorem errorCount_append (ds es : List Diagnostic) :
    errorCount (ds ++ es) = errorCount ds + errorCount es :=
  List.countP_append

theorem errorCount_le_of_prefix {ds es : List Diagnostic} (h : ds <+: es) :
    errorCount ds ≤ errorCount es :=
  h.sublist.countP_le

/-- Beyond the first errors there are only later ones. -/
theorem mem_of_mem_drop_errors {limit : Nat} {ds es : List Diagnostic} (h : errorCount ds ≤ limit)
    {d : Diagnostic} (hd : d ∈ ((ds ++ es).filter Diagnostic.isError).drop limit) : d ∈ es := by
  rw [errorCount, List.countP_eq_length_filter] at h
  rw [List.filter_append, List.drop_append, List.drop_eq_nil_of_le h, List.nil_append] at hd
  exact (List.mem_filter.1 (List.mem_of_mem_drop hd)).1

namespace Analysis

theorem errors_le_append (lines rest : List String) :
    (after lines).reader.errors ≤ (after (lines ++ rest)).reader.errors := by
  have hgrows := diagnostics_foldl rest (after lines)
  rw [after, after, List.foldl_append]
  exact errorCount_le_of_prefix hgrows

theorem take_succ_append_cons {α : Type} (front : List α) (x : α) (rest : List α) :
    (front ++ x :: rest).take (front.length + 1) = front ++ [x] := by
  rw [List.take_length_add_append]
  rfl

/-- After the line there are too many errors, but not before it. -/
structure Overruns (limit : Nat) (front : List String) (raw : String) : Prop where
  before : (after front).reader.errors ≤ limit
  beyond : limit < (after (front ++ [raw])).reader.errors

/-- The analysis is stopped, and leaves some lines unread. -/
def halt (limit unread : Nat) (a : Analysis) : Analysis :=
  { a.report (.tooManyErrors limit) with
    slots := a.slots ++ (List.replicate unread none).toArray
    aborted := true }

theorem endLine_halt (limit unread : Nat) (a : Analysis) :
    (a.halt limit unread).endLine none = a.halt limit (unread + 1) := by
  have hslots : (a.slots ++ (List.replicate unread (none : Option Node)).toArray).push none =
      a.slots ++ (List.replicate (unread + 1) none).toArray := by
    apply Array.toList_inj.1
    simp [List.replicate_succ']
  rw [halt, endLine, hslots]
  rfl

theorem foldl_advance_halt (limit unread : Nat) (rest : List String) (a : Analysis) :
    rest.foldl (advance limit) (a.halt limit unread) = a.halt limit (unread + rest.length) := by
  induction rest generalizing unread with
  | nil => rfl
  | cons raw rest ih =>
    have hskip : (a.halt limit unread).advance limit raw = a.halt limit (unread + 1) := by
      rw [advance, if_pos (show (a.halt limit unread).aborted = true from rfl), endLine_halt]
    rw [List.foldl_cons, hskip, ih, List.length_cons, Nat.add_assoc, Nat.add_comm 1]

section
variable {limit : Nat} {lines front : List String} {raw : String}

/-- As long as there are not too many errors the limit does not count. -/
theorem run_eq_after (h : (after lines).reader.errors ≤ limit) : run limit lines = after lines := by
  induction lines using List.reverseRecOn with
  | nil => rfl
  | append_singleton lines raw ih =>
    have hfront := ih (Nat.le_trans (errors_le_append lines [raw]) h)
    rw [run, List.foldl_append, ← run, hfront, List.foldl_cons, List.foldl_nil, advance,
      if_neg (by simp), checkLimit, ← after_concat, if_neg (Nat.not_lt.2 h)]

theorem run_eq_halt (h : Overruns limit front raw) (rest : List String) :
    run limit (front ++ raw :: rest) = (after (front ++ [raw])).halt limit rest.length := by
  have hstop : (after front).advance limit raw = (after (front ++ [raw])).halt limit 0 := by
    rw [advance, if_neg (by simp), checkLimit, ← after_concat, if_pos h.beyond, halt]
    simp [report]
  rw [run, List.foldl_append, ← run, run_eq_after h.before, List.foldl_cons, hstop,
    foldl_advance_halt, Nat.zero_add]

/-- Too many errors come with some line. -/
theorem exists_overruns (h : limit < (after lines).reader.errors) :
    ∃ front raw rest, lines = front ++ raw :: rest ∧ Overruns limit front raw := by
  induction lines using List.reverseRecOn with
  | nil => exact absurd h (Nat.not_lt_zero limit)
  | append_singleton lines raw ih =>
    by_cases hbefore : limit < (after lines).reader.errors
    · obtain ⟨front, first, rest, rfl, hover⟩ := ih hbefore
      exact ⟨front, first, rest ++ [raw], by simp, hover⟩
    · exact ⟨lines, raw, [], rfl, Nat.not_lt.1 hbefore, h⟩

/-- A run is stopped if there are too many errors in all of its lines. -/
theorem aborted_run (limit : Nat) (lines : List String) :
    (run limit lines).aborted = decide (limit < (after lines).reader.errors) := by
  by_cases h : limit < (after lines).reader.errors
  · obtain ⟨front, raw, rest, rfl, hover⟩ := exists_overruns h
    rw [run_eq_halt hover, decide_eq_true h]
    rfl
  · rw [run_eq_after (Nat.not_lt.1 h), aborted_after, decide_eq_false h]

theorem errors_le_of_running (h : (run limit lines).aborted = false) :
    (after lines).reader.errors ≤ limit := by
  rw [aborted_run] at h
  exact Nat.not_lt.1 (of_decide_eq_false h)

theorem exists_overruns_of_aborted (h : (run limit lines).aborted = true) :
    ∃ front raw rest, lines = front ++ raw :: rest ∧ Overruns limit front raw := by
  rw [aborted_run] at h
  exact exists_overruns (of_decide_eq_true h)

/-- A run that is stopped has read the line that stops it, and no more. -/
theorem Overruns.readsUpTo (h : Overruns limit front raw) (rest : List String) :
    ReadsUpTo limit (front ++ raw :: rest) (front.length + 1) := by
  have hread := take_succ_append_cons front raw rest
  constructor
  case le => simp
  case before =>
    intro j hj
    rw [List.take_append_of_le_length (Nat.le_of_lt_succ hj)]
    refine run_eq_after (Nat.le_trans ?_ h.before)
    have hgrows := errors_le_append (front.take j) (front.drop j)
    rwa [List.take_append_drop] at hgrows
  case block =>
    rw [run_eq_halt h, hread]
    rfl
  case diagnostics =>
    rw [run_eq_halt h, hread]
    exact ⟨_, rfl, fun d hd => by rw [List.mem_singleton.1 hd]; rfl⟩
  case slots =>
    rw [run_eq_halt h, hread, halt]
    simp [Nat.add_sub_add_left, Nat.add_comm rest.length]

/-- How far a run reads its lines. -/
theorem exists_readsUpTo (limit : Nat) (lines : List String) : ∃ k, ReadsUpTo limit lines k := by
  cases haborted : (run limit lines).aborted with
  | false => exact ⟨_, readsUpTo_of_running haborted⟩
  | true =>
    obtain ⟨front, raw, rest, rfl, hover⟩ := exists_overruns_of_aborted haborted
    exact ⟨_, hover.readsUpTo rest⟩

end

end Analysis

end LineGrammar
