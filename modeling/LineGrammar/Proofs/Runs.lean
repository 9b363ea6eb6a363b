import LineGrammar.Proofs.CleanRun
import LineGrammar.Proofs.Turns
import LineGrammar.Proofs.Problems
import Mathlib.Data.List.Induction

/-! Runs over all lines. Until it is stopped an analysis is a plain run of steps, so what holds of it can be
shown line by line; each line adds one slot, and reports only what is told here. -/

namespace LineGrammar

namespace Analysis

/-- The analysis of all the lines, however many errors there are. -/
def after (lines : List String) : Analysis := lines.foldl step {}

theorem after_concat (lines : List String) (raw : String) :
    after (lines ++ [raw]) = (after lines).step raw := by
  rw [after, List.foldl_append]
  rfl

theorem aborted_foldl_advance (limit : Nat) (lines : List String) {a : Analysis}
    (h : a.aborted = true) : (lines.foldl (advance limit) a).aborted = true := by
  induction lines generalizing a with
  | nil => exact h
  | cons raw rest ih =>
    refine ih ?_
    rw [advance, if_pos h]
    exact h

theorem foldl_advance_of_running {limit : Nat} {lines : List String} {a : Analysis}
    (h : (lines.foldl (advance limit) a).aborted = false) :
    lines.foldl (advance limit) a = lines.foldl step a := by
  induction lines generalizing a with
  | nil => rfl
  | cons raw rest ih =>
    have hnext : (a.advance limit raw).aborted = false := by
      cases hn : (a.advance limit raw).aborted with
      | false => rfl
      | true => exact absurd ((aborted_foldl_advance limit rest hn).symm.trans h) (by simp)
    have hstep : a.advance limit raw = a.step raw := by
      unfold advance checkLimit at hnext ⊢
      split
      · next ha => rw [if_pos ha] at hnext; exact absurd (ha.symm.trans hnext) (by simp)
      · next ha =>
        rw [if_neg ha] at hnext
        split
        · next herrors => rw [if_pos herrors] at hnext; cases hnext
        · rfl
    rw [List.foldl_cons, ih h, hstep]
    rfl

/-- A run that was not stopped has read every line. -/
theorem run_of_running {limit : Nat} {lines : List String} (h : (run limit lines).aborted = false) :
    run limit lines = after lines :=
  foldl_advance_of_running h

@[simp] theorem aborted_after (lines : List String) : (after lines).aborted = false :=
  aborted_foldl lines {}

theorem aborted_finish (a : Analysis) : a.finish.aborted = a.aborted := by
  have hconclude : a.conclude.aborted = a.aborted := by
    unfold conclude
    split
    · rfl
    · split <;> rfl
  exact hconclude

/-- A document whose analysis was not stopped. -/
theorem analyzeLines_of_running {limit : Nat} {lines : List String}
    (h : (analyzeLines limit lines).aborted = false) :
    analyzeLines limit lines = (after lines).finish := by
  rw [analyzeLines, aborted_finish] at h
  rw [analyzeLines, run_of_running h]

theorem coherent_after (lines : List String) :
    (after lines).reader.Coherent (after lines).lateBlock := by
  induction lines using List.reverseRecOn with
  | nil => exact coherent_empty
  | append_singleton lines raw ih => rw [after_concat]; exact coherent_step ih raw

theorem accounted_after (lines : List String) : Accounted (after lines) := by
  induction lines using List.reverseRecOn with
  | nil => exact accounted_empty
  | append_singleton lines raw ih => rw [after_concat]; exact ih.step raw

/-- What holds at first and is kept by every turn holds after all lines. -/
@[elab_as_elim]
theorem after_induction {P : List String → Analysis → Prop} (nil : P [] {})
    (turn : ∀ lines raw a', P lines (after lines) → (after lines).Turn raw a' →
      P (lines ++ [raw]) a') (lines : List String) : P lines (after lines) := by
  induction lines using List.reverseRecOn with
  | nil => exact nil
  | append_singleton lines raw ih =>
    rw [after_concat]
    exact turn lines raw _ ih (turn_step (coherent_after lines) raw)

theorem size_turn {a a' : Analysis} {raw : String} (hturn : a.Turn raw a') :
    a'.slots.size = a.slots.size + 1 := by
  cases hturn with
  | closing b hblock hraw =>
    obtain ⟨external, reported, -, hclose⟩ := closeBlock_spec b (a.moveTo raw)
    rw [hclose]
    simp [endLine, place, moveTo]
  | _ => exact Array.size_push _

/-- The reader is at the line that it has read last. -/
theorem line_turn {a a' : Analysis} {raw : String} (hturn : a.Turn raw a') :
    a'.reader.line = a.nextLine raw := by
  have hfollow : ∀ (r : Reader) (s : Sequel), (r.follow s).line = r.line := by
    intro r s
    cases s <;> rfl
  cases hturn with
  | closing b hblock hraw =>
    obtain ⟨external, reported, -, hclose⟩ := closeBlock_spec b (a.moveTo raw)
    rw [hclose]
    simp only [endLine, place, expectMore]
    split <;> rfl
  | name hblock hexpects hraw => exact hfollow _ _
  | opening hblock hraw => rw [openAt_eq]; rfl
  | node hblock shape hshape => exact hfollow _ _
  | _ => rfl

/-- Each line fills one slot. -/
@[simp] theorem size_after (lines : List String) : (after lines).slots.size = lines.length := by
  induction lines using after_induction with
  | nil => rfl
  | turn lines raw a' ih hturn => rw [size_turn hturn, ih, List.length_append, List.length_singleton]

/-- The lines before a line that has been read were read without a stop. -/
theorem run_take_of_running {limit : Nat} {lines : List String}
    (h : (run limit lines).aborted = false) (j : Nat) :
    run limit (lines.take j) = after (lines.take j) := by
  refine run_of_running ?_
  cases hprefix : (run limit (lines.take j)).aborted with
  | false => rfl
  | true =>
    have hrest := aborted_foldl_advance limit (lines.drop j) hprefix
    rw [run, ← List.foldl_append, List.take_append_drop] at hrest
    exact absurd (hrest.symm.trans h) (by simp)

/-- A run reads its first `k` lines without regard to the limit, and no more. -/
structure ReadsUpTo (limit : Nat) (lines : List String) (k : Nat) : Prop where
  le : k ≤ lines.length
  before : ∀ j < k, run limit (lines.take j) = after (lines.take j)
  block : (run limit lines).reader.block? = (after (lines.take k)).reader.block?
  diagnostics : ∃ ds, (run limit lines).reader.diagnostics =
    (after (lines.take k)).reader.diagnostics ++ ds ∧ ∀ d ∈ ds, d.code = "E0207"
  slots : (run limit lines).slots.toList =
    (after (lines.take k)).slots.toList ++ List.replicate (lines.length - k) none

/-- A run that was not stopped has read all lines. -/
theorem readsUpTo_of_running {limit : Nat} {lines : List String}
    (h : (run limit lines).aborted = false) : ReadsUpTo limit lines lines.length where
  le := Nat.le_refl _
  before := fun j _ => run_take_of_running h j
  block := by rw [run_of_running h, List.take_length]
  diagnostics := ⟨[], by rw [run_of_running h, List.take_length, List.append_nil], by simp⟩
  slots := by rw [run_of_running h, List.take_length]; simp

end Analysis

end LineGrammar
