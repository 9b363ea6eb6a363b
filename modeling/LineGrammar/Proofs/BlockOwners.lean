import LineGrammar.Proofs.Halts
import LineGrammar.Proofs.Openings

/-! Which rule and which walker a block belongs to. The line above a block tells: a members pragma or the
name of a block say it themselves, a rule or a malformed name leave it to the default walker, and after
any other line the block belongs to nothing. -/

namespace LineGrammar

/-- The last rule above a line waits for blocks, and between it and the line there are only names of
blocks and closed blocks. -/
def RuleAbove (nodes : Nat → Option Node) (line : Nat) (r : RuleDef) : Prop :=
  ∃ i < line, nodes i = some (.rule r) ∧ r.terminated = false ∧
    ∀ j, i < j → j < line → (∀ r', nodes j ≠ some (.rule r')) ∧
      ((∃ n, nodes j = some (.blockName n)) ∨
        ∃ k b, i < k ∧ k ≤ j ∧ nodes k = some (.block b) ∧ b.isClosed = true ∧ j < k + b.lineSpan)

theorem RuleAbove.congr {nodes nodes' : Nat → Option Node} {line : Nat} {r : RuleDef}
    (h : RuleAbove nodes line r) (hsame : ∀ i < line, nodes' i = nodes i) :
    RuleAbove nodes' line r := by
  obtain ⟨i, hi, hr, hopen, hbetween⟩ := h
  refine ⟨i, hi, (hsame i hi).trans hr, hopen, fun j hij hj => ?_⟩
  rw [hsame j hj]
  obtain ⟨hrule, hname | ⟨k, b, hik, hkj, hb, hclosed, hend⟩⟩ := hbetween j hij hj
  · exact ⟨hrule, .inl hname⟩
  · exact ⟨hrule, .inr ⟨k, b, hik, hkj, (hsame k (by omega)).trans hb, hclosed, hend⟩⟩

namespace Analysis

variable {a : Analysis}

section
variable (hcoh : a.reader.Coherent a.lateBlock) (hrecalls : Recalls a)
include hcoh hrecalls

end

end Analysis

namespace Document

/-- The node of the line before a line. -/
def nodeAbove? (d : Document) : Nat → Option Node
  | 0 => none
  | line + 1 => d.nodeAt? line

end Document

namespace Analysis

section
variable {limit k : Nat} {lines : List String}

theorem nodeAt?_of_readsUpTo (h : ReadsUpTo limit lines k) (i : Nat) :
    (analyzeLines limit lines).nodeAt? i =
      (after (lines.take k)).conclude.slots.toList[i]?.join := by
  have hacc := accounted_after (lines.take k)
  have hslots : (run limit lines).conclude.slots.toList =
      (after (lines.take k)).conclude.slots.toList ++ List.replicate (lines.length - k) none := by
    rw [slots_conclude, slots_conclude, h.block, h.slots]
    cases hblock : (after (lines.take k)).reader.block? with
    | none => rfl
    | some b =>
      obtain ⟨front, slot, m, n, hfills⟩ := (hacc.reserved b hblock).fills b rfl rfl
      have hplaced := hfills.after
      dsimp only
      rw [hfills.before, ← hfills.start] at hplaced ⊢
      rw [modify_append_cons] at hplaced ⊢
      rw [List.append_assoc, List.cons_append, modify_append_cons, List.append_assoc]
      rfl
  rw [analyzeLines, nodeAt?_finish, hslots]
  generalize (after (lines.take k)).conclude.slots.toList = slots
  by_cases hi : i < slots.length
  · rw [List.getElem?_append_left hi]
  · rw [List.getElem?_append_right (by omega), List.getElem?_eq_none (by omega : slots.length ≤ i),
      List.getElem?_replicate]
    split <;> rfl

/-- The nodes that are settled after some of the lines stay as they are. -/
theorem nodeAt?_settled (h : ReadsUpTo limit lines k) {j : Nat} (hj : j ≤ k) :
    ∀ i < (after (lines.take j)).settled, (analyzeLines limit lines).nodeAt? i =
      (after (lines.take j)).slots.toList[i]?.join := by
  have hwhole : lines.take j ++ (lines.take k).drop j = lines.take k := by
    rw [← Nat.min_eq_left hj, ← List.take_take, Nat.min_eq_left hj, List.take_append_drop]
  obtain ⟨hle, hsame⟩ := settled_after (lines.take j) ((lines.take k).drop j)
  rw [hwhole] at hle hsame
  intro i hi
  rw [nodeAt?_of_readsUpTo h,
    getElem?_of_take_eq (settled_conclude (accounted_after _)) (Nat.lt_of_lt_of_le hi hle),
    getElem?_of_take_eq hsame hi]

end

end Analysis

section
variable {d : Document} {lines : List String} {line : Nat}
  (hlength : (lines.take line).length = line)
  (hnodes : ∀ i < line, d.nodeAt? i = (Analysis.after (lines.take line)).slots.toList[i]?.join)
include hlength hnodes

open Analysis

theorem nodeAbove?_eq : d.nodeAbove? line = (after (lines.take line)).last? := by
  have hsize : (after (lines.take line)).slots.toList.length = line := by
    rw [Array.length_toList, size_after, hlength]
  rw [last?, List.getLast?_eq_getElem?, hsize]
  cases line with
  | zero =>
    rw [List.getElem?_eq_none (Nat.le_of_eq hsize)]
    rfl
  | succ i => exact hnodes i (Nat.lt_succ_self i)

end

end LineGrammar
