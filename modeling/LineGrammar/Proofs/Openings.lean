import LineGrammar.Proofs.History
import LineGrammar.Proofs.Reports

/-! Where blocks open. A code block of its own opens on a line with the opening mark, outside of all other
blocks, and has the name and the walker that the lines before it give it; what is reported on this line
is said when the block opens. -/

namespace LineGrammar

namespace Analysis

/-- The block opened on a line, as the lines before that have it. -/
structure OpenedAt (lines : List String) (line : Nat) (b : CodeBlock) : Prop where
  mark : ∃ raw, lines[line]? = some raw ∧ opens raw = true ∧
    b.opening = Line.whole { number := line, raw }
  outside : (after (lines.take line)).reader.block? = none
  name : b.name = (after (lines.take line)).nextOwner.toOption.map Prod.fst
  walker : b.walker = (after (lines.take line)).nextOwner.toOption.map Prod.snd

theorem OpenedAt.append {lines : List String} {line : Nat} {b : CodeBlock} (h : OpenedAt lines line b)
    (more : List String) : OpenedAt (lines ++ more) line b := by
  obtain ⟨raw, hraw, hmark⟩ := h.mark
  have hlt : line < lines.length := (List.getElem?_eq_some_iff.1 hraw).1
  have htake : (lines ++ more).take line = lines.take line :=
    List.take_append_of_le_length (Nat.le_of_lt hlt)
  refine ⟨⟨raw, ?_, hmark⟩, ?_, ?_, ?_⟩
  · rw [List.getElem?_append_left hlt]
    exact hraw
  · rw [htake]; exact h.outside
  · rw [htake]; exact h.name
  · rw [htake]; exact h.walker

/-- Every block, open or placed, opened on its line. -/
structure Opened (lines : List String) (a : Analysis) : Prop where
  placed : ∀ line b, a.slots.toList[line]?.join = some (.block b) → OpenedAt lines line b
  pending : ∀ b, a.reader.block? = some b → b.isInline = false → OpenedAt lines b.startLine b

/-- A slot that is added without a block. -/
theorem Opened.push {a a' : Analysis} {lines : List String} (h : Opened lines a) (node? : Option Node)
    (hslots : a'.slots = a.slots.push node?) (hnode : ∀ b, node? ≠ some (.block b)) (raw : String)
    {line : Nat} {b : CodeBlock} (hb : a'.slots.toList[line]?.join = some (.block b)) :
    OpenedAt (lines ++ [raw]) line b := by
  rw [hslots, Array.toList_push] at hb
  refine (h.placed line b ?_).append [raw]
  cases node? with
  | none => rwa [node_append_none] at hb
  | some n =>
    rcases (node_append_iff (k := 0)).1 hb with hb | ⟨-, hn⟩
    · exact hb
    · exact absurd (by rw [hn]) (hnode b)

/-- A block that is put into its slot opened there. -/
theorem Opened.fills {a : Analysis} {lines : List String} (h : Opened lines a) {b block : CodeBlock}
    (hblock : a.reader.block? = some b) (hopening : block.opening = b.opening)
    (hname : block.name = b.name) (hwalker : block.walker = b.walker)
    {front : List (Option Node)} {slot : Option Node} {k : Nat} {n : Node}
    {slots' : List (Option Node)} (hfills : Fills b block front slot k n a.slots.toList slots')
    {line : Nat} {c : CodeBlock} (hc : slots'[line]?.join = some (.block c)) :
    OpenedAt lines line c := by
  rw [hfills.after] at hc
  rcases node_append_iff.1 hc with hc | ⟨rfl, hn⟩
  · refine h.placed line c ?_
    have hlt : line < front.length := by
      by_contra hle
      rw [List.getElem?_eq_none (by omega)] at hc
      cases hc
    rw [hfills.before, List.getElem?_append_left hlt]
    exact hc
  · cases hfills.placed with
    | alone hkind =>
      cases hn
      have hopened := h.pending b hblock hkind
      rw [hfills.start]
      exact ⟨hopening ▸ hopened.mark, hopened.outside, hname.trans hopened.name, hwalker.trans hopened.walker⟩
    | attached p walker hkind hbody => cases hn

variable {a' : Analysis} {lines : List String} {raw : String}

theorem opened_turn (h : Opened lines (after lines)) (hturn : (after lines).Turn raw a') :
    Opened (lines ++ [raw]) a' := by
  have hsize := size_after lines
  have hacc := accounted_after lines
  have hall : (lines ++ [raw]).take lines.length = lines := List.take_left
  have hself : ∀ b : CodeBlock, opens raw = true → (after lines).reader.block? = none →
      b.opening = Line.whole { number := lines.length, raw } →
      b.name = (after lines).nextOwner.toOption.map Prod.fst →
      b.walker = (after lines).nextOwner.toOption.map Prod.snd →
        OpenedAt (lines ++ [raw]) lines.length b := fun b hraw hblock hopening hname hwalker =>
    ⟨⟨raw, by simp, hraw, hopening⟩, by rwa [hall], by rwa [hall], by rwa [hall]⟩
  generalize after lines = a at *
  cases hturn with
  | inside b hblock hraw =>
    refine ⟨fun line c hc => h.push none rfl (by simp) raw hc, fun c hc hkind => ?_⟩
    rw [block?_inside hblock] at hc
    cases hc
    have hopened := (h.pending b hblock hkind).append [raw]
    exact ⟨hopened.mark, hopened.outside, hopened.name, hopened.walker⟩
  | closing b hblock hraw =>
    obtain ⟨external, front, slot, k, n, slots', hfills, hslots'⟩ := slots_closing hacc hblock raw
    refine ⟨fun line c hc => ?_, fun c hc => ?_⟩
    · rw [hslots', node_append_none] at hc
      exact (h.fills hblock (by rfl) (by rfl) (by rfl) hfills hc).append [raw]
    · rw [block?_closing] at hc
      cases hc
  | name hblock hexpects hraw =>
    refine ⟨fun line c hc => h.push _ rfl (by simp [Reading.map]) raw hc, fun c hc => ?_⟩
    exact absurd ((block?_name hblock).symm.trans hc) (by simp)
  | opening hblock hraw =>
    refine ⟨fun line c hc => h.push none rfl (by simp) raw hc, fun c hc _ => ?_⟩
    obtain rfl := Option.some.inj (block?_opening.symm.trans hc)
    change OpenedAt (lines ++ [raw]) a.slots.size _
    rw [hsize]
    exact hself _ hraw hblock (by rw [← hsize]; rfl) rfl rfl
  | blank hblock hraw =>
    exact ⟨fun line c hc => h.push none rfl (by simp) raw hc, fun c hc => by cases hc⟩
  | refused hblock hraw hopens hname cause hcause =>
    exact ⟨fun line c hc => h.push none rfl (by simp) raw hc, fun c hc => by cases hc⟩
  | node hblock shape hshape =>
    refine ⟨fun line c hc => h.push _ rfl ?_ raw hc, fun c hc hkind => ?_⟩
    · intro c hc
      have hbare := Node.codeBlock?_read (a.nextLine raw) a.index shape
      rw [Option.some.inj hc] at hbare
      cases hbare
    · exact absurd (hkind.symm.trans (block_of_node hshape hc).2.1) (by simp)

theorem opened_after (lines : List String) : Opened lines (after lines) := by
  induction lines using List.reverseRecOn with
  | nil => exact ⟨by simp [after], fun b hb => by cases hb⟩
  | append_singleton lines raw ih =>
    rw [after_concat]
    exact opened_turn ih (turn_step (coherent_after lines) raw)

theorem openedAt_conclude {line : Nat} {b : CodeBlock}
    (hb : (after lines).conclude.slots.toList[line]?.join = some (.block b)) :
    OpenedAt lines line b := by
  rw [slots_conclude] at hb
  have hopened := opened_after lines
  have hacc := accounted_after lines
  cases hblock : (after lines).reader.block? with
  | none =>
    rw [hblock] at hb
    exact hopened.placed line b hb
  | some c =>
    rw [hblock] at hb
    obtain ⟨front, slot, k, n, hfills⟩ := (hacc.reserved c hblock).fills c rfl rfl
    exact hopened.fills hblock rfl rfl rfl hfills hb

end Analysis

end LineGrammar
