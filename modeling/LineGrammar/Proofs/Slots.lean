import LineGrammar.Proofs.Runs
import LineGrammar.Proofs.Segments

/-! The slots of a run. A turn adds one slot, and the slots before an open block are filled for good: all
that still changes is the slot that is kept for the block. -/

namespace LineGrammar

section
variable {slots : List (Option Node)}

/-- The nodes after a piece with a node at its head. -/
theorem node_append_iff {n m : Node} {k i : Nat} :
    (slots ++ some n :: List.replicate k none)[i]?.join = some m ↔
      slots[i]?.join = some m ∨ i = slots.length ∧ m = n := by
  rcases Nat.lt_trichotomy i slots.length with hi | rfl | hi
  · simp [List.getElem?_append_left hi, Nat.ne_of_lt hi]
  · simp [eq_comm]
  · obtain ⟨j, rfl⟩ := Nat.exists_eq_add_of_lt hi
    rw [List.getElem?_append_right (by omega), List.getElem?_eq_none (by omega : slots.length ≤ _),
      show slots.length + j + 1 - slots.length = j + 1 by omega, List.getElem?_cons_succ,
      List.getElem?_replicate]
    have hne : slots.length + j + 1 ≠ slots.length := by omega
    split <;> simp [hne]

/-- The nodes after a line without one. -/
theorem node_append_none {i : Nat} : (slots ++ [none])[i]?.join = slots[i]?.join := by
  rcases Nat.lt_trichotomy i slots.length with hi | rfl | hi
  · rw [List.getElem?_append_left hi]
  · simp
  · rw [List.getElem?_eq_none (by simp; omega), List.getElem?_eq_none (by omega)]

end

/-- What is the same up to some line is the same on each line before it. -/
theorem getElem?_of_take_eq {α : Type} {xs ys : List α} {k i : Nat} (h : xs.take k = ys.take k)
    (hi : i < k) : xs[i]? = ys[i]? := by
  rw [← List.getElem?_take_of_lt hi, h, List.getElem?_take_of_lt hi]

/-- The node that a block becomes in the slot that was kept for it. -/
inductive Placed (b block : CodeBlock) : Option Node → Node → Prop
  | alone (hkind : b.isInline = false) : Placed b block none (.block block)
  | attached (p : Pragma) (walker : Lexeme) (hkind : b.isInline = true)
    (hbody : p.body = .members walker (some b.opening) none) :
    Placed b block (some (.pragma p))
      (.pragma { p with body := .members walker (some b.opening) (some block) })

theorem Placed.lineSpan {b block : CodeBlock} {slot : Option Node} {n : Node}
    (h : Placed b block slot n) : n.lineSpan = block.lineSpan := by
  cases h <;> rfl

theorem Keeps.placed {b block : CodeBlock} {slot : Option Node} (h : Keeps b slot)
    (hinline : block.isInline = b.isInline) :
    ∃ n, LineGrammar.placeBlock block slot = some n ∧ Placed b block slot n := by
  unfold Keeps at h
  split at h
  · next hkind =>
    obtain ⟨p, walker, rfl, hbody⟩ := h
    refine ⟨_, ?_, .attached p walker hkind hbody⟩
    simp [LineGrammar.placeBlock, hinline, hkind, Pragma.attach?, hbody]
  · next hkind =>
    subst h
    exact ⟨_, rfl, .alone (by simpa using hkind)⟩

theorem Reserved.startLine_lt {b : CodeBlock} {slots : List (Option Node)} (h : Reserved b slots) :
    b.startLine < slots.length := by
  obtain ⟨-, front, slot, k, rfl, hlength, -⟩ := h
  rw [← hlength]
  simp

/-- The slots before and after an open block has been put into its slot. -/
structure Fills (b block : CodeBlock) (front : List (Option Node)) (slot : Option Node) (k : Nat)
    (n : Node) (slots slots' : List (Option Node)) : Prop where
  before : slots = front ++ slot :: List.replicate k none
  after : slots' = front ++ some n :: List.replicate k none
  start : front.length = b.startLine
  placed : Placed b block slot n

namespace Fills

variable {b block : CodeBlock} {front : List (Option Node)} {slot : Option Node} {k : Nat} {n : Node}
  {slots slots' : List (Option Node)}

theorem length (h : Fills b block front slot k n slots slots') :
    slots.length = b.startLine + (k + 1) := by
  rw [h.before, ← h.start]
  simp

theorem take_before (h : Fills b block front slot k n slots slots') :
    slots.take b.startLine = front := by
  rw [h.before, ← h.start, List.take_left]

theorem take_after (h : Fills b block front slot k n slots slots') :
    slots'.take b.startLine = front := by
  rw [h.after, ← h.start, List.take_left]

end Fills

theorem Reserved.fills {b : CodeBlock} {slots : List (Option Node)} (h : Reserved b slots)
    (block : CodeBlock) (hopening : block.opening = b.opening) (hinline : block.isInline = b.isInline) :
    ∃ front slot k n, Fills b block front slot k n slots
      (slots.modify block.startLine (placeBlock block)) := by
  obtain ⟨-, front, slot, k, rfl, hlength, hslot⟩ := h
  obtain ⟨n, hplace, hplaced⟩ := hslot.placed hinline
  refine ⟨front, slot, k, n, rfl, ?_, hlength, hplaced⟩
  rw [CodeBlock.startLine, hopening, ← CodeBlock.startLine, ← hlength, modify_append_cons, hplace]

namespace Analysis

/-- What the end of a block does to the slots. -/
theorem slots_closing {a : Analysis} (h : Accounted a) {b : CodeBlock}
    (hblock : a.reader.block? = some b) (raw : String) :
    ∃ external front slot k n slots',
      Fills b { b.close (a.nextLine raw).whole with external } front slot k n a.slots.toList slots' ∧
        (((a.moveTo raw).closeBlock b).endLine none).slots.toList = slots' ++ [none] := by
  obtain ⟨external, reported, -, hclose⟩ := closeBlock_spec b (a.moveTo raw)
  obtain ⟨front, slot, k, n, hfills⟩ :=
    (h.reserved b hblock).fills { b.close (a.nextLine raw).whole with external } rfl rfl
  refine ⟨external, front, slot, k, n, _, hfills, ?_⟩
  rw [hclose]
  simp only [endLine, place, Array.toList_push, Array.toList_modify]
  rfl

/-- How many slots will not change any more: those before an open block, or all. -/
def settled (a : Analysis) : Nat :=
  match a.reader.block? with
  | some b => b.startLine
  | none => a.slots.size

theorem settled_block {a : Analysis} {b : CodeBlock} (h : a.reader.block? = some b) :
    a.settled = b.startLine := by
  rw [settled, h]

theorem settled_none {a : Analysis} (h : a.reader.block? = none) : a.settled = a.slots.size := by
  rw [settled, h]

theorem take_settled {a : Analysis} (h : a.reader.block? = none) :
    a.slots.toList.take a.settled = a.slots.toList := by
  rw [settled_none h, ← Array.length_toList, List.take_length]

section
variable {a a' : Analysis} {raw : String}

/-- The end of a block leaves none open. -/
theorem block?_closing (b : CodeBlock) :
    (((a.moveTo raw).closeBlock b).endLine none).reader.block? = none := by
  obtain ⟨external, reported, -, hclose⟩ := closeBlock_spec b (a.moveTo raw)
  rw [hclose]
  exact (expectMore_spec _ _).1

theorem block?_inside {b : CodeBlock} (hblock : a.reader.block? = some b) :
    (endLine none { a.moveTo raw with reader := (a.moveTo raw).reader.pushLine }).reader.block? =
      some (b.push raw) := by
  simp [endLine, Reader.pushLine, moveTo, Reader.moveTo, hblock]

/-- What owns a block that would open on the next line. -/
def nextOwner (a : Analysis) : Except (List Cause) (String × String) :=
  blockOwner { a.reader with rule? := if a.reader.expectsBlock then a.reader.rule? else none } a.index
    a.lateBlock

/-- A block that opens on a line of its own has no lines yet. -/
theorem block?_opening :
    ((openAt (a.nextLine raw).whole
      { a with
        reader := { a.reader with
          line := a.nextLine raw
          rule? := if a.reader.expectsBlock then a.reader.rule? else none
          expectsName := false } }).endLine none).reader.block? =
      some {
        opening := (a.nextLine raw).whole
        name := a.nextOwner.toOption.map Prod.fst
        walker := a.nextOwner.toOption.map Prod.snd
        isInline := false } := by
  rw [openAt_eq]
  rfl

/-- The name of a block opens none. -/
theorem block?_name (hblock : a.reader.block? = none) :
    ((a.moveTo raw).accept ((BlockName.read (a.nextLine raw)
      (a.reader.rule?.map fun rule => rule.name.text) a.index).map .blockName)).reader.block? = none := by
  rw [reader_name]
  exact hblock

/-- Outside of blocks a turn leaves all slots alone. -/
theorem slots_turn (hblock : a.reader.block? = none) (hturn : a.Turn raw a') :
    ∃ node?, a'.slots = a.slots.push node? := by
  cases hturn with
  | inside b hopen hraw => exact absurd (hblock.symm.trans hopen) (by simp)
  | closing b hopen hraw => exact absurd (hblock.symm.trans hopen) (by simp)
  | _ => exact ⟨_, rfl⟩

/-- A block that opens on the line of a node opens at the end of it. -/
theorem block_of_node {shape : Shape} (hshape : Shape.of? (a.nextLine raw).body = some shape)
    {b : CodeBlock}
    (hb : ((a.giveUp raw).accept (Node.read (a.nextLine raw) a.index shape)).reader.block? = some b) :
    b.startLine = a.slots.size ∧ b.isInline = true ∧ b.body = [] := by
  have hsequel : (Node.read (a.nextLine raw) a.index shape).sequel = .body b := by
    rcases Reader.block?_follow hb with hs | hb
    · exact hs
    · cases hb
  obtain ⟨p, walker, -, -, hline, hinline, -, hnil⟩ := (registers_read hshape).opens b hsequel
  exact ⟨hline, hinline, hnil⟩

/-- A block that a turn opens starts on its line. -/
theorem block_of_turn (hblock : a.reader.block? = none) (hturn : a.Turn raw a') {b : CodeBlock}
    (hb : a'.reader.block? = some b) : b.startLine = a.slots.size ∧ b.body = [] := by
  cases hturn with
  | inside b hopen hraw => exact absurd (hblock.symm.trans hopen) (by simp)
  | closing b hopen hraw => exact absurd (hblock.symm.trans hopen) (by simp)
  | name hblock hexpects hraw =>
    exact absurd ((block?_name hblock).symm.trans hb) (by simp)
  | opening hblock hraw =>
    obtain rfl := Option.some.inj (block?_opening.symm.trans hb)
    exact ⟨rfl, rfl⟩
  | blank hblock hraw => cases hb
  | refused hblock hraw hopens hname cause hcause => cases hb
  | node hblock shape hshape =>
    obtain ⟨hstart, -, hnil⟩ := block_of_node hshape hb
    exact ⟨hstart, hnil⟩

/-- No turn touches a slot that is settled. -/
theorem settled_turn (h : Accounted a) (hturn : a.Turn raw a') :
    a.settled ≤ a'.settled ∧ a'.slots.toList.take a.settled = a.slots.toList.take a.settled := by
  cases hblock : a.reader.block? with
  | none =>
    obtain ⟨node?, hslots⟩ := slots_turn hblock hturn
    have hsize := size_turn hturn
    refine ⟨?_, ?_⟩
    · rw [settled_none hblock]
      cases hnext : a'.reader.block? with
      | none => rw [settled_none hnext]; omega
      | some b =>
        rw [settled_block hnext]
        exact Nat.le_of_eq (block_of_turn hblock hturn hnext).1.symm
    · rw [take_settled hblock, settled_none hblock, hslots, Array.toList_push, ← Array.length_toList,
        List.take_left]
  | some b =>
    rcases turn_inside hblock hturn with rfl | rfl
    · rw [settled_block (block?_inside hblock), settled_block hblock, endLine, Array.toList_push]
      have hle : b.startLine ≤ a.slots.toList.length := Nat.le_of_lt (h.reserved b hblock).startLine_lt
      exact ⟨Nat.le_refl _, List.take_append_of_le_length hle⟩
    · obtain ⟨external, front, slot, k, n, slots', hfills, hslots'⟩ := slots_closing h hblock raw
      have hsize : a.slots.size = b.startLine + (k + 1) := hfills.length
      have hlength : b.startLine ≤ slots'.length := by rw [hfills.after, ← hfills.start]; simp
      rw [settled_none (block?_closing b), settled_block hblock, size_turn hturn, hslots',
        List.take_append_of_le_length hlength, hfills.take_after, hfills.take_before]
      exact ⟨by omega, rfl⟩

end

/-- What is settled after some lines stays as it is. -/
theorem settled_after (lines rest : List String) :
    (after lines).settled ≤ (after (lines ++ rest)).settled ∧
      (after (lines ++ rest)).slots.toList.take (after lines).settled =
        (after lines).slots.toList.take (after lines).settled := by
  induction rest using List.reverseRecOn with
  | nil => simp
  | append_singleton rest raw ih =>
    obtain ⟨hle, htake⟩ := ih
    rw [← List.append_assoc, after_concat]
    obtain ⟨hle', htake'⟩ :=
      settled_turn (accounted_after _) (turn_step (coherent_after (lines ++ rest)) raw)
    refine ⟨Nat.le_trans hle hle', ?_⟩
    have hcut := congrArg (List.take (after lines).settled) htake'
    rw [List.take_take, List.take_take, Nat.min_eq_left hle] at hcut
    exact hcut.trans htake

/-- An open block has the lines after its first one. -/
theorem body_after (lines : List String) {b : CodeBlock}
    (hb : (after lines).reader.block? = some b) : b.body = lines.drop (b.startLine + 1) := by
  induction lines using List.reverseRecOn generalizing b with
  | nil => cases hb
  | append_singleton lines raw ih =>
    have hturn := turn_step (coherent_after lines) raw
    have hsize := size_after lines
    have hreserved := (accounted_after lines).reserved
    rw [after_concat] at hb
    generalize after lines = a at *
    cases hblock : a.reader.block? with
    | none =>
      obtain ⟨hstart, hnil⟩ := block_of_turn hblock hturn hb
      rw [hnil, hstart, hsize, List.drop_eq_nil_of_le (by simp)]
    | some b₀ =>
      have hle : b₀.startLine + 1 ≤ lines.length := hsize ▸ (hreserved b₀ hblock).startLine_lt
      rcases turn_inside hblock hturn with hstep | hstep
      · rw [hstep, block?_inside hblock] at hb
        cases hb
        rw [CodeBlock.push, ih hblock]
        exact (List.drop_append_of_le_length hle).symm
      · rw [hstep] at hb
        exact absurd (hb.symm.trans (block?_closing b₀)) (by simp)

/-- At the end an open block is put into its slot. -/
theorem slots_conclude (a : Analysis) :
    a.conclude.slots.toList = match a.reader.block? with
      | some b => a.slots.toList.modify b.startLine (placeBlock b)
      | none => a.slots.toList := by
  unfold conclude
  cases a.reader.block? with
  | some b => simp [place]
  | none =>
    dsimp only
    split <;> rfl

theorem size_conclude (a : Analysis) : a.conclude.slots.size = a.slots.size := by
  rw [← Array.length_toList, slots_conclude]
  cases a.reader.block? <;> simp

theorem nodeAt?_finish (a : Analysis) (line : Nat) :
    a.finish.nodeAt? line = a.conclude.slots.toList[line]?.join := by
  rw [Array.getElem?_toList]
  rfl

/-- The end leaves alone what is settled. -/
theorem settled_conclude {a : Analysis} (h : Accounted a) :
    a.conclude.slots.toList.take a.settled = a.slots.toList.take a.settled := by
  rw [slots_conclude]
  cases hblock : a.reader.block? with
  | none => rfl
  | some b =>
    obtain ⟨front, slot, k, n, hfills⟩ := (h.reserved b hblock).fills b rfl rfl
    rw [settled_block hblock, hfills.take_before]
    exact hfills.take_after

end Analysis

end LineGrammar
