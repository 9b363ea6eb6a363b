import LineGrammar.Proofs.Halts
import LineGrammar.Proofs.Remarks
import LineGrammar.Proofs.Slots

/-! What a run gathers from its nodes. A list to which blocks add nothing grows only when a line gives a node,
so what it has to do with the index is shown for one node after the other, wherever the run stops. -/

namespace LineGrammar

/-- A line is read by its shape, or as the name of a block. -/
inductive LineReading (line : Line) (ix : Index) : Reading Node → Prop
  | shape (shape : Shape) (hshape : Shape.of? line.body = some shape) :
    LineReading line ix (Node.read line ix shape)
  | name (rule? : Option String) : LineReading line ix ((BlockName.read line rule? ix).map .blockName)

theorem LineReading.registers {line : Line} {ix : Index} {r : Reading Node} (h : LineReading line ix r) :
    Registers line ix r := by
  cases h with
  | shape shape hshape => exact registers_read hshape
  | name rule? => exact registers_blockName _ _ _

variable {α : Type} {f : Node → List α}

/-- Neither a block nor a pragma that holds one gives anything. -/
structure BlindToBlocks (f : Node → List α) : Prop where
  block : ∀ b, f (.block b) = []
  members : ∀ p walker opening block?, p.body = .members walker opening block? → f (.pragma p) = []

/-- A block that is placed changes nothing. -/
theorem Fills.gathered (hf : BlindToBlocks f) {b block : CodeBlock} {front : List (Option Node)}
    {slot : Option Node} {k : Nat} {n : Node} {slots slots' : List (Option Node)}
    (h : Fills b block front slot k n slots slots') :
    (slots'.filterMap id).flatMap f = (slots.filterMap id).flatMap f := by
  rw [h.before, h.after]
  cases h.placed with
  | alone hkind => simp [hf.block]
  | attached p walker hkind hbody =>
    have hbefore : f (.pragma p) = [] := hf.members p walker (some b.opening) none hbody
    have hafter := hf.members { p with body := .members walker (some b.opening) (some block) } walker
      (some b.opening) (some block) rfl
    simp [hbefore, hafter]

namespace Analysis

def nodes (a : Analysis) : List Node := a.slots.toList.filterMap id

theorem nodes_endLine (node? : Option Node) (a : Analysis) :
    (a.endLine node?).nodes = a.nodes ++ node?.toList := by
  cases node? <;> simp [nodes, endLine]

theorem nodes_accept (r : Reading Node) (a : Analysis) : (a.accept r).nodes = a.nodes ++ [r.node] :=
  nodes_endLine _ _

theorem nodes_halt (limit unread : Nat) (a : Analysis) : (a.halt limit unread).nodes = a.nodes := by
  simp [nodes, halt, report]

section
variable (hf : BlindToBlocks f)
include hf

theorem gathered_conclude {a : Analysis} (h : Accounted a) :
    a.conclude.nodes.flatMap f = a.nodes.flatMap f := by
  rw [nodes, slots_conclude]
  split
  · next b hb =>
    obtain ⟨front, slot, k, n, hfills⟩ := (h.reserved b hb).fills b rfl rfl
    exact hfills.gathered hf
  · rfl

/-- What holds of the index and of what is gathered at first, and is kept by every reading and by every
block, holds after all lines. -/
theorem gathered_after {Q : Index → List α → Prop} (nil : Q {} [])
    (node : ∀ line ix xs r, LineReading line ix r → Q ix xs → Q r.index (xs ++ f r.node))
    (block : ∀ ix xs (b : CodeBlock), Q ix xs → Q (ix.enterAll b.definitions) xs)
    (lines : List String) : Q (after lines).index ((after lines).nodes.flatMap f) := by
  induction lines using after_induction with
  | nil => exact nil
  | turn lines raw a' ih hturn =>
    have haccounted := accounted_after lines
    generalize after lines = a at *
    have hskip : ∀ b : Analysis, b.index = a.index → b.slots = a.slots →
        Q (b.endLine none).index ((b.endLine none).nodes.flatMap f) := by
      intro b hindex hslots
      have hnodes : b.nodes = a.nodes := by rw [nodes, hslots, nodes]
      rw [nodes_endLine, Option.toList_none, List.append_nil, hnodes, endLine, hindex]
      exact ih
    have haccept : ∀ b : Analysis, b.slots = a.slots → ∀ r, LineReading (a.nextLine raw) a.index r →
        Q (b.accept r).index ((b.accept r).nodes.flatMap f) := by
      intro b hslots r hr
      have hnodes : b.nodes = a.nodes := by rw [nodes, hslots, nodes]
      rw [nodes_accept, hnodes, List.flatMap_append, List.flatMap_singleton]
      exact node _ _ _ _ hr ih
    cases hturn with
    | closing b hblock hraw =>
      obtain ⟨external, reported, -, hclose⟩ := closeBlock_spec b (a.moveTo raw)
      obtain ⟨_, front, slot, k, n, slots', hfills, hslots⟩ := slots_closing haccounted hblock raw
      have hgathered : (((a.moveTo raw).closeBlock b).endLine none).nodes.flatMap f =
          a.nodes.flatMap f := by
        rw [nodes, hslots, List.filterMap_append, List.flatMap_append, hfills.gathered hf]
        exact List.append_nil _
      rw [hgathered, hclose]
      exact block _ _ _ ih
    | name hblock hexpects hraw => exact haccept _ rfl _ (.name _)
    | node hblock shape hshape => exact haccept _ rfl _ (.shape shape hshape)
    | opening hblock hraw => exact hskip _ (by rw [openAt_eq]) (by rw [openAt_eq])
    | _ => exact hskip _ rfl rfl

/-- It then holds of a finished document too, but for the uses that still waited. -/
theorem gathered_analyze {Q : Index → List α → Prop} (nil : Q {} [])
    (node : ∀ line ix xs r, LineReading line ix r → Q ix xs → Q r.index (xs ++ f r.node))
    (block : ∀ ix xs (b : CodeBlock), Q ix xs → Q (ix.enterAll b.definitions) xs)
    (limit : Nat) (text : String) :
    ∃ ix, (analyze limit text).index = ix.clearPending ∧
      Q ix ((analyze limit text).nodeList.flatMap f) := by
  have haccounted := accounted_run limit (Text.lines text)
  have hrun : Q (run limit (Text.lines text)).index ((run limit (Text.lines text)).nodes.flatMap f) := by
    rcases Nat.lt_or_ge limit (after (Text.lines text)).reader.errors with hlt | hle
    · obtain ⟨front, raw, rest, hlines, hover⟩ := exists_overruns hlt
      rw [hlines, run_eq_halt hover, nodes_halt]
      exact gathered_after hf nil node block (front ++ [raw])
    · rw [run_eq_after hle]
      exact gathered_after hf nil node block _
  rw [← gathered_conclude hf haccounted] at hrun
  rw [← index_conclude] at hrun
  exact ⟨_, rfl, hrun⟩

end

end Analysis

end LineGrammar
