import LineGrammar.Proofs.BlockNameContent
import LineGrammar.Proofs.BlockOwners

/-! Functions that are given without being written. A block whose name stops at the walker, and a block that
comes right after a rule, implement the implicit function, which no line spells out. -/

namespace LineGrammar

/-- The key of the function that the name of a block leaves unwritten. -/
def BlockName.impliedKey? (n : BlockName) : Option String :=
  match n.walker?, n.function?, n.rule? with
  | some walker, none, some rule => some (functionKey rule walker.text implicitFunction)
  | _, _, _ => none

namespace Document

/-- The key of the function that a line gives without writing it. -/
def impliedKey? (d : Document) (line : Nat) : Option String :=
  match d.nodeAbove? line, d.nodeAt? line with
  | _, some (.blockName n) => n.impliedKey?
  | some (.rule r), some (.block b) =>
    b.walker.map fun walker => functionKey r.name.text walker implicitFunction
  | _, _ => none

def impliedKeys (d : Document) : List String := (List.range d.lineCount).filterMap d.impliedKey?

variable {d : Document} {line : Nat}

theorem mem_impliedKeys {key : String} (h : d.impliedKey? line = some key) : key ∈ d.impliedKeys := by
  refine List.mem_filterMap.2 ⟨line, List.mem_range.2 ?_, h⟩
  by_contra hle
  have hnone : d.nodeAt? line = none := by
    rw [nodeAt?, Array.getElem?_eq_none (Nat.not_lt.1 hle)]
    rfl
  simp [impliedKey?, hnone] at h

theorem mem_impliedKeys_of_name {n : BlockName} (hn : d.nodeAt? line = some (.blockName n)) {key : String}
    (hkey : n.impliedKey? = some key) : key ∈ d.impliedKeys := by
  refine mem_impliedKeys (show d.impliedKey? line = _ from ?_)
  rw [impliedKey?, hn]
  exact hkey

theorem mem_impliedKeys_of_block {r : RuleDef} (hr : d.nodeAbove? line = some (.rule r)) {b : CodeBlock}
    (hb : d.nodeAt? line = some (.block b)) {walker : String} (hwalker : b.walker = some walker) :
    functionKey r.name.text walker implicitFunction ∈ d.impliedKeys := by
  refine mem_impliedKeys (show d.impliedKey? line = _ from ?_)
  rw [impliedKey?, hr, hb]
  exact congrArg (Option.map _) hwalker

end Document

namespace Analysis

section
variable {a a' : Analysis} {raw : String} (hacc : Accounted a) (hturn : a.Turn raw a') {line : Nat}
include hacc hturn

/-- Only a pragma is ever given a block. -/
theorem node_turn {n : Node} (hn : a.slots.toList[line]?.join = some n) (hkind : ∀ p, n ≠ .pragma p) :
    a'.slots.toList[line]?.join = some n := by
  have hpush : ∀ node?, (a.slots.toList ++ [node?])[line]?.join = some n := by
    intro node?
    rw [List.getElem?_append_left, hn]
    by_contra hle
    rw [List.getElem?_eq_none (Nat.not_lt.1 hle)] at hn
    cases hn
  cases hblock : a.reader.block? with
  | none =>
    obtain ⟨node?, hslots⟩ := slots_turn hblock hturn
    rw [hslots, Array.toList_push]
    exact hpush node?
  | some b =>
    rcases turn_inside hblock hturn with rfl | rfl
    · rw [endLine, Array.toList_push]
      exact hpush none
    · obtain ⟨external, front, slot, k, m, slots', hfills, hslots'⟩ := slots_closing hacc hblock raw
      rw [hslots', node_append_none, hfills.after, node_append_iff]
      rw [hfills.before] at hn
      cases hfills.placed with
      | alone hinline =>
        rw [← List.replicate_succ] at hn
        refine .inl ?_
        rw [List.getElem?_append] at hn
        split at hn
        · exact hn
        · rw [List.getElem?_replicate] at hn
          split at hn <;> cases hn
      | attached p walker hinline hbody =>
        rcases node_append_iff.1 hn with hn | ⟨-, rfl⟩
        · exact .inl hn
        · exact absurd rfl (hkind p)

/-- The block of its own that opened on a line, open still or in its slot. -/
def HasBlock (a : Analysis) (line : Nat) (walker? : Option String) : Prop :=
  (∃ b, a.reader.block? = some b ∧ b.isInline = false ∧ b.startLine = line ∧ b.walker = walker?) ∨
    ∃ b, a.slots.toList[line]?.join = some (.block b) ∧ b.walker = walker?

theorem HasBlock.turn {walker? : Option String} (h : a.HasBlock line walker?) : a'.HasBlock line walker? := by
  rcases h with ⟨b, hblock, hkind, rfl, rfl⟩ | ⟨b, hslot, hwalker⟩
  · rcases turn_inside hblock hturn with rfl | rfl
    · exact .inl ⟨b.push raw, block?_inside hblock, hkind, rfl, rfl⟩
    · obtain ⟨external, front, slot, k, n, slots', hfills, hslots'⟩ := slots_closing hacc hblock raw
      refine .inr ⟨{ b.close (a.nextLine raw).whole with external }, ?_, rfl⟩
      rw [hslots', hfills.after]
      cases hfills.placed with
      | alone hkind => simp [← hfills.start]
      | attached p walker hinline => exact absurd (hkind.symm.trans hinline) (by simp)
  · exact .inr ⟨b, node_turn hacc hturn hslot (by simp), hwalker⟩

end

section
variable (front rest : List String)

theorem node_after {line : Nat} {n : Node} (hn : (after front).slots.toList[line]?.join = some n)
    (hkind : ∀ p, n ≠ .pragma p) : (after (front ++ rest)).slots.toList[line]?.join = some n := by
  induction rest using List.reverseRecOn with
  | nil => rwa [List.append_nil]
  | append_singleton rest raw ih =>
    rw [← List.append_assoc, after_concat]
    exact node_turn (accounted_after _) (turn_step (coherent_after _) raw) ih hkind

/-- A block that is open ends in its slot. -/
theorem exists_block_of_open {b : CodeBlock} (hb : (after front).reader.block? = some b)
    (hkind : b.isInline = false) (hend : (after (front ++ rest)).reader.block? = none) :
    ∃ c, (after (front ++ rest)).slots.toList[b.startLine]?.join = some (.block c) ∧ c.walker = b.walker := by
  have hkept : (after (front ++ rest)).HasBlock b.startLine b.walker := by
    clear hend
    induction rest using List.reverseRecOn with
    | nil => exact .inl ⟨b, by rwa [List.append_nil], hkind, rfl, rfl⟩
    | append_singleton rest raw ih =>
      rw [← List.append_assoc, after_concat]
      exact ih.turn (accounted_after _) (turn_step (coherent_after _) raw)
  rcases hkept with ⟨c, hc, -⟩ | hplaced
  · exact absurd (hend.symm.trans hc) (by simp)
  · exact hplaced

end

/-- Where nothing is wrong the name of a block tells its walker. -/
theorem walker_of_clean (lines : List String) (hclean : (after lines).reader.diagnostics = [])
    {n : BlockName} (hlast : (after lines).last? = some (.blockName n)) : n.walker?.isSome = true := by
  rcases List.eq_nil_or_concat lines with rfl | ⟨front, raw, rfl⟩
  · cases hlast
  rw [List.concat_eq_append, after_concat] at hclean hlast
  have hturn := turn_step (coherent_after front) raw
  generalize (after front).step raw = a' at hclean hlast hturn
  cases hturn with
  | name hblock hexpects hraw =>
    rw [last?_accept] at hlast
    rw [diagnostics_accept] at hclean
    obtain ⟨walker, function?, hname⟩ := BlockName.read_clean (List.append_eq_nil_iff.1 hclean).2
    rw [BlockName.read_eq hname] at hlast
    cases hlast
    rfl
  | node hblock shape hshape =>
    rw [last?_accept] at hlast
    exact absurd (Option.some.inj hlast) (Node.read_ne_blockName _ _ _ n)
  | inside | closing | opening | blank | refused => rw [last?_endLine] at hlast; cases hlast

/-- A block that no line names comes right after its rule. -/
theorem rule_of_unnamed (lines : List String) (hclean : (after lines).reader.diagnostics = [])
    (hblock : (after lines).reader.block? = none) (hexpects : (after lines).reader.expectsBlock = true)
    (htarget : (after lines).reader.target? = none) {o : OpenRule}
    (ho : (after lines).reader.rule? = some o) :
    ∃ r, (after lines).last? = some (.rule r) ∧ r.name = o.name := by
  have hfollows := ruleFollows_after lines o ho
  rw [take_settled hblock] at hfollows
  have hrecalls := recalls_after lines
  have hlast : ∀ {front slot}, (after lines).slots.toList = front ++ [slot] → (after lines).last? = slot :=
    fun hslots => by rw [last?, hslots, List.getLast?_concat, Option.join_some]
  rcases hfollows.last with ⟨front, r, hslots, -, rfl⟩ | ⟨front, n, hslots, -⟩ | ⟨-, front, hslots⟩
  · exact ⟨r, hlast hslots, rfl⟩
  · rw [hrecalls.target, hlast hslots] at htarget
    have hwalker := walker_of_clean lines hclean (hlast hslots)
    have hnone : n.walker? = none := Option.map_eq_none_iff.1 htarget
    rw [hnone] at hwalker
    cases hwalker
  · rw [hrecalls.block, hlast hslots] at hexpects
    cases hexpects

end Analysis

end LineGrammar
