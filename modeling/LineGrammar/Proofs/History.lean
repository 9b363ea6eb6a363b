import LineGrammar.Proofs.Slots

/-! What the reader remembers is told by the lines behind it. The node of the last line says whether a
block must follow, what it implements and whether it may be named. The open rule is the last one, and
since its line there have been only names of blocks and closed blocks. -/

namespace LineGrammar

def Node.isRule : Node → Bool
  | rule _ => true
  | _ => false

namespace Analysis

/-- The node of the last line. -/
def last? (a : Analysis) : Option Node := a.slots.toList.getLast?.join

@[simp] theorem last?_endLine (node? : Option Node) (a : Analysis) :
    (a.endLine node?).last? = node? := by
  simp [last?, endLine]

@[simp] theorem last?_accept (r : Reading Node) (a : Analysis) :
    (a.accept r).last? = some r.node := last?_endLine _ _

/-- What is expected and aimed at is what the node of the last line asks for. -/
structure Recalls (a : Analysis) : Prop where
  block : a.reader.expectsBlock = a.last?.any Node.expectsBlock
  target : a.reader.target? = a.last?.bind Node.target?
  name : a.reader.expectsBlock = true → a.reader.expectsName = a.last?.any Node.isRule

/-- After a line that asks for nothing. -/
theorem recalls_of_none {a : Analysis} (hlast : a.last? = none)
    (hexpects : a.reader.expectsBlock = false) (htarget : a.reader.target? = none) : Recalls a where
  block := by rw [hexpects, hlast]; rfl
  target := by rw [htarget, hlast]; rfl
  name := by simp [hexpects]

/-- After a line with a node. -/
theorem recalls_of_some {a : Analysis} {n : Node} (hlast : a.last? = some n)
    (hexpects : a.reader.expectsBlock = n.expectsBlock) (htarget : a.reader.target? = n.target?)
    (hname : a.reader.expectsBlock = true → a.reader.expectsName = n.isRule) : Recalls a where
  block := by rw [hexpects, hlast]; rfl
  target := by rw [htarget, hlast]; rfl
  name := by rw [hlast]; exact hname

theorem recalls_follow {r : Reader} (hidle : r.Idle) {n : Node} (hbare : n.codeBlock? = none)
    (hname : ∀ name, n ≠ .blockName name) :
    (r.follow n.sequel).expectsBlock = n.expectsBlock ∧
      (r.follow n.sequel).target? = n.target? ∧
      ((r.follow n.sequel).expectsBlock = true → (r.follow n.sequel).expectsName = n.isRule) := by
  have hnothing : n.sequel = .nothing → n.expectsBlock = false → n.target? = none →
      (r.follow n.sequel).expectsBlock = n.expectsBlock ∧
        (r.follow n.sequel).target? = n.target? ∧
        ((r.follow n.sequel).expectsBlock = true → (r.follow n.sequel).expectsName = n.isRule) := by
    intro hs hexpects htarget
    simp [hs, hexpects, htarget, Reader.follow, hidle.block, hidle.target]
  cases n with
  | rule d =>
    rw [Node.sequel, RuleDef.sequel]
    cases hterminated : d.terminated <;>
      simp [Reader.follow, Reader.beginRule, Node.expectsBlock, Node.target?, Node.isRule, hidle.block,
        hidle.target, hterminated]
  | blockName name => exact absurd rfl (hname name)
  | pragma p =>
    obtain ⟨mark, keyword, parameters, keyword?, body, span⟩ := p
    cases body with
    | members walker opening block =>
      obtain rfl : block = none := hbare
      cases opening <;>
        simp [Reader.follow, Reader.openBlock, Node.sequel, PragmaBody.sequel, Node.expectsBlock,
          Node.target?, Node.isRule, hidle.name, hidle.target]
    | _ => exact hnothing rfl rfl rfl
  | _ => exact hnothing rfl rfl rfl

theorem recalls_turn {a a' : Analysis} (h : a.reader.Coherent a.lateBlock) {raw : String}
    (hturn : a.Turn raw a') : Recalls a' := by
  cases hturn with
  | inside b hblock hraw =>
    obtain ⟨-, hexpects, htarget⟩ := h.inside (by simp [hblock])
    exact recalls_of_none (last?_endLine _ _) hexpects htarget
  | closing b hblock hraw =>
    obtain ⟨-, hexpects, htarget⟩ := h.inside (by simp [hblock])
    obtain ⟨external, reported, -, hclose⟩ := closeBlock_spec b (a.moveTo raw)
    refine recalls_of_none (last?_endLine _ _) ?_ ?_
    all_goals
      rw [hclose]
      simp only [endLine, place, expectMore]
      split
    all_goals first | exact hexpects | exact htarget
  | name hblock hexpects hraw =>
    refine recalls_of_some (last?_accept _ _) ?_ ?_ ?_
    all_goals
      rw [reader_name]
      simp [Reader.follow, Reading.map, Node.expectsBlock, Node.target?, Node.isRule]
  | opening hblock hraw =>
    rw [openAt_eq]
    exact recalls_of_none (last?_endLine _ _) rfl rfl
  | blank hblock hraw => exact recalls_of_none (last?_endLine _ _) rfl rfl
  | refused hblock hraw hopens hname cause hcause =>
    exact recalls_of_none (last?_endLine _ _) rfl rfl
  | node hblock shape hshape =>
    have hidle : ((a.giveUp raw).reader.reportAll
        (Node.read (a.nextLine raw) a.index shape).problems).Idle := ⟨rfl, rfl, rfl, rfl⟩
    obtain ⟨hexpects, htarget, hname⟩ :=
      recalls_follow hidle (Node.codeBlock?_read (a.nextLine raw) a.index shape)
        (Node.read_ne_blockName _ _ _)
    rw [← reader_node] at hexpects htarget hname
    exact recalls_of_some (last?_accept _ _) hexpects htarget hname

theorem recalls_after (lines : List String) : Recalls (after lines) := by
  induction lines using after_induction with
  | nil => exact recalls_of_none rfl rfl rfl
  | turn lines raw a' ih hturn => exact recalls_turn (coherent_after lines) hturn

/-- The name of a block does not stand after another one. -/
theorem last?_of_expectsName {a : Analysis} (h : Recalls a) (hexpects : a.reader.expectsName = true)
    (name : BlockName) : a.last? ≠ some (.blockName name) := by
  intro hlast
  have hblock : a.reader.expectsBlock = true := by rw [h.block, hlast]; rfl
  have hname := h.name hblock
  rw [hexpects, hlast] at hname
  cases hname

end Analysis

/-- A rule body as it waits for its first block. -/
def RuleDef.opened (r : RuleDef) : OpenRule :=
  { name := r.name, internalName := r.internalName, span := r.span }

/-- The slots end with the rule and with the names and closed blocks that it has had. -/
inductive Follows : OpenRule → List (Option Node) → Prop
  | rule (front : List (Option Node)) (r : RuleDef) (hopen : r.terminated = false) :
    Follows r.opened (front ++ [some (.rule r)])
  | name {o : OpenRule} {slots : List (Option Node)} (h : Follows o slots) (n : BlockName)
    (hlast : ∀ m, slots.getLast?.join ≠ some (.blockName m)) :
    Follows o (slots ++ [some (.blockName n)])
  | block {o : OpenRule} {slots : List (Option Node)} (h : Follows o slots) (b : CodeBlock) (k : Nat)
    (hclosed : b.isClosed = true) (hspan : b.lineSpan = k + 2) :
    Follows { o with blocks := o.blocks + 1 }
      (slots ++ some (.block b) :: List.replicate (k + 1) none)

namespace Follows

/-- What the last line can be while a rule is open. -/
theorem last {o : OpenRule} {slots : List (Option Node)} (h : Follows o slots) :
    (∃ front r, slots = front ++ [some (.rule r)] ∧ r.terminated = false ∧ o = r.opened) ∨
      (∃ front n, slots = front ++ [some (.blockName n)] ∧ Follows o front ∧
        ∀ m, front.getLast?.join ≠ some (.blockName m)) ∨
      (o.blocks ≠ 0 ∧ ∃ front, slots = front ++ [none]) := by
  cases h with
  | rule front r hopen => exact .inl ⟨front, r, rfl, hopen, rfl⟩
  | name h n hlast => exact .inr (.inl ⟨_, n, rfl, h, hlast⟩)
  | @block o slots h b k hclosed hspan =>
    refine .inr (.inr ⟨Nat.succ_ne_zero _, slots ++ some (.block b) :: List.replicate k none, ?_⟩)
    rw [List.append_assoc, List.cons_append, ← List.replicate_succ']

end Follows

namespace Analysis

variable {a a' : Analysis} {raw : String}

/-- The open rule, if there is one, is told by the settled slots. -/
def RuleFollows (a : Analysis) : Prop :=
  ∀ o, a.reader.rule? = some o → Follows o (a.slots.toList.take a.settled)

theorem rule?_follow {r : Reader} (hidle : r.Idle) {n : Node} (hname : ∀ name, n ≠ .blockName name)
    {o : OpenRule} (ho : (r.follow n.sequel).rule? = some o) :
    ∃ d, n = .rule d ∧ d.terminated = false ∧ o = d.opened ∧
      (r.follow n.sequel).block? = r.block? := by
  have hnone : ∀ {r' : Reader}, r'.rule? = r.rule? → r'.rule? ≠ some o := by
    intro r' hsame hr'
    exact absurd (hr'.symm.trans (hsame.trans hidle.rule)) (by simp)
  cases n with
  | rule d =>
    rw [Node.sequel, RuleDef.sequel] at ho ⊢
    cases hterminated : d.terminated with
    | true => rw [hterminated] at ho; exact absurd ho (hnone rfl)
    | false =>
      rw [hterminated] at ho
      exact ⟨d, rfl, hterminated, (Option.some.inj ho).symm, rfl⟩
  | blockName name => exact absurd rfl (hname name)
  | pragma p =>
    rw [Node.sequel] at ho
    unfold PragmaBody.sequel at ho
    split at ho <;> exact absurd ho (hnone rfl)
  | _ => exact absurd ho (hnone rfl)

theorem ruleFollows_closing (hcoh : a.reader.Coherent a.lateBlock) (hacc : Accounted a)
    (h : RuleFollows a) {b : CodeBlock} (hblock : a.reader.block? = some b) :
    RuleFollows (((a.moveTo raw).closeBlock b).endLine none) := by
  intro o' ho'
  obtain ⟨external, front, slot, k, n, slots', hfills, hslots'⟩ := slots_closing hacc hblock raw
  obtain ⟨external', reported, -, hclose⟩ := closeBlock_spec b (a.moveTo raw)
  -- A block that belongs to a rule stands on its own lines.
  obtain ⟨hkind, o, ho, rfl⟩ : b.isInline = false ∧ ∃ o, a.reader.rule? = some o ∧
      o' = { o with blocks := o.blocks + 1 } := by
    rw [hclose] at ho'
    simp only [endLine, place, expectMore] at ho'
    split at ho'
    · next hmore =>
      obtain ⟨hkind, -⟩ := Bool.and_eq_true_iff.1 hmore
      obtain ⟨o, ho, rfl⟩ := Option.map_eq_some_iff.1 ho'
      exact ⟨by simpa [CodeBlock.close] using hkind, o, ho, rfl⟩
    · next hmore =>
      have hsome : a.reader.rule? = some o' := ho'
      have hkind : b.isInline = true := by
        simpa [moveTo, Reader.moveTo, hsome, CodeBlock.close] using hmore
      exact absurd (hsome.symm.trans (hcoh.inline b hblock hkind)) (by simp)
  have hsize : a.slots.size = b.startLine + (k + 1) := hfills.length
  have hfront := h o ho
  rw [settled_block hblock, hfills.take_before] at hfront
  have hspan : CodeBlock.lineSpan { b.close (a.nextLine raw).whole with external } = k + 2 := by
    change a.slots.size - b.startLine + 1 = k + 2
    omega
  rw [take_settled (block?_closing b), hslots', hfills.after]
  cases hfills.placed with
  | alone =>
    rw [List.append_assoc, List.cons_append, ← List.replicate_succ']
    exact hfront.block _ k rfl hspan
  | attached p walker hinline => exact absurd (hkind.symm.trans hinline) (by simp)

theorem ruleFollows_turn (hcoh : a.reader.Coherent a.lateBlock) (hacc : Accounted a)
    (hrecalls : Recalls a) (h : RuleFollows a) (hturn : a.Turn raw a') : RuleFollows a' := by
  intro o ho
  have hsettled := settled_turn hacc hturn
  cases hturn with
  | inside b hblock hraw =>
    rw [settled_block hblock] at hsettled
    have hold := h o ho
    rw [settled_block hblock] at hold
    rw [settled_block (block?_inside hblock), show (b.push raw).startLine = b.startLine from rfl,
      hsettled.2]
    exact hold
  | closing b hblock hraw => exact ruleFollows_closing hcoh hacc h hblock o ho
  | name hblock hexpects hraw =>
    have hold := h o (by rw [reader_name] at ho; exact ho)
    rw [take_settled hblock] at hold
    rw [take_settled (block?_name hblock), accept, endLine, Array.toList_push]
    exact hold.name _ (last?_of_expectsName hrecalls hexpects)
  | opening hblock hraw =>
    rw [settled_none hblock] at hsettled
    have hold : Follows o (a.slots.toList.take a.slots.size) := by
      rw [← settled_none hblock]
      refine h o ?_
      rw [openAt_eq] at ho
      simp only [endLine, Reader.openBlock] at ho
      split at ho
      · exact ho
      · cases ho
    rw [openAt_eq] at hsettled ⊢
    rw [← hsettled.2] at hold
    exact hold
  | blank hblock hraw => cases ho
  | refused hblock hraw hopens hname cause hcause => cases ho
  | node hblock shape hshape =>
    have hidle : ((a.giveUp raw).reader.reportAll
        (Node.read (a.nextLine raw) a.index shape).problems).Idle := ⟨rfl, rfl, rfl, rfl⟩
    rw [reader_node] at ho
    obtain ⟨d, hd, hopen, rfl, hnone⟩ := rule?_follow hidle (Node.read_ne_blockName _ _ _) ho
    rw [← reader_node] at hnone
    rw [take_settled hnone, accept, endLine, Array.toList_push, hd]
    exact .rule _ d hopen

theorem ruleFollows_after (lines : List String) : RuleFollows (after lines) := by
  induction lines using after_induction with
  | nil => exact fun o ho => by cases ho
  | turn lines raw a' ih hturn =>
    exact ruleFollows_turn (coherent_after lines) (accounted_after lines) (recalls_after lines) ih hturn

end Analysis

/-- The nodes that ask for a block, each in the place of its line. -/
def marks (slots : List (Option Node)) : List (Option Node) :=
  slots.map (Option.filter Node.expectsBlock)

theorem marks_append (front rest : List (Option Node)) :
    marks (front ++ rest) = marks front ++ marks rest := List.map_append

theorem join_marks (slots : List (Option Node)) (line : Nat) :
    (marks slots)[line]?.join = slots[line]?.join.filter Node.expectsBlock := by
  rw [marks, List.getElem?_map]
  cases slots[line]? <;> rfl

theorem length_marks (slots : List (Option Node)) : (marks slots).length = slots.length :=
  List.length_map _

/-- Filling the slot of a block changes no mark. -/
theorem Fills.marks {b block : CodeBlock} {front : List (Option Node)} {slot : Option Node} {k : Nat}
    {n : Node} {slots slots' : List (Option Node)} (h : Fills b block front slot k n slots slots') :
    LineGrammar.marks slots' = LineGrammar.marks slots := by
  have hslot : (some n).filter Node.expectsBlock = slot.filter Node.expectsBlock := by
    cases h.placed with
    | alone => rfl
    | attached p walker hkind hbody => simp [Option.filter, Node.expectsBlock, hbody]
  rw [h.before, h.after, marks_append, marks_append, LineGrammar.marks, LineGrammar.marks,
    LineGrammar.marks, List.map_cons, List.map_cons, hslot]

namespace Analysis

variable {a a' : Analysis} {raw : String}

theorem length_marks_after (lines : List String) :
    (marks (after lines).slots.toList).length = lines.length := by
  rw [length_marks, Array.length_toList, size_after]

theorem marks_turn (hacc : Accounted a) (hturn : a.Turn raw a') :
    marks a'.slots.toList = marks a.slots.toList ++ [a'.last?.filter Node.expectsBlock] := by
  cases hblock : a.reader.block? with
  | none =>
    obtain ⟨node?, hslots⟩ := slots_turn hblock hturn
    simp [last?, hslots, marks]
  | some b =>
    rcases turn_inside hblock hturn with rfl | rfl
    · simp [endLine, last?, marks, moveTo]
    · obtain ⟨external, front, slot, k, n, slots', hfills, hslots'⟩ := slots_closing hacc hblock raw
      rw [last?_endLine, hslots', marks_append, hfills.marks]
      rfl

theorem marks_conclude (hacc : Accounted a) :
    marks a.conclude.slots.toList = marks a.slots.toList := by
  rw [slots_conclude]
  cases hblock : a.reader.block? with
  | some b =>
    obtain ⟨front, slot, k, n, hfills⟩ := (hacc.reserved b hblock).fills b rfl rfl
    exact hfills.marks
  | none => rfl

theorem mark_last (a : Analysis) :
    (marks a.slots.toList)[a.slots.size - 1]?.join = a.last?.filter Node.expectsBlock := by
  rw [join_marks, last?, List.getLast?_eq_getElem?, Array.length_toList]

theorem expects_of_mark {n : Node} (h : Recalls a)
    (hmark : a.last?.filter Node.expectsBlock = some n) :
    a.reader.expectsBlock = true ∧ a.reader.expectsName = n.isRule := by
  obtain ⟨hlast, hn⟩ := Option.filter_eq_some_iff.1 hmark
  have hblock : a.reader.expectsBlock = true := by rw [h.block, hlast]; exact hn
  refine ⟨hblock, ?_⟩
  rw [h.name hblock, hlast]
  rfl

theorem expects_of_no_mark (h : Recalls a) (hmark : a.last?.filter Node.expectsBlock = none) :
    a.reader.expectsBlock = false := by
  rw [h.block]
  cases hlast : a.last? with
  | none => rfl
  | some n =>
    rw [hlast, Option.filter_some] at hmark
    split at hmark
    · cases hmark
    · next hn => simpa using hn

end Analysis

/-- The node of a line, if it asks for a block. -/
def Document.expectingAt? (d : Document) (line : Nat) : Option Node :=
  (d.nodeAt? line).filter Node.expectsBlock

end LineGrammar
