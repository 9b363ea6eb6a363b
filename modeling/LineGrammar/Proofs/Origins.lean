import LineGrammar.Proofs.BlockLines

/-! Where the nodes of a document come from. A node is read from its own line, as the analysis of the
lines above stands, or is the block that opens on this line. A block that is put into its slot later
changes nothing else of the node. -/

namespace LineGrammar

/-- The pragma as it was read, without the block that it opened. -/
def Pragma.bare (p : Pragma) : Pragma :=
  match p.body with
  | .members walker opening _ => { p with body := .members walker opening none }
  | _ => p

def Node.bare : Node → Node
  | pragma p => .pragma p.bare
  | n => n

namespace Node

theorem bare_of_codeBlock? {n : Node} (h : n.codeBlock? = none) : n.bare = n := by
  cases n with
  | pragma p =>
    obtain ⟨mark, name, parameters, keyword?, body, span⟩ := p
    cases body with
    | members walker opening block =>
      cases block with
      | none => rfl
      | some b => cases h
    | _ => rfl
  | _ => rfl

@[simp] theorem references_bare (n : Node) : n.bare.references = n.references := by
  cases n with
  | pragma p =>
    obtain ⟨mark, name, parameters, keyword?, body, span⟩ := p
    cases body <;> rfl
  | _ => rfl

@[simp] theorem obligations_bare (above : List Definition) (n : Node) :
    n.bare.obligations above = n.obligations above := by
  cases n with
  | pragma p =>
    obtain ⟨mark, name, parameters, keyword?, body, span⟩ := p
    cases body <;> rfl
  | _ => rfl

/-- A node without its block defines what it defines, the block apart. -/
theorem definitions_bare_subset (n : Node) : n.bare.definitions ⊆ n.definitions := by
  cases n with
  | pragma p =>
    obtain ⟨mark, name, parameters, keyword?, body, span⟩ := p
    cases body with
    | members walker opening block => simp [bare, Pragma.bare, definitions, Pragma.definitions]
    | _ => exact List.Subset.refl _
  | _ => exact List.Subset.refl _

end Node

theorem Document.mem_nodeList {d : Document} {n : Node} :
    n ∈ d.nodeList ↔ ∃ line, d.nodeAt? line = some n := by
  rw [nodeList_eq, List.mem_filterMap]
  refine exists_congr fun line => and_iff_right_of_imp fun hn => List.mem_range.2 ?_
  by_contra hle
  rw [nodeAt?, Array.getElem?_eq_none (Nat.not_lt.1 hle)] at hn
  cases hn

namespace Analysis

/-- How the node of a line comes about. -/
inductive Origin (a : Analysis) (raw : String) : Node → Prop
  | shape (hblock : a.reader.block? = none) (shape : Shape)
    (hshape : Shape.of? (a.nextLine raw).body = some shape) (n : Node)
    (hbare : n.bare = (Node.read (a.nextLine raw) a.index shape).node)
    (hopening : ∀ p b, n = .pragma p → p.block? = some b →
      ∃ walker, p.body = .members walker (some b.opening) (some b)) : Origin a raw n
  | name (hblock : a.reader.block? = none) (hexpects : a.reader.expectsName = true)
    (hraw : names raw = true) :
    Origin a raw (.blockName (BlockName.read (a.nextLine raw)
      (a.reader.rule?.map fun rule => rule.name.text) a.index).node)
  | block (b : CodeBlock) (hopening : b.opening = (a.nextLine raw).whole) : Origin a raw (.block b)

/-- The node comes from a line of the document, under the lines above it. -/
def OriginAt (lines : List String) (line : Nat) (n : Node) : Prop :=
  ∃ raw, lines[line]? = some raw ∧ (after (lines.take line)).Origin raw n

theorem OriginAt.append {lines : List String} {line : Nat} {n : Node} (h : OriginAt lines line n)
    (more : List String) : OriginAt (lines ++ more) line n := by
  obtain ⟨raw, hraw, horigin⟩ := h
  have hlt : line < lines.length := (List.getElem?_eq_some_iff.1 hraw).1
  refine ⟨raw, by rwa [List.getElem?_append_left hlt], ?_⟩
  rwa [List.take_append_of_le_length (Nat.le_of_lt hlt)]

/-- A block that is put into its slot. -/
theorem originAt_placed {lines : List String} {line : Nat} {b block : CodeBlock} {slot : Option Node}
    {n : Node} (hslot : ∀ m, slot = some m → OriginAt lines line m)
    (hopened : b.isInline = false → OpenedAt lines line b) (hopening : block.opening = b.opening)
    (hplaced : Placed b block slot n) : OriginAt lines line n := by
  cases hplaced with
  | alone hkind =>
    obtain ⟨raw, hraw, -, hmark⟩ := (hopened hkind).mark
    have hlt : line < lines.length := (List.getElem?_eq_some_iff.1 hraw).1
    refine ⟨raw, hraw, .block block ?_⟩
    rw [hopening, hmark, nextLine, size_after, List.length_take_of_le (Nat.le_of_lt hlt)]
  | attached p walker hkind hbody =>
    obtain ⟨raw, hraw, horigin⟩ := hslot _ rfl
    cases horigin with
    | shape hblock shape hshape _ hbare _ =>
      refine ⟨raw, hraw, .shape hblock shape hshape _ ?_ ?_⟩
      · rw [← hbare]
        obtain ⟨mark, name, parameters, keyword?, body, span⟩ := p
        obtain rfl : body = .members walker (some b.opening) none := hbody
        rfl
      · intro q c hq hc
        cases hq
        cases hc
        exact ⟨walker, by rw [hopening]⟩

section
variable {lines : List String}

/-- Filling a slot keeps the origins. -/
theorem originAt_fills {slots slots' front : List (Option Node)} {b block : CodeBlock}
    {slot : Option Node} {k : Nat} {n : Node}
    (h : ∀ line m, slots[line]?.join = some m → OriginAt lines line m)
    (hopened : b.isInline = false → OpenedAt lines b.startLine b) (hopening : block.opening = b.opening)
    (hfills : Fills b block front slot k n slots slots') {line : Nat} {m : Node}
    (hm : slots'[line]?.join = some m) : OriginAt lines line m := by
  rw [hfills.after] at hm
  rcases node_append_iff.1 hm with hold | ⟨rfl, rfl⟩
  · refine h line m ?_
    have hlt : line < front.length := by
      by_contra hle
      rw [List.getElem?_eq_none (by omega)] at hold
      cases hold
    rw [hfills.before, List.getElem?_append_left hlt]
    exact hold
  · have hstart := hfills.start
    refine originAt_placed (fun m hm => h _ m ?_) (by rwa [hstart]) hopening hfills.placed
    rw [hfills.before, List.getElem?_append_right (Nat.le_refl _), Nat.sub_self]
    simp [hm]

/-- Every slot has a node of its line. -/
theorem originAt_after (lines : List String) :
    ∀ line n, (after lines).slots.toList[line]?.join = some n → OriginAt lines line n := by
  induction lines using after_induction with
  | nil => simp
  | turn lines raw a' ih hturn =>
    have hsize := size_after lines
    have hacc := accounted_after lines
    have hpending := (opened_after lines).pending
    -- A line by itself adds one slot, with the node that has been read.
    have hpush : ∀ node?, a'.slots = (after lines).slots.push node? →
        (∀ n, node? = some n → (after lines).Origin raw n) →
        ∀ line n, a'.slots.toList[line]?.join = some n → OriginAt (lines ++ [raw]) line n := by
      intro node? hslots hnode line n hn
      rw [hslots, Array.toList_push] at hn
      cases node? with
      | none =>
        rw [node_append_none] at hn
        exact (ih line n hn).append [raw]
      | some m =>
        rcases (node_append_iff (k := 0)).1 hn with hn | ⟨rfl, rfl⟩
        · exact (ih line n hn).append [raw]
        · rw [Array.length_toList, hsize]
          exact ⟨raw, by simp, by rw [List.take_left]; exact hnode n rfl⟩
    cases hturn with
    | closing b hblock hraw =>
      intro line n hn
      obtain ⟨external, front, slot, k, m, slots', hfills, hslots'⟩ := slots_closing hacc hblock raw
      rw [hslots', node_append_none] at hn
      exact (originAt_fills ih (hpending b hblock) (by rfl) hfills hn).append [raw]
    | name hblock hexpects hraw =>
      refine hpush _ rfl fun n hn => ?_
      obtain rfl := Option.some.inj hn
      exact .name hblock hexpects hraw
    | node hblock shape hshape =>
      refine hpush _ rfl fun n hn => ?_
      obtain rfl := Option.some.inj hn
      have hbare := Node.codeBlock?_read ((after lines).nextLine raw) (after lines).index shape
      refine .shape hblock shape hshape _ (Node.bare_of_codeBlock? hbare) fun p b hp hb => ?_
      rw [hp] at hbare
      exact absurd (hbare.symm.trans hb) (by simp)
    | _ => exact hpush none rfl (by simp)

theorem originAt_conclude (lines : List String) {line : Nat} {n : Node}
    (hn : (after lines).conclude.slots.toList[line]?.join = some n) : OriginAt lines line n := by
  have h := originAt_after lines
  rw [slots_conclude] at hn
  cases hblock : (after lines).reader.block? with
  | none =>
    rw [hblock] at hn
    exact h line n hn
  | some b =>
    rw [hblock] at hn
    obtain ⟨front, slot, k, m, hfills⟩ := ((accounted_after lines).reserved b hblock).fills b rfl rfl
    exact originAt_fills h ((opened_after lines).pending b hblock) rfl hfills hn

/-- Also when not all lines have been read. -/
theorem originAt_analyzeLines {limit : Nat} {line : Nat} {n : Node}
    (hn : (analyzeLines limit lines).nodeAt? line = some n) : OriginAt lines line n := by
  obtain ⟨k, hreads⟩ := exists_readsUpTo limit lines
  rw [nodeAt?_of_readsUpTo hreads] at hn
  have horigin := (originAt_conclude _ hn).append (lines.drop k)
  rwa [List.take_append_drop] at horigin

end

section
variable {a a' : Analysis} {raw : String}

/-- A turn only adds definitions. -/
theorem buckets_turn (hturn : a.Turn raw a') : ∃ ds, a'.index.buckets = addAll ds a.index.buckets := by
  cases hturn with
  | closing b hblock hraw =>
    obtain ⟨external, reported, -, hclose⟩ := closeBlock_spec b (a.moveTo raw)
    rw [hclose]
    exact ⟨_, Index.buckets_enterAll _ _⟩
  | name hblock hexpects hraw => exact ⟨_, (registers_blockName _ _ _).buckets⟩
  | opening hblock hraw => exact ⟨[], by rw [openAt_eq]; rfl⟩
  | node hblock shape hshape => exact ⟨_, (registers_read hshape).buckets⟩
  | _ => exact ⟨[], rfl⟩

theorem isDefined_after (lines rest : List String) {s : Symbol}
    (h : (after lines).index.isDefined s = true) : (after (lines ++ rest)).index.isDefined s = true := by
  induction rest using List.reverseRecOn with
  | nil => rwa [List.append_nil]
  | append_singleton rest raw ih =>
    rw [← List.append_assoc, after_concat]
    obtain ⟨ds, hds⟩ := buckets_turn (turn_step (coherent_after (lines ++ rest)) raw)
    exact Index.isDefined_of_addAll hds ih

theorem subset_diagnostics_after (lines rest : List String) :
    (after lines).reader.diagnostics ⊆ (after (lines ++ rest)).reader.diagnostics := by
  rw [after, after, List.foldl_append]
  exact (diagnostics_foldl rest _).subset

/-- What is reported up to a line stays. -/
theorem subset_diagnostics_line {lines : List String} {line : Nat} (hraw : lines[line]? = some raw) :
    (after (lines.take line ++ [raw])).reader.diagnostics ⊆ (after lines).reader.diagnostics := by
  obtain ⟨hlt, hget⟩ := List.getElem?_eq_some_iff.1 hraw
  have hlines : lines.take line ++ [raw] ++ lines.drop (line + 1) = lines := by
    rw [← hget, List.take_append_getElem, List.take_append_drop]
  have hkept := subset_diagnostics_after (lines.take line ++ [raw]) (lines.drop (line + 1))
  rwa [hlines] at hkept

/-- What is wrong with the node of a line is reported. -/
theorem problems_read_subset {lines : List String} (hblock : (after lines).reader.block? = none)
    {shape : Shape} (hshape : Shape.of? ((after lines).nextLine raw).body = some shape) :
    (Node.read ((after lines).nextLine raw) (after lines).index shape).problems ⊆
      (after (lines ++ [raw])).reader.diagnostics := by
  rw [after_concat, step_shape hblock hshape, diagnostics_accept]
  exact List.subset_append_right _ _

theorem problems_name_subset {lines : List String} (hblock : (after lines).reader.block? = none)
    (hexpects : (after lines).reader.expectsName = true) (hraw : names raw = true) :
    (BlockName.read ((after lines).nextLine raw) ((after lines).reader.rule?.map fun rule => rule.name.text)
      (after lines).index).problems ⊆ (after (lines ++ [raw])).reader.diagnostics := by
  rw [after_concat, step_name hblock hexpects ((Line.namesBlock_eq _).trans hraw), diagnostics_accept]
  exact List.subset_append_right _ _

end

theorem exists_rule_of_follows {o : OpenRule} {slots : List (Option Node)} (h : Follows o slots) :
    ∃ r, some (.rule r) ∈ slots ∧ o.name = r.name ∧ o.span = r.span := by
  induction h with
  | rule front r hopen => exact ⟨r, by simp, rfl, rfl⟩
  | name h n hlast ih =>
    obtain ⟨r, hr, hread⟩ := ih
    exact ⟨r, List.mem_append_left _ hr, hread⟩
  | block h b k hclosed hspan ih =>
    obtain ⟨r, hr, hread⟩ := ih
    exact ⟨r, List.mem_append_left _ hr, hread⟩

/-- The open rule was read from a line above. -/
theorem originAt_openRule (lines : List String) {o : OpenRule}
    (ho : (after lines).reader.rule? = some o) :
    ∃ line r, OriginAt lines line (.rule r) ∧ o.name = r.name ∧ o.span = r.span := by
  obtain ⟨r, hr, hread⟩ := exists_rule_of_follows (ruleFollows_after lines o ho)
  obtain ⟨line, hline⟩ := List.mem_iff_getElem?.1 (List.mem_of_mem_take hr)
  exact ⟨line, r, originAt_after lines line _ (by rw [hline]; rfl), hread⟩

end Analysis

end LineGrammar
