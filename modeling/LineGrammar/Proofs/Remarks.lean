import LineGrammar.Proofs.Runs

/-! Everything that a run reports. A turn first reports what has become overdue with its line, and then
only remarks on this line, or on the block that the line closes. So what is reported on a line, the two
complaints about missing blocks apart, is reported when the line is read. -/

namespace LineGrammar

namespace Analysis

/-- What a turn reports by itself, on its line or on the block that was open. -/
inductive Remark (line : Line) (block? : Option CodeBlock) : Diagnostic → Prop
  | own {d : Diagnostic} (hown : d.cause.isOwn = true) (hmarks : line.Marks d.span) :
    Remark line block? d
  | refusal (cause : Cause) (hcause : cause ∈ refusals) (hraw : isBlankLine line.raw = false) :
    Remark line block? (line.problem cause)
  | unexpected : Remark line block? (line.problem .unexpectedBlock)
  | external (walker interface : String) (b : CodeBlock) (hb : block? = some b) :
    Remark line block? (.of (.inlineImplementation walker interface) b.opening.span)

/-- What is reported when the line comes in place of a block that must follow. -/
def due (raw : String) (a : Analysis) : List Diagnostic :=
  if a.reader.block? = none ∧ opens raw = false ∧
      (a.reader.expectsName = true → names raw = false) then
    (a.moveTo raw).reader.overdue
  else []

theorem remark_owner (line : Line) (block? : Option CodeBlock) (r : Reader) (ix : Index) (late : Bool)
    {d : Diagnostic} (h : d ∈ ownerProblems line (blockOwner r ix late)) : Remark line block? d := by
  unfold blockOwner at h
  dsimp only at h
  split at h
  · cases h
  · split at h
    · split at h
      · cases h
      · rw [List.mem_singleton.1 h]
        exact .own rfl line.marks_span
    · split at h
      · cases h
      · rw [List.mem_singleton.1 h]
        exact .unexpected

section
variable {a a' : Analysis} {raw : String}

theorem due_inside {b : CodeBlock} (h : a.reader.block? = some b) : a.due raw = [] :=
  if_neg fun hdue => absurd (h.symm.trans hdue.1) (by simp)

theorem due_opening (h : opens raw = true) : a.due raw = [] :=
  if_neg fun hdue => absurd (h.symm.trans hdue.2.1) (by simp)

theorem due_name (hexpects : a.reader.expectsName = true) (h : names raw = true) :
    a.due raw = [] :=
  if_neg fun hdue => absurd (h.symm.trans (hdue.2.2 hexpects)) (by simp)

theorem due_other (hblock : a.reader.block? = none) (hopens : opens raw = false)
    (hnames : a.reader.expectsName = true → names raw = false) :
    a.due raw = (a.moveTo raw).reader.overdue :=
  if_pos ⟨hblock, hopens, hnames⟩

/-- A line of a shape is neither an opening mark nor like the name of a block. -/
theorem not_opens_of_shape {shape : Shape} (h : Shape.of? (a.nextLine raw).body = some shape) :
    opens raw = false ∧ names raw = false ∧ isBlankLine raw = false := by
  obtain ⟨hblank, hopens, -, hnames⟩ := Line.ordinary_of_shape h
  rw [Line.isBlank_eq] at hblank
  rw [Line.opensBlock_eq] at hopens
  rw [Line.namesBlock_eq] at hnames
  exact ⟨hopens, hnames, hblank⟩

/-- A turn reports what is due and its remarks. -/
theorem diagnostics_turn (hturn : a.Turn raw a') :
    ∃ ds, a'.reader.diagnostics = a.reader.diagnostics ++ a.due raw ++ ds ∧
      ∀ d ∈ ds, Remark (a.nextLine raw) a.reader.block? d := by
  have hown : ∀ {ds : List Diagnostic}, Own (a.nextLine raw) ds →
      ∀ d ∈ ds, Remark (a.nextLine raw) a.reader.block? d := fun h d hd =>
    .own (h d hd).1 (h d hd).2
  cases hturn with
  | inside b hblock hraw => exact ⟨[], by rw [due_inside hblock]; simp; rfl, by simp⟩
  | closing b hblock hraw =>
    obtain ⟨external, reported, hreported, hclose⟩ := closeBlock_spec b (a.moveTo raw)
    refine ⟨reported, ?_, fun d hd => ?_⟩
    · rw [due_inside hblock, List.append_nil, hclose]
      exact (expectMore_spec _ _).2
    · obtain ⟨walker, interface, rfl⟩ := hreported d hd
      exact .external walker interface b hblock
  | name hblock hexpects hraw =>
    refine ⟨_, ?_, hown (BlockName.own_read (a.nextLine raw)
      (a.reader.rule?.map fun rule => rule.name.text) a.index)⟩
    rw [due_name hexpects hraw, List.append_nil]
    exact diagnostics_accept _ _
  | opening hblock hraw =>
    rw [due_opening hraw, List.append_nil, openAt_eq]
    exact ⟨_, rfl, fun d hd => remark_owner _ _ _ _ _ hd⟩
  | blank hblock hraw =>
    obtain ⟨hopens, hnames, -⟩ := not_opens_of_blank hraw
    exact ⟨[], by rw [due_other hblock hopens fun _ => hnames]; simp; rfl, by simp⟩
  | refused hblock hraw hopens hname cause hcause =>
    refine ⟨[(a.nextLine raw).problem cause], by rw [due_other hblock hopens hname]; rfl,
      fun d hd => ?_⟩
    rw [List.mem_singleton.1 hd]
    exact .refusal cause hcause hraw
  | node hblock shape hshape =>
    obtain ⟨hopens, hnames, -⟩ := not_opens_of_shape hshape
    refine ⟨_, ?_, hown (Node.own_read hshape a.index)⟩
    rw [due_other hblock hopens fun _ => hnames]
    exact diagnostics_accept _ _

end

/-- What is reported after the last line. -/
def outstanding (a : Analysis) : List Diagnostic :=
  match a.reader.block? with
  | some b => [.of .unclosedBlock b.opening.span]
  | none => a.reader.overdue

theorem diagnostics_conclude_of_running {a : Analysis} (h : a.aborted = false) :
    a.conclude.reader.diagnostics = a.reader.diagnostics ++ a.outstanding := by
  unfold conclude outstanding
  cases hblock : a.reader.block? with
  | some b => simp [h, place, Reader.dropBlock, Reader.reportAt, Reader.reportAll]
  | none =>
    cases hexpects : a.reader.expectsBlock with
    | true =>
      simp only [h, Bool.not_false, Bool.and_self, if_true]
      rw [Reader.abandonBlock_eq hexpects]
    | false => simp [Reader.overdue, hexpects]

theorem diagnostics_conclude_of_stopped {a : Analysis} (h : a.aborted = true) :
    a.conclude.reader.diagnostics = a.reader.diagnostics := by
  unfold conclude
  cases a.reader.block? with
  | some b => simp [h, place, Reader.dropBlock]
  | none => simp [h]

theorem code_of_overdue {r : Reader} {d : Diagnostic} (h : d ∈ r.overdue) :
    d.code = "E0201" ∨ d.code = "E0202" := by
  unfold Reader.overdue at h
  split at h
  · rcases List.mem_cons.1 h with rfl | h
    · exact Or.inl rfl
    · split at h
      · split at h
        · rw [List.mem_singleton.1 h]
          exact Or.inr rfl
        · cases h
      · cases h
  · cases h

/-- The warnings for the names that were never defined. -/
def undefinedWarnings (a : Analysis) : List Diagnostic :=
  a.index.unresolved.map fun use => .of (.notDefined use.symbol) use.span

theorem warning_of_undefined {a : Analysis} {d : Diagnostic} (h : d ∈ a.undefinedWarnings) :
    d.code = "W0301" ∧ d.isError = false := by
  obtain ⟨use, -, rfl⟩ := List.mem_map.1 h
  exact ⟨rfl, rfl⟩

theorem code_of_outstanding {a : Analysis} {d : Diagnostic} (h : d ∈ a.outstanding) :
    d.code ∈ ["E0201", "E0202", "E0206"] := by
  unfold outstanding at h
  split at h
  · rw [List.mem_singleton.1 h]
    simp [Cause.code]
  · rcases code_of_overdue h with hcode | hcode <;> simp [hcode]

theorem index_conclude (a : Analysis) : a.conclude.index = a.index := by
  unfold conclude
  cases a.reader.block? with
  | some b => rfl
  | none =>
    dsimp only
    split <;> rfl

/-- A finished document defines what had been defined before. -/
theorem buckets_finish (a : Analysis) : a.finish.index.buckets = a.index.buckets :=
  (Index.buckets_clearPending _).trans (congrArg Index.buckets (index_conclude a))

theorem diagnostics_finish_of_running {a : Analysis} (h : a.aborted = false) :
    a.finish.diagnostics = a.reader.diagnostics ++ a.outstanding ++ a.undefinedWarnings := by
  rw [← diagnostics_conclude_of_running h, undefinedWarnings, ← index_conclude a]
  rfl

theorem diagnostics_finish_of_stopped {a : Analysis} (h : a.aborted = true) :
    a.finish.diagnostics = a.reader.diagnostics ++ a.undefinedWarnings := by
  rw [← diagnostics_conclude_of_stopped h, undefinedWarnings, ← index_conclude a]
  rfl

/-- The end of a document only reports missing blocks, an open block and undefined names. -/
theorem diagnostics_finish_eq (a : Analysis) :
    ∃ ds, a.finish.diagnostics = a.reader.diagnostics ++ ds ∧
      ∀ d ∈ ds, d.code ∈ ["E0201", "E0202", "E0206", "W0301"] := by
  have hwarning : ∀ d ∈ a.undefinedWarnings, d.code ∈ ["E0201", "E0202", "E0206", "W0301"] :=
    fun d hd => by simp [(warning_of_undefined hd).1]
  cases haborted : a.aborted with
  | true => exact ⟨_, diagnostics_finish_of_stopped haborted, hwarning⟩
  | false =>
    rw [diagnostics_finish_of_running haborted, List.append_assoc]
    refine ⟨_, rfl, fun d hd => ?_⟩
    rcases List.mem_append.1 hd with hd | hd
    · exact List.mem_append_left ["W0301"] (code_of_outstanding hd)
    · exact hwarning d hd

end Analysis

end LineGrammar
