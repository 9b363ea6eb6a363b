import LineGrammar.Proofs.IndexLog
import LineGrammar.Proofs.Obligations

/-! The waiting uses of an index, seen through the symbols that stay undefined to the end. Seen so,
a mention and a plain wait are the same and settling does nothing, because both only concern
symbols that are defined in the end. -/

namespace LineGrammar

namespace Index

/-- The waiting uses whose symbols are missing. -/
def owed (missing : Symbol → Bool) (ix : Index) : List Pending :=
  ix.pending.filter fun use => missing use.symbol

/-- Everything that the index defines is not missing. -/
def Covered (missing : Symbol → Bool) (ix : Index) : Prop :=
  ∀ s, ix.isDefined s = true → missing s = false

variable {missing : Symbol → Bool}

theorem owed_of_pending {ix ix' : Index} (h : ix'.pending = ix.pending) :
    ix'.owed missing = ix.owed missing := by rw [owed, owed, h]

theorem owed_await (s : Symbol) (span : Span) (ix : Index) :
    (ix.await s span).owed missing =
      ix.owed missing ++ [⟨s, span⟩].filter fun use => missing use.symbol := by
  simp [owed, await]

theorem owed_mention {ix : Index} {s : Symbol} (h : ix.isDefined s = true → missing s = false)
    (span : Span) :
    (ix.mention s span).owed missing =
      ix.owed missing ++ [⟨s, span⟩].filter fun use => missing use.symbol := by
  unfold mention
  split
  · next hdef => simp [h hdef]
  · exact owed_await s span ix

theorem owed_settle {s : Symbol} (h : missing s = false) (ix : Index) :
    (ix.settle s).owed missing = ix.owed missing := by
  simp only [owed, settle, List.filter_filter]
  apply List.filter_congr
  intro use _
  by_cases hs : use.symbol = s
  · simp [hs, h]
  · simp [hs]

theorem owed_enter {d : Definition} (h : missing d.symbol = false) (ix : Index) :
    (ix.enter d).owed missing = ix.owed missing :=
  owed_settle h (ix.add d)

theorem owed_enterAll {ds : List Definition} (h : ∀ d ∈ ds, missing d.symbol = false)
    (ix : Index) : (ix.enterAll ds).owed missing = ix.owed missing := by
  induction ds generalizing ix with
  | nil => rfl
  | cons d rest ih =>
    exact (ih (fun e he => h e (by simp [he])) (ix.enter d)).trans (owed_enter (h d (by simp)) ix)

theorem Covered.of_records {ix ix' : Index} {log more : List Definition} (h : ix.Records log)
    (h' : ix'.Records (log ++ more)) (hc : ix'.Covered missing) : ix.Covered missing := by
  intro s hs
  apply hc s
  rw [h.isDefined] at hs
  rw [h'.isDefined, List.any_append, hs, Bool.true_or]

theorem Covered.of_mem {ix : Index} {log : List Definition} (h : ix.Records log)
    (hc : ix.Covered missing) {d : Definition} (hd : d ∈ log) : missing d.symbol = false := by
  apply hc d.symbol
  rw [h.isDefined]
  exact List.any_eq_true.2 ⟨d, hd, by simp⟩

theorem Covered.congr {ix ix' : Index} (h : ix.Covered missing) (hb : ix'.buckets = ix.buckets) :
    ix'.Covered missing :=
  fun s hs => h s (by rwa [isDefined_congr hb] at hs)

/-- Entering definitions changes nothing that is owed in the end. -/
theorem Covered.enterAll {ix ix' : Index} {log ds : List Definition} (hix : ix.Records log)
    (hb : ix'.buckets = ix.buckets) (hc : (ix'.enterAll ds).Covered missing) :
    (ix'.enterAll ds).owed missing = ix'.owed missing ∧ ix.Covered missing := by
  have hafter : (ix'.enterAll ds).Records (log ++ ds) :=
    hix.append (by rw [buckets_enterAll, hb])
  exact ⟨owed_enterAll (fun d hd => hc.of_mem hafter (List.mem_append_right _ hd)) ix',
    .of_records hix hafter hc⟩

theorem foldl_buckets {α : Type} {f : Index → α → Index}
    (hf : ∀ ix a, (f ix a).buckets = ix.buckets) (as : List α) (ix : Index) :
    (as.foldl f ix).buckets = ix.buckets := by
  induction as generalizing ix with
  | nil => rfl
  | cons a rest ih => exact (ih (f ix a)).trans (hf ix a)

/-- A run over items each of which waits for at most one symbol. -/
theorem owed_foldl {α : Type} {f : Index → α → Index} {use? : α → Option Pending} {i : Index}
    (hf : ∀ ix a, (f ix a).buckets = ix.buckets)
    (hstep : ∀ ix a, ix.buckets = i.buckets → (f ix a).owed missing =
      ix.owed missing ++ (use? a).toList.filter fun use => missing use.symbol)
    (as : List α) {ix : Index} (h : ix.buckets = i.buckets) :
    (as.foldl f ix).owed missing =
      ix.owed missing ++ (as.filterMap use?).filter fun use => missing use.symbol := by
  induction as generalizing ix with
  | nil => simp
  | cons a rest ih =>
    rw [List.foldl_cons, ih ((hf ix a).trans h), hstep ix a h, List.append_assoc,
      ← List.filter_append]
    cases hu : use? a <;> simp [hu]

end Index

/-- The detail of a definition goes with its kind: functions, and only they, are recorded with the
parts of their keys, and interfaces, and only they, with a type. -/
def Definition.Fits (d : Definition) : Prop :=
  match d.detail with
  | .function rule walker function _ =>
    d.symbol = .function (functionKey rule walker function) ∧ ':' ∉ rule.toList
  | .walkerInterface _ => d.symbol.kind = .walkerInterface
  | _ => d.symbol.kind ≠ .function ∧ d.symbol.kind ≠ .walkerInterface

/-- What is known of the definitions of a document: their details fit, and no function is defined
twice. -/
structure SoundLog (log : List Definition) : Prop where
  fits : ∀ d ∈ log, d.Fits
  distinct : ((log.filter (·.symbol.kind = .function)).map (·.symbol)).Nodup

theorem soundLog_nil : SoundLog [] := ⟨by simp, by simp⟩

/-- Definitions that are no functions may be added. -/
theorem SoundLog.append {log more : List Definition} (h : SoundLog log) (hfits : ∀ d ∈ more, d.Fits)
    (hother : ∀ d ∈ more, d.symbol.kind ≠ .function) : SoundLog (log ++ more) := by
  refine ⟨fun d hd => (List.mem_append.1 hd).elim (h.fits d) (hfits d), ?_⟩
  have hnone : more.filter (·.symbol.kind = .function) = [] := by
    simpa [List.filter_eq_nil_iff] using hother
  rw [List.filter_append, hnone, List.append_nil]
  exact h.distinct

/-- A function whose key is not taken may be added. -/
theorem SoundLog.concat {log : List Definition} (h : SoundLog log) {d : Definition} (hfits : d.Fits)
    (hnew : log.any (·.symbol = d.symbol) = false) : SoundLog (log ++ [d]) := by
  refine ⟨fun e he => ?_, ?_⟩
  · rcases List.mem_append.1 he with he | he
    · exact h.fits e he
    · rw [List.mem_singleton.1 he]; exact hfits
  · by_cases hk : d.symbol.kind = .function
    · rw [List.filter_append, List.map_append, List.nodup_append]
      refine ⟨h.distinct, by simp [hk], ?_⟩
      intro s hs t ht hst
      obtain ⟨e, he, rfl⟩ := List.mem_map.1 hs
      have htd : t = d.symbol := by simpa [hk] using ht
      have hes : e.symbol = d.symbol := hst.trans htd
      have hany : log.any (·.symbol = d.symbol) = true :=
        List.any_eq_true.2 ⟨e, (List.mem_filter.1 he).1, by simpa using hes⟩
      exact absurd (hany.symm.trans hnew) (by simp)
    · rw [List.filter_append, List.filter_cons_of_neg (by simpa using hk), List.filter_nil,
        List.append_nil]
      exact h.distinct

/-- Two texts without the mark that are followed by it are equal. -/
theorem front_eq_of_append {a b : List Char} {mark : Char} (ha : mark ∉ a) (hb : mark ∉ b)
    {s t : List Char} (h : a ++ mark :: s = b ++ mark :: t) : a = b := by
  induction a generalizing b with
  | nil =>
    cases b with
    | nil => rfl
    | cons d b => exact absurd (List.cons.inj h).1 (by rintro rfl; exact hb (by simp))
  | cons c a ih =>
    cases b with
    | nil => exact absurd (List.cons.inj h).1.symm (by rintro rfl; exact ha (by simp))
    | cons d b =>
      obtain ⟨rfl, hrest⟩ := List.cons.inj h
      rw [ih (fun hm => ha (by simp [hm])) (fun hm => hb (by simp [hm])) hrest]

theorem isPrefixOf_functionKey {rule rule' : String} (h : ':' ∉ rule.toList)
    (h' : ':' ∉ rule'.toList) (walker function : String) :
    (rule ++ "::").toList.isPrefixOf (functionKey rule' walker function).toList =
      decide (rule' = rule) := by
  have hkey : (functionKey rule' walker function).toList =
      rule'.toList ++ ':' :: (':' :: walker.toList ++ "::".toList ++ function.toList) := by
    simp [functionKey]
  have hfront : (rule ++ "::").toList = rule.toList ++ [':', ':'] := by simp
  rw [Bool.eq_iff_iff, List.isPrefixOf_iff_prefix, decide_eq_true_iff, hkey, hfront]
  constructor
  · rintro ⟨tail, htail⟩
    rw [List.append_assoc] at htail
    exact String.ext (front_eq_of_append h' h htail.symm)
  · rintro rfl
    exact ⟨walker.toList ++ "::".toList ++ function.toList, by simp⟩

namespace Index

variable {ix : Index} {log : List Definition}

/-- The functions of a rule, known by the front of their keys, are those recorded for it. -/
theorem Records.functionsOfRule (h : ix.Records log) (hlog : SoundLog log) {rule : String}
    (hrule : ':' ∉ rule.toList) :
    ix.functionsOfRule rule = log.filter fun d =>
      match d.detail with
      | .function rule' _ _ _ => rule' = rule
      | _ => false := by
  rw [Index.functionsOfRule, h.definitionsOfKind hlog.distinct, List.filter_filter]
  apply List.filter_congr
  intro d hd
  have hfits := hlog.fits d hd
  unfold Definition.Fits at hfits
  split
  · next rule' walker function signature hdetail =>
    rw [hdetail] at hfits
    obtain ⟨hsymbol, hcolon⟩ := hfits
    simp only [hsymbol]
    rw [show (Symbol.function (functionKey rule' walker function)).name =
      functionKey rule' walker function from rfl, isPrefixOf_functionKey hrule hcolon]
    simp [Symbol.function]
  · next hother =>
    have hk : d.symbol.kind ≠ .function := by
      split at hfits
      · next hdetail => exact absurd hdetail (hother _ _ _ _)
      · rw [hfits]; simp
      · exact hfits.1
    simp [hk]

theorem Records.interfaceOf_isSome (h : ix.Records log) (hlog : SoundLog log) (walker : String) :
    (ix.interfaceOf walker).isSome = hasInterface log walker := by
  rw [Index.interfaceOf, h.definitionsOf, List.isSome_findSome?, hasInterface, List.any_filter]
  rw [Bool.eq_iff_iff, List.any_eq_true, List.any_eq_true]
  refine exists_congr fun d => and_congr_right fun hd => ?_
  by_cases hs : d.symbol = .walkerInterface walker
  · have hfits := hlog.fits d hd
    have hkind : d.symbol.kind = .walkerInterface := by rw [hs]; rfl
    unfold Definition.Fits at hfits
    split at hfits
    · exact absurd (hfits.1 ▸ hkind) (by simp [Symbol.function])
    · next hdetail => simp [hs, hdetail]
    · exact absurd hkind hfits.2
  · simp [hs]

end Index

end LineGrammar
