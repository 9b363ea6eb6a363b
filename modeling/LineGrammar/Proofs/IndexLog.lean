import LineGrammar.Index

/-! The index beside a plain log of definitions. Its buckets are those of the log of everything
that was ever added, in order, so a look-up is a filter of the log. Uses that wait do not touch
the buckets. -/

namespace LineGrammar

/-- The buckets of a log. -/
def addAll (log : List Definition) (buckets : List Bucket) : List Bucket :=
  log.foldl (fun bs d => addToBuckets d bs) buckets

@[simp] theorem addAll_nil (buckets : List Bucket) : addAll [] buckets = buckets := rfl

theorem addAll_append (log more : List Definition) (buckets : List Bucket) :
    addAll (log ++ more) buckets = addAll more (addAll log buckets) := by
  simp [addAll, List.foldl_append]

namespace Index

@[simp] theorem buckets_add (d : Definition) (ix : Index) :
    (ix.add d).buckets = addToBuckets d ix.buckets := rfl

@[simp] theorem buckets_await (s : Symbol) (span : Span) (ix : Index) :
    (ix.await s span).buckets = ix.buckets := rfl

@[simp] theorem buckets_settle (s : Symbol) (ix : Index) : (ix.settle s).buckets = ix.buckets := rfl

@[simp] theorem buckets_mention (s : Symbol) (span : Span) (ix : Index) :
    (ix.mention s span).buckets = ix.buckets := by
  unfold mention; split <;> rfl

@[simp] theorem buckets_adjust (change : Settings → Settings) (ix : Index) :
    (ix.adjust change).buckets = ix.buckets := rfl

@[simp] theorem buckets_clearPending (ix : Index) : ix.clearPending.buckets = ix.buckets := rfl

@[simp] theorem buckets_enter (ix : Index) (d : Definition) :
    (ix.enter d).buckets = addToBuckets d ix.buckets := rfl

@[simp] theorem buckets_enterAll (ix : Index) (ds : List Definition) :
    (ix.enterAll ds).buckets = addAll ds ix.buckets := by
  induction ds generalizing ix with
  | nil => rfl
  | cons d rest ih => exact ih (ix.enter d)

theorem definitionsOf_congr {ix ix' : Index} (h : ix.buckets = ix'.buckets) (s : Symbol) :
    ix.definitionsOf s = ix'.definitionsOf s := by
  simp only [definitionsOf, h]

theorem isDefined_congr {ix ix' : Index} (h : ix.buckets = ix'.buckets) (s : Symbol) :
    ix.isDefined s = ix'.isDefined s := by
  simp only [isDefined, definitionsOf_congr h]

theorem interfaceOf_congr {ix ix' : Index} (h : ix.buckets = ix'.buckets) (walker : String) :
    ix.interfaceOf walker = ix'.interfaceOf walker := by
  simp only [interfaceOf, definitionsOf_congr h]

theorem definitionsOf_add (d : Definition) (ix : Index) (s : Symbol) :
    (ix.add d).definitionsOf s = ix.definitionsOf s ++ if d.symbol = s then [d] else [] := by
  obtain ⟨buckets, pending, settings⟩ := ix
  simp only [definitionsOf, add]
  induction buckets with
  | nil =>
    by_cases h : d.symbol = s <;> simp [addToBuckets, h]
  | cons b rest ih =>
    by_cases hd : b.symbol = d.symbol <;> by_cases hs : b.symbol = s
    · have hds : d.symbol = s := hd.symm.trans hs
      simp [addToBuckets, hds, hs]
    · have hds : d.symbol ≠ s := fun h => hs (hd.trans h)
      simp [addToBuckets, hd, hds]
    · have hds : d.symbol ≠ s := fun h => hd (hs.trans h.symm)
      have hsd : s ≠ d.symbol := fun h => hds h.symm
      simp [addToBuckets, hds, hs, hsd]
    · simpa [addToBuckets, hd, hs] using ih

theorem definitionsOf_enter (ix : Index) (d : Definition) (s : Symbol) :
    (ix.enter d).definitionsOf s = ix.definitionsOf s ++ if d.symbol = s then [d] else [] := by
  rw [← definitionsOf_add]; exact definitionsOf_congr rfl s

theorem definitionsOf_enterAll (ix : Index) (ds : List Definition) (s : Symbol) :
    (ix.enterAll ds).definitionsOf s = ix.definitionsOf s ++ ds.filter (·.symbol = s) := by
  induction ds generalizing ix with
  | nil => simp [enterAll]
  | cons d rest ih =>
    have step : (ix.enterAll (d :: rest)).definitionsOf s =
        ((ix.enter d).enterAll rest).definitionsOf s := rfl
    rw [step, ih, definitionsOf_enter]
    by_cases h : d.symbol = s <;> simp [h]

/-- A look-up after some definitions have been added. -/
theorem definitionsOf_of_addAll {ix ix' : Index} {ds : List Definition}
    (h : ix'.buckets = addAll ds ix.buckets) (s : Symbol) :
    ix'.definitionsOf s = ix.definitionsOf s ++ ds.filter (·.symbol = s) :=
  (definitionsOf_congr (h.trans (buckets_enterAll ix ds).symm) s).trans (definitionsOf_enterAll ix ds s)

/-- What has been defined stays defined. -/
theorem isDefined_of_addAll {ix ix' : Index} {ds : List Definition}
    (h : ix'.buckets = addAll ds ix.buckets) {s : Symbol} (hs : ix.isDefined s = true) :
    ix'.isDefined s = true := by
  simp only [isDefined, Bool.not_eq_true', List.isEmpty_eq_false_iff] at hs ⊢
  rw [definitionsOf_of_addAll h]
  exact List.append_ne_nil_of_left_ne_nil hs _

/-- The definitions of the index are those of the log, added in order. -/
def Records (ix : Index) (log : List Definition) : Prop := ix.buckets = addAll log []

theorem records_nil : ({} : Index).Records [] := rfl

theorem Records.congr {ix ix' : Index} {log : List Definition} (h : ix.Records log)
    (hb : ix'.buckets = ix.buckets) : ix'.Records log := hb.trans h

theorem Records.append {ix ix' : Index} {log more : List Definition} (h : ix.Records log)
    (hb : ix'.buckets = addAll more ix.buckets) : ix'.Records (log ++ more) := by
  rw [Records, addAll_append, ← h]; exact hb

/-- A look-up in the index is a filter of the log. -/
theorem Records.definitionsOf {ix : Index} {log : List Definition} (h : ix.Records log)
    (s : Symbol) : ix.definitionsOf s = log.filter (·.symbol = s) := by
  have hb : ix.buckets = (({} : Index).enterAll log).buckets := by
    rw [h, buckets_enterAll]
  rw [definitionsOf_congr hb, definitionsOf_enterAll]
  rfl

theorem Records.isDefined {ix : Index} {log : List Definition} (h : ix.Records log)
    (s : Symbol) : ix.isDefined s = log.any (·.symbol = s) := by
  rw [Index.isDefined, h.definitionsOf]
  clear h
  induction log with
  | nil => rfl
  | cons d rest ih => by_cases hd : d.symbol = s <;> simp_all

/-- The definitions of a kind in the order of the buckets. -/
def ofKind (kind : SymbolKind) (buckets : List Bucket) : List Definition :=
  (buckets.filter fun b => b.symbol.kind = kind).flatMap Bucket.definitions

theorem ofKind_append (kind : SymbolKind) (left right : List Bucket) :
    ofKind kind (left ++ right) = ofKind kind left ++ ofKind kind right := by
  simp [ofKind]

theorem addToBuckets_new {d : Definition} {buckets : List Bucket}
    (h : ∀ b ∈ buckets, b.symbol ≠ d.symbol) :
    addToBuckets d buckets = buckets ++ [⟨d.symbol, [d]⟩] := by
  induction buckets with
  | nil => rfl
  | cons b rest ih =>
    have hb : b.symbol ≠ d.symbol := h b (by simp)
    simp [addToBuckets, hb, ih fun c hc => h c (by simp [hc])]

theorem ofKind_addToBuckets_other {d : Definition} {kind : SymbolKind} (h : d.symbol.kind ≠ kind)
    (buckets : List Bucket) : ofKind kind (addToBuckets d buckets) = ofKind kind buckets := by
  induction buckets with
  | nil => simp [addToBuckets, ofKind, h]
  | cons b rest ih =>
    by_cases hb : b.symbol = d.symbol
    · simp [addToBuckets, ofKind, hb, h]
    · by_cases hk : b.symbol.kind = kind <;> simp_all [addToBuckets, ofKind]

theorem symbol_mem_addToBuckets {d : Definition} {buckets : List Bucket} {b : Bucket}
    (h : b ∈ addToBuckets d buckets) : b.symbol = d.symbol ∨ ∃ c ∈ buckets, c.symbol = b.symbol := by
  induction buckets with
  | nil =>
    rw [addToBuckets, List.mem_singleton] at h
    exact Or.inl (by rw [h])
  | cons c rest ih =>
    rw [addToBuckets] at h
    split at h
    · rcases List.mem_cons.1 h with h | h
      · exact Or.inr ⟨c, by simp, by rw [h]⟩
      · exact Or.inr ⟨b, by simp [h], rfl⟩
    · rcases List.mem_cons.1 h with h | h
      · exact Or.inr ⟨c, by simp, by rw [h]⟩
      · rcases ih h with h | ⟨e, he, hs⟩
        · exact Or.inl h
        · exact Or.inr ⟨e, by simp [he], hs⟩

theorem ofKind_addAll {kind : SymbolKind} {log : List Definition} (buckets : List Bucket)
    (hnew : ∀ d ∈ log, d.symbol.kind = kind → ∀ b ∈ buckets, b.symbol ≠ d.symbol)
    (hnodup : ((log.filter (·.symbol.kind = kind)).map (·.symbol)).Nodup) :
    ofKind kind (addAll log buckets) =
      ofKind kind buckets ++ log.filter (·.symbol.kind = kind) := by
  induction log generalizing buckets with
  | nil => simp
  | cons d rest ih =>
    have step : addAll (d :: rest) buckets = addAll rest (addToBuckets d buckets) := rfl
    rw [step]
    by_cases hk : d.symbol.kind = kind
    · have hfresh := hnew d (by simp) hk
      simp only [hk, decide_true, List.filter_cons_of_pos, List.map_cons, List.nodup_cons] at hnodup
      rw [ih (addToBuckets d buckets) ?_ hnodup.2, addToBuckets_new hfresh, ofKind_append]
      · simp [ofKind, hk]
      · intro e he hek b hb
        rcases symbol_mem_addToBuckets hb with hb | ⟨c, hc, hb⟩
        · rintro h
          refine hnodup.1 (List.mem_map.2 ⟨e, List.mem_filter.2 ⟨he, by simp [hek]⟩, ?_⟩)
          rw [← h, hb]
        · rw [← hb]; exact hnew e (by simp [he]) hek c hc
    · rw [List.filter_cons_of_neg (by simpa using hk)] at hnodup ⊢
      rw [ih (addToBuckets d buckets) ?_ hnodup, ofKind_addToBuckets_other hk]
      intro e he hek b hb
      rcases symbol_mem_addToBuckets hb with hb | ⟨c, hc, hb⟩
      · rintro h; exact hk (by rw [← hb, h, hek])
      · rw [← hb]; exact hnew e (by simp [he]) hek c hc

/-- Definitions of a kind whose symbols are never defined twice stand in the order of the log. -/
theorem Records.definitionsOfKind {ix : Index} {log : List Definition} (h : ix.Records log)
    {kind : SymbolKind}
    (hnodup : ((log.filter (·.symbol.kind = kind)).map (·.symbol)).Nodup) :
    ix.definitionsOfKind kind = log.filter (·.symbol.kind = kind) := by
  have hk := ofKind_addAll [] (by simp) hnodup
  rw [Records] at h
  rw [Index.definitionsOfKind, h]
  simpa [ofKind] using hk

end Index

end LineGrammar
