import LineGrammar.Proofs.IndexLog
import Mathlib.Data.List.Basic
import Mathlib.Data.List.Induction

/-! The index refines a plain log. Whatever is done to an index, its look-ups are views of the list of
all definitions that were added, and the uses that wait are those that were recorded since the uses
were last handed out, without those that were settled later. -/

namespace LineGrammar

section
variable {α β : Type} [BEq α] [LawfulBEq α] [BEq β] [LawfulBEq β]

theorem eraseDups_concat (xs : List α) (x : α) :
    (xs ++ [x]).eraseDups = xs.eraseDups ++ if x ∈ xs then [] else [x] := by
  rw [List.eraseDups_append]
  by_cases hx : x ∈ xs <;> simp [List.removeAll, hx, List.eraseDups_cons]

theorem nodup_eraseDups (xs : List α) : xs.eraseDups.Nodup := by
  induction xs using List.reverseRecOn with
  | nil => simp
  | append_singleton xs x ih =>
    rw [eraseDups_concat]
    split
    · rwa [List.append_nil]
    · next hx =>
      refine List.nodup_append.2 ⟨ih, by simp, fun y hy z hz heq => hx ?_⟩
      rw [← List.mem_singleton.1 hz, ← heq]
      exact List.mem_eraseDups.1 hy

theorem filter_eraseDups (p : α → Bool) (xs : List α) :
    xs.eraseDups.filter p = (xs.filter p).eraseDups := by
  induction xs using List.reverseRecOn with
  | nil => simp
  | append_singleton xs x ih =>
    rw [eraseDups_concat, List.filter_append, ih, List.filter_append]
    cases hp : p x with
    | false => split <;> simp [hp]
    | true =>
      rw [List.filter_cons_of_pos hp, List.filter_nil, eraseDups_concat]
      by_cases hx : x ∈ xs <;> simp [hx, hp]

theorem eraseDups_append_of_subset {xs ys : List α} (h : ∀ y ∈ ys, y ∈ xs) :
    (xs ++ ys).eraseDups = xs.eraseDups := by
  rw [List.eraseDups_append, List.removeAll, List.filter_eq_nil_iff.2, List.eraseDups_nil,
    List.append_nil]
  intro y hy
  simp [h y hy]

theorem eraseDups_append_congr {xs xs' ys ys' : List α} (hxs : xs.eraseDups = xs'.eraseDups)
    (hys : ys.eraseDups = ys'.eraseDups) : (xs ++ ys).eraseDups = (xs' ++ ys').eraseDups := by
  have hmem : ∀ y, y ∈ xs ↔ y ∈ xs' := fun y => by
    rw [← List.mem_eraseDups, hxs, List.mem_eraseDups]
  rw [List.eraseDups_append, List.eraseDups_append, hxs, List.removeAll, List.removeAll,
    ← filter_eraseDups, ← filter_eraseDups, hys]
  simp only [List.elem_eq_mem, hmem]

omit [BEq α] [LawfulBEq α] in
theorem eraseDups_flatMap_congr {f g : α → List β} {xs : List α}
    (h : ∀ x ∈ xs, (f x).eraseDups = (g x).eraseDups) :
    (xs.flatMap f).eraseDups = (xs.flatMap g).eraseDups := by
  induction xs with
  | nil => rfl
  | cons x xs ih =>
    rw [List.flatMap_cons, List.flatMap_cons]
    exact eraseDups_append_congr (h x (by simp)) (ih fun y hy => h y (by simp [hy]))

/-- What an entry gives rise to is there from its first occurrence on. -/
theorem eraseDups_flatMap_eraseDups (f : α → List β) (xs : List α) :
    (xs.eraseDups.flatMap f).eraseDups = (xs.flatMap f).eraseDups := by
  induction xs using List.reverseRecOn with
  | nil => rfl
  | append_singleton xs x ih =>
    rw [eraseDups_concat, List.flatMap_append, List.flatMap_append]
    split
    · next hx =>
      have hgiven : ∀ y ∈ [x].flatMap f, y ∈ xs.flatMap f := fun y hy =>
        List.mem_flatMap.2 ⟨x, hx, by simpa using hy⟩
      rw [List.flatMap_nil, List.append_nil, ih, eraseDups_append_of_subset hgiven]
    · exact eraseDups_append_congr ih rfl

theorem eraseDups_of_forall_eq {x : α} {xs : List α} (hx : x ∈ xs) (h : ∀ y ∈ xs, y = x) :
    xs.eraseDups = [x] := by
  obtain ⟨n, rfl⟩ : ∃ n, xs = List.replicate (n + 1) x := by
    refine ⟨xs.length - 1, ?_⟩
    rw [Nat.sub_add_cancel (List.length_pos_of_mem hx)]
    exact List.eq_replicate_of_mem h
  rw [List.replicate_succ, ← List.singleton_append,
    eraseDups_append_of_subset fun y hy => by simp [List.eq_of_mem_replicate hy]]
  rfl

/-- A function that tells the entries apart tells the entries that are left apart. -/
theorem map_eraseDups {f : α → β} {xs : List α} (hf : ∀ a ∈ xs, ∀ b ∈ xs, f a = f b → a = b) :
    xs.eraseDups.map f = (xs.map f).eraseDups := by
  induction xs using List.reverseRecOn with
  | nil => simp
  | append_singleton xs x ih =>
    have hmem : f x ∈ xs.map f ↔ x ∈ xs := by
      refine ⟨fun h => ?_, List.mem_map_of_mem⟩
      obtain ⟨y, hy, heq⟩ := List.mem_map.1 h
      rwa [← hf y (by simp [hy]) x (by simp) heq]
    rw [eraseDups_concat, List.map_append, List.map_append, List.map_singleton, eraseDups_concat,
      ih fun a ha b hb => hf a (by simp [ha]) b (by simp [hb])]
    by_cases hx : x ∈ xs
    · rw [if_pos hx, if_pos (hmem.2 hx), List.map_nil]
    · rw [if_neg hx, if_neg fun h => hx (hmem.1 h), List.map_singleton]

end

theorem Symbol.eq_iff {s t : Symbol} : s = t ↔ s.kind = t.kind ∧ s.name = t.name := by
  cases s
  cases t
  simp

namespace Index

theorem symbols_addToBuckets (d : Definition) (buckets : List Bucket) :
    (addToBuckets d buckets).map Bucket.symbol = buckets.map Bucket.symbol ++
      if d.symbol ∈ buckets.map Bucket.symbol then [] else [d.symbol] := by
  induction buckets with
  | nil => rfl
  | cons b rest ih =>
    rw [addToBuckets]
    split
    · next hb => simp [hb]
    · next hb =>
      have hne : d.symbol ≠ b.symbol := fun h => hb h.symm
      simp only [List.map_cons, ih, List.cons_append, List.mem_cons, hne, false_or]

theorem symbols_addAll (log : List Definition) :
    (addAll log []).map Bucket.symbol = (log.map Definition.symbol).eraseDups := by
  induction log using List.reverseRecOn with
  | nil => rfl
  | append_singleton log d ih =>
    have hstep : addAll (log ++ [d]) [] = addToBuckets d (addAll log []) := addAll_append log [d] []
    rw [hstep, symbols_addToBuckets, ih, List.map_append, List.map_singleton, eraseDups_concat]
    simp only [List.mem_eraseDups]

theorem length_addToBuckets (d : Definition) (buckets : List Bucket) :
    ((addToBuckets d buckets).flatMap Bucket.definitions).length =
      (buckets.flatMap Bucket.definitions).length + 1 := by
  induction buckets with
  | nil => rfl
  | cons b rest ih =>
    rw [addToBuckets]
    split
    · simp only [List.flatMap_cons, List.length_append, List.length_singleton]
      omega
    · simp only [List.flatMap_cons, List.length_append, ih]
      omega

variable {ix : Index} {log : List Definition}

/-- Every definition of the log has its place in one bucket. -/
theorem Records.definitionCount (h : ix.Records log) : ix.definitionCount = log.length := by
  rw [Index.definitionCount, h]
  clear h
  induction log using List.reverseRecOn with
  | nil => rfl
  | append_singleton log d ih =>
    have hstep : addAll (log ++ [d]) [] = addToBuckets d (addAll log []) := addAll_append log [d] []
    rw [hstep, length_addToBuckets, ih, List.length_append, List.length_singleton]

theorem Records.symbols (h : ix.Records log) :
    ix.buckets.map Bucket.symbol = (log.map Definition.symbol).eraseDups := by
  rw [h, symbols_addAll]

theorem Records.names (h : ix.Records log) (kind : SymbolKind) :
    ix.names kind = ((log.filter (·.symbol.kind = kind)).map (·.symbol.name)).eraseDups := by
  have hinjective : ∀ s ∈ (log.map Definition.symbol).filter (·.kind = kind),
      ∀ t ∈ (log.map Definition.symbol).filter (·.kind = kind), s.name = t.name → s = t := by
    intro s hs t ht hname
    have hkind : s.kind = t.kind := by
      rw [of_decide_eq_true (List.mem_filter.1 hs).2, of_decide_eq_true (List.mem_filter.1 ht).2]
    obtain ⟨kind, name⟩ := s
    obtain ⟨kind', name'⟩ := t
    cases hkind
    cases hname
    rfl
  calc ix.names kind
      = ((ix.buckets.map Bucket.symbol).filter (·.kind = kind)).map Symbol.name := by
        rw [List.filter_map, List.map_map]
        rfl
    _ = (((log.map Definition.symbol).filter (·.kind = kind)).eraseDups).map Symbol.name := by
        rw [h.symbols, filter_eraseDups]
    _ = (((log.map Definition.symbol).filter (·.kind = kind)).map Symbol.name).eraseDups :=
        map_eraseDups hinjective
    _ = ((log.filter (·.symbol.kind = kind)).map (·.symbol.name)).eraseDups := by
        rw [List.filter_map, List.map_map]
        rfl

/-- The definitions of a kind in a log, name by name in the order of first definition. -/
def byName (kind : SymbolKind) (log : List Definition) : List Definition :=
  ((log.filter (·.symbol.kind = kind)).map (·.symbol.name)).eraseDups.flatMap fun name =>
    log.filter fun d => d.symbol.kind = kind ∧ d.symbol.name = name

theorem mem_byName {kind : SymbolKind} {log : List Definition} {d : Definition} :
    d ∈ byName kind log ↔ d ∈ log ∧ d.symbol.kind = kind := by
  rw [byName, List.mem_flatMap]
  constructor
  · rintro ⟨name, -, hd⟩
    obtain ⟨hd, hsymbol⟩ := List.mem_filter.1 hd
    exact ⟨hd, (of_decide_eq_true hsymbol).1⟩
  · rintro ⟨hd, hkind⟩
    refine ⟨d.symbol.name, ?_, List.mem_filter.2 ⟨hd, by simp [hkind]⟩⟩
    exact List.mem_eraseDups.2 (List.mem_map_of_mem (List.mem_filter.2 ⟨hd, by simp [hkind]⟩))

/-- No other bucket has the same symbol. -/
theorem Records.definitionsOf_bucket (h : ix.Records log) {b : Bucket} (hb : b ∈ ix.buckets) :
    ix.definitionsOf b.symbol = b.definitions := by
  have hnodup : (ix.buckets.map Bucket.symbol).Nodup := by
    rw [h.symbols]
    exact nodup_eraseDups _
  obtain ⟨front, back, hsplit⟩ := List.append_of_mem hb
  have hfront : ∀ c ∈ front, c.symbol ≠ b.symbol := by
    rw [hsplit, List.map_append, List.map_cons] at hnodup
    intro c hc heq
    have hdisjoint := (List.nodup_append.1 hnodup).2.2
    exact hdisjoint _ (List.mem_map_of_mem hc) _ List.mem_cons_self heq
  have hnone : front.find? (fun c => decide (c.symbol = b.symbol)) = none := by
    simpa using hfront
  rw [Index.definitionsOf, hsplit, List.find?_append, hnone]
  simp

/-- The definitions of a kind, name by name. -/
theorem Records.definitionsOfKind_names (h : ix.Records log) (kind : SymbolKind) :
    ix.definitionsOfKind kind =
      (ix.names kind).flatMap fun name => ix.definitionsOf ⟨kind, name⟩ := by
  rw [Index.definitionsOfKind, Index.names, List.flatMap_map]
  refine List.flatMap_congr fun b hb => ?_
  obtain ⟨hmem, hkind⟩ := List.mem_filter.1 hb
  have hsymbol : b.symbol = ⟨kind, b.symbol.name⟩ := by rw [← of_decide_eq_true hkind]
  rw [← hsymbol, h.definitionsOf_bucket hmem]

theorem Records.definitionsOfKind_byName (h : ix.Records log) (kind : SymbolKind) :
    ix.definitionsOfKind kind = byName kind log := by
  rw [h.definitionsOfKind_names, h.names]
  refine List.flatMap_congr fun name _ => ?_
  rw [h.definitionsOf]
  simp only [Symbol.eq_iff]

/-- What all definitions of a symbol have in common comes in the order of the log. -/
theorem eraseDups_filterMap_byName {β : Type} [BEq β] [LawfulBEq β] {f : Definition → Option β}
    {kind : SymbolKind} (hagree : ∀ d ∈ log, ∀ e ∈ log, d.symbol = e.symbol → f d = f e) :
    ((byName kind log).filterMap f).eraseDups =
      ((log.filter (·.symbol.kind = kind)).filterMap f).eraseDups := by
  have hgroup : ∀ d ∈ log.filter (·.symbol.kind = kind),
      ((log.filter fun e => e.symbol.kind = kind ∧ e.symbol.name = d.symbol.name).filterMap
        f).eraseDups = (f d).toList.eraseDups := by
    intro d hd
    obtain ⟨hd, hkind⟩ := List.mem_filter.1 hd
    have hsame : ∀ e ∈ log.filter fun e =>
        e.symbol.kind = kind ∧ e.symbol.name = d.symbol.name, f e = f d := by
      intro e he
      obtain ⟨he, hsymbol⟩ := List.mem_filter.1 he
      obtain ⟨hk, hn⟩ := of_decide_eq_true hsymbol
      exact hagree e he d hd (Symbol.eq_iff.2 ⟨hk.trans (of_decide_eq_true hkind).symm, hn⟩)
    have hself : d ∈ log.filter fun e => e.symbol.kind = kind ∧ e.symbol.name = d.symbol.name :=
      List.mem_filter.2 ⟨hd, by simpa using hkind⟩
    cases hfd : f d with
    | none =>
      rw [List.filterMap_eq_nil_iff.2 fun e he => (hsame e he).trans hfd]
      rfl
    | some y =>
      refine eraseDups_of_forall_eq (List.mem_filterMap.2 ⟨d, hself, hfd⟩) fun z hz => ?_
      obtain ⟨e, he, hez⟩ := List.mem_filterMap.1 hz
      exact Option.some.inj (hez.symm.trans ((hsame e he).trans hfd))
  calc ((byName kind log).filterMap f).eraseDups
      = (((log.filter (·.symbol.kind = kind)).map (·.symbol.name)).eraseDups.flatMap fun name =>
          (log.filter fun e => e.symbol.kind = kind ∧ e.symbol.name = name).filterMap
            f).eraseDups := by
        rw [byName, List.filterMap_flatMap]
    _ = ((log.filter (·.symbol.kind = kind)).flatMap fun d =>
          (log.filter fun e => e.symbol.kind = kind ∧ e.symbol.name = d.symbol.name).filterMap
            f).eraseDups := by
        rw [eraseDups_flatMap_eraseDups, List.flatMap_map]
    _ = ((log.filter (·.symbol.kind = kind)).flatMap fun d => (f d).toList).eraseDups :=
        eraseDups_flatMap_congr hgroup
    _ = ((log.filter (·.symbol.kind = kind)).filterMap f).eraseDups := by
        rw [List.filterMap_eq_flatMap_toList]

/-- Hands out the uses that are still undefined and forgets all that waited. -/
def takeUnresolved (ix : Index) : List Pending × Index := (ix.unresolved, ix.clearPending)

inductive Operation
  | add (d : Definition)
  | await (s : Symbol) (span : Span)
  | settle (s : Symbol)
  | takeUnresolved

namespace Operation

def apply (ix : Index) : Operation → Index
  | add d => ix.add d
  | await s span => ix.await s span
  | settle s => ix.settle s
  | takeUnresolved => ix.takeUnresolved.2

def added? : Operation → Option Definition
  | add d => some d
  | _ => none

def recorded? : Operation → Option Pending
  | await s span => some ⟨s, span⟩
  | _ => none

/-- Whether a use that waits for the symbol does not wait any longer. -/
def drops (s : Symbol) : Operation → Bool
  | settle t => t = s
  | takeUnresolved => true
  | _ => false

end Operation

/-- The index after some operations, from an empty one. -/
def perform (ops : List Operation) : Index := ops.foldl Operation.apply {}

/-- All definitions that were added, in order. -/
def added (ops : List Operation) : List Definition := ops.filterMap Operation.added?

/-- The uses that were recorded and that no later operation dropped, in order. -/
def waiting : List Operation → List Pending
  | [] => []
  | op :: later =>
    (op.recorded?.toList.filter fun use => !later.any (Operation.drops use.symbol)) ++ waiting later

theorem perform_concat (ops : List Operation) (op : Operation) :
    perform (ops ++ [op]) = op.apply (perform ops) := by
  rw [perform, perform, List.foldl_append]
  rfl

theorem added_concat (ops : List Operation) (op : Operation) :
    added (ops ++ [op]) = added ops ++ op.added?.toList := by
  rw [added, added, List.filterMap_append]
  cases h : op.added? <;> simp [h]

theorem waiting_concat (ops : List Operation) (op : Operation) :
    waiting (ops ++ [op]) =
      (waiting ops).filter (fun use => !op.drops use.symbol) ++ op.recorded?.toList := by
  induction ops with
  | nil => simp [waiting]
  | cons first later ih =>
    rw [List.cons_append, waiting, waiting, ih, List.filter_append, List.filter_filter,
      List.append_assoc]
    congr 2
    funext use
    rw [List.any_append, List.any_cons, List.any_nil, Bool.or_false, Bool.not_or, Bool.and_comm]

/-- Every operation keeps the buckets those of the log. -/
theorem records_perform (ops : List Operation) : (perform ops).Records (added ops) := by
  induction ops using List.reverseRecOn with
  | nil => exact records_nil
  | append_singleton ops op ih =>
    rw [perform_concat, added_concat]
    cases op with
    | add d => exact ih.append rfl
    | _ => exact (ih.congr rfl).append rfl

theorem pending_perform (ops : List Operation) : (perform ops).pending = waiting ops := by
  induction ops using List.reverseRecOn with
  | nil => rfl
  | append_singleton ops op ih =>
    rw [perform_concat, waiting_concat, ← ih]
    cases op with
    | add d => simp [Operation.apply, Operation.drops, Operation.recorded?, add]
    | await s span => simp [Operation.apply, Operation.drops, Operation.recorded?, await]
    | settle s =>
      simp [Operation.apply, Operation.drops, Operation.recorded?, settle, eq_comm]
    | takeUnresolved =>
      simp [Operation.apply, Operation.drops, Operation.recorded?, takeUnresolved, clearPending]

/-- What can be asked of the index, told by a log of definitions and a list of uses. -/
structure Refines (ix : Index) (log : List Definition) (uses : List Pending) : Prop where
  definitionsOf : ∀ kind name,
    ix.definitionsOf ⟨kind, name⟩ = log.filter fun d => d.symbol.kind = kind ∧ d.symbol.name = name
  names : ∀ kind,
    ix.names kind = ((log.filter (·.symbol.kind = kind)).map (·.symbol.name)).eraseDups
  definitionsOfKind : ∀ kind,
    ix.definitionsOfKind kind = (ix.names kind).flatMap fun name => ix.definitionsOf ⟨kind, name⟩
  definitionCount : ix.definitionCount = log.length
  pending : ix.pending = uses
  handedOut : ix.takeUnresolved.1 = uses.filter fun use =>
    ∀ d ∈ log, ¬(d.symbol.kind = use.symbol.kind ∧ d.symbol.name = use.symbol.name)
  cleared : ix.takeUnresolved.2.pending = []

/-- Whatever is done to an index, it shows the log of all definitions and the uses that wait. -/
theorem index_refines_log (ops : List Operation) :
    (perform ops).Refines (added ops) (waiting ops) where
  definitionsOf kind name := by
    rw [(records_perform ops).definitionsOf]
    simp only [Symbol.eq_iff]
  names := (records_perform ops).names
  definitionsOfKind := (records_perform ops).definitionsOfKind_names
  definitionCount := (records_perform ops).definitionCount
  pending := pending_perform ops
  handedOut := by
    rw [takeUnresolved, unresolved, pending_perform]
    refine List.filter_congr fun use _ => ?_
    rw [(records_perform ops).isDefined, Bool.eq_iff_iff]
    simp [Symbol.eq_iff]
  cleared := rfl

end Index

end LineGrammar
