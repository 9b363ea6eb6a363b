import LineGrammar.Proofs.PatternMatches
import Mathlib.Logic.Function.Iterate
import Mathlib.Logic.Relation
import Mathlib.Order.Interval.Set.Defs
import Mathlib.Order.Monotone.Basic

/-! Repeated matching. A text is read as a sequence of matches just if there are offsets, from its start to
its end, between which the matches stand without gaps. The run that looks for them ends after at most as many
rounds as the text has characters, and what it gives for a lexeme stands in the lexeme, repetition after
repetition. -/

namespace LineGrammar

section
variable {α : Type}

/-- The match that is found at an offset starts there and takes the text up to `stop`. -/
def TakesTo (find? : Nat → Option (Match α)) (pos stop : Nat) : Prop :=
  pos < stop ∧ ∃ m, find? pos = some m ∧ m.start = pos ∧ m.stop = stop

/-- `k` matches take the text from `pos` to `size`, each of them from its offset to the next. -/
structure Tiles (find? : Nat → Option (Match α)) (pos size k : Nat) (offset : Nat → Nat) : Prop where
  first : offset 0 = pos
  last : offset k = size
  takes : ∀ i < k, TakesTo find? (offset i) (offset (i + 1))

/-- What is found lies between the offset it was looked for at and the end. -/
def FindsWithin (find? : Nat → Option (Match α)) (size : Nat) : Prop :=
  ∀ pos m, pos ≤ size → find? pos = some m → pos ≤ m.start ∧ m.start ≤ m.stop ∧ m.stop ≤ size

variable {find? : Nat → Option (Match α)} {pos stop size k : Nat} {offset : Nat → Nat}

theorem TakesTo.unique {stop' : Nat} (h : TakesTo find? pos stop) (h' : TakesTo find? pos stop') :
    stop = stop' := by
  obtain ⟨-, m, hm, -, rfl⟩ := h
  obtain ⟨-, m', hm', -, rfl⟩ := h'
  obtain rfl := Option.some.inj (hm.symm.trans hm')
  rfl

theorem TakesTo.stop_le (hfind : FindsWithin find? size) (hpos : pos ≤ size)
    (h : TakesTo find? pos stop) : stop ≤ size := by
  obtain ⟨-, m, hm, -, rfl⟩ := h
  exact (hfind pos m hpos hm).2.2

namespace Tiles

theorem cons (htake : TakesTo find? pos stop) (h : Tiles find? stop size k offset) :
    Tiles find? pos size (k + 1) fun i => Nat.casesOn i pos offset where
  first := rfl
  last := h.last
  takes i hi := by
    cases i with
    | zero =>
      change TakesTo find? pos (offset 0)
      rwa [h.first]
    | succ i => exact h.takes i (by omega)

theorem tail (h : Tiles find? pos size (k + 1) offset) :
    Tiles find? (offset 1) size k fun i => offset (i + 1) where
  first := rfl
  last := h.last
  takes i hi := h.takes (i + 1) (by omega)

theorem lt (h : Tiles find? pos size k offset) {i j : Nat} (hij : i < j) (hj : j ≤ k) :
    offset i < offset j := by
  induction j with
  | zero => omega
  | succ j ih =>
    have hstep := (h.takes j (by omega)).1
    by_cases heq : i = j
    · rwa [heq]
    · have hlt := ih (by omega) (by omega)
      omega

theorem le (h : Tiles find? pos size k offset) {i j : Nat} (hij : i ≤ j) (hj : j ≤ k) :
    offset i ≤ offset j := by
  rcases Nat.lt_or_eq_of_le hij with hlt | rfl
  · exact Nat.le_of_lt (h.lt hlt hj)
  · exact Nat.le_refl _

/-- There is at most one way to tile a text. -/
theorem unique {k' : Nat} {offset' : Nat → Nat} (h : Tiles find? pos size k offset)
    (h' : Tiles find? pos size k' offset') : k = k' ∧ ∀ i ≤ k, offset i = offset' i := by
  have hagree : ∀ i, i ≤ k → i ≤ k' → offset i = offset' i := by
    intro i hi hi'
    induction i with
    | zero => rw [h.first, h'.first]
    | succ i ih =>
      have hnext := h.takes i (by omega)
      rw [ih (by omega) (by omega)] at hnext
      exact hnext.unique (h'.takes i (by omega))
  -- the shorter tiling has come to the end, where the longer one goes on
  have hcount : k = k' := by
    have hlast := h.last
    have hlast' := h'.last
    rcases Nat.lt_trichotomy k k' with hlt | heq | hlt
    · have hend := hagree k (Nat.le_refl k) (Nat.le_of_lt hlt)
      have hmore := h'.lt hlt (Nat.le_refl k')
      omega
    · exact heq
    · have hend := hagree k' (Nat.le_of_lt hlt) (Nat.le_refl k')
      have hmore := h.lt hlt (Nat.le_refl k)
      omega
  exact ⟨hcount, fun i hi => hagree i hi (hcount ▸ hi)⟩

/-- Every offset that is reached from match to match is one of the tiling. -/
theorem of_reached (hfind : FindsWithin find? size) (h : Tiles find? pos size k offset) {q : Nat}
    (hq : Relation.ReflTransGen (TakesTo find?) pos q) : ∃ i ≤ k, offset i = q := by
  induction hq with
  | refl => exact ⟨0, Nat.zero_le k, h.first⟩
  | tail _ hnext ih =>
    obtain ⟨i, hi, rfl⟩ := ih
    have hlt : i < k := by
      by_contra hge
      obtain rfl : i = k := by omega
      have hend := hnext.stop_le hfind (Nat.le_of_eq h.last)
      have hstep := hnext.1
      have hlast := h.last
      omega
    exact ⟨i + 1, hlt, (h.takes i hlt).unique hnext⟩

end Tiles

theorem tileFrom_eq_nil_iff : tileFrom find? size pos = some [] ↔ size ≤ pos := by
  rw [tileFrom]
  by_cases hlt : pos < size
  · rw [if_pos hlt]
    have hle : ¬size ≤ pos := by omega
    simp only [hle, iff_false]
    split
    · split
      · simp
      · simp
    · simp
  · rw [if_neg hlt]
    simp only [true_iff]
    omega

theorem tileFrom_eq_cons_iff {item : α} {items : List α} :
    tileFrom find? size pos = some (item :: items) ↔
      pos < size ∧ ∃ m, find? pos = some m ∧ m.start = pos ∧ pos < m.stop ∧ m.captured = item ∧
        tileFrom find? size m.stop = some items := by
  rw [tileFrom]
  by_cases hlt : pos < size
  · rw [if_pos hlt]
    cases hm : find? pos with
    | none => simp
    | some m =>
      by_cases htakes : m.start = pos ∧ pos < m.stop
      · have hmore : (tileFrom find? size m.stop).map (m.captured :: ·) = some (item :: items) ↔
            m.captured = item ∧ tileFrom find? size m.stop = some items := by
          rw [Option.map_eq_some_iff]
          constructor
          · rintro ⟨rest, hrest, heq⟩
            obtain ⟨rfl, rfl⟩ := List.cons.inj heq
            exact ⟨rfl, hrest⟩
          · rintro ⟨rfl, hrest⟩
            exact ⟨items, hrest, rfl⟩
        simpa [hlt, htakes] using hmore
      · have hrefused : ¬(m.start = pos ∧ pos < m.stop ∧ m.captured = item ∧
            tileFrom find? size m.stop = some items) := fun h => htakes ⟨h.1, h.2.1⟩
        simp [htakes, hrefused]
  · rw [if_neg hlt]
    simp [hlt]

/-- A text is read as a sequence just if matches tile it, and the sequence is what they captured. -/
theorem tileFrom_eq_some_iff (hfind : FindsWithin find? size) (hpos : pos ≤ size) {items : List α} :
    tileFrom find? size pos = some items ↔
      ∃ offset, Tiles find? pos size items.length offset ∧
        ∀ i (hi : i < items.length), (find? (offset i)).map Match.captured = some items[i] := by
  induction items generalizing pos with
  | nil =>
    rw [tileFrom_eq_nil_iff]
    constructor
    · intro hle
      exact ⟨fun _ => pos, ⟨rfl, Nat.le_antisymm hpos hle, fun i hi => absurd hi (Nat.not_lt_zero i)⟩,
        fun i hi => absurd hi (Nat.not_lt_zero i)⟩
    · rintro ⟨offset, htiles, -⟩
      exact Nat.le_of_eq (htiles.last.symm.trans htiles.first)
  | cons item items ih =>
    rw [tileFrom_eq_cons_iff]
    constructor
    · rintro ⟨-, m, hm, hstart, hlt, rfl, hrest⟩
      obtain ⟨offset, htiles, hitems⟩ := (ih (hfind pos m hpos hm).2.2).1 hrest
      refine ⟨fun i => Nat.casesOn i pos offset, htiles.cons ⟨hlt, m, hm, hstart, rfl⟩, ?_⟩
      intro i hi
      cases i with
      | zero =>
        change (find? pos).map Match.captured = _
        rw [hm]
        rfl
      | succ i => exact hitems i (Nat.lt_of_succ_lt_succ hi)
    · rintro ⟨offset, htiles, hitems⟩
      obtain ⟨hlt, m, hm, hstart, hstop⟩ := htiles.takes 0 (Nat.zero_lt_succ _)
      have hitem := hitems 0 (Nat.zero_lt_succ _)
      rw [hm] at hitem
      rw [htiles.first] at hlt hm hstart
      have hend := (hfind pos m hpos hm).2.2
      have hrest := (ih hend).2 ⟨fun i => offset (i + 1), hstop ▸ htiles.tail,
        fun i hi => hitems (i + 1) (Nat.succ_lt_succ hi)⟩
      exact ⟨by omega, m, hm, hstart, by omega, Option.some.inj hitem, hrest⟩

/-- Counting offsets in another way, and capturing something else, changes what is captured only. -/
theorem tileFrom_rescaled {β : Type} {find?' : Nat → Option (Match β)} {scale : Nat → Nat} (f : α → β)
    (hscale : StrictMonoOn scale (Set.Iic size)) (hfind : FindsWithin find? size)
    (hsame : ∀ pos ≤ size, find?' (scale pos) =
      (find? pos).map fun m => ⟨scale m.start, scale m.stop, f m.captured⟩) (hpos : pos ≤ size) :
    tileFrom find?' (scale size) (scale pos) = (tileFrom find? size pos).map (List.map f) := by
  have hend : ∀ pos ≤ size, (scale pos < scale size ↔ pos < size) := fun pos hpos =>
    hscale.lt_iff_lt hpos (Nat.le_refl size)
  have htakes : ∀ pos m, pos ≤ size → find? pos = some m →
      (scale m.start = scale pos ∧ scale pos < scale m.stop ↔ m.start = pos ∧ pos < m.stop) := by
    intro pos m hpos hm
    obtain ⟨-, hordered, hwithin⟩ := hfind pos m hpos hm
    rw [hscale.eq_iff_eq (Nat.le_trans hordered hwithin) hpos, hscale.lt_iff_lt hpos hwithin]
  fun_induction tileFrom find? size pos with
  | case1 pos hlt m hm htaken ih =>
    rw [tileFrom, if_pos ((hend pos hpos).2 hlt), hsame pos hpos, hm]
    simp only [Option.map_some, if_pos ((htakes pos m hpos hm).2 htaken)]
    rw [ih (hfind pos m hpos hm).2.2, Option.map_map, Option.map_map]
    rfl
  | case2 pos hlt m hm hrefused =>
    rw [tileFrom, if_pos ((hend pos hpos).2 hlt), hsame pos hpos, hm]
    simp only [Option.map_some, if_neg fun h => hrefused ((htakes pos m hpos hm).1 h)]
    rfl
  | case3 pos hlt hm =>
    rw [tileFrom, if_pos ((hend pos hpos).2 hlt), hsame pos hpos, hm]
    rfl
  | case4 pos hge =>
    rw [tileFrom, if_neg fun hlt => hge ((hend pos hpos).1 hlt)]
    rfl

/-- Where a run of repeated matching stands: at an offset, with what it has collected, or at its end. -/
inductive Tiler (α : Type)
  | reading (pos : Nat) (found : List α)
  | done (result : Option (List α))

namespace Tiler

/-- One round: at the end of the text the run ends; before it a match is taken that starts here and is not
empty, and for lack of one the run ends with nothing. -/
def round (find? : Nat → Option (Match α)) (size : Nat) : Tiler α → Tiler α
  | reading pos found =>
    if pos < size then
      match find? pos with
      | some m =>
        if m.start ≠ pos ∨ m.stop = pos then done none else reading m.stop (found ++ [m.captured])
      | none => done none
    else done (some found)
  | done result => done result

theorem iterate_round_done (result : Option (List α)) (n : Nat) :
    (round find? size)^[n] (done result) = done result :=
  Function.iterate_fixed rfl n

/-- Each round that does not end the run comes closer to the end of the text. Only what is found at offsets
that the run can reach matters. -/
theorem iterate_round (reached : Nat → Prop)
    (hfind : ∀ pos m, reached pos → find? pos = some m → m.start = pos → pos ≤ m.stop ∧ reached m.stop)
    {n : Nat} (found : List α) (hpos : reached pos) (hn : size - pos < n) :
    (round find? size)^[n] (reading pos found) =
      done ((tileFrom find? size pos).map (found ++ ·)) := by
  induction n generalizing pos found with
  | zero => omega
  | succ n ih =>
    rw [Function.iterate_succ_apply, tileFrom, round]
    by_cases hlt : pos < size
    · rw [if_pos hlt, if_pos hlt]
      cases hm : find? pos with
      | none => exact iterate_round_done _ n
      | some m =>
        by_cases htakes : m.start = pos ∧ pos < m.stop
        · have hgoes : ¬(m.start ≠ pos ∨ m.stop = pos) := by omega
          simp only [if_pos htakes, if_neg hgoes]
          rw [ih (found ++ [m.captured]) (hfind pos m hpos hm htakes.1).2 (by omega), Option.map_map]
          congr 2
          funext rest
          simp
        · have hends : m.start ≠ pos ∨ m.stop = pos := by
            by_cases hstart : m.start = pos
            · have hle := (hfind pos m hpos hm hstart).1
              omega
            · exact .inl hstart
          simp only [if_neg htakes, if_pos hends]
          exact iterate_round_done _ n
    · rw [if_neg hlt, if_neg hlt, iterate_round_done]
      simp

/-- A run from the start ends with what a tiling gives. -/
theorem iterate_round_start (reached : Nat → Prop)
    (hfind : ∀ pos m, reached pos → find? pos = some m → m.start = pos → pos ≤ m.stop ∧ reached m.stop)
    (hstart : reached 0) : (round find? size)^[size + 1] (reading 0 []) = done (tileFrom find? size 0) := by
  rw [iterate_round reached hfind [] hstart (by omega)]
  simp

end Tiler

end

end LineGrammar
