import LineGrammar.Proofs.ByteOffsets
import LineGrammar.Proofs.RepeatedMatches

/-! Repetitions in a lexeme. A lexeme is read as repetitions of a pattern just if the matches of the pattern
tile its text. The parts that a repetition captures are written in the lexeme between the offsets of its
match, so the parts of later repetitions never start before those of earlier ones stop. A run that counts
bytes gives the same. -/

namespace LineGrammar

/-- The match with its offsets counted in bytes. -/
def Match.inBytes (text : List Char) (m : Match Groups) : Match Groups :=
  ⟨byteOffset text m.start, byteOffset text m.stop, m.captured.map fun group =>
    group.map fun e => ⟨byteOffset text e.start, byteOffset text e.stop⟩⟩

/-- The same finder for a text, with its offsets counted in bytes. -/
def Finder.SameInBytes (find? : Finder) (text : List Char) (byByte? : Nat → Option (Match Groups)) : Prop :=
  ∀ pos ≤ text.length, byByte? (byteOffset text pos) = (find? text pos).map (Match.inBytes text)

theorem Finder.sameInBytes_charsBefore (find? : Finder) (text : List Char) :
    find?.SameInBytes text fun byte => (find? text (charsBefore text byte)).map (Match.inBytes text) := by
  intro pos hpos
  dsimp only
  rw [charsBefore_byteOffset hpos]

namespace Lexeme

/-- The lexeme is written in the other one, between two offsets into its text. -/
structure StandsIn (part whole : Lexeme) (first last : Nat) : Prop where
  span : part.span = .onLine whole.line part.start part.stop
  start : whole.start + first ≤ part.start
  ordered : part.start ≤ part.stop
  stop : part.stop ≤ whole.start + last
  text : part.text.toList =
    (whole.text.toList.drop (part.start - whole.start)).take (part.stop - part.start)

variable {l : Lexeme}

theorem start_part {e : Extent} (hstart : e.start ≤ l.text.toList.length) :
    (l.part e).start = l.start + e.start := by
  change l.start + (l.text.toList.take e.start).length = _
  rw [List.length_take_of_le hstart]

theorem stop_part {e : Extent} (hordered : e.start ≤ e.stop) (hstop : e.stop ≤ l.text.toList.length) :
    (l.part e).stop = l.start + e.stop := by
  change l.start + (l.text.toList.take e.start).length +
    ((l.text.toList.drop e.start).take (e.stop - e.start)).length = _
  rw [List.length_take, List.length_take, List.length_drop]
  omega

theorem text_part (e : Extent) :
    (l.part e).text.toList = (l.text.toList.drop e.start).take (e.stop - e.start) :=
  String.toList_ofList

theorem standsIn_part {e : Extent} {first last : Nat} (hfirst : first ≤ e.start)
    (hordered : e.start ≤ e.stop) (hlast : e.stop ≤ last) (hlength : last ≤ l.text.toList.length) :
    (l.part e).StandsIn l first last := by
  have hstart := start_part (l := l) (e := e) (by omega)
  have hstop := stop_part (l := l) hordered (by omega)
  refine ⟨rfl, by omega, by omega, by omega, ?_⟩
  have hdrop : (l.part e).start - l.start = e.start := by omega
  have htake : (l.part e).stop - (l.part e).start = e.stop - e.start := by omega
  rw [text_part, hdrop, htake]

/-- The matches in the lexeme, with the parts of the lexeme that they capture. -/
def found (l : Lexeme) (find? : Finder) (pos : Nat) : Option (Match (List (Option Lexeme))) :=
  (find? l.text.toList pos).map fun m =>
    ⟨m.start, m.stop, m.captured.map fun group => group.map l.part⟩

variable {find? : Finder}

theorem findsWithin_of_keepsTo (h : find?.KeepsTo l.text.toList) :
    FindsWithin (find? l.text.toList) l.text.toList.length := fun pos m hpos hm =>
  have hm := h pos m hpos hm
  ⟨hm.after, hm.ordered, hm.within⟩

theorem findsWithin_found (h : find?.KeepsTo l.text.toList) :
    FindsWithin (l.found find?) l.text.toList.length := by
  intro pos m hpos hm
  obtain ⟨m', hm', rfl⟩ := Option.map_eq_some_iff.1 hm
  exact findsWithin_of_keepsTo h pos m' hpos hm'

theorem takesTo_found {pos stop : Nat} :
    TakesTo (l.found find?) pos stop ↔ TakesTo (find? l.text.toList) pos stop := by
  refine and_congr_right fun _ => ⟨?_, ?_⟩
  · rintro ⟨m, hm, hstart, hstop⟩
    obtain ⟨m', hm', rfl⟩ := Option.map_eq_some_iff.1 hm
    exact ⟨m', hm', hstart, hstop⟩
  · rintro ⟨m, hm, hstart, hstop⟩
    exact ⟨_, Option.map_eq_some_iff.2 ⟨m, hm, rfl⟩, hstart, hstop⟩

theorem tiles_found {pos size k : Nat} {offset : Nat → Nat} :
    Tiles (l.found find?) pos size k offset ↔ Tiles (find? l.text.toList) pos size k offset :=
  ⟨fun h => ⟨h.first, h.last, fun i hi => takesTo_found.1 (h.takes i hi)⟩,
    fun h => ⟨h.first, h.last, fun i hi => takesTo_found.2 (h.takes i hi)⟩⟩

theorem repetitions?_eq_tileFrom (h : find?.KeepsTo l.text.toList) :
    l.repetitions? find? = tileFrom (l.found find?) l.text.toList.length 0 :=
  (tileFrom_rescaled _ (strictMono_id.strictMonoOn _) (findsWithin_of_keepsTo h)
    (fun _ _ => rfl) (Nat.zero_le _)).symm

/-- The repetitions are those of a tiling of the text. -/
theorem repetitions?_eq_some_iff (h : find?.KeepsTo l.text.toList) {reps : List (List (Option Lexeme))} :
    l.repetitions? find? = some reps ↔
      ∃ offset, Tiles (find? l.text.toList) 0 l.text.toList.length reps.length offset ∧
        ∀ i (hi : i < reps.length), (l.found find? (offset i)).map Match.captured = some reps[i] := by
  rw [repetitions?_eq_tileFrom h, tileFrom_eq_some_iff (findsWithin_found h) (Nat.zero_le _)]
  simp only [tiles_found]

/-- Every tiling is read. -/
theorem exists_repetitions (h : find?.KeepsTo l.text.toList) {k : Nat} {offset : Nat → Nat}
    (htiles : Tiles (find? l.text.toList) 0 l.text.toList.length k offset) :
    ∃ reps, l.repetitions? find? = some reps ∧ reps.length = k := by
  have hfound : ∀ i : Fin k, ∃ groups, (l.found find? (offset i)).map Match.captured = some groups := by
    intro i
    obtain ⟨-, m, hm, -, -⟩ := takesTo_found.2 (htiles.takes i i.2)
    exact ⟨m.captured, by rw [hm]; rfl⟩
  choose groups hgroups using hfound
  refine ⟨List.ofFn groups, (repetitions?_eq_some_iff h).2 ⟨offset, ?_, ?_⟩, List.length_ofFn⟩
  · rwa [List.length_ofFn]
  · intro i hi
    rw [List.getElem_ofFn]
    exact hgroups ⟨i, by simpa using hi⟩

/-- What a repetition captures is written between its offset and the next. -/
theorem standsIn_of_tiles (h : find?.KeepsTo l.text.toList) {k : Nat} {offset : Nat → Nat}
    (htiles : Tiles (find? l.text.toList) 0 l.text.toList.length k offset) {i : Nat} (hi : i < k)
    {rep : List (Option Lexeme)} (hrep : (l.found find? (offset i)).map Match.captured = some rep)
    {part : Lexeme} (hpart : some part ∈ rep) : part.StandsIn l (offset i) (offset (i + 1)) := by
  obtain ⟨-, m, hm, hstart, hstop⟩ := htiles.takes i hi
  have hle : offset i ≤ l.text.toList.length := htiles.last ▸ htiles.le (Nat.le_of_lt hi) (Nat.le_refl k)
  have hlies := h (offset i) m hle hm
  rw [found, hm] at hrep
  obtain rfl := Option.some.inj hrep
  obtain ⟨group, hgroup, hmap⟩ := List.mem_map.1 hpart
  obtain ⟨e, rfl, rfl⟩ := Option.map_eq_some_iff.1 hmap
  obtain ⟨hfirst, hordered, hlast⟩ := hlies.groups e hgroup
  refine standsIn_part ?_ hordered ?_ ?_
  · rwa [← hstart]
  · rwa [← hstop]
  · exact htiles.last ▸ htiles.le hi (Nat.le_refl k)

theorem pairwise_of_tiles (h : find?.KeepsTo l.text.toList) {reps : List (List (Option Lexeme))}
    {offset : Nat → Nat} (htiles : Tiles (find? l.text.toList) 0 l.text.toList.length reps.length offset)
    (hreps : ∀ i (hi : i < reps.length), (l.found find? (offset i)).map Match.captured = some reps[i]) :
    reps.Pairwise fun earlier later =>
      ∀ p q, some p ∈ earlier → some q ∈ later → p.stop ≤ q.start := by
  rw [List.pairwise_iff_getElem]
  intro i j hi hj hij p q hp hq
  have hbefore := (standsIn_of_tiles h htiles hi (hreps i hi) hp).stop
  have hafter := (standsIn_of_tiles h htiles hj (hreps j hj) hq).start
  have hle : offset (i + 1) ≤ offset j := htiles.le hij (Nat.le_of_lt hj)
  omega

theorem repetitions?_eq_none_iff (h : find?.KeepsTo l.text.toList) :
    l.repetitions? find? = none ↔
      ∀ k offset, ¬Tiles (find? l.text.toList) 0 l.text.toList.length k offset := by
  constructor
  · intro hnone k offset htiles
    obtain ⟨reps, hreps, -⟩ := exists_repetitions h htiles
    rw [hnone] at hreps
    cases hreps
  · intro huntiled
    by_contra hsome
    obtain ⟨reps, hreps⟩ := Option.ne_none_iff_exists'.1 hsome
    obtain ⟨offset, htiles, -⟩ := (repetitions?_eq_some_iff h).1 hreps
    exact huntiled reps.length offset htiles

/-- There is no way around an offset that is reached and from which no match goes on. -/
theorem repetitions?_eq_none_of_stuck (h : find?.KeepsTo l.text.toList) {pos : Nat}
    (hreached : Relation.ReflTransGen (TakesTo (find? l.text.toList)) 0 pos)
    (hpos : pos < l.text.toList.length) (hstuck : ∀ stop, ¬TakesTo (find? l.text.toList) pos stop) :
    l.repetitions? find? = none := by
  refine (repetitions?_eq_none_iff h).2 fun k offset htiles => ?_
  obtain ⟨i, hi, rfl⟩ := htiles.of_reached (findsWithin_of_keepsTo h) hreached
  have hlast := htiles.last
  have hlt : i < k := by
    by_contra hge
    obtain rfl : i = k := by omega
    omega
  exact hstuck _ (htiles.takes i hlt)

-- the name ends in front of the comma, and no name starts there
example : (⟨"Alpha, Beta", .onLine 0 0 11⟩ : Lexeme).repetitions? Pattern.item.finder = none := by
  decide +kernel

/-- The part of the lexeme between two bytes of its text. -/
def partAtBytes (l : Lexeme) (e : Extent) : Lexeme :=
  l.part ⟨charsBefore l.text.toList e.start, charsBefore l.text.toList e.stop⟩

/-- The matches by bytes in the lexeme, with the parts of the lexeme that they capture. -/
def foundAtBytes (l : Lexeme) (byByte? : Nat → Option (Match Groups)) (byte : Nat) :
    Option (Match (List (Option Lexeme))) :=
  (byByte? byte).map fun m => ⟨m.start, m.stop, m.captured.map fun group => group.map l.partAtBytes⟩

theorem partAtBytes_byteOffset {e : Extent} (hstart : e.start ≤ l.text.toList.length)
    (hstop : e.stop ≤ l.text.toList.length) :
    l.partAtBytes ⟨byteOffset l.text.toList e.start, byteOffset l.text.toList e.stop⟩ = l.part e := by
  rw [partAtBytes, charsBefore_byteOffset hstart, charsBefore_byteOffset hstop]

theorem foundAtBytes_byteOffset (h : find?.KeepsTo l.text.toList)
    {byByte? : Nat → Option (Match Groups)} (hsame : find?.SameInBytes l.text.toList byByte?) {pos : Nat}
    (hpos : pos ≤ l.text.toList.length) :
    l.foundAtBytes byByte? (byteOffset l.text.toList pos) = (l.found find? pos).map fun m =>
      ⟨byteOffset l.text.toList m.start, byteOffset l.text.toList m.stop, m.captured⟩ := by
  rw [foundAtBytes, hsame pos hpos, found, Option.map_map, Option.map_map]
  refine Option.map_congr fun m hm => ?_
  have hlies := h pos m hpos hm
  simp only [Function.comp, Match.inBytes, List.map_map, Match.mk.injEq, true_and]
  refine List.map_congr_left fun group hgroup => ?_
  cases group with
  | none => rfl
  | some e =>
    obtain ⟨hfirst, hordered, hlast⟩ := hlies.groups e hgroup
    have hwithin := hlies.within
    exact congrArg some (partAtBytes_byteOffset (by omega) (by omega))

theorem tileFrom_foundAtBytes (h : find?.KeepsTo l.text.toList) {byByte? : Nat → Option (Match Groups)}
    (hsame : find?.SameInBytes l.text.toList byByte?) :
    tileFrom (l.foundAtBytes byByte?) l.text.utf8ByteSize 0 = l.repetitions? find? := by
  have hrescaled := tileFrom_rescaled id (strictMonoOn_byteOffset l.text.toList) (findsWithin_found h)
    (fun _ hpos => foundAtBytes_byteOffset h hsame hpos) (Nat.zero_le _)
  rw [byteOffset_length, byteOffset_zero, List.map_id_fun, Option.map_id] at hrescaled
  rw [hrescaled, repetitions?_eq_tileFrom h]
  rfl

theorem iterate_round_found (h : find?.KeepsTo l.text.toList) :
    (Tiler.round (l.found find?) l.text.toList.length)^[l.text.toList.length + 1] (.reading 0 []) =
      .done (l.repetitions? find?) := by
  rw [Tiler.iterate_round_start (· ≤ l.text.toList.length) _ (Nat.zero_le _),
    repetitions?_eq_tileFrom h]
  intro pos m hpos hm _
  obtain ⟨hafter, hordered, hwithin⟩ := findsWithin_found h pos m hpos hm
  exact ⟨Nat.le_trans hafter hordered, hwithin⟩

/-- A run that counts bytes only ever stands where a character starts, and ends with the same repetitions. -/
theorem iterate_round_foundAtBytes (h : find?.KeepsTo l.text.toList)
    {byByte? : Nat → Option (Match Groups)} (hsame : find?.SameInBytes l.text.toList byByte?) :
    (Tiler.round (l.foundAtBytes byByte?) l.text.utf8ByteSize)^[l.text.utf8ByteSize + 1] (.reading 0 []) =
      .done (l.repetitions? find?) := by
  have hmono := (strictMonoOn_byteOffset l.text.toList).monotoneOn
  rw [Tiler.iterate_round_start
    (fun byte => ∃ pos ≤ l.text.toList.length, byteOffset l.text.toList pos = byte) _
    ⟨0, Nat.zero_le _, byteOffset_zero _⟩, tileFrom_foundAtBytes h hsame]
  rintro _ m ⟨pos, hpos, rfl⟩ hm _
  rw [foundAtBytes_byteOffset h hsame hpos] at hm
  obtain ⟨m', hm', rfl⟩ := Option.map_eq_some_iff.1 hm
  obtain ⟨hafter, hordered, hwithin⟩ := findsWithin_found h pos m' hpos hm'
  exact ⟨hmono hpos hwithin (Nat.le_trans hafter hordered), m'.stop, hwithin, rfl⟩

/-- What repeated matching with a finder gives for a lexeme. -/
structure ReadsRepeatedly (l : Lexeme) (find? : Finder) : Prop where
  ends : (Tiler.round (l.found find?) l.text.toList.length)^[l.text.toList.length + 1] (.reading 0 []) =
    .done (l.repetitions? find?)
  /-- So does the run of a finder that counts bytes. -/
  endsAtBytes : ∀ byByte?, find?.SameInBytes l.text.toList byByte? →
    (Tiler.round (l.foundAtBytes byByte?) l.text.utf8ByteSize)^[l.text.utf8ByteSize + 1] (.reading 0 []) =
      .done (l.repetitions? find?)
  /-- There are repetitions just if matches tile the text, and as many. -/
  tiled : ∀ k, (∃ reps, l.repetitions? find? = some reps ∧ reps.length = k) ↔
    ∃ offset, Tiles (find? l.text.toList) 0 l.text.toList.length k offset
  /-- Each repetition is what the match at its offset captured, written before the next offset. -/
  parts : ∀ reps offset, l.repetitions? find? = some reps →
    Tiles (find? l.text.toList) 0 l.text.toList.length reps.length offset →
    ∀ i (hi : i < reps.length), (l.found find? (offset i)).map Match.captured = some reps[i] ∧
      ∀ part, some part ∈ reps[i] → part.StandsIn l (offset i) (offset (i + 1))
  ordered : ∀ reps, l.repetitions? find? = some reps → reps.Pairwise fun earlier later =>
    ∀ p q, some p ∈ earlier → some q ∈ later → p.stop ≤ q.start
  untiled : (∀ k offset, ¬Tiles (find? l.text.toList) 0 l.text.toList.length k offset) →
    l.repetitions? find? = none
  stuck : ∀ pos, Relation.ReflTransGen (TakesTo (find? l.text.toList)) 0 pos →
    pos < l.text.toList.length → (∀ stop, ¬TakesTo (find? l.text.toList) pos stop) →
    l.repetitions? find? = none
  emptyMatch : ∀ pos m, Relation.ReflTransGen (TakesTo (find? l.text.toList)) 0 pos →
    pos < l.text.toList.length → find? l.text.toList pos = some m → m.stop = m.start →
    l.repetitions? find? = none
  emptyText : l.text = "" → l.repetitions? find? = some []

/-- Repeated matching tiles the text of a lexeme. -/
theorem readsRepeatedly (l : Lexeme) (find? : Finder) (h : find?.KeepsTo l.text.toList) :
    l.ReadsRepeatedly find? where
  ends := iterate_round_found h
  endsAtBytes _ := iterate_round_foundAtBytes h
  tiled k := by
    constructor
    · rintro ⟨reps, hreps, rfl⟩
      obtain ⟨offset, htiles, -⟩ := (repetitions?_eq_some_iff h).1 hreps
      exact ⟨offset, htiles⟩
    · rintro ⟨offset, htiles⟩
      exact exists_repetitions h htiles
  parts reps offset hreps htiles i hi := by
    obtain ⟨offset', htiles', hcaptured⟩ := (repetitions?_eq_some_iff h).1 hreps
    have hcapturedAt := hcaptured i hi
    rw [← (htiles.unique htiles').2 i (Nat.le_of_lt hi)] at hcapturedAt
    exact ⟨hcapturedAt, fun part hpart => standsIn_of_tiles h htiles hi hcapturedAt hpart⟩
  ordered reps hreps := by
    obtain ⟨offset, htiles, hcaptured⟩ := (repetitions?_eq_some_iff h).1 hreps
    exact pairwise_of_tiles h htiles hcaptured
  untiled := (repetitions?_eq_none_iff h).2
  stuck pos := repetitions?_eq_none_of_stuck h
  emptyMatch pos m hreached hpos hm hempty := by
    refine repetitions?_eq_none_of_stuck h hreached hpos ?_
    rintro stop ⟨hlt, m', hm', hstart, hstop⟩
    obtain rfl := Option.some.inj (hm.symm.trans hm')
    omega
  emptyText hempty := by
    rw [repetitions?_eq_tileFrom h, tileFrom_eq_nil_iff, hempty]
    rfl

/-- Names that blanks keep apart are read, each with its columns; a comma between them is a gap. -/
theorem readsRepeatedly_names : (⟨"Alpha  Beta", .onLine 0 10 21⟩ : Lexeme).ReadsRepeatedly Pattern.item.finder ∧
    (⟨"Alpha  Beta", .onLine 0 10 21⟩ : Lexeme).repetitions? Pattern.item.finder =
      some [[some ⟨"Alpha", .onLine 0 10 15⟩], [some ⟨"Beta", .onLine 0 17 21⟩]] ∧
    (⟨"Alpha, Beta", .onLine 0 10 21⟩ : Lexeme).repetitions? Pattern.item.finder = none :=
  ⟨readsRepeatedly _ _ (Pattern.keepsTo_finder Pattern.fronts_item _), by decide +kernel, by decide +kernel⟩

end Lexeme

end LineGrammar
