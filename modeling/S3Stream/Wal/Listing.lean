import S3Stream.Wal.Keys

/-! # What a parsed listing says

`parse_wal_objects` (`s3stream-wal/src/object/keys.rs`) reads a listing that may hold foreign
objects. The results are sorted and a key of the key scheme is read back exactly. The parser looks
at the last and the third last segment of a key and at nothing else, and it computes the end of a
v0 object without a check. `Tidy` says which objects it reads as the key scheme means them. -/

namespace S3Stream

open List

/-- A decimal numeral of `u64`. -/
def IsNumeral (s : List Char) : Prop :=
  s ≠ [] ∧ s.all Char.isDigit ∧ Nat.ofDigitChars 10 s 0 < 2 ^ 64

/-- The offset part of a key of the key scheme, `start` or `start-end`. -/
def IsOffsets (raw : List Char) : Prop :=
  IsNumeral raw ∨ ∃ start stop, raw = start ++ '-' :: stop ∧ IsNumeral start ∧ IsNumeral stop

/-- The keys of the key scheme, `prefix/epoch/wal/start` and `prefix/epoch/wal/start-end`. -/
def IsWalKey (key : Key) : Prop :=
  ∃ root epoch raw, (root = [] ∨ ∃ dir, root = dir ++ ['/']) ∧
    key = root ++ (epoch ++ ('/' :: ("wal".toList ++ ('/' :: raw)))) ∧
    IsNumeral epoch ∧ IsOffsets raw

/-- The parser reads the three segments from the end of a key as an epoch, something, and
offsets. -/
structure Reads (info : ObjectInfo) (rawEpoch middle rawOffset : List Char) : Prop where
  segments : ∃ rest, info.key.splitOn '/' = rest ++ [rawEpoch, middle, rawOffset]
  epoch : (parseU64 rawEpoch).isSome
  offsets : (parseOffsets rawOffset info.size).isSome

/-- Neither operation of `calculate_end_offset_v0` leaves the range of `u64`. -/
def EndOffsetV0Exact (startOffset objectSize : Nat) : Prop :=
  startOffset + objectSize < 2 ^ 64 ∧ walHeaderSizeV0 ≤ startOffset + objectSize

/-- What a listing parser owes its callers. -/
structure ListingSound (listed : List ObjectInfo) : Prop where
  /-- No end offset of a v0 object is computed out of range. -/
  exact : ∀ info ∈ listed, ∀ rawEpoch middle rawOffset, Reads info rawEpoch middle rawOffset →
    ∀ start, splitOnce '-' rawOffset = none → parseU64 rawOffset = some start →
      EndOffsetV0Exact start info.size
  sorted : (parseWalObjects listed).Pairwise WalObject.Le
  window : ∀ o ∈ parseWalObjects listed, o.startOffset ≤ o.endOffset
  /-- Foreign keys are skipped. -/
  foreign : ∀ o ∈ parseWalObjects listed, IsWalKey o.key
  /-- A generated key is read back. -/
  generated : ∀ dir epoch start stop size, epoch < 2 ^ 64 → start ≤ stop → stop < 2 ^ 64 →
    ⟨genObjectPathV1 (dir ++ ['/']) epoch start stop, size⟩ ∈ listed →
      ⟨genObjectPathV1 (dir ++ ['/']) epoch start stop, epoch, start, stop, size⟩ ∈
        parseWalObjects listed

/-- The window of an object, by its offset part and size: a v1 key names both ends in order, a v0
object has room for its header and ends below `2^64`. -/
def IsWindow (rawOffset : List Char) (size : Nat) : Prop :=
  match splitOnce '-' rawOffset with
  | some (start, stop) => ∀ a ∈ parseU64 start, ∀ b ∈ parseU64 stop, a ≤ b
  | none => ∀ a ∈ parseU64 rawOffset, walHeaderSizeV0 ≤ size ∧ a + size < 2 ^ 64

/-- Where numbers stand for an epoch and offsets, the segment between them is `wal`, the numbers
carry no sign and the window is one. -/
def Tidy (info : ObjectInfo) : Prop :=
  ∀ rawEpoch middle rawOffset, Reads info rawEpoch middle rawOffset →
    middle = "wal".toList ∧ '+' ∉ rawEpoch ∧ '+' ∉ rawOffset ∧ IsWindow rawOffset info.size

/-! ## Numerals -/

theorem IsNumeral.not_mem (h : IsNumeral s) (hc : c.isDigit = false) : c ∉ s := by
  intro hmem
  have hdigit := all_eq_true.mp h.2.1 c hmem
  rw [hc] at hdigit
  cases hdigit

theorem isNumeral_of_parseU64 (h : (parseU64 s).isSome) (hsign : '+' ∉ s) : IsNumeral s := by
  simp only [parseU64] at h
  split at h
  next => exact absurd mem_cons_self hsign
  next =>
    split at h
    next hread => exact hread
    next => cases h

theorem splitOnce_eq_some (h : splitOnce c s = some (xs, ys)) : s = xs ++ c :: ys ∧ c ∉ xs := by
  induction s generalizing xs with
  | nil => cases h
  | cons d ds ih =>
    rw [splitOnce] at h
    split at h
    next heq =>
      cases h
      exact ⟨by rw [heq]; rfl, not_mem_nil⟩
    next hne =>
      obtain ⟨⟨xs', ys'⟩, hrec, heq⟩ := Option.map_eq_some_iff.mp h
      cases heq
      obtain ⟨rfl, hxs⟩ := ih hrec
      refine ⟨rfl, fun hmem => ?_⟩
      rcases mem_cons.mp hmem with rfl | hmem
      · exact hne rfl
      · exact hxs hmem

theorem isOffsets_of_parseOffsets (h : (parseOffsets raw size).isSome) (hsign : '+' ∉ raw) :
    IsOffsets raw := by
  unfold parseOffsets at h
  split at h
  next start stop hsplit =>
    obtain ⟨rfl, -⟩ := splitOnce_eq_some hsplit
    simp only [Option.bind_eq_bind, Option.isSome_bind, Option.any_eq_true] at h
    obtain ⟨a, ha, b, hb, -⟩ := h
    refine .inr ⟨start, stop, rfl, ?_, ?_⟩
    · exact isNumeral_of_parseU64 (by simp [ha]) fun hm => hsign (mem_append_left _ hm)
    · exact isNumeral_of_parseU64 (by simp [hb]) fun hm =>
        hsign (mem_append_right _ (mem_cons_of_mem _ hm))
  next =>
    simp only [Option.bind_eq_bind, Option.isSome_bind, Option.any_eq_true] at h
    obtain ⟨a, ha, -⟩ := h
    exact .inl (isNumeral_of_parseU64 (by simp [ha]) hsign)

theorem IsOffsets.not_mem (h : IsOffsets raw) (hc : c.isDigit = false) (hne : c ≠ '-') :
    c ∉ raw := by
  rcases h with h | ⟨start, stop, rfl, hstart, hstop⟩
  · exact h.not_mem hc
  · simp [hstart.not_mem hc, hstop.not_mem hc, hne]

/-! ## Segments of a key -/

private theorem intercalate_slash (rest : List (List Char)) (a b c : List Char) :
    ∃ root, (root = [] ∨ ∃ dir, root = dir ++ ['/']) ∧
      intercalate ['/'] (rest ++ [a, b, c]) = root ++ (a ++ ('/' :: (b ++ ('/' :: c)))) := by
  induction rest with
  | nil => exact ⟨[], .inl rfl, by simp [intercalate]⟩
  | cons r rest ih =>
    obtain ⟨root, hroot, heq⟩ := ih
    refine ⟨r ++ '/' :: root, .inr ?_, ?_⟩
    · rcases hroot with rfl | ⟨dir, rfl⟩
      · exact ⟨r, rfl⟩
      · exact ⟨r ++ '/' :: dir, by simp⟩
    · rw [cons_append, intercalate_cons_of_ne_nil (by simp), heq]
      simp

/-- A key with at least three segments is a root and its last three segments. -/
theorem key_eq_of_splitOn (h : key.splitOn '/' = rest ++ [a, b, c]) :
    ∃ root, (root = [] ∨ ∃ dir, root = dir ++ ['/']) ∧
      key = root ++ (a ++ ('/' :: (b ++ ('/' :: c)))) := by
  obtain ⟨root, hroot, heq⟩ := intercalate_slash rest a b c
  refine ⟨root, hroot, ?_⟩
  rw [← heq, ← h, intercalate_splitOn]

theorem splitOn_of_isWalKey (h : IsWalKey key) :
    ∃ rest epoch raw, key.splitOn '/' = rest ++ [epoch, "wal".toList, raw] ∧
      IsNumeral epoch ∧ IsOffsets raw := by
  obtain ⟨root, epoch, raw, hroot, rfl, hepoch, hraw⟩ := h
  have htail : (epoch ++ ('/' :: ("wal".toList ++ ('/' :: raw)))).splitOn '/' =
      [epoch, "wal".toList, raw] := by
    rw [splitOn_slash_append, splitOn_slash_append,
      splitOn_slash_of_not_mem (hepoch.not_mem (by decide)),
      splitOn_slash_of_not_mem (by decide : '/' ∉ "wal".toList),
      splitOn_slash_of_not_mem (hraw.not_mem (by decide) (by decide))]
    rfl
  rcases hroot with rfl | ⟨dir, rfl⟩
  · exact ⟨[], epoch, raw, htail, hepoch, hraw⟩
  · refine ⟨dir.splitOn '/', epoch, raw, ?_, hepoch, hraw⟩
    rw [append_assoc, singleton_append, splitOn_slash_append, htail]

/-! ## The parser -/

theorem parseWalObject_eq_some_iff :
    parseWalObject info = some o ↔ ∃ rawEpoch middle rawOffset rest,
      info.key.splitOn '/' = rest ++ [rawEpoch, middle, rawOffset] ∧
      parseU64 rawEpoch = some o.epoch ∧
      parseOffsets rawOffset info.size = some (o.startOffset, o.endOffset) ∧
      o.key = info.key ∧ o.size = info.size := by
  constructor
  · intro h
    unfold parseWalObject at h
    split at h
    next rawOffset middle rawEpoch rest hsplit =>
      simp only [Option.bind_eq_bind, Option.bind_eq_some_iff] at h
      obtain ⟨epoch, hepoch, ⟨start, stop⟩, hoffsets, h⟩ := h
      cases h
      refine ⟨rawEpoch, middle, rawOffset, rest.reverse, ?_, hepoch, hoffsets, rfl, rfl⟩
      rw [reverse_eq_iff.mp hsplit]
      simp
    next => cases h
  · rintro ⟨rawEpoch, middle, rawOffset, rest, hsplit, hepoch, hoffsets, hkey, hsize⟩
    obtain ⟨key, epoch, start, stop, size⟩ := o
    obtain rfl : key = info.key := hkey
    obtain rfl : size = info.size := hsize
    simp [parseWalObject, hsplit, hepoch, hoffsets]

theorem mem_parseWalObjects :
    o ∈ parseWalObjects listed ↔ ∃ info ∈ listed, parseWalObject info = some o := by
  rw [parseWalObjects, mem_insertionSort, mem_filterMap]

/-- An object of the result, with the segments it was read from. -/
theorem exists_reads_of_mem (h : o ∈ parseWalObjects listed) :
    ∃ info ∈ listed, ∃ rawEpoch middle rawOffset,
      Reads info rawEpoch middle rawOffset ∧ o.key = info.key ∧
      parseOffsets rawOffset info.size = some (o.startOffset, o.endOffset) := by
  obtain ⟨info, hinfo, hparse⟩ := mem_parseWalObjects.mp h
  obtain ⟨rawEpoch, middle, rawOffset, rest, hsplit, hepoch, hoffsets, hkey, -⟩ :=
    parseWalObject_eq_some_iff.mp hparse
  exact ⟨info, hinfo, rawEpoch, middle, rawOffset, ⟨⟨rest, hsplit⟩, by simp [hepoch],
    by simp [hoffsets]⟩, hkey, hoffsets⟩

theorem Reads.exists_mem (h : Reads info rawEpoch middle rawOffset) (hinfo : info ∈ listed) :
    ∃ o ∈ parseWalObjects listed, o.key = info.key ∧
      parseOffsets rawOffset info.size = some (o.startOffset, o.endOffset) := by
  obtain ⟨⟨rest, hsplit⟩, hepoch, hoffsets⟩ := h
  obtain ⟨epoch, hepoch⟩ := Option.isSome_iff_exists.mp hepoch
  obtain ⟨⟨start, stop⟩, hoffsets⟩ := Option.isSome_iff_exists.mp hoffsets
  refine ⟨⟨info.key, epoch, start, stop, info.size⟩, ?_, rfl, hoffsets⟩
  exact mem_parseWalObjects.mpr ⟨info, hinfo, parseWalObject_eq_some_iff.mpr
    ⟨rawEpoch, middle, rawOffset, rest, hsplit, hepoch, hoffsets, rfl, rfl⟩⟩

theorem parseWalObjects_pairwise (listed : List ObjectInfo) :
    (parseWalObjects listed).Pairwise WalObject.Le :=
  pairwise_insertionSort ..

theorem calculateEndOffsetV0_eq (h : EndOffsetV0Exact start size) :
    calculateEndOffsetV0 start size = start + size - walHeaderSizeV0 := by
  obtain ⟨hlt, hle⟩ := h
  simp only [calculateEndOffsetV0, walHeaderSizeV0] at *
  omega

/-- The offsets are those of a window exactly when the computation stays in range and the ends are
in order. -/
theorem isWindow_iff (h : parseOffsets raw size = some (start, stop)) : IsWindow raw size ↔
      (∀ a, splitOnce '-' raw = none → parseU64 raw = some a → EndOffsetV0Exact a size) ∧
        start ≤ stop := by
  unfold parseOffsets at h
  unfold IsWindow
  split at h
  next hsplit =>
    simp only [Option.bind_eq_bind, Option.bind_eq_some_iff] at h
    obtain ⟨a, ha, b, hb, h⟩ := h
    cases h
    simp [hsplit, ha, hb]
  next hsplit =>
    simp only [Option.bind_eq_bind, Option.bind_eq_some_iff] at h
    obtain ⟨a, ha, h⟩ := h
    cases h
    simp only [hsplit, ha, Option.mem_some_iff, forall_eq', forall_const, Option.some.injEq]
    constructor
    · rintro ⟨hroom, hlt⟩
      have hexact : EndOffsetV0Exact start size := ⟨hlt, by omega⟩
      rw [calculateEndOffsetV0_eq hexact]
      exact ⟨hexact, by omega⟩
    · rintro ⟨hexact, hle⟩
      rw [calculateEndOffsetV0_eq hexact] at hle
      obtain ⟨hlt, hroom⟩ := hexact
      exact ⟨by omega, hlt⟩

/-- The listing is parsed as the key scheme says exactly when it is tidy. -/
theorem listingSound_iff (listed : List ObjectInfo) :
    ListingSound listed ↔ ∀ info ∈ listed, Tidy info := by
  constructor
  · intro h info hinfo rawEpoch middle rawOffset hreads
    obtain ⟨o, ho, hkey, hoffsets⟩ := hreads.exists_mem hinfo
    obtain ⟨rest, epoch, raw, hsplit, hepoch, hraw⟩ := splitOn_of_isWalKey (h.foreign o ho)
    obtain ⟨rest', hsplit'⟩ := hreads.segments
    rw [hkey, hsplit'] at hsplit
    obtain ⟨-, hsegments⟩ := append_inj' hsplit rfl
    obtain ⟨rfl, rfl, rfl⟩ : rawEpoch = epoch ∧ middle = "wal".toList ∧ rawOffset = raw := by
      simpa using hsegments
    refine ⟨rfl, hepoch.not_mem (by decide), hraw.not_mem (by decide) (by decide), ?_⟩
    exact (isWindow_iff hoffsets).mpr
      ⟨h.exact info hinfo rawEpoch _ rawOffset hreads, h.window o ho⟩
  · intro h
    refine ⟨?_, parseWalObjects_pairwise listed, ?_, ?_, ?_⟩
    · intro info hinfo rawEpoch middle rawOffset hreads
      obtain ⟨o, -, -, hoffsets⟩ := hreads.exists_mem hinfo
      obtain ⟨-, -, -, hwindow⟩ := h info hinfo _ _ _ hreads
      exact ((isWindow_iff hoffsets).mp hwindow).1
    · intro o ho
      obtain ⟨info, hinfo, _, _, _, hreads, -, hoffsets⟩ := exists_reads_of_mem ho
      obtain ⟨-, -, -, hwindow⟩ := h info hinfo _ _ _ hreads
      exact ((isWindow_iff hoffsets).mp hwindow).2
    · intro o ho
      obtain ⟨info, hinfo, rawEpoch, _, rawOffset, hreads, hkey, -⟩ := exists_reads_of_mem ho
      obtain ⟨rfl, hepoch, hoffset, -⟩ := h info hinfo _ _ _ hreads
      obtain ⟨rest, hsplit⟩ := hreads.segments
      obtain ⟨root, hroot, heq⟩ := key_eq_of_splitOn hsplit
      exact ⟨root, rawEpoch, rawOffset, hroot, hkey.trans heq,
        isNumeral_of_parseU64 hreads.epoch hepoch, isOffsets_of_parseOffsets hreads.offsets hoffset⟩
    · intro dir epoch start stop size hepoch hle hstop hmem
      exact mem_parseWalObjects.mpr
        ⟨_, hmem, parseWalObject_gen dir hepoch (by omega) hstop size⟩

/-- A truncated v0 object of ten bytes gets an end offset just below `2^64`; an object under
`index/` is taken for a WAL object; a v1 key may end before it starts. -/
theorem listing_not_sound :
    (parseWalObjects [⟨"n/1/wal/0".toList, 10⟩] = [⟨"n/1/wal/0".toList, 1, 0, 2 ^ 64 - 30, 10⟩] ∧
      ¬ ListingSound [⟨"n/1/wal/0".toList, 10⟩]) ∧
    (parseWalObjects [⟨"n/1/index/7".toList, 100⟩] = [⟨"n/1/index/7".toList, 1, 7, 67, 100⟩] ∧
      ¬ ListingSound [⟨"n/1/index/7".toList, 100⟩]) ∧
    (parseWalObjects [⟨"n/1/wal/9-3".toList, 60⟩] = [⟨"n/1/wal/9-3".toList, 1, 9, 3, 60⟩] ∧
      ¬ ListingSound [⟨"n/1/wal/9-3".toList, 60⟩]) := by
  refine ⟨⟨by decide +kernel, fun h => ?_⟩, ⟨by decide +kernel, fun h => ?_⟩,
    ⟨by decide +kernel, fun h => ?_⟩⟩
  · have hreads : Reads ⟨"n/1/wal/0".toList, 10⟩ ['1'] "wal".toList ['0'] :=
      ⟨⟨[['n']], by decide +kernel⟩, by decide +kernel, by decide +kernel⟩
    have hexact := h.exact _ (mem_singleton.mpr rfl) _ _ _ hreads 0 (by decide) (by decide)
    exact absurd hexact.2 (by decide)
  · obtain ⟨rest, epoch, raw, hsplit, -⟩ := splitOn_of_isWalKey
      (h.foreign ⟨"n/1/index/7".toList, 1, 7, 67, 100⟩ (by decide +kernel))
    have hsegments : "n/1/index/7".toList.splitOn '/' = [['n']] ++ [['1'], "index".toList, ['7']] :=
      by decide +kernel
    rw [hsegments] at hsplit
    obtain ⟨-, htail⟩ := append_inj' hsplit rfl
    simp at htail
  · have hwindow := h.window ⟨"n/1/wal/9-3".toList, 1, 9, 3, 60⟩ (by decide +kernel)
    exact absurd hwindow (by decide)

end S3Stream
