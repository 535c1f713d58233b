import S3Stream.Wal.Header
import S3Stream.Wal.Reservation

/-! # WAL object keys

The key scheme of WAL objects, the parsing of a listing and the removal of overlapping objects
(`s3stream-wal/src/object/keys.rs`). -/

namespace S3Stream

open List

/-- WAL data files align to 64 MiB boundaries. -/
def dataFileAlignSize : Nat := 64 * 1024 * 1024

/-- Stream id and epoch of the record that `trim` appends to persist its offset. -/
def trimRecordSentinel : Nat := 2 ^ 64 - 1

def floorAlignOffset (offset : Nat) : Nat := offset / dataFileAlignSize * dataFileAlignSize

def ceilAlignOffset (offset : Nat) : Nat :=
  (offset + dataFileAlignSize - 1) / dataFileAlignSize * dataFileAlignSize

theorem le_ceilAlignOffset (offset : Nat) : offset ≤ ceilAlignOffset offset := by
  simp only [ceilAlignOffset, dataFileAlignSize]; omega

theorem ceilAlignOffset_lt (offset : Nat) :
    ceilAlignOffset offset < offset + dataFileAlignSize := by
  simp only [ceilAlignOffset, dataFileAlignSize]; omega

theorem dvd_ceilAlignOffset (offset : Nat) : dataFileAlignSize ∣ ceilAlignOffset offset :=
  ⟨_, mul_comm ..⟩

theorem ceilAlignOffset_add (hbase : dataFileAlignSize ∣ base) (hpos : 0 < size)
    (hle : size ≤ dataFileAlignSize) :
    ceilAlignOffset (base + size) = base + dataFileAlignSize := by
  simp only [ceilAlignOffset, dataFileAlignSize] at *
  omega

/-- The aligned block of an offset. -/
theorem floorAlignOffset_eq (hbase : dataFileAlignSize ∣ base) (hle : base ≤ offset)
    (hlt : offset < base + dataFileAlignSize) : floorAlignOffset offset = base := by
  simp only [floorAlignOffset, dataFileAlignSize] at *
  omega

/-- One WAL object parsed from a listing. -/
structure WalObject where
  key : Key
  epoch : Nat
  startOffset : Nat
  endOffset : Nat
  size : Nat
  deriving DecidableEq, Repr

/-! ## Building keys -/

/-- The key root of one node's WAL objects. `md5Hex` is the upper-case hex MD5 of the node id,
which only spreads keys over the bucket. -/
def nodePrefix (md5Hex clusterId : List Char) (nodeId : Nat) (walType : List Char) : Key :=
  md5Hex ++ ('/' :: (defaultNamespace ++ (clusterId ++ ('/' :: (decimal nodeId ++
    ((if walType.all Char.isWhitespace then [] else '_' :: walType) ++ ['/']))))))

/-- `{nodePrefix}{epoch}/wal/{startOffset}-{endOffset}`. -/
def genObjectPathV1 (root : Key) (epoch startOffset endOffset : Nat) : Key :=
  root ++ (decimal epoch ++ ('/' :: 'w' :: 'a' :: 'l' :: '/' ::
    (decimal startOffset ++ ('-' :: decimal endOffset))))

/-- The key of the object whose window is the aligned block at `startOffset`. -/
def genObjectPathV1Aligned (root : Key) (epoch startOffset : Nat) : Key :=
  genObjectPathV1 root epoch startOffset (startOffset + dataFileAlignSize)

/-! ## Parsing a listing -/

/-- `str::parse::<u64>`: an optional plus sign, then decimal digits, without overflow. -/
def parseU64 (s : List Char) : Option Nat :=
  let digits := match s with
    | '+' :: ds => ds
    | _ => s
  if digits ≠ [] ∧ digits.all Char.isDigit ∧ Nat.ofDigitChars 10 digits 0 < 2 ^ 64 then
    some (Nat.ofDigitChars 10 digits 0)
  else none

/-- `str::split_once`: the parts before and after the first `c`. -/
def splitOnce (c : Char) : List Char → Option (List Char × List Char)
  | [] => none
  | d :: ds => if d = c then some ([], ds) else (splitOnce c ds).map fun p => (d :: p.1, p.2)

/-- `start_offset + object_size - WAL_HEADER_SIZE_V0` in `u64`: nothing is checked, so that a sum
out of range wraps around. -/
def calculateEndOffsetV0 (startOffset objectSize : Nat) : Nat :=
  (startOffset + objectSize + (2 ^ 64 - walHeaderSizeV0)) % 2 ^ 64

/-- The offset part of a key, `{start}-{end}` or in v0 `{start}`. -/
def parseOffsets (raw : List Char) (size : Nat) : Option (Nat × Nat) :=
  match splitOnce '-' raw with
  | some (start, stop) => do return (← parseU64 start, ← parseU64 stop)
  | none => do
    let startOffset ← parseU64 raw
    return (startOffset, calculateEndOffsetV0 startOffset size)

def parseWalObject (object : ObjectInfo) : Option WalObject :=
  -- Fewer than three segments, an unreadable epoch or offset: the key is skipped.
  match (object.key.splitOn '/').reverse with
  | rawOffset :: _ :: rawEpoch :: _ => do
    let epoch ← parseU64 rawEpoch
    let (startOffset, endOffset) ← parseOffsets rawOffset object.size
    return ⟨object.key, epoch, startOffset, endOffset, object.size⟩
  | _ => none

/-- The order of a parsed listing: by epoch, then by start offset. -/
def WalObject.Le (a b : WalObject) : Prop :=
  a.epoch < b.epoch ∨ a.epoch = b.epoch ∧ a.startOffset ≤ b.startOffset

instance : DecidableRel WalObject.Le := fun a b => by unfold WalObject.Le; infer_instance

instance : Std.Total WalObject.Le := ⟨fun a b => by unfold WalObject.Le; omega⟩

instance : IsTrans WalObject WalObject.Le := ⟨fun a b c => by unfold WalObject.Le; omega⟩

def parseWalObjects (objects : List ObjectInfo) : List WalObject :=
  (objects.filterMap parseWalObject).insertionSort WalObject.Le

/-! ## What the parser reads off a generated key -/

theorem parseU64_decimal (h : n < 2 ^ 64) : parseU64 (decimal n) = some n := by
  have hread : Nat.ofDigitChars 10 (decimal n) 0 = n := Nat.ofDigitChars_ten_toDigits
  have hdigits : (decimal n).all Char.isDigit = true :=
    all_eq_true.mpr fun c hc => isDigit_of_mem_decimal hc
  have hsign : (match decimal n with | '+' :: ds => ds | _ => decimal n) = decimal n := by
    split
    next heq =>
      have : '+'.isDigit := isDigit_of_mem_decimal (n := n) (by simp [heq])
      exact absurd this (by decide)
    next => rfl
  simp only [parseU64, hsign, hread, hdigits, h, decimal_ne_nil, ne_eq, not_false_eq_true,
    and_self, if_true]

theorem splitOnce_append (ys : List Char) (h : c ∉ xs) :
    splitOnce c (xs ++ c :: ys) = some (xs, ys) := by
  induction xs with
  | nil => simp [splitOnce]
  | cons x xs ih =>
    have hx : x ≠ c := fun hx => h (by simp [hx])
    have hxs : c ∉ xs := fun hxs => h (mem_cons_of_mem x hxs)
    simp [splitOnce, hx, ih hxs]

private theorem not_mem_decimal (hc : c.isDigit = false) (n : Nat) : c ∉ decimal n :=
  fun h => Bool.false_ne_true (hc.symm.trans (isDigit_of_mem_decimal h))

theorem parseOffsets_gen (hs : start < 2 ^ 64) (ht : stop < 2 ^ 64) (size : Nat) :
    parseOffsets (decimal start ++ ('-' :: decimal stop)) size = some (start, stop) := by
  rw [parseOffsets, splitOnce_append _ (not_mem_decimal (by decide) start)]
  simp [parseU64_decimal hs, parseU64_decimal ht]

theorem splitOn_slash_of_not_mem {s : List Char} (h : '/' ∉ s) : s.splitOn '/' = [s] := by
  have hjoin := @splitOn_intercalate _ [s] _ _ '/' (by simpa using h) (by simp)
  simpa [intercalate] using hjoin

theorem splitOn_slash_append (xs ys : List Char) :
    (xs ++ '/' :: ys).splitOn '/' = xs.splitOn '/' ++ ys.splitOn '/' :=
  splitOnP_append_cons xs ys (by simp)

/-- **Round trip**: a key built for `(epoch, start, end)` under a root that ends in `/` is read
back as exactly that. -/
theorem parseWalObject_gen (dir : Key) (he : epoch < 2 ^ 64) (hs : start < 2 ^ 64)
    (ht : stop < 2 ^ 64) (size : Nat) :
    parseWalObject ⟨genObjectPathV1 (dir ++ ['/']) epoch start stop, size⟩ =
      some ⟨genObjectPathV1 (dir ++ ['/']) epoch start stop, epoch, start, stop, size⟩ := by
  have hraw : '/' ∉ decimal start ++ ('-' :: decimal stop) := by
    simp [not_mem_decimal (c := '/') (by decide)]
  have hsplit : (genObjectPathV1 (dir ++ ['/']) epoch start stop).splitOn '/' =
      dir.splitOn '/' ++ ([decimal epoch] ++ (["wal".toList] ++
        [decimal start ++ ('-' :: decimal stop)])) := by
    rw [genObjectPathV1, append_assoc, singleton_append, splitOn_slash_append,
      splitOn_slash_append, splitOn_slash_of_not_mem (not_mem_decimal (by decide) epoch),
      show 'w' :: 'a' :: 'l' :: '/' :: (decimal start ++ ('-' :: decimal stop)) =
        "wal".toList ++ '/' :: (decimal start ++ ('-' :: decimal stop)) from rfl,
      splitOn_slash_append, splitOn_slash_of_not_mem hraw,
      splitOn_slash_of_not_mem (by decide : '/' ∉ "wal".toList)]
  simp only [parseWalObject, hsplit, reverse_append, cons_append]
  simp [parseU64_decimal he, parseOffsets_gen hs ht]

/-! ## Removing overlaps -/

/-- The objects that `skip_overlap_objects` reports. `last_object` is set at the first object and
never advanced, so only the first object is ever compared and reported. -/
def overlapObjects : List WalObject → List WalObject
  | [] => []
  | last :: objects => (objects.filter fun object =>
      last.epoch ≠ object.epoch ∧ object.startOffset < last.endOffset).map fun _ => last

theorem overlapObjects_subset (objects : List WalObject) : overlapObjects objects ⊆ objects := by
  intro o ho
  cases objects with
  | nil => cases ho
  | cons =>
    obtain ⟨x, -, rfl⟩ := mem_map.mp ho
    exact mem_cons_self

/-- The objects that remain; each reported object is removed once. -/
def skipOverlapObjects (objects : List WalObject) : List WalObject :=
  (overlapObjects objects).foldl List.erase objects

private theorem foldl_erase_sublist (os removed : List WalObject) :
    (removed.foldl List.erase os).Sublist os := by
  induction removed generalizing os with
  | nil => exact .refl _
  | cons r removed ih => exact (ih _).trans erase_sublist

theorem skipOverlapObjects_sublist (objects : List WalObject) :
    (skipOverlapObjects objects).Sublist objects :=
  foldl_erase_sublist ..

private theorem foldl_erase_of_not_mem {removed : List WalObject} (ho : o ∉ os)
    (hr : ∀ r ∈ removed, r = o) : removed.foldl List.erase os = os := by
  induction removed with
  | nil => rfl
  | cons r removed ih =>
    obtain rfl := hr r mem_cons_self
    rw [foldl_cons, erase_of_not_mem ho]
    exact ih fun r' hr' => hr r' (mem_cons_of_mem r hr')

/-- Whether some later object of another epoch starts inside `last`. -/
def WalObject.Overlapped (last : WalObject) (objects : List WalObject) : Prop :=
  ∃ object ∈ objects, last.epoch ≠ object.epoch ∧ object.startOffset < last.endOffset

/-- The quirk in one equation: the first object is dropped when it is overlapped, everything
after it always stays. -/
theorem skipOverlapObjects_cons (ho : o ∉ os) :
    (o.Overlapped os → skipOverlapObjects (o :: os) = os) ∧
      (¬ o.Overlapped os → skipOverlapObjects (o :: os) = o :: os) := by
  have hall : ∀ r ∈ overlapObjects (o :: os), r = o := by
    intro r hr
    obtain ⟨_, -, rfl⟩ := mem_map.mp hr
    rfl
  constructor
  · rintro ⟨x, hx, hne, hlt⟩
    have hmem : o ∈ overlapObjects (o :: os) :=
      mem_map.mpr ⟨x, List.mem_filter.mpr ⟨hx, by simpa using ⟨hne, hlt⟩⟩, rfl⟩
    obtain ⟨r, removed, hrem⟩ := exists_cons_of_ne_nil (ne_nil_of_mem hmem)
    rw [skipOverlapObjects, hrem, foldl_cons, hall r (by simp [hrem]), erase_cons_head]
    exact foldl_erase_of_not_mem ho fun r' hr' => hall r' (by simp [hrem, hr'])
  · intro hno
    have hnil : overlapObjects (o :: os) = [] := by
      simp only [overlapObjects, map_eq_nil_iff, filter_eq_nil_iff]
      intro x hx hover
      exact hno ⟨x, hx, of_decide_eq_true hover⟩
    rw [skipOverlapObjects, hnil, foldl_nil]

/-- Overlap removal keeps the last object. -/
theorem getLast?_skipOverlapObjects (h : os.Nodup) :
    (skipOverlapObjects os).getLast? = os.getLast? := by
  cases os with
  | nil => rfl
  | cons o os =>
    obtain ⟨hyes, hno⟩ := skipOverlapObjects_cons (nodup_cons.mp h).1
    by_cases hover : o.Overlapped os
    · rw [hyes hover]
      obtain ⟨x, hx, -⟩ := hover
      cases os with
      | nil => cases hx
      | cons => exact (getLast?_cons_cons ..).symm
    · rw [hno hover]

/-- Of objects in order, the last one stands at or above every other one. -/
theorem exists_last_skipOverlapObjects (hsorted : os.Pairwise WalObject.Le) (hnodup : os.Nodup)
    (hwindow : ∀ o ∈ os, o.startOffset < o.endOffset) (ho : o ∈ os) :
    ∃ l, (skipOverlapObjects os).getLast? = some l ∧
      (o.epoch < l.epoch ∨ o.epoch = l.epoch ∧ o.startOffset < l.endOffset) := by
  rw [getLast?_skipOverlapObjects hnodup]
  obtain ⟨l, hl⟩ := Option.isSome_iff_exists.mp
    (getLast?_isSome.mpr (ne_nil_of_mem ho))
  refine ⟨l, hl, ?_⟩
  have hlast := hwindow l (mem_of_getLast? hl)
  obtain ⟨front, hfront⟩ := getLast?_eq_some_iff.mp hl
  rw [hfront] at hsorted ho
  rcases mem_append.mp ho with ho | ho
  · have hle := (pairwise_append.mp hsorted).2.2 o ho l (mem_singleton.mpr rfl)
    unfold WalObject.Le at hle
    omega
  · obtain rfl := mem_singleton.mp ho
    exact .inr ⟨rfl, hlast⟩

/-! ## Parsed objects -/

/-- The object is what the parser makes of its own key and size. -/
def WalObject.Parsed (o : WalObject) : Prop := parseWalObject ⟨o.key, o.size⟩ = some o

theorem info_of_parseWalObject (h : parseWalObject info = some o) : info = ⟨o.key, o.size⟩ := by
  unfold parseWalObject at h
  split at h
  next =>
    simp only [Option.bind_eq_bind, Option.bind_eq_some_iff] at h
    obtain ⟨epoch, -, offsets, -, h⟩ := h
    cases h
    rfl
  next => cases h

theorem parsed_of_mem (h : o ∈ parseWalObjects listed) : o.Parsed := by
  obtain ⟨info, -, hparse⟩ := mem_filterMap.mp ((mem_insertionSort _).mp h)
  rw [WalObject.Parsed, ← info_of_parseWalObject hparse, hparse]

theorem nodup_parseWalObjects (h : listed.Nodup) : (parseWalObjects listed).Nodup := by
  refine (perm_insertionSort ..).nodup_iff.mpr (h.filterMap ?_)
  intro a a' o ha ha'
  rw [info_of_parseWalObject ha, info_of_parseWalObject ha']

end S3Stream
