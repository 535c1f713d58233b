import S3Stream.Object.Metadata

/-! # Data blocks

The encoding of one data block (`encode_data_block` in `s3stream-object/src/writer.rs`) and the
decoding of a fetched region (`decode_data_block` in `reader.rs`), which may hold several blocks.
Decoding is compositional: the region of two regions decodes to the records of both. -/

namespace S3Stream

open List StreamRecordBatch Bytes

def dataBlockMagic : Nat := 0x5A

def dataBlockDefaultFlag : Nat := 0x02

/-- Bytes before the records of a block: magic, flag, record count and length. -/
def blockHeaderSize : Nat := 10

/-- A number as the source's `{:#x}` prints it. -/
def hexLiteral (n : Nat) : String := "0x" ++ String.ofList (Nat.toDigits 16 n)

def encodeDataBlock (records : List StreamRecordBatch) : Bytes :=
  let data := records.flatMap StreamRecordBatch.encoded
  Bytes.ofNat 1 dataBlockMagic ++ (Bytes.ofNat 1 dataBlockDefaultFlag ++
    (Bytes.ofNat 4 (asU32 records.length) ++ (Bytes.ofNat 4 (asU32 data.length) ++ data)))

/-- Parse `n` records off the front of a buffer. -/
def parseRecords : Nat → Bytes → Except ObjectError (List StreamRecordBatch × Bytes)
  | 0, data => .ok ([], data)
  | n + 1, data =>
    match StreamRecordBatch.parse data with
    | .error e => .error (.codec e)
    | .ok (record, rest) =>
      match parseRecords n rest with
      | .error e => .error e
      | .ok (records, rest) => .ok (record :: records, rest)

/-- One round of the decoder: the records of the first block and what follows the block. -/
def decodeBlock (buf : Bytes) : Except ObjectError (List StreamRecordBatch × Bytes) :=
  if buf.length < blockHeaderSize then
    .error (.invalidFormat
      s!"data block header needs {blockHeaderSize} bytes, have {buf.length}")
  else
    let magic := Bytes.toNat (buf.field 0 1)
    if magic ≠ dataBlockMagic then
      .error (.invalidFormat s!"data block magic mismatch: {hexLiteral magic}")
    else
      let recordCount := Bytes.toNat (buf.field 2 4)
      let dataLength := Bytes.toNat (buf.field 6 4)
      if buf.length < blockHeaderSize + dataLength then
        .error (.invalidFormat
          s!"data block truncated: need {blockHeaderSize + dataLength} bytes, have {buf.length}")
      else
        match parseRecords recordCount (buf.field blockHeaderSize dataLength) with
        | .error e => .error e
        | .ok (records, data) =>
          if ¬ data.isEmpty then
            .error (.invalidFormat
              s!"{data.length} trailing bytes after records in data block")
          else .ok (records, buf.drop (blockHeaderSize + dataLength))

/-- The rounds of the decoder; each takes a header off the buffer, so its length bounds them. -/
def decodeLoop : Nat → Bytes → Except ObjectError (List StreamRecordBatch)
  | 0, _ => .ok []
  | fuel + 1, buf =>
    if buf.isEmpty then .ok []
    else
      match decodeBlock buf with
      | .error e => .error e
      | .ok (records, rest) =>
        match decodeLoop fuel rest with
        | .error e => .error e
        | .ok more => .ok (records ++ more)

def decodeDataBlock (block : Bytes) : Except ObjectError (List StreamRecordBatch) :=
  decodeLoop block.length block

/-! ## One block -/

/-- A decoded block: its extent in the buffer, and the same result under any continuation. -/
theorem decodeBlock_eq_ok (h : decodeBlock buf = .ok (records, rest)) :
    rest.length < buf.length ∧
      ∀ more, decodeBlock (buf ++ more) = .ok (records, rest ++ more) := by
  unfold decodeBlock at h
  split at h
  · cases h
  rename_i hheader
  dsimp only at h
  split at h
  · cases h
  rename_i hmagic
  split at h
  · cases h
  rename_i hlength
  split at h
  · cases h
  rename_i hparse
  split at h
  · cases h
  rename_i hempty
  cases h
  have hheader : 10 ≤ buf.length := not_lt.mp hheader
  refine ⟨by simp only [length_drop, blockHeaderSize]; omega, fun more => ?_⟩
  have hfield : ∀ {p k : Nat}, p + k ≤ buf.length → field p k (buf ++ more) =
      field p k buf := fun hle => field_append more hle
  have hlen := not_lt.mp hlength
  unfold decodeBlock
  rw [hfield (by omega), hfield (by omega),
    hfield (by omega), if_neg (by simp [blockHeaderSize]; omega)]
  dsimp only
  rw [if_neg hmagic, if_neg (by rw [length_append]; omega), hfield hlen, hparse]
  dsimp only
  rw [if_neg hempty, drop_append_of_le_length hlen]

theorem parseRecords_encoded (h : ∀ r ∈ records, r.InRange) (rest : Bytes) :
    parseRecords records.length (records.flatMap encoded ++ rest)
      = .ok (records, rest) := by
  induction records with
  | nil => rfl
  | cons r records ih =>
    rw [length_cons, flatMap_cons, append_assoc, parseRecords, parse_encoded (h r mem_cons_self)]
    dsimp only
    rw [ih fun x hx => h x (mem_cons_of_mem r hx)]

@[simp] theorem length_encodeDataBlock (records : List StreamRecordBatch) :
    (encodeDataBlock records).length =
      blockHeaderSize + (records.flatMap encoded).length := by
  simp [encodeDataBlock, blockHeaderSize]; omega

theorem length_le_length_flatMap_encoded (records : List StreamRecordBatch) :
    records.length ≤ (records.flatMap encoded).length := by
  induction records with
  | nil => simp
  | cons =>
    rw [flatMap_cons, length_append, length_cons, length_encoded]
    omega

theorem dataLength_encodeDataBlock (hfit : (records.flatMap encoded).length < 2 ^ 32)
    (rest : Bytes) :
    toNat (field 6 4 (encodeDataBlock records ++ rest)) = (records.flatMap encoded).length := by
  unfold encodeDataBlock
  generalize records.flatMap encoded = data at hfit ⊢
  dsimp only
  rw [asU32_of_lt hfit]
  simp [field_skip, field_front, toNat_ofNat]
  omega

/-- What the decoder does with an encoded block: it parses the bytes of the records. -/
theorem decodeBlock_encode (hfit : (records.flatMap encoded).length < 2 ^ 32) (rest : Bytes) :
    decodeBlock (encodeDataBlock records ++ rest) =
      match parseRecords records.length (records.flatMap encoded) with
      | .error e => .error e
      | .ok (records, data) =>
        if ¬ data.isEmpty then
          .error (.invalidFormat s!"{data.length} trailing bytes after records in data block")
        else .ok (records, rest) := by
  have hlen := length_encodeDataBlock records
  have hlenField := dataLength_encodeDataBlock hfit rest
  have hcount := length_le_length_flatMap_encoded records
  set data := records.flatMap encoded with hdata
  have hshape : encodeDataBlock records ++ rest = ofNat 1 dataBlockMagic ++
      (ofNat 1 dataBlockDefaultFlag ++ (ofNat 4 records.length ++
        (ofNat 4 data.length ++ (data ++ rest)))) := by
    simp only [encodeDataBlock, ← hdata, append_assoc]
    rw [asU32_of_lt (by omega), asU32_of_lt (by omega)]
  have hmagic : toNat (field 0 1 (encodeDataBlock records ++ rest)) = dataBlockMagic := by
    rw [hshape, field_front _ (length_ofNat ..)]
    decide
  have hcountField : toNat (field 2 4 (encodeDataBlock records ++ rest)) = records.length := by
    rw [hshape]
    simp [field_skip, field_front, toNat_ofNat]
    omega
  have hbody : field blockHeaderSize data.length (encodeDataBlock records ++ rest) = data := by
    rw [hshape]
    simp [field_skip, field_front, blockHeaderSize]
  unfold decodeBlock
  rw [if_neg (by simp only [length_append, hlen]; omega)]
  rw [hmagic, if_neg (by simp), hcountField, hlenField,
    if_neg (by simp only [length_append, hlen]; omega), hbody, drop_front rest hlen]

theorem decodeBlock_encodeDataBlock (h : ∀ r ∈ records, r.InRange)
    (hfit : (records.flatMap encoded).length < 2 ^ 32) (rest : Bytes) :
    decodeBlock (encodeDataBlock records ++ rest) = .ok (records, rest) := by
  have hparse := parseRecords_encoded h []
  rw [append_nil] at hparse
  rw [decodeBlock_encode hfit, hparse]
  exact if_neg (by simp)

/-! ## Regions -/

theorem decodeLoop_fuel (hn : buf.length ≤ n) (hm : buf.length ≤ m) :
    decodeLoop n buf = decodeLoop m buf := by
  induction n generalizing m buf with
  | zero =>
    obtain rfl := eq_nil_of_length_eq_zero (Nat.le_zero.mp hn)
    cases m <;> rfl
  | succ n ih =>
    cases m with
    | zero =>
      obtain rfl := eq_nil_of_length_eq_zero (Nat.le_zero.mp hm)
      rfl
    | succ m =>
      rw [decodeLoop, decodeLoop]
      split
      · rfl
      cases hblock : decodeBlock buf with
      | error => rfl
      | ok =>
        have hlt := (decodeBlock_eq_ok hblock).1
        dsimp only
        rw [ih (m := m) (by omega) (by omega)]

@[simp] theorem decodeDataBlock_nil : decodeDataBlock [] = .ok [] := rfl

theorem decodeDataBlock_of_decodeBlock (hblock : decodeBlock buf = .ok (records, rest))
    (hrest : decodeDataBlock rest = .ok more) : decodeDataBlock buf = .ok (records ++ more) := by
  have hlt := (decodeBlock_eq_ok hblock).1
  obtain ⟨n, hn⟩ := Nat.exists_eq_add_of_lt hlt
  have hbuf : buf.isEmpty = false := by
    cases buf with
    | nil => simp at hlt
    | cons => rfl
  rw [decodeDataBlock, hn, decodeLoop, hbuf, hblock]
  dsimp only
  rw [decodeLoop_fuel (by omega) le_rfl, ← decodeDataBlock, hrest]
  rfl

/-- A region that decodes is empty or begins with a block that decodes. -/
theorem decodeDataBlock_eq_ok (h : decodeDataBlock buf = .ok records) : buf = [] ∧ records = [] ∨
      ∃ first rest more, decodeBlock buf = .ok (first, rest) ∧
        decodeDataBlock rest = .ok more ∧ records = first ++ more := by
  cases buf with
  | nil =>
    cases h
    exact .inl ⟨rfl, rfl⟩
  | cons b buf =>
    refine .inr ?_
    rw [decodeDataBlock, length_cons, decodeLoop, isEmpty_cons] at h
    cases hblock : decodeBlock (b :: buf) with
    | error => rw [hblock] at h; cases h
    | ok p =>
      obtain ⟨first, rest⟩ := p
      have hlt := (decodeBlock_eq_ok hblock).1
      rw [hblock] at h
      dsimp only at h
      rw [decodeLoop_fuel (by simpa using Nat.le_of_lt_succ hlt) le_rfl, ← decodeDataBlock] at h
      cases hmore : decodeDataBlock rest with
      | error => rw [hmore] at h; cases h
      | ok more =>
        rw [hmore] at h
        cases h
        exact ⟨first, rest, more, rfl, hmore, rfl⟩

/-- **Decoding is compositional**: the blocks of two regions one behind the other. -/
theorem decodeDataBlock_append (ha : decodeDataBlock a = .ok xs) (hb : decodeDataBlock b = .ok ys) :
    decodeDataBlock (a ++ b) = .ok (xs ++ ys) := by
  -- On the length of the first region: its first block decodes the same under a continuation.
  induction hn : a.length using Nat.strong_induction_on generalizing a xs with
  | _ n ih =>
    rcases decodeDataBlock_eq_ok ha with ⟨rfl, rfl⟩ | ⟨first, rest, more, hblock, hrest, rfl⟩
    · exact hb
    · obtain ⟨hlt, hcont⟩ := decodeBlock_eq_ok hblock
      rw [append_assoc]
      exact decodeDataBlock_of_decodeBlock (hcont b) (ih rest.length (hn ▸ hlt) hrest rfl)

theorem decodeDataBlock_encodeDataBlock (h : ∀ r ∈ records, r.InRange)
    (hfit : (records.flatMap encoded).length < 2 ^ 32) :
    decodeDataBlock (encodeDataBlock records) = .ok records := by
  have hblock := decodeBlock_encodeDataBlock h hfit []
  simpa using decodeDataBlock_of_decodeBlock hblock decodeDataBlock_nil

/-! ## Cut regions -/

/-- A block that is cut short: its header or its records are incomplete. -/
theorem decodeBlock_cut (hfit : (records.flatMap encoded).length < 2 ^ 32)
    (hcut : cut ++ rest = encodeDataBlock records) (hrest : rest ≠ []) :
    ∃ e, decodeBlock cut = .error e := by
  have hlen := congrArg length hcut
  rw [length_append, length_encodeDataBlock] at hlen
  have hpos := length_pos_iff.mpr hrest
  unfold decodeBlock
  split
  · exact ⟨_, rfl⟩
  next hheader =>
  dsimp only
  split
  · exact ⟨_, rfl⟩
  have hfield : toNat (field 6 4 cut) = (records.flatMap encoded).length := by
    rw [← dataLength_encodeDataBlock hfit [], append_nil, ← hcut,
      field_append rest (by simp only [blockHeaderSize] at hheader; omega)]
  rw [hfield, if_pos (by omega)]
  exact ⟨_, rfl⟩

/-- **Decoding is a homomorphism**, and a region cut inside a block is refused. -/
theorem decodeDataBlock_flatMap {blocks : List (List StreamRecordBatch)}
    (hr : ∀ records ∈ blocks, ∀ r ∈ records, r.InRange)
    (hfit : ∀ records ∈ blocks, (records.flatMap encoded).length < 2 ^ 32) :
    decodeDataBlock (blocks.flatMap encodeDataBlock) = .ok blocks.flatten ∧
    ∀ cut, cut <+: blocks.flatMap encodeDataBlock →
      (∀ k, cut ≠ (blocks.take k).flatMap encodeDataBlock) →
      ∃ e, decodeDataBlock cut = .error e := by
  induction blocks with
  | nil => exact ⟨rfl, fun cut hcut hne => absurd (prefix_nil.mp hcut) (hne 0)⟩
  | cons records blocks ih =>
    obtain ⟨hdecode, hcuts⟩ := ih (fun x hx => hr x (mem_cons_of_mem _ hx))
      fun x hx => hfit x (mem_cons_of_mem _ hx)
    have hr := hr records mem_cons_self
    have hfit := hfit records mem_cons_self
    rw [flatMap_cons]
    refine ⟨decodeDataBlock_append (decodeDataBlock_encodeDataBlock hr hfit) hdecode,
      fun cut hcut hne => ?_⟩
    cases hok : decodeDataBlock cut with
    | error e => exact ⟨e, rfl⟩
    | ok =>
      exfalso
      rcases decodeDataBlock_eq_ok hok with ⟨rfl, -⟩ | ⟨first, left, more, hblock, hleft, -⟩
      · exact hne 0 rfl
      obtain ⟨rest, hcut⟩ := hcut
      rcases cut_append hcut with ⟨tail, htail, henc⟩ | ⟨cut', rfl, hrest⟩
      · obtain ⟨e, he⟩ := decodeBlock_cut hfit henc htail
        cases he.symm.trans hblock
      · cases (decodeBlock_encodeDataBlock hr hfit cut').symm.trans hblock
        obtain ⟨e, he⟩ := hcuts left ⟨rest, hrest⟩ fun k hk => hne (k + 1) (by simp [hk])
        cases he.symm.trans hleft

/-- One record of an encoded size below `2 ^ 32` whose payload length is negative as an `i32`. -/
theorem decodeDataBlock_long_payload : ∃ payload : Bytes, payload.length = 2 ^ 31 ∧
    (encodeDataBlock [⟨0, 0, 0, 1, payload⟩]).length < 2 ^ 32 ∧
      ∀ records, decodeDataBlock (encodeDataBlock [⟨0, 0, 0, 1, payload⟩]) ≠ .ok records := by
  obtain ⟨payload, hpayload⟩ : ∃ payload : Bytes, payload.length = 2 ^ 31 :=
    ⟨replicate (2 ^ 31) 0, length_replicate⟩
  have hlen : ([⟨0, 0, 0, 1, payload⟩] : List StreamRecordBatch).flatMap encoded =
      (⟨0, 0, 0, 1, payload⟩ : StreamRecordBatch).encoded := flatMap_singleton ..
  have hfit : (([⟨0, 0, 0, 1, payload⟩] : List StreamRecordBatch).flatMap encoded).length <
      2 ^ 31 + 34 := by
    rw [hlen, length_encoded]
    show 33 + payload.length < _
    omega
  refine ⟨payload, hpayload, ?_, fun records hok => ?_⟩
  · rw [length_encodeDataBlock, blockHeaderSize]
    omega
  rcases decodeDataBlock_eq_ok hok with ⟨hnil, -⟩ | ⟨first, rest, more, hblock, -⟩
  · have hzero := congrArg length hnil
    rw [length_encodeDataBlock, blockHeaderSize, length_nil] at hzero
    omega
  · obtain ⟨e, he⟩ := parse_encoded_of_le (r := ⟨0, 0, 0, 1, payload⟩) hpayload.ge
      (hpayload.trans_lt (by norm_num)) []
    have hdecode := decodeBlock_encode (hfit.trans (by norm_num)) []
    rw [append_nil] at he
    have hparse : ∀ {data : Bytes}, parse data = .error e →
        parseRecords 1 data = .error (.codec e) := fun h => by rw [parseRecords, h]
    rw [append_nil, hblock, hlen, length_singleton, hparse he] at hdecode
    cases hdecode

/-- Two blocks, whole and cut behind the first byte. -/
theorem decodeDataBlock_flatMap_two :
    let blocks : List (List StreamRecordBatch) := [[⟨1, 0, 0, 1, [7]⟩], [⟨2, 0, 5, 3, [8]⟩]]
    decodeDataBlock (blocks.flatMap encodeDataBlock) = .ok blocks.flatten ∧
      ∃ e, decodeDataBlock [0x5A] = .error e := by
  intro blocks
  obtain ⟨hdecode, hcuts⟩ := @decodeDataBlock_flatMap blocks (by decide) (by decide)
  refine ⟨hdecode, hcuts [0x5A] (by decide) fun k => ?_⟩
  match k with
  | 0 | 1 => decide
  | k + 2 =>
    simp only [blocks, take_succ_cons, take_nil]
    decide

end S3Stream
