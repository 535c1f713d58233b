import S3Stream.Codec.WalRecord

/-! # Corrupted headers

A frame header with one wrong byte is refused. The CRC is linear in exclusive or, so the wrong byte
changes it by the shifted difference of the bytes; the steps are undone one by one, and the
masked top bit alone is no shifted byte within the twenty bytes the checksum covers. -/

namespace S3Stream

open Bytes List

theorem and_one_eq_one_iff (c : UInt32) : c &&& 1 = 1 ↔ c.toNat % 2 = 1 := by
  rw [← UInt32.toNat_inj, UInt32.toNat_and, UInt32.toNat_one, Nat.and_one_is_mod]

theorem crcStep_xor (c d : UInt32) : crcStep (c ^^^ d) = crcStep c ^^^ crcStep d := by
  have hshift : (c ^^^ d) >>> 1 = (c >>> 1) ^^^ (d >>> 1) := by
    simp [← UInt32.toBitVec_inj, BitVec.ushiftRight_xor_distrib]
  simp only [crcStep, and_one_eq_one_iff, UInt32.toNat_xor, Nat.xor_mod_two_eq_one, hshift]
  by_cases hc : c.toNat % 2 = 1 <;> by_cases hd : d.toNat % 2 = 1 <;> simp [hc, hd]
  · -- Both steps reduce by the polynomial, and the two cancel.
    rw [show ∀ x y p : UInt32, x ^^^ p ^^^ (y ^^^ p) = x ^^^ y ^^^ (p ^^^ p) by intros; ac_rfl,
      UInt32.xor_self, UInt32.xor_zero]
  · ac_rfl
  · ac_rfl

theorem iterate_crcStep_xor (n : Nat) (c d : UInt32) :
    crcStep^[n] (c ^^^ d) = crcStep^[n] c ^^^ crcStep^[n] d := by
  induction n generalizing c d with
  | zero => rfl
  | succ n ih => rw [Function.iterate_succ_apply, crcStep_xor, ih]; rfl

theorem foldl_crcByte_xor (data : Bytes) (c d : UInt32) :
    data.foldl crcByte (c ^^^ d) = data.foldl crcByte c ^^^ crcStep^[8 * data.length] d := by
  induction data generalizing c d with
  | nil => rfl
  | cons b data ih =>
    have hbyte : crcByte (c ^^^ d) b = crcByte c b ^^^ crcStep^[8] d := by
      rw [crcByte, crcByte, ← iterate_crcStep_xor]
      congr 1
      ac_rfl
    rw [foldl_cons, foldl_cons, hbyte, ih, ← Function.iterate_add_apply, length_cons, Nat.mul_succ]

/-- Undo one bit of the CRC. -/
def crcUnstep (c : UInt32) : UInt32 :=
  if c.toBitVec.msb then ((c ^^^ 0xEDB88320) <<< 1) + 1 else c <<< 1

theorem crcUnstep_crcStep (c : UInt32) : crcUnstep (crcStep c) = c := by
  have hlt := c.toNat_lt
  unfold crcStep
  split
  next h =>
    have hset : (c >>> 1 ^^^ 0xEDB88320).toBitVec.msb = true := by
      simp
      rfl
    have hodd := (and_one_eq_one_iff c).mp h
    rw [crcUnstep, if_pos hset, UInt32.xor_assoc, UInt32.xor_self, UInt32.xor_zero,
      ← UInt32.toNat_inj]
    simp [Nat.shiftLeft_eq, Nat.shiftRight_eq_div_pow]
    omega
  next h =>
    have heven := mt (and_one_eq_one_iff c).mpr h
    rw [crcUnstep, if_neg (by simp), ← UInt32.toNat_inj]
    simp [Nat.shiftLeft_eq, Nat.shiftRight_eq_div_pow]
    omega

theorem walCrc32_eq_mod (data : Bytes) : walCrc32 data = (crc32 data).toNat % 2 ^ 31 := by
  rw [walCrc32, UInt32.toNat_and]
  exact Nat.and_two_pow_sub_one_eq_mod _ 31

/-- The shifted difference of two bytes is not lost to the mask. -/
theorem walCrc32_ne (us : Bytes) (hab : a ≠ b) (hvs : vs.length < 20) :
    walCrc32 (us ++ a :: vs) ≠ walCrc32 (us ++ b :: vs) := by
  intro heq
  generalize hd : a.toUInt32 ^^^ b.toUInt32 = d
  generalize hn : 8 * (vs.length + 1) = n
  have hdiff : crc32 (us ++ a :: vs) ^^^ crc32 (us ++ b :: vs) = crcStep^[n] d := by
    generalize hc : us.foldl crcByte 0xFFFFFFFF = c
    have hbyte : c ^^^ b.toUInt32 = c ^^^ a.toUInt32 ^^^ d := by
      rw [← hd, ← UInt32.xor_assoc, UInt32.xor_assoc c, UInt32.xor_self, UInt32.xor_zero]
    have hfold : vs.foldl crcByte (crcByte c b) =
        vs.foldl crcByte (crcByte c a) ^^^ crcStep^[n] d := by
      rw [crcByte, hbyte, iterate_crcStep_xor, foldl_crcByte_xor, ← Function.iterate_add_apply,
        ← hn, Nat.mul_succ, crcByte]
    rw [crc32, crc32, foldl_append, foldl_append, hc, foldl_cons, foldl_cons, hfold,
      show ∀ x y p : UInt32, x ^^^ p ^^^ (x ^^^ y ^^^ p) = x ^^^ x ^^^ (p ^^^ p) ^^^ y by
        intros; ac_rfl]
    simp
  have hback : crcUnstep^[n] (crcStep^[n] d) = d :=
    (Function.LeftInverse.iterate crcUnstep_crcStep n) d
  have hmod : (crcStep^[n] d).toNat % 2 ^ 31 = 0 := by
    rw [walCrc32_eq_mod, walCrc32_eq_mod] at heq
    rw [← hdiff, UInt32.toNat_xor, Nat.xor_mod_two_pow, heq, Nat.xor_self]
  have hlt := (crcStep^[n] d).toNat_lt
  rcases (by omega : (crcStep^[n] d).toNat = 0 ∨ (crcStep^[n] d).toNat = 2 ^ 31) with h | h
  · rw [UInt32.toNat_inj.mp (h.trans UInt32.toNat_zero.symm),
      Function.iterate_fixed (by decide : crcUnstep 0 = 0)] at hback
    rw [← hback, UInt32.xor_eq_zero_iff] at hd
    exact hab (UInt8.toUInt32_inj.mp hd)
  · have hsmall : d.toNat < 2 ^ 8 := by
      rw [← hd, UInt32.toNat_xor]
      exact Nat.xor_lt_two_pow a.toNat_lt b.toNat_lt
    have hlarge : ∀ m < 20, 2 ^ 8 ≤ (crcUnstep^[8 * (m + 1)] 0x80000000).toNat := by
      decide +kernel
    have hmasked : crcStep^[n] d = 0x80000000 := UInt32.toNat_inj.mp h
    rw [hmasked, ← hn] at hback
    exact absurd (hback ▸ hlarge vs.length hvs) hsmall.not_ge

theorem toNat_ne (us vs : Bytes) (hab : a ≠ b) :
    toNat (us ++ a :: vs) ≠ toNat (us ++ b :: vs) := by
  have hinj : ∀ (vs : Bytes) (m n : Nat), vs.foldl (fun acc b => acc * 256 + b.toNat) m =
      vs.foldl (fun acc b => acc * 256 + b.toNat) n → m = n := by
    intro vs
    induction vs with
    | nil => exact fun _ _ h => h
    | cons v vs ih =>
      intro m n h
      exact Nat.eq_of_mul_eq_mul_right (by decide) (Nat.add_right_cancel (ih _ _ h))
  intro h
  rw [Bytes.toNat, Bytes.toNat, foldl_append, foldl_append] at h
  exact hab (UInt8.toNat_inj.mp (Nat.add_left_cancel (hinj vs _ _ h)))

/-- **One wrong byte.** -/
theorem WalRecordHeader.unmarshal_corrupted (h : WalRecordHeader) {i : Nat} {b : UInt8}
    (hi : i < 24) (hb : h.marshal[i]? ≠ some b) :
    ∃ e, unmarshal (h.marshal.set i b) = .error e := by
  have hset : ∀ {l : Bytes} {j : Nat}, j < l.length → l[j]? ≠ some b →
      ∃ us a vs, l = us ++ a :: vs ∧ l.set j b = us ++ b :: vs ∧ a ≠ b ∧ vs.length < l.length := by
    intro l j hj hne
    refine ⟨l.take j, l[j], l.drop (j + 1), by simp, ?_, fun heq => hne ?_, ?_⟩
    · rw [set_eq_take_append_cons_drop, if_pos hj]
    · rw [getElem?_eq_getElem hj, heq]
    · rw [length_drop]; omega
  have hcrc : toNat (field 20 4 (h.marshal.set i b)) ≠ walCrc32 ((h.marshal.set i b).take 20) := by
    rw [marshal] at hb ⊢
    by_cases hlt : i < h.marshalWithoutCrc.length
    · rw [getElem?_append_left hlt] at hb
      obtain ⟨us, a, vs, hbody, hset, hne, hlen⟩ := hset hlt hb
      have hlen' : (h.marshalWithoutCrc.set i b).length = 20 := by simp
      rw [set_append_left _ _ hlt, take_front _ hlen', field_skip _ hlen'.le, hlen',
        field_all (by simp), toNat_ofNat_of_lt (walCrc32_lt _), hset, hbody]
      exact walCrc32_ne us hne (by simpa using hlen)
    · rw [getElem?_append_right (not_lt.mp hlt)] at hb
      obtain ⟨us, a, vs, hstored, hset, hne, -⟩ := hset (by simp at hlt ⊢; omega) hb
      have hread : toNat (us ++ a :: vs) = walCrc32 h.marshalWithoutCrc := by
        rw [← hstored, toNat_ofNat_of_lt (walCrc32_lt _)]
      rw [set_append_right _ _ (not_lt.mp hlt), take_front _ (by simp), field_skip _ (by simp),
        hset, length_marshalWithoutCrc, field_all (by rw [← hset]; simp), ← hread]
      exact (toNat_ne us vs hne).symm
  unfold unmarshal
  rw [if_neg (by simp [walRecordHeaderSize])]
  exact ⟨_, if_pos hcrc⟩

theorem WalRecordHeader.unmarshal_corrupted_length : ∃ e,
    unmarshal ((data 0 40 7).marshal.set 7 41) = .error e :=
  unmarshal_corrupted (data 0 40 7) (by decide) (by decide +kernel)

end S3Stream
