import CsoLabs.CLang

/-! The bitmap of `bloom.c` and the function the tests read it with. A bit is taken out of its byte by a shift to
the left and one to the right, of a `char` that was promoted to `int`: the bits in front of the one asked for are
not shifted out of an `int`, and those behind it are not all shifted away. -/

namespace CsoLabs.Grep
open CLang

/-- `bloom_filter`, as `bloom_init` makes it: `bsz` bits in `bsz / 8` bytes. -/
structure BloomFilter where
  bsz : Int
  buf : List (BitVec 8)
  bsz_nonneg : 0 ≤ bsz
  bsz_dvd : 8 ∣ bsz
  length_buf : (buf.length : Int) = bsz / 8

/-- `grants` says which calls of `malloc` succeed; no object has a negative number of bytes. The result of the
first call is not looked at. -/
def bloomInit (grants : Nat → Bool) (bsz : Int) : Except Abort BloomFilter :=
  if hmod : bsz.tmod 8 = 0 then
    if grants 1 = false then .error .invalidPointer
    else if hsize : 0 ≤ bsz ∧ grants 2 = true then
      .ok {
        bsz := bsz
        buf := List.replicate (bsz / 8).toNat 0
        bsz_nonneg := hsize.1
        bsz_dvd := Int.dvd_of_tmod_eq_zero hmod
        length_buf := by
          rw [List.length_replicate]
          omega }
    else .error (.exit "failed to alloc memory for bloom filter\n")
  else .error (.assertion "(bsz % 8) == 0")

/-- `x << n` of an `int` -/
def shiftLeft (x : Int) (n : Nat) : Int := toInt (x * 2 ^ n)

/-- `x >> n` of an `int`: the sign is kept. -/
def shiftRight (x : Int) (n : Nat) : Int := x / 2 ^ n

/-- `bf->buf[i]` -/
def BloomFilter.byteAt (bf : BloomFilter) (i : Int) : Except Abort (BitVec 8) :=
  match bf.buf[i.toNat]? with
  | some byte => if 0 ≤ i then .ok byte else .error .outOfBounds
  | none => .error .outOfBounds

/-- What the shifts leave of the byte, as a `bool`. -/
def extractBit (byte : BitVec 8) (whichBit : Nat) : Bool :=
  decide (shiftRight (shiftLeft (charToInt byte) whichBit) (7 - whichBit) ≠ 0)

/-- A shift by a negative number is undefined. -/
def bloomBitAtPos (bf : BloomFilter) (pos : Int) : Except Abort Bool := do
  assertC (decide (pos < bf.bsz)) "pos < bf->bsz"
  let whichByte := pos.tdiv 8
  let whichBit := pos.tmod 8
  let byte ← bf.byteAt whichByte
  if whichBit < 0 then .error .intOverflow else return extractBit byte whichBit.toNat

/-! ### One byte -/

/-- A promoted `char` is shifted by at most seven places and stays an `int`. -/
theorem shiftLeft_char (byte : BitVec 8) {k : Nat} (hk : k < 8) :
    shiftLeft (charToInt byte) k = charToInt byte * 2 ^ k := by
  have hlt := charToInt_lt byte
  have hle : -128 ≤ charToInt byte := byte.le_toInt
  have hpow : (2 : Int) ^ k ≤ 2 ^ 7 := by gcongr <;> omega
  have hpos : (0 : Int) < 2 ^ k := by positivity
  have hlow : -128 * 2 ^ 7 ≤ charToInt byte * 2 ^ k := by nlinarith
  have hhigh : charToInt byte * 2 ^ k ≤ 128 * 2 ^ 7 := by nlinarith
  rw [shiftLeft, toInt, Int.bmod_eq_of_le] <;> omega

/-- The result depends on the most significant bits, down to number `2 * k`: it is true if one of them is set. -/
theorem extractBit_iff (byte : BitVec 8) {k : Nat} (hk : k < 8) :
    extractBit byte k = true ↔ 2 ^ (7 - 2 * k) ≤ byte.toNat := by
  have hbyte := byte.isLt
  have hchar : charToInt byte = if 2 * byte.toNat < 2 ^ 8 then (byte.toNat : Int) else byte.toNat - (2 ^ 8 : Nat) :=
    BitVec.toInt_eq_toNat_cond byte
  rw [extractBit, decide_eq_true_eq, shiftLeft_char byte hk, shiftRight, hchar]
  interval_cases k
  all_goals
    simp only [Nat.reduceMul, Nat.reduceSub, Nat.reducePow, Int.reducePow]
    split_ifs
    · omega
    · omega

theorem getMsbD_eq_testBit (byte : BitVec 8) {j : Nat} (hj : j < 8) :
    byte.getMsbD j = byte.toNat.testBit (7 - j) := by
  rw [BitVec.getMsbD, decide_eq_true hj, Bool.true_and]
  rfl

/-- The bits down to number `2 * k` are clear if the byte is small. -/
theorem clear_iff (byte : BitVec 8) (k : Nat) :
    (∀ j ≤ 2 * k, byte.getMsbD j = false) ↔ byte.toNat < 2 ^ (7 - 2 * k) := by
  constructor
  · intro hclear
    apply Nat.lt_pow_two_of_testBit
    intro i hi
    by_cases hi8 : i < 8
    · have hbit := hclear (7 - i) (by omega)
      rwa [getMsbD_eq_testBit byte (by omega), Nat.sub_sub_self (by omega)] at hbit
    · apply Nat.testBit_lt_two_pow
      exact byte.isLt.trans_le (Nat.pow_le_pow_right (by omega) (by omega))
  · intro hlt j hj
    by_cases hj8 : j < 8
    · rw [getMsbD_eq_testBit byte hj8]
      apply Nat.testBit_lt_two_pow
      exact hlt.trans_le (Nat.pow_le_pow_right (by omega) (by omega))
    · rw [BitVec.getMsbD, decide_eq_false hj8, Bool.false_and]

/-- The bit that is asked for, or a bit that leaks in. -/
theorem extractBit_eq_iff (byte : BitVec 8) {k : Nat} (hk : k < 8) :
    extractBit byte k = byte.getMsbD k ↔ byte.getMsbD k = true ∨ ∀ j ≤ 2 * k, byte.getMsbD j = false := by
  have hextract := extractBit_iff byte hk
  have hclear := clear_iff byte k
  rw [← not_le, ← hextract, Bool.not_eq_true] at hclear
  cases hbit : byte.getMsbD k with
  | true =>
      have hset : ¬ ∀ j ≤ 2 * k, byte.getMsbD j = false := fun hall =>
        Bool.false_ne_true ((hall k (by omega)).symm.trans hbit)
      rw [hclear, Bool.not_eq_false] at hset
      exact iff_of_true hset (.inl rfl)
  | false =>
      rw [hclear]
      exact ⟨.inr, fun h => h.resolve_left Bool.false_ne_true⟩

/-- One of the numbers 1, 2, 8, 32 and 128 lies between the two bytes. -/
def Separated (a b : BitVec 8) : Prop := ∃ t ∈ [1, 2, 8, 32, 128], ¬ (t ≤ a.toNat ↔ t ≤ b.toNat)

instance decidableSeparated (a b : BitVec 8) : Decidable (Separated a b) :=
  inferInstanceAs (Decidable (∃ t ∈ [1, 2, 8, 32, 128], ¬ (t ≤ a.toNat ↔ t ≤ b.toNat)))

/-- Bytes that are not separated have the same bits as far as the function can see. -/
theorem forall_extractBit_eq_iff (a b : BitVec 8) :
    (∀ k < 8, extractBit a k = extractBit b k) ↔ ¬ Separated a b := by
  have hbit : ∀ k < 8, extractBit a k = extractBit b k ↔ (2 ^ (7 - 2 * k) ≤ a.toNat ↔ 2 ^ (7 - 2 * k) ≤ b.toNat) := by
    intro k hk
    rw [Bool.eq_iff_iff, extractBit_iff a hk, extractBit_iff b hk]
  constructor
  · rintro hall ⟨t, ht, hne⟩
    have hpow : ∃ k < 8, t = 2 ^ (7 - 2 * k) := by
      simp only [List.mem_cons, List.not_mem_nil, or_false] at ht
      rcases ht with rfl | rfl | rfl | rfl | rfl
      · exact ⟨4, by decide, rfl⟩
      · exact ⟨3, by decide, rfl⟩
      · exact ⟨2, by decide, rfl⟩
      · exact ⟨1, by decide, rfl⟩
      · exact ⟨0, by decide, rfl⟩
    obtain ⟨k, hk, rfl⟩ := hpow
    exact hne ((hbit k hk).mp (hall k hk))
  · intro hsep k hk
    refine (hbit k hk).mpr (by_contra fun hne => hsep ⟨2 ^ (7 - 2 * k), ?_, hne⟩)
    interval_cases k <;> decide

/-! ### The bitmap -/

/-- The byte a position lies in. -/
def BloomFilter.byteOf (bf : BloomFilter) (pos : Int) : BitVec 8 := bf.buf.getD (pos / 8).toNat 0

/-- The bit at a position: number `pos % 8` of its byte, from the most significant one. -/
def BloomFilter.bit (bf : BloomFilter) (pos : Int) : Bool := (bf.byteOf pos).getMsbD (pos % 8).toNat

theorem bloomBitAtPos_eq (bf : BloomFilter) {pos : Int} (h0 : 0 ≤ pos) (hpos : pos < bf.bsz) :
    bloomBitAtPos bf pos = .ok (extractBit (bf.byteOf pos) (pos % 8).toNat) := by
  have hlen := bf.length_buf
  have hdvd := bf.bsz_dvd
  have hindex : (pos / 8).toNat < bf.buf.length := by omega
  have hbyte : bf.byteAt (pos / 8) = .ok (bf.byteOf pos) := by
    unfold BloomFilter.byteAt BloomFilter.byteOf
    rw [List.getElem?_eq_getElem hindex, List.getD_eq_getElem _ _ hindex]
    exact if_pos (by omega)
  unfold bloomBitAtPos
  rw [decide_eq_true hpos, assertC_true, ok_bind, Int.tdiv_eq_ediv_of_nonneg h0, Int.tmod_eq_emod_of_nonneg h0]
  dsimp only
  rw [hbyte, ok_bind, if_neg (by omega)]
  rfl

/-- A filter that was just made has no bit set, and reads so. -/
theorem bloomInit_reads_clear {grants : Nat → Bool} (hgrants : ∀ call, grants call = true) {bsz : Int} (h0 : 0 ≤ bsz)
    (hdvd : 8 ∣ bsz) :
    ∃ bf, bloomInit grants bsz = .ok bf ∧ bf.bsz = bsz ∧
      ∀ pos, 0 ≤ pos → pos < bsz → bloomBitAtPos bf pos = .ok false := by
  unfold bloomInit
  rw [dif_pos (Int.tmod_eq_zero_of_dvd hdvd), if_neg (by rw [hgrants]; decide), dif_pos ⟨h0, hgrants 2⟩]
  refine ⟨_, rfl, rfl, fun pos hpos0 hpos => ?_⟩
  rw [bloomBitAtPos_eq _ hpos0 hpos]
  have hbyte : (List.replicate (bsz / 8).toNat (0 : BitVec 8)).getD (pos / 8).toNat 0 = 0 := by
    rw [List.getD_eq_getElem _ _ (by rw [List.length_replicate]; omega), List.getElem_replicate]
  unfold BloomFilter.byteOf
  rw [hbyte, Except.ok.injEq, ← Bool.not_eq_true, extractBit_iff 0 (by omega), not_le]
  exact Nat.two_pow_pos _

/-- The filters agree at all positions if no two of their bytes are separated. -/
theorem agree_iff (f g : BloomFilter) (hbsz : g.bsz = f.bsz) :
    (∀ pos, 0 ≤ pos → pos < f.bsz → bloomBitAtPos f pos = bloomBitAtPos g pos) ↔
      ∀ i < f.buf.length, ¬ Separated (f.buf.getD i 0) (g.buf.getD i 0) := by
  have hlen := f.length_buf
  have hdvd := f.bsz_dvd
  constructor
  · intro hagree i hi
    rw [← forall_extractBit_eq_iff]
    intro k hk
    have hpos : ((8 * i + k : Nat) : Int) < f.bsz := by omega
    have heq := hagree (8 * i + k : Nat) (by omega) hpos
    rw [bloomBitAtPos_eq f (by omega) hpos, bloomBitAtPos_eq g (by omega) (by omega)] at heq
    have hbyte : (((8 * i + k : Nat) : Int) / 8).toNat = i := by omega
    have hbit : (((8 * i + k : Nat) : Int) % 8).toNat = k := by omega
    unfold BloomFilter.byteOf at heq
    rw [hbyte, hbit] at heq
    exact Except.ok.inj heq
  · intro hsep pos h0 hpos
    have hbits := (forall_extractBit_eq_iff _ _).mpr (hsep (pos / 8).toNat (by omega))
    rw [bloomBitAtPos_eq f h0 hpos, bloomBitAtPos_eq g h0 (by omega)]
    exact congrArg Except.ok (hbits (pos % 8).toNat (by omega))

/-- **What reading the bitmap back shows.** A position reads as its bit exactly when the bit is set or no bit of
the byte down to number `2 * (pos % 8)` is. Filters of the same size that agree at all positions are the same
unless no two of their bytes are separated. -/
theorem bloom_readback_iff (f : BloomFilter) :
    (∀ pos, 0 ≤ pos → pos < f.bsz → (bloomBitAtPos f pos = .ok (f.bit pos) ↔
      f.bit pos = true ∨ ∀ j ≤ 2 * (pos % 8).toNat, (f.byteOf pos).getMsbD j = false)) ∧
    ∀ g : BloomFilter, g.bsz = f.bsz →
      (((∀ pos, 0 ≤ pos → pos < f.bsz → bloomBitAtPos f pos = bloomBitAtPos g pos) ↔ f.buf = g.buf) ↔
        f.buf = g.buf ∨ ∃ i < f.buf.length, Separated (f.buf.getD i 0) (g.buf.getD i 0)) := by
  constructor
  · intro pos h0 hpos
    rw [bloomBitAtPos_eq f h0 hpos, Except.ok.injEq]
    exact extractBit_eq_iff (f.byteOf pos) (by omega)
  · intro g hbsz
    rw [agree_iff f g hbsz]
    have hsame : f.buf = g.buf → ∀ i < f.buf.length, ¬ Separated (f.buf.getD i 0) (g.buf.getD i 0) := by
      intro heq i _
      rw [heq, ← forall_extractBit_eq_iff]
      exact fun k _ => rfl
    constructor
    · intro hiff
      by_cases heq : f.buf = g.buf
      · exact .inl heq
      · right
        have hsep := mt hiff.mp heq
        push Not at hsep
        exact hsep
    · rintro (heq | ⟨i, hi, hsep⟩)
      · exact iff_of_true (hsame heq) heq
      · refine ⟨fun hall => absurd hsep (hall i hi), hsame⟩

/-- Eight bits. -/
def bloomOfByte (byte : BitVec 8) : BloomFilter := ⟨8, [byte], by decide, by decide, rfl⟩

/-- The first and the last bit of 0x81 are set; the last bit is read right, and so is the difference to 0x01. -/
theorem bloom_readback_ends :
    bloomBitAtPos (bloomOfByte 0x81) 7 = .ok ((bloomOfByte 0x81).bit 7) ∧
      ((∀ pos, 0 ≤ pos → pos < (bloomOfByte 0x81).bsz →
        bloomBitAtPos (bloomOfByte 0x81) pos = bloomBitAtPos (bloomOfByte 0x01) pos) ↔
          (bloomOfByte 0x81).buf = (bloomOfByte 0x01).buf) :=
  ⟨((bloom_readback_iff (bloomOfByte 0x81)).1 7 (by decide) (by decide)).mpr (.inl (by decide)),
    ((bloom_readback_iff (bloomOfByte 0x81)).2 (bloomOfByte 0x01) rfl).mpr (.inr ⟨0, by decide, by decide⟩)⟩

/-- Bit 2 of 0x20 is read at position 1 as well, and 0x80 and 0xff read the same everywhere. -/
theorem bloom_bits_leak :
    bloomBitAtPos (bloomOfByte 0x20) 1 = .ok true ∧ (bloomOfByte 0x20).bit 1 = false ∧
      (∀ pos, 0 ≤ pos → pos < 8 → bloomBitAtPos (bloomOfByte 0x80) pos = bloomBitAtPos (bloomOfByte 0xff) pos) ∧
      (bloomOfByte 0x80).buf ≠ (bloomOfByte 0xff).buf := by
  refine ⟨by decide, by decide, ?_, by decide⟩
  exact (agree_iff (bloomOfByte 0x80) (bloomOfByte 0xff) rfl).mpr (by decide)

end CsoLabs.Grep
