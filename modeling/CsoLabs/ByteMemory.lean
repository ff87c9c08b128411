import CsoLabs.CLang

/-! A flat byte-addressed memory with the accesses of a C program: single bytes, little-endian
64-bit words, `memset` and `memcpy`. Every store is described by the addresses outside of which it
changes nothing (`EqOutside`), and that is all the frame arguments use. -/

namespace ByteMemory

/-- The contents of memory, by address. -/
abbrev Mem := Nat → BitVec 8

/-- The 64-bit word at `a`, least significant byte first. -/
def load64 (m : Mem) (a : Nat) : BitVec 64 :=
  m (a + 7) ++ m (a + 6) ++ m (a + 5) ++ m (a + 4) ++ m (a + 3) ++ m (a + 2) ++ m (a + 1) ++ m a

def store64 (m : Mem) (a : Nat) (w : BitVec 64) : Mem := fun x =>
  if a ≤ x ∧ x < a + 8 then w.extractLsb' (8 * (x - a)) 8 else m x

def store8 (m : Mem) (a : Nat) (b : BitVec 8) : Mem := fun x => if x = a then b else m x

def memset (m : Mem) (p : Nat) (b : BitVec 8) (n : Nat) : Mem := fun x =>
  if p ≤ x ∧ x < p + n then b else m x

/-- `memcpy` between areas that do not overlap. -/
def memcpy (m : Mem) (dst src n : Nat) : Mem := fun x =>
  if dst ≤ x ∧ x < dst + n then m (src + (x - dst)) else m x

/-- The two memories agree at every address outside `[a, a + n)`. -/
def EqOutside (m m' : Mem) (a n : Nat) : Prop := ∀ x, x < a ∨ a + n ≤ x → m' x = m x

theorem EqOutside.mono {m m' : Mem} {a n a' n' : Nat} (h : EqOutside m m' a n) (hlo : a' ≤ a)
    (hhi : a + n ≤ a' + n') : EqOutside m m' a' n' := by
  intro x hx
  exact h x (by omega)

theorem store64_eqOutside (m : Mem) (a : Nat) (w : BitVec 64) : EqOutside m (store64 m a w) a 8 := by
  intro x hx
  rw [store64, if_neg (by omega)]

theorem store8_eqOutside (m : Mem) (a : Nat) (b : BitVec 8) : EqOutside m (store8 m a b) a 1 := by
  intro x hx
  rw [store8, if_neg (by omega)]

theorem memset_eqOutside (m : Mem) (p : Nat) (b : BitVec 8) (n : Nat) :
    EqOutside m (memset m p b n) p n := by
  intro x hx
  rw [memset, if_neg (by omega)]

theorem memcpy_eqOutside (m : Mem) (dst src n : Nat) : EqOutside m (memcpy m dst src n) dst n := by
  intro x hx
  rw [memcpy, if_neg (by omega)]

theorem memset_apply (m : Mem) (p : Nat) (b : BitVec 8) {n j : Nat} (h : j < n) :
    memset m p b n (p + j) = b := by
  rw [memset, if_pos (by omega)]

theorem memcpy_apply (m : Mem) (dst src : Nat) {n j : Nat} (h : j < n) :
    memcpy m dst src n (dst + j) = m (src + j) := by
  rw [memcpy, if_pos (by omega), Nat.add_sub_cancel_left]

/-- A word outside the changed area keeps its value. -/
theorem EqOutside.load64 {m m' : Mem} {a n b : Nat} (h : EqOutside m m' a n)
    (hb : b + 8 ≤ a ∨ a + n ≤ b) : load64 m' b = load64 m b := by
  have hbyte : ∀ i, i < 8 → m' (b + i) = m (b + i) := fun i hi => h _ (by omega)
  have h0 := hbyte 0 (by omega)
  simp only [Nat.add_zero] at h0
  simp only [ByteMemory.load64, h0, hbyte _ (show 1 < 8 by omega), hbyte _ (show 2 < 8 by omega),
    hbyte _ (show 3 < 8 by omega), hbyte _ (show 4 < 8 by omega), hbyte _ (show 5 < 8 by omega),
    hbyte _ (show 6 < 8 by omega), hbyte _ (show 7 < 8 by omega)]

/-- A stored word is read back. -/
theorem load64_store64 (m : Mem) (a : Nat) (w : BitVec 64) : load64 (store64 m a w) a = w := by
  have hbyte : ∀ i, i < 8 → store64 m a w (a + i) = w.extractLsb' (8 * i) 8 := fun i hi => by
    rw [store64, if_pos (by omega), Nat.add_sub_cancel_left]
  have h0 := hbyte 0 (by omega)
  simp only [Nat.add_zero] at h0
  rw [load64, h0, hbyte 1 (by omega), hbyte 2 (by omega), hbyte 3 (by omega), hbyte 4 (by omega),
    hbyte 5 (by omega), hbyte 6 (by omega), hbyte 7 (by omega)]
  apply BitVec.eq_of_getLsbD_eq
  intro i hi
  simp only [BitVec.getLsbD_append, BitVec.getLsbD_extractLsb']
  grind

end ByteMemory
