import CsoLabs.CLang

/-! The arithmetic of `htable.c`, with every `int` operation checked: the hash code of a key and the prime
sizes of the table. The functions stop where a sum, a product or a counter leaves the range of `int`, or
where a search does not end.

The running hash is kept near the range `0 .. BIG_PRIME` by a remainder and one conditional subtraction, and
a plain `char` is signed, so a byte from 128 on subtracts. Only the index of the loop can overflow. The search
for a prime meets one at `INT_MAX` at the latest. -/

namespace CsoLabs.Table
open CLang

/-- A key: the bytes before the terminating zero. -/
structure CString where
  bytes : List (BitVec 8)
  nonzero : ∀ b ∈ bytes, b ≠ 0
  deriving DecidableEq

/-- The string in a buffer. -/
def CString.ofBuffer (buffer : List (BitVec 8)) : CString :=
  ⟨buffer.takeWhile (· ≠ 0), fun b hb => by
    have hkept := List.mem_takeWhile_imp hb
    exact of_decide_eq_true hkept⟩

/-- Every byte is in `1 .. 127`. -/
def CString.IsAscii (s : CString) : Prop := ∀ b ∈ s.bytes, b.toNat < 128

instance decidableIsAscii (s : CString) : Decidable s.IsAscii :=
  decidable_of_iff (s.bytes.all fun b => b.toNat < 128)
    (by simp only [List.all_eq_true, decide_eq_true_eq, CString.IsAscii])

/-- `BIG_PRIME` -/
def bigPrime : Int := 1560007

def madd (a b : Int) : Except Abort Int := do
  let sum ← checkInt (a + b)
  if sum > bigPrime then checkInt (sum - bigPrime) else return sum

def mmul (a b : Int) : Except Abort Int := do
  let product ← checkInt (a * b)
  return product.tmod bigPrime

/-- The assignment in the loop of `hashcode`. -/
def hashStep (p : Int) (c : BitVec 8) : Except Abort Int := do
  let product ← mmul p 256
  madd product (charToInt c)

/-- The loop of `hashcode`, whose index `i` is an `int` too. -/
def hashLoop : List (BitVec 8) → Int → Int → Except Abort Int
  | [], _, p => .ok p
  | c :: cs, i, p => do
      let p ← hashStep p c
      let i ← checkInt (i + 1)
      hashLoop cs i p

def hashcode (s : CString) : Except Abort Int := hashLoop s.bytes 0 0

/-- The odd trial divisors from `i` on. -/
def isPrimeLoop (n : Int) : Nat → Int → Except Abort Bool
  | 0, _ => .error .diverges
  | fuel + 1, i =>
      if i < n then
        if n.tmod i = 0 then .ok false
        else do
          let i ← checkInt (i + 2)
          isPrimeLoop n fuel i
      else .ok true

def isPrime (n : Int) : Except Abort Bool :=
  if n ≤ 3 then .ok true else if n.tmod 2 = 0 then .ok false else isPrimeLoop n n.toNat 3

def getPrimeLoop : Nat → Int → Except Abort Int
  | 0, _ => .error .diverges
  | fuel + 1, n => do
      let prime ← isPrime n
      if prime then return n
      else
        let n ← checkInt (n + 1)
        getPrimeLoop fuel n

/-- There are no more candidates than this. -/
def getPrime (min : Int) : Except Abort Int := getPrimeLoop ((intMax - min).toNat + 1) min

/-! ### The numbers themselves -/

/-- What `mmul` computes, as a function on the integers. -/
def mmulValue (a b : Int) : Int := (a * b).tmod bigPrime

/-- What `madd` computes. -/
def maddValue (a b : Int) : Int := if a + b > bigPrime then a + b - bigPrime else a + b

def stepValue (p : Int) (c : BitVec 8) : Int := maddValue (mmulValue p 256) (charToInt c)

/-- What `hashcode` computes, for a string of any length. -/
def hashValue (s : CString) : Int := s.bytes.foldl stepValue 0

/-! ### Hash codes -/

theorem charToInt_bounds (c : BitVec 8) : -128 ≤ charToInt c ∧ charToInt c ≤ 127 := by
  have hlt := charToInt_lt c
  have hle := c.le_toInt
  simp only [charToInt] at hlt ⊢
  omega

theorem charToInt_of_lt {c : BitVec 8} (h : c.toNat < 128) : charToInt c = c.toNat := by
  rw [charToInt, BitVec.toInt_eq_toNat_of_lt (by omega)]

theorem mmulValue_bounds (a b : Int) : -bigPrime < mmulValue a b ∧ mmulValue a b < bigPrime := by
  have hlt := Int.tmod_lt_of_pos (a * b) (show 0 < bigPrime by decide)
  have hgt := Int.lt_tmod_of_pos (a * b) (show 0 < bigPrime by decide)
  exact ⟨hgt, hlt⟩

theorem mmulValue_nonneg {a b : Int} (ha : 0 ≤ a) (hb : 0 ≤ b) : 0 ≤ mmulValue a b :=
  Int.tmod_nonneg _ (Int.mul_nonneg ha hb)

/-- The running hash never leaves this range, whatever the bytes. -/
theorem stepValue_bounds (p : Int) (c : BitVec 8) :
    -(bigPrime + 128) < stepValue p c ∧ stepValue p c ≤ bigPrime := by
  have hmul := mmulValue_bounds p 256
  have hc := charToInt_bounds c
  simp only [stepValue, maddValue, bigPrime] at hmul ⊢
  split_ifs
  · omega
  · omega

theorem stepValue_nonneg {p : Int} {c : BitVec 8} (hp : 0 ≤ p) (hc : c.toNat < 128) : 0 ≤ stepValue p c := by
  have hmul := mmulValue_nonneg hp (show (0 : Int) ≤ 256 by decide)
  rw [stepValue, maddValue, charToInt_of_lt hc]
  split
  · omega
  · omega

theorem hashValue_bounds (s : CString) : -(bigPrime + 128) < hashValue s ∧ hashValue s ≤ bigPrime := by
  rw [hashValue]
  rcases List.eq_nil_or_concat' s.bytes with hnil | ⟨cs, c, hcs⟩
  · rw [hnil]
    decide
  · rw [hcs, List.foldl_concat]
    exact stepValue_bounds _ c

theorem foldl_stepValue_nonneg {cs : List (BitVec 8)} {p : Int} (hp : 0 ≤ p) (hcs : ∀ c ∈ cs, c.toNat < 128) :
    0 ≤ cs.foldl stepValue p := by
  induction cs generalizing p with
  | nil => exact hp
  | cons c cs ih =>
      obtain ⟨hc, hcs⟩ := List.forall_mem_cons.mp hcs
      exact ih (stepValue_nonneg hp hc) hcs

theorem CString.IsAscii.hashValue_nonneg {s : CString} (h : s.IsAscii) : 0 ≤ hashValue s :=
  foldl_stepValue_nonneg le_rfl h

/-! ### The `int`s of the loop -/

/-- From a hash in the range that the steps keep to, one step overflows nowhere. -/
theorem hashStep_eq {p : Int} (hp : -(bigPrime + 128) < p) (hp' : p ≤ bigPrime) (c : BitVec 8) :
    hashStep p c = .ok (stepValue p c) := by
  have hmul := mmulValue_bounds p 256
  have hc := charToInt_bounds c
  have hproduct : checkInt (p * 256) = .ok (p * 256) := by
    simp only [bigPrime] at hp hp'
    exact checkInt_of_abs_le (by simp only [intMax]; omega) (by simp only [intMax]; omega)
  have hmmul : mmul p 256 = .ok (mmulValue p 256) := by
    simp only [mmul, hproduct, ok_bind, pure_eq_ok, mmulValue]
  simp only [bigPrime] at hmul
  have hsum : checkInt (mmulValue p 256 + charToInt c) = .ok (mmulValue p 256 + charToInt c) :=
    checkInt_of_abs_le (by simp only [intMax]; omega) (by simp only [intMax]; omega)
  simp only [hashStep, hmmul, ok_bind, madd, hsum, stepValue, maddValue]
  by_cases hbig : mmulValue p 256 + charToInt c > bigPrime
  · rw [if_pos hbig, if_pos hbig]
    simp only [bigPrime] at hbig ⊢
    exact checkInt_of_le (by omega) (by simp only [intMax]; omega)
  · rw [if_neg hbig, if_neg hbig, pure_eq_ok]

/-- The loop stops only at the index. -/
theorem hashLoop_eq {cs : List (BitVec 8)} {i p : Int} (hi : 0 ≤ i) (hi' : i ≤ intMax) (hp : -(bigPrime + 128) < p)
    (hp' : p ≤ bigPrime) :
    hashLoop cs i p = if i + cs.length ≤ intMax then .ok (cs.foldl stepValue p) else .error .intOverflow := by
  induction cs generalizing i p with
  | nil => rw [hashLoop, List.length_nil, if_pos (by omega), List.foldl_nil]
  | cons c cs ih =>
      have hstep := stepValue_bounds p c
      rw [hashLoop, hashStep_eq hp hp', ok_bind, List.length_cons, List.foldl_cons]
      by_cases hlt : i + 1 ≤ intMax
      · have hlen : i + 1 + (cs.length : Int) = i + ((cs.length + 1 : Nat) : Int) := by omega
        rw [checkInt_of_le (by omega) hlt, ok_bind, ih (by omega) hlt hstep.1 hstep.2, hlen]
      · rw [checkInt_of_lt (by omega), error_bind, if_neg (by omega)]

/-- `hashcode` returns, whatever the bytes, as long as the string is not longer than `INT_MAX`. -/
theorem hashcode_eq (s : CString) :
    hashcode s = if (s.bytes.length : Int) ≤ intMax then .ok (hashValue s) else .error .intOverflow := by
  have hloop := @hashLoop_eq s.bytes 0 0 le_rfl (by decide) (by decide) (by decide)
  rw [zero_add] at hloop
  exact hloop

theorem hashValue_of_hashcode {s : CString} {h : Int} (hok : hashcode s = .ok h) : h = hashValue s := by
  rw [hashcode_eq] at hok
  split_ifs at hok
  exact (Except.ok.inj hok).symm

/-- A key that has a hash code, and one that is not negative. -/
structure CString.Hashes (key : CString) : Prop where
  short : (key.bytes.length : Int) ≤ intMax
  nonneg : 0 ≤ hashValue key

theorem CString.Hashes.hashcode_eq {key : CString} (h : key.Hashes) : hashcode key = .ok (hashValue key) := by
  rw [Table.hashcode_eq, if_pos h.short]

theorem CString.IsAscii.hashes {key : CString} (h : key.IsAscii) (hshort : (key.bytes.length : Int) ≤ intMax) :
    key.Hashes :=
  ⟨hshort, h.hashValue_nonneg⟩

theorem hashcode_overflow {s : CString} (hlong : intMax < s.bytes.length) : hashcode s = .error .intOverflow := by
  rw [hashcode_eq, if_neg (by omega)]

/-! ### Prime sizes -/

/-- The loop tells whether one of the trial divisors divides `n`. -/
theorem isPrimeLoop_eq {n i fuel : Nat} (hi : 0 < i) (hin : i ≤ n) (hmax : (n : Int) ≤ intMax) (hn : n % 2 = 1)
    (hodd : i % 2 = 1) (hfuel : n < i + 2 * fuel) :
    ∃ b, isPrimeLoop n fuel i = .ok b ∧ (b = true ↔ ∀ j, i ≤ j → j < n → j % 2 = 1 → ¬ j ∣ n) := by
  induction fuel generalizing i with
  | zero => omega
  | succ fuel ih =>
      have hmod : ((n : Int).tmod i = 0) ↔ i ∣ n := by
        rw [← Int.dvd_iff_tmod_eq_zero, Int.natCast_dvd_natCast]
      rw [isPrimeLoop]
      by_cases hlt : i < n
      · rw [if_pos (by exact_mod_cast hlt)]
        by_cases hdvd : i ∣ n
        · rw [if_pos (hmod.mpr hdvd)]
          exact ⟨false, rfl, iff_of_false (by decide) fun hall => hall i le_rfl hlt hodd hdvd⟩
        · -- `n` is odd, so the next divisor is at most `n`
          have hnext := checkInt_of_le (show (0 : Int) ≤ (i + 2 : Nat) by omega) (by omega)
          rw [if_neg (mt hmod.mp hdvd), show ((i : Int) + 2) = ((i + 2 : Nat) : Int) by omega, hnext, ok_bind]
          obtain ⟨b, hrun, hb⟩ := ih (show 0 < i + 2 by omega) (by omega) (by omega) (by omega)
          refine ⟨b, hrun, hb.trans ⟨fun hall j hij hjn hpar => ?_, fun hall j hij => hall j (by omega)⟩⟩
          rcases Nat.lt_or_ge j (i + 2) with hj | hj
          · obtain rfl : j = i := by omega
            exact hdvd
          · exact hall j hj hjn hpar
      · rw [if_neg (by exact_mod_cast hlt)]
        exact ⟨true, rfl, iff_of_true rfl fun j hij hjn => by omega⟩

theorem isPrime_eq {n : Nat} (hn : 2 ≤ n) (hmax : (n : Int) ≤ intMax) :
    isPrime n = .ok (decide n.Prime) := by
  rw [isPrime]
  by_cases hsmall : n ≤ 3
  · rw [if_pos (by exact_mod_cast hsmall)]
    interval_cases n
    · rw [decide_eq_true Nat.prime_two]
    · rw [decide_eq_true Nat.prime_three]
  rw [if_neg (by exact_mod_cast hsmall)]
  by_cases heven : 2 ∣ n
  · rw [if_pos (Int.tmod_eq_zero_of_dvd (by exact_mod_cast heven)), decide_eq_false]
    intro hprime
    have := (Nat.prime_dvd_prime_iff_eq Nat.prime_two hprime).mp heven
    omega
  obtain ⟨b, hrun, hb⟩ := @isPrimeLoop_eq n 3 n (by decide) (by omega) hmax (by omega) rfl (by omega)
  rw [if_neg (fun h => heven (by exact_mod_cast Int.dvd_of_tmod_eq_zero h)), Int.toNat_natCast]
  refine Eq.trans hrun (congrArg Except.ok (Bool.eq_iff_iff.mpr ?_))
  rw [hb, decide_eq_true_eq]
  constructor
  · intro hall
    -- the least factor is odd, so the loop has tried it
    have hfac := Nat.minFac_dvd n
    have hfacPrime := Nat.minFac_prime (n := n) (by omega)
    have hodd : ¬ 2 ∣ n.minFac := fun h => heven (h.trans hfac)
    have htwo := hfacPrime.two_le
    rcases Nat.lt_or_ge n.minFac n with hlt | hge
    · exact absurd hfac (hall _ (by omega) hlt (by omega))
    · exact (Nat.le_antisymm (Nat.minFac_le (by omega)) hge) ▸ hfacPrime
  · intro hprime j hj hjn _ hdvd
    rcases (Nat.dvd_prime hprime).mp hdvd with h | h <;> omega

/-- The least prime that is at least `n`. -/
def nextPrime (n : Nat) : Nat := Nat.find (Nat.exists_infinite_primes n)

theorem nextPrime_prime (n : Nat) : (nextPrime n).Prime := (Nat.find_spec (Nat.exists_infinite_primes n)).2

theorem le_nextPrime (n : Nat) : n ≤ nextPrime n := (Nat.find_spec (Nat.exists_infinite_primes n)).1

theorem nextPrime_le {n q : Nat} (hq : q.Prime) (h : n ≤ q) : nextPrime n ≤ q :=
  Nat.find_min' (Nat.exists_infinite_primes n) ⟨h, hq⟩

theorem nextPrime_eq_self {n : Nat} (h : n.Prime) : nextPrime n = n :=
  Nat.le_antisymm (nextPrime_le h le_rfl) (le_nextPrime n)

theorem nextPrime_succ {n : Nat} (h : ¬ n.Prime) : nextPrime (n + 1) = nextPrime n := by
  refine Nat.le_antisymm (nextPrime_le (nextPrime_prime n) ?_)
    (nextPrime_le (nextPrime_prime (n + 1)) (Nat.le_of_succ_le (le_nextPrime (n + 1))))
  refine Nat.lt_of_le_of_ne (le_nextPrime n) fun heq => h ?_
  exact heq ▸ nextPrime_prime n

/-- `INT_MAX` is itself prime, so the search ends before `n++` can overflow. -/
theorem prime_intMax : (2 ^ 31 - 1).Prime :=
  lucas_lehmer_sufficiency 31 (by norm_num) (by norm_num)

theorem nextPrime_le_intMax {n : Nat} (h : (n : Int) ≤ intMax) : (nextPrime n : Int) ≤ intMax := by
  have hle := nextPrime_le (n := n) prime_intMax (by simp only [intMax] at h; omega)
  simp only [intMax]
  omega

theorem getPrimeLoop_eq {n fuel : Nat} (hn : 2 ≤ n) (hmax : (n : Int) ≤ intMax)
    (hfuel : nextPrime n < n + fuel) : getPrimeLoop fuel n = .ok (nextPrime n : Int) := by
  induction fuel generalizing n with
  | zero =>
      have := le_nextPrime n
      omega
  | succ fuel ih =>
      rw [getPrimeLoop, isPrime_eq hn hmax, ok_bind]
      by_cases hprime : n.Prime
      · rw [decide_eq_true hprime, if_pos rfl, nextPrime_eq_self hprime, pure_eq_ok]
      · have hne : (n : Int) ≠ intMax := by
          rintro heq
          refine hprime ?_
          have : n = 2 ^ 31 - 1 := by simp only [intMax] at heq; omega
          exact this ▸ prime_intMax
        have hsucc := nextPrime_succ hprime
        rw [decide_eq_false hprime, if_neg Bool.false_ne_true, checkInt_of_le (by omega) (by omega), ok_bind, ← hsucc]
        exact_mod_cast ih (n := n + 1) (by omega) (by push_cast; omega) (by omega)

theorem getPrime_eq {n : Nat} (hn : 2 ≤ n) (hmax : (n : Int) ≤ intMax) :
    getPrime n = .ok (nextPrime n : Int) := by
  have hle := nextPrime_le_intMax hmax
  exact getPrimeLoop_eq hn hmax (by omega)

end CsoLabs.Table
