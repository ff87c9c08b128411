import CsoLabs.TableBounds

/-! What the arithmetic of `htable.c` computes. The hash code of a string of bytes `1 .. 127` is the
representative in `1 .. BIG_PRIME` of a polynomial in 256, and `get_prime` returns the least prime that is at
least its argument. -/

namespace CsoLabs.Table
open CLang

/-! ### The hash code as a polynomial -/

/-- The sum of `s[i] * 256^(n-1-i)`. -/
def polynomial (cs : List (BitVec 8)) : Int :=
  ∑ i ∈ Finset.range cs.length, ((cs.getD i 0).toNat : Int) * 256 ^ (cs.length - 1 - i)

theorem polynomial_concat (cs : List (BitVec 8)) (c : BitVec 8) :
    polynomial (cs ++ [c]) = 256 * polynomial cs + c.toNat := by
  have hlast : (cs ++ [c]).getD cs.length 0 = c := by
    rw [List.getD_append_right _ _ _ _ le_rfl, Nat.sub_self]
    rfl
  rw [polynomial, List.length_append, List.length_singleton, Finset.sum_range_succ, hlast, Nat.add_sub_cancel,
    Nat.sub_self, pow_zero, mul_one, polynomial, Finset.mul_sum]
  congr 1
  apply Finset.sum_congr rfl
  intro i hi
  have hlt := Finset.mem_range.mp hi
  rw [List.getD_append _ _ _ _ hlt, show cs.length - i = cs.length - 1 - i + 1 by omega, pow_succ]
  ring

theorem polynomial_eq_signedValue {cs : List (BitVec 8)} (hcs : ∀ c ∈ cs, c.toNat < 128) :
    polynomial cs = signedValue cs := by
  induction cs using List.reverseRecOn with
  | nil => rfl
  | append_singleton cs c ih =>
      rw [polynomial_concat, signedValue_concat, ih fun b hb => hcs b (List.mem_append_left _ hb),
        charToInt_of_lt (hcs c (by simp))]

/-- At every iteration, of a string of any length. -/
theorem hashStep_of_split (pre : List (BitVec 8)) (c : BitVec 8) :
    hashStep (pre.foldl stepValue 0) c = .ok ((pre ++ [c]).foldl stepValue 0) := by
  have hrange : -(bigPrime + 128) < pre.foldl stepValue 0 ∧ pre.foldl stepValue 0 ≤ bigPrime := by
    rcases List.eq_nil_or_concat' pre with rfl | ⟨cs, b, rfl⟩
    · decide
    · rw [List.foldl_concat]
      exact stepValue_bounds _ b
  rw [List.foldl_concat]
  exact hashStep_eq hrange.1 hrange.2 c

namespace CString.IsAscii

variable {s t : CString}

theorem hashValue_modEq (h : s.IsAscii) : hashValue s ≡ polynomial s.bytes [ZMOD bigPrime] := by
  rw [polynomial_eq_signedValue h]
  exact (foldl_stepValue_sign s.bytes).1

/-- The last byte is not zero, and `madd` subtracts only from what exceeds `BIG_PRIME`. -/
theorem hashValue_pos (h : s.IsAscii) (hne : s.bytes ≠ []) : 1 ≤ hashValue s := by
  obtain ⟨cs, c, hcs⟩ := (List.eq_nil_or_concat' s.bytes).resolve_left hne
  have hmem : ∀ b ∈ cs ++ [c], b.toNat < 128 := hcs ▸ h
  have hc : c.toNat ≠ 0 := by
    intro hzero
    refine s.nonzero c (by rw [hcs]; simp) (BitVec.eq_of_toNat_eq hzero)
  have hmul := mmulValue_nonneg (foldl_stepValue_nonneg le_rfl fun b hb => hmem b (List.mem_append_left _ hb))
    (show (0 : Int) ≤ 256 by decide)
  rw [hashValue, hcs, List.foldl_concat, stepValue, maddValue, charToInt_of_lt (hmem c (by simp))]
  split_ifs
  · omega
  · omega

theorem hashValue_eq_iff (hs : s.IsAscii) (hsne : s.bytes ≠ []) (ht : t.IsAscii) (htne : t.bytes ≠ []) :
    hashValue s = hashValue t ↔ polynomial s.bytes ≡ polynomial t.bytes [ZMOD bigPrime] := by
  constructor
  · intro heq
    exact hs.hashValue_modEq.symm.trans (heq ▸ ht.hashValue_modEq)
  · intro hmod
    have hcong : hashValue s ≡ hashValue t [ZMOD bigPrime] :=
      (hs.hashValue_modEq.trans hmod).trans ht.hashValue_modEq.symm
    have hs1 := hs.hashValue_pos hsne
    have ht1 := ht.hashValue_pos htne
    have hs2 := (hashValue_bounds s).2
    have ht2 := (hashValue_bounds t).2
    -- both lie in `1 .. BIG_PRIME`, so their distance is less than the modulus
    have hdvd := Int.ModEq.dvd hcong
    have hzero := Int.eq_zero_of_abs_lt_dvd hdvd (by rw [abs_lt]; omega)
    omega

end CString.IsAscii

/-- **The hash code is a polynomial.** For a string of bytes `1 .. 127` the sums and products of every iteration are
`int` values. If there are no more bytes than the index can count, the call returns, and what it returns is the
representative in `1 .. BIG_PRIME` of the polynomial of the string. -/
theorem hashcode_polynomial (s : CString) (hne : s.bytes ≠ []) (hs : s.IsAscii) :
    (∀ pre c rest, s.bytes = pre ++ c :: rest →
      hashStep (pre.foldl stepValue 0) c = .ok ((pre ++ [c]).foldl stepValue 0)) ∧
    ((s.bytes.length : Int) ≤ intMax →
      (∃ h, hashcode s = .ok h ∧ 1 ≤ h ∧ h ≤ bigPrime ∧ h ≡ polynomial s.bytes [ZMOD bigPrime]) ∧
      ∀ t : CString, t.bytes ≠ [] → t.IsAscii → (t.bytes.length : Int) ≤ intMax →
        (hashcode s = hashcode t ↔ polynomial s.bytes ≡ polynomial t.bytes [ZMOD bigPrime])) := by
  refine ⟨fun pre c rest _ => hashStep_of_split pre c, fun hlen => ⟨?_, fun t htne ht htlen => ?_⟩⟩
  · exact ⟨hashValue s, (hs.hashes hlen).hashcode_eq, hs.hashValue_pos hne, (hashValue_bounds s).2, hs.hashValue_modEq⟩
  · rw [(hs.hashes hlen).hashcode_eq, (ht.hashes htlen).hashcode_eq, Except.ok.injEq]
    exact hs.hashValue_eq_iff hne ht htne

/-- The keys "ab" and "a", and what the call returns for the first. -/
theorem hashcode_polynomial_ab :
    (∃ h, hashcode (.ofBuffer [97, 98]) = .ok h ∧ 1 ≤ h ∧ h ≤ bigPrime ∧ h ≡ polynomial [97, 98] [ZMOD bigPrime]) ∧
      (hashcode (.ofBuffer [97, 98]) = hashcode (.ofBuffer [97]) ↔
        polynomial [97, 98] ≡ polynomial [97] [ZMOD bigPrime]) := by
  obtain ⟨hvalue, heq⟩ := (hashcode_polynomial (.ofBuffer [97, 98]) (by decide) (by decide)).2 (by decide)
  exact ⟨hvalue, heq (.ofBuffer [97]) (by decide) (by decide) (by decide)⟩

/-- One byte more than the index can count. -/
theorem hashcode_overflow_ones :
    (onesKey (2 ^ 31)).IsAscii ∧ (onesKey (2 ^ 31)).bytes ≠ [] ∧
      hashcode (onesKey (2 ^ 31)) = .error .intOverflow := by
  have hlen := length_onesKey (2 ^ 31)
  refine ⟨onesKey_isAscii _, fun hnil => ?_, hashcode_overflow (by rw [hlen]; decide)⟩
  rw [hnil, List.length_nil] at hlen
  omega

/-! ### The search for a prime -/

/-- **The search ends at the least prime.** Neither the candidate nor a trial divisor leaves the range of
`int` on the way, also when the search starts at `INT_MAX`. -/
theorem getPrime_least (min : Int) (h2 : 2 ≤ min) (hmax : min ≤ intMax) :
    ∃ p : Nat, getPrime min = .ok p ∧ p.Prime ∧ min ≤ p ∧ (p : Int) ≤ intMax ∧
      ∀ q : Nat, q.Prime → min ≤ q → p ≤ q := by
  obtain ⟨n, rfl⟩ := Int.eq_ofNat_of_zero_le (show 0 ≤ min by omega)
  have hcall := getPrime_eq (show 2 ≤ n by omega) hmax
  refine ⟨nextPrime n, hcall, nextPrime_prime n, ?_, nextPrime_le_intMax hmax, ?_⟩
  · exact_mod_cast le_nextPrime n
  · intro q hq hle
    exact nextPrime_le hq (by exact_mod_cast hle)

theorem getPrime_least_intMax :
    (2 : Int) ≤ intMax ∧ ∃ p : Nat, getPrime intMax = .ok p ∧ p.Prime ∧ intMax ≤ p ∧ (p : Int) ≤ intMax ∧
      ∀ q : Nat, q.Prime → intMax ≤ q → p ≤ q :=
  ⟨by decide, getPrime_least intMax (by decide) le_rfl⟩

end CsoLabs.Table
