import CsoLabs.TableLimits

/-! Which keys lead outside the array. A slot is the C remainder of a hash code, so it is negative for a
negative hash code that the size does not divide. The running hash falls below zero when a byte from 128
on meets a small remainder, and it then stays negative until a byte lifts it over zero again. -/

namespace CsoLabs.Table
open CLang

variable {α : Type}

/-- The bytes as digits of base 256, each read as a signed `char`. -/
def signedValue (cs : List (BitVec 8)) : Int := cs.foldl (fun v c => 256 * v + charToInt c) 0

/-- After the bytes `cs`, the byte `c` is more negative than the remainder it is added to. -/
def Drops (cs : List (BitVec 8)) (c : BitVec 8) : Prop := 256 * signedValue cs % bigPrime + charToInt c < 0

/-- After the bytes `cs`, the byte `c` is at least what is missing to a multiple of `BIG_PRIME`. -/
def Rises (cs : List (BitVec 8)) (c : BitVec 8) : Prop := -(256 * signedValue cs) % bigPrime ≤ charToInt c

/-- Some byte drops, and no later one rises. -/
def EndsBelow (cs : List (BitVec 8)) : Prop :=
  ∃ i < cs.length, Drops (cs.take i) (cs.getD i 0) ∧ ∀ j, i < j → j < cs.length → ¬ Rises (cs.take j) (cs.getD j 0)

theorem signedValue_concat (cs : List (BitVec 8)) (c : BitVec 8) :
    signedValue (cs ++ [c]) = 256 * signedValue cs + charToInt c :=
  List.foldl_concat ..

/-! ### The sign of a hash code -/

theorem not_rises_of_drops {cs : List (BitVec 8)} {c : BitVec 8} (h : Drops cs c) : ¬ Rises cs c := by
  have hmod := Int.emod_nonneg (256 * signedValue cs) (show bigPrime ≠ 0 by decide)
  have hmod' := Int.emod_nonneg (-(256 * signedValue cs)) (show bigPrime ≠ 0 by decide)
  simp only [Drops, Rises] at h ⊢
  omega

/-- The product of `mmul` as a remainder of its own sign. -/
theorem mmulValue_eq_emod {p v : Int} (hv : p ≡ v [ZMOD bigPrime]) :
    mmulValue p 256 = if 0 ≤ p then 256 * v % bigPrime else -(-(256 * v) % bigPrime) := by
  have hmul : 256 * p ≡ 256 * v [ZMOD bigPrime] := hv.mul_left 256
  rw [mmulValue, mul_comm]
  split_ifs with hp
  · rw [Int.tmod_eq_emod_of_nonneg (by omega)]
    exact hmul
  · have hneg := Int.tmod_eq_emod_of_nonneg (show 0 ≤ -(256 * p) by omega) (b := bigPrime)
    rw [Int.neg_tmod] at hneg
    have hmod : -(256 * p) % bigPrime = -(256 * v) % bigPrime := hmul.neg
    rw [← hmod, ← hneg, neg_neg]

theorem tmod_modEq (a n : Int) : a.tmod n ≡ a [ZMOD n] := by
  rw [Int.tmod_def, Int.modEq_iff_dvd, sub_sub_cancel]
  exact dvd_mul_right n _

theorem stepValue_modEq {p v : Int} (hv : p ≡ v [ZMOD bigPrime]) (c : BitVec 8) :
    stepValue p c ≡ 256 * v + charToInt c [ZMOD bigPrime] := by
  have hmul : mmulValue p 256 ≡ 256 * v [ZMOD bigPrime] := by
    rw [mmulValue, mul_comm]
    exact (tmod_modEq _ _).trans (hv.mul_left 256)
  rw [stepValue, maddValue]
  split_ifs
  · exact (Int.sub_modulus_modEq_iff.mpr Int.ModEq.rfl).trans (hmul.add_right _)
  · exact hmul.add_right _

theorem stepValue_neg_iff {p : Int} {cs : List (BitVec 8)} (hv : p ≡ signedValue cs [ZMOD bigPrime]) (c : BitVec 8) :
    stepValue p c < 0 ↔ Drops cs c ∨ (p < 0 ∧ ¬ Rises cs c) := by
  have hc := charToInt_bounds c
  have hmod := Int.emod_nonneg (256 * signedValue cs) (show bigPrime ≠ 0 by decide)
  have hmod' := Int.emod_nonneg (-(256 * signedValue cs)) (show bigPrime ≠ 0 by decide)
  have hexcl : Drops cs c → ¬ Rises cs c := not_rises_of_drops
  -- the subtraction of `madd` leaves a positive number
  have hmadd : stepValue p c < 0 ↔ mmulValue p 256 + charToInt c < 0 := by
    rw [stepValue, maddValue, bigPrime]
    split_ifs <;> omega
  rw [hmadd, mmulValue_eq_emod hv]
  split_ifs with hp
  · rw [Drops]
    omega
  · rw [Rises] at hexcl ⊢
    constructor
    · intro hneg
      exact .inr ⟨by omega, by omega⟩
    · rintro (hdrop | ⟨-, hrise⟩)
      · have := hexcl hdrop
        omega
      · omega

theorem endsBelow_concat (cs : List (BitVec 8)) (c : BitVec 8) :
    EndsBelow (cs ++ [c]) ↔ Drops cs c ∨ (EndsBelow cs ∧ ¬ Rises cs c) := by
  have hbefore : ∀ i, i < cs.length → (cs ++ [c]).take i = cs.take i ∧ (cs ++ [c]).getD i 0 = cs.getD i 0 := by
    intro i hi
    rw [List.take_append_of_le_length hi.le, List.getD_append _ _ _ _ hi]
    exact ⟨rfl, rfl⟩
  have hlast : (cs ++ [c]).take cs.length = cs ∧ (cs ++ [c]).getD cs.length 0 = c := by
    rw [List.take_left, List.getD_append_right _ _ _ _ le_rfl, Nat.sub_self]
    exact ⟨rfl, rfl⟩
  have hlen : (cs ++ [c]).length = cs.length + 1 := List.length_append
  constructor
  · rintro ⟨i, hi, hdrop, hstay⟩
    rcases Nat.lt_or_ge i cs.length with hlt | hge
    · have hend := hstay cs.length hlt (by omega)
      rw [hlast.1, hlast.2] at hend
      rw [(hbefore i hlt).1, (hbefore i hlt).2] at hdrop
      refine .inr ⟨⟨i, hlt, hdrop, fun j hij hj => ?_⟩, hend⟩
      have hj' := hstay j hij (by omega)
      rwa [(hbefore j hj).1, (hbefore j hj).2] at hj'
    · obtain rfl : i = cs.length := by omega
      rw [hlast.1, hlast.2] at hdrop
      exact .inl hdrop
  · rintro (hdrop | ⟨⟨i, hi, hdrop, hstay⟩, hend⟩)
    · refine ⟨cs.length, by omega, by rwa [hlast.1, hlast.2], fun j hij hj => ?_⟩
      omega
    · refine ⟨i, by omega, by rwa [(hbefore i hi).1, (hbefore i hi).2], fun j hij hj => ?_⟩
      rcases Nat.lt_or_ge j cs.length with hlt | hge
      · rw [(hbefore j hlt).1, (hbefore j hlt).2]
        exact hstay j hij hlt
      · obtain rfl : j = cs.length := by omega
        rwa [hlast.1, hlast.2]

theorem foldl_stepValue_sign (cs : List (BitVec 8)) :
    cs.foldl stepValue 0 ≡ signedValue cs [ZMOD bigPrime] ∧ (cs.foldl stepValue 0 < 0 ↔ EndsBelow cs) := by
  induction cs using List.reverseRecOn with
  | nil =>
      refine ⟨Int.ModEq.rfl, iff_of_false (by decide) ?_⟩
      rintro ⟨i, hi, -⟩
      exact absurd hi (Nat.not_lt_zero i)
  | append_singleton cs c ih =>
      rw [List.foldl_concat, signedValue_concat, endsBelow_concat, ← ih.2]
      exact ⟨stepValue_modEq ih.1 c, stepValue_neg_iff ih.1 c⟩

theorem hashValue_neg_iff (s : CString) : hashValue s < 0 ↔ EndsBelow s.bytes := (foldl_stepValue_sign s.bytes).2

/-- The hash code of a key of bytes `1 .. 127` is the remainder of its value, unless that is zero. -/
theorem CString.IsAscii.hashValue_eq {s : CString} (h : s.IsAscii) (hne : signedValue s.bytes % bigPrime ≠ 0) :
    hashValue s = signedValue s.bytes % bigPrime := by
  have hmod : hashValue s % bigPrime = signedValue s.bytes % bigPrime := (foldl_stepValue_sign s.bytes).1
  have hlt : hashValue s ≠ bigPrime := by
    intro heq
    rw [heq, Int.emod_self] at hmod
    exact hne hmod.symm
  rw [← hmod, Int.emod_eq_of_lt h.hashValue_nonneg (lt_of_le_of_ne (hashValue_bounds s).2 hlt)]

/-! ### The array -/

/-- A negative hash code is its own slot in a large table. -/
theorem insert_outOfBounds {ht : Htable α} {key : CString} (hlen : (key.bytes.length : Int) ≤ intMax)
    (hneg : hashValue key < 0) (hsize : bigPrime + 128 ≤ ht.size) (val : Option α) :
    htableInsert ht key val = .error .outOfBounds := by
  have hbounds := hashValue_bounds key
  have hslot : (hashValue key).tmod ht.size = hashValue key := by
    have habs := Int.tmod_eq_of_lt (show 0 ≤ -hashValue key by omega) (show -hashValue key < ht.size by omega)
    rw [Int.neg_tmod] at habs
    exact neg_injective habs
  have hget : ht.store.get (hashValue key) = .error .outOfBounds := by
    rw [Slots.get, if_neg]
    omega
  rw [htableInsert, hashcode_eq, if_pos hlen, ok_bind]
  dsimp only
  rw [hslot, hget]
  rfl

/-- An insertion whose hash code is not negative makes a table again, or stops at a counter. -/
theorem insert_inBounds {ht : Htable α} {chains : Nat → List Nat} (h : TableInv ht chains) {key : CString}
    (hkey : key.Hashes) (val : Option α) :
    Avoids .outOfBounds (htableInsert ht key val) fun r => ∃ chains', TableInv r.2 chains' := by
  rcases htableInsert_cases h hkey val with ⟨hrefines, -⟩ | ⟨-, -, hover⟩
  · cases hdict : ht.abs.insert key val with
    | ok rd =>
        rw [hdict] at hrefines
        obtain ⟨ht', chains', hok, hinv, -⟩ := hrefines
        rw [hok]
        exact Avoids.pure ⟨chains', hinv⟩
    | error e =>
        rw [hdict, Dict.insert_error hdict] at hrefines
        have hover : htableInsert ht key val = .error .intOverflow := hrefines
        rw [hover]
        exact Avoids.throw (by decide)
  · rw [hover]
    exact Avoids.throw (by decide)

theorem exec_inBounds {ht : Htable α} {chains : Nat → List Nat} (h : TableInv ht chains) {op : Op α}
    (hkey : (op.key.bytes.length : Int) ≤ intMax → 0 ≤ hashValue op.key) :
    Avoids .outOfBounds (ht.exec op) fun r => ∃ chains', TableInv r.2 chains' := by
  by_cases hlen : (op.key.bytes.length : Int) ≤ intMax
  · have hhashes : op.key.Hashes := ⟨hlen, hkey hlen⟩
    cases op with
    | insert key val =>
        rw [Htable.exec]
        exact (insert_inBounds h hhashes val).bind fun _ hinv => Avoids.pure hinv
    | lookup key =>
        have hlookup := htableLookup_eq h (show key.Hashes from hhashes)
        rw [Htable.exec, hlookup, ok_bind]
        exact Avoids.pure ⟨chains, h⟩
  · rw [exec_longKey (lt_of_not_ge hlen)]
    exact Avoids.throw (by decide)

theorem run_inBounds {ht : Htable α} {chains : Nat → List Nat} (h : TableInv ht chains) {ops : List (Op α)}
    (hkeys : ∀ op ∈ ops, (op.key.bytes.length : Int) ≤ intMax → 0 ≤ hashValue op.key) :
    Avoids .outOfBounds (ht.run ops) fun _ => True := by
  induction ops generalizing ht chains with
  | nil => exact Avoids.pure trivial
  | cons op ops ih =>
      obtain ⟨hkey, hkeys⟩ := List.forall_mem_cons.mp hkeys
      rw [Htable.run]
      refine (exec_inBounds h hkey).bind ?_
      rintro ⟨a, ht₁⟩ ⟨chains₁, hinv₁⟩
      exact (ih hinv₁ hkeys).bind fun _ _ => Avoids.pure trivial

/-- **Which keys stay in bounds.** Whatever the size of the table, the resizing and the calls, no slot lies
outside the array if no key of at most `INT_MAX` bytes ends below zero; and a key that does is out of bounds in some
table. A longer key has no slot. -/
theorem slots_inBounds_iff (keys : Set CString) :
    (∀ (sz allowResize : Int) (ops : List (Op α)), 1 ≤ sz → sz < intMax → (∀ op ∈ ops, op.key ∈ keys) →
      runFrom sz allowResize ops ≠ .error .outOfBounds) ↔
      ∀ key ∈ keys, (key.bytes.length : Int) ≤ intMax → ¬ EndsBelow key.bytes := by
  constructor
  · intro hsafe key hkey hlen hbelow
    obtain ⟨ht, hinit, -, -, -, hsize⟩ := htableInit_ok (α := α) (show (1 : Int) ≤ 2000000 by decide) (by decide) 0
    refine hsafe 2000000 0 [.insert key none] (by decide) (by decide) ?_ ?_
    · intro op hop
      rw [List.mem_singleton.mp hop]
      exact hkey
    · have hle := le_nextPrime (Int.toNat 2000000 + 1)
      have hlarge : bigPrime + 128 ≤ ht.size := by
        rw [hsize, bigPrime]
        omega
      have hinsert := insert_outOfBounds hlen ((hashValue_neg_iff key).mpr hbelow) hlarge none
      rw [runFrom, hinit, ok_bind, Htable.run, Htable.exec, hinsert]
      rfl
  · intro hkeys sz allowResize ops h1 hsz hops
    obtain ⟨ht, hinit, hinv, -⟩ := htableInit_ok (α := α) h1 hsz allowResize
    have hcodes : ∀ op ∈ ops, (op.key.bytes.length : Int) ≤ intMax → 0 ≤ hashValue op.key := fun op hop hlen =>
      not_lt.mp (mt (hashValue_neg_iff op.key).mp (hkeys op.key (hops op hop) hlen))
    rw [runFrom, hinit, ok_bind]
    exact (run_inBounds hinv hcodes).ne_error

/-- The key of the one byte 255 has the hash code -1, and -1 is its slot. -/
theorem slot_outOfBounds_byte255 :
    hashcode (.ofBuffer [255]) = .ok (-1) ∧
      (runFrom 10 1 [Op.insert (.ofBuffer [255]) (some 0)]).map Prod.fst = .error .outOfBounds := by
  decide +kernel

end CsoLabs.Table
