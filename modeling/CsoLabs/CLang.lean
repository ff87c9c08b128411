import Mathlib

/-! What C programs of a 64-bit machine share: the integer types, on which `int` has 32 bits and plain
`char` is signed, and the ways a program stops other than by returning.

A `size_t` is a bit vector. An `int` is the integer it denotes, brought back into range where a
conversion narrows it. Signed overflow is undefined in C, so `int` arithmetic has no wrapping
operation here: a model that can overflow says so with `Abort.intOverflow`. Where a sum is brought into
range all the same, the model says why that is harmless. -/

namespace CLang

/-- A `size_t`. -/
abbrev SizeT := BitVec 64

/-- `INT_MAX`. -/
def intMax : Int := 2 ^ 31 - 1

/-- The value of a wide integer converted to `int`: the low 32 bits, read in two's complement. -/
def toInt (z : Int) : Int := z.bmod (2 ^ 32)

/-- An `int` converted to `size_t`. -/
def toSizeT (z : Int) : SizeT := BitVec.ofInt 64 z

/-- The value of a plain `char`. -/
def charToInt (b : BitVec 8) : Int := b.toInt

theorem toInt_of_le {n : Int} (h0 : 0 ≤ n) (h : n ≤ intMax) : toInt n = n := by
  simp only [intMax] at h
  rw [toInt, Int.bmod_eq_of_le] <;> omega

/-- A value past `INT_MAX` that still fits in 32 bits turns negative. -/
theorem toInt_neg {n : Int} (h : intMax < n) (h' : n < 2 ^ 32) : toInt n < 0 := by
  simp only [intMax] at h
  rw [toInt, Int.bmod_def]
  omega

theorem toNat_toSizeT {n : Int} (h0 : 0 ≤ n) (h : n ≤ intMax) : (toSizeT n).toNat = n.toNat := by
  simp only [intMax] at h
  rw [toSizeT, BitVec.toNat_ofInt]
  omega

theorem charToInt_lt (b : BitVec 8) : charToInt b < 128 := by
  have := b.toInt_lt
  simpa [charToInt] using this

/-- A byte below 128 is read back unchanged. -/
theorem charToInt_ofInt {n : Int} (h0 : 0 ≤ n) (h : n < 128) : charToInt (BitVec.ofInt 8 n) = n := by
  rw [charToInt, BitVec.toInt_ofInt, Int.bmod_eq_of_le] <;> omega

/-- Clearing the low four bits rounds down to a multiple of 16. -/
theorem toNat_and_not_fifteen (x : SizeT) : (x &&& ~~~15#64).toNat = x.toNat / 16 * 16 := by
  have hshift : x &&& ~~~15#64 = (x >>> 4) <<< 4 := by
    apply BitVec.eq_of_getLsbD_eq
    intro i hi
    rw [BitVec.getLsbD_and, BitVec.getLsbD_not, BitVec.getLsbD_shiftLeft, BitVec.getLsbD_ushiftRight]
    by_cases h4 : i < 4
    · have h15 : (15#64).getLsbD i = true := by interval_cases i <;> rfl
      simp [h15, h4]
    · have h15 : (15#64).getLsbD i = false := by
        rw [BitVec.getLsbD_ofNat, Nat.testBit_lt_two_pow, Bool.and_false]
        exact lt_of_lt_of_le (by norm_num : 15 < 2 ^ 4) (Nat.pow_le_pow_right (by norm_num) (by omega))
      rw [h15, Nat.add_sub_cancel' (Nat.le_of_not_lt h4)]
      simp only [hi, h4, decide_true, decide_false, Bool.not_false, Bool.and_true, Bool.true_and]
  have := x.isLt
  rw [hshift, BitVec.toNat_shiftLeft, BitVec.toNat_ushiftRight, Nat.shiftLeft_eq,
    Nat.shiftRight_eq_div_pow]
  omega

/-! ### Stopping without a result -/

/-- How a program stops other than by returning: an assertion with its text, `exit` with the message
it prints, or one of the accesses and computations C leaves undefined. -/
inductive Abort where
  | assertion (expr : String)
  | exit (message : String)
  | outOfBounds
  | invalidPointer
  | intOverflow
  | diverges
  deriving DecidableEq, Repr

/-- `assert(b)`, with the text of the asserted expression. -/
def assertC (b : Bool) (expr : String) : Except Abort Unit :=
  if b then .ok () else .error (.assertion expr)

/-- The value of an `int` expression, if it is one. -/
def checkInt (z : Int) : Except Abort Int :=
  if -intMax - 1 ≤ z ∧ z ≤ intMax then .ok z else .error .intOverflow

/-- The value of a `long long` expression, if it is one. -/
def checkLong (z : Int) : Except Abort Int :=
  if -2 ^ 63 ≤ z ∧ z < 2 ^ 63 then .ok z else .error .intOverflow

@[simp] theorem pure_eq_ok {ε α : Type} (a : α) : (pure a : Except ε α) = .ok a := rfl

-- not by `rfl`: a definitional unfolding would let the kernel evaluate the conditions inside `f a`
@[simp] theorem ok_bind {ε α β : Type} (a : α) (f : α → Except ε β) : (Except.ok a >>= f) = f a := by
  cases h : f a with
  | error e => exact h
  | ok b => exact h

@[simp] theorem error_bind {ε α β : Type} (e : ε) (f : α → Except ε β) :
    ((Except.error e : Except ε α) >>= f) = .error e := rfl

@[simp] theorem assertC_true (expr : String) : assertC true expr = .ok () := rfl

theorem checkInt_of_le {z : Int} (h0 : 0 ≤ z) (h : z ≤ intMax) : checkInt z = .ok z :=
  if_pos ⟨by simp only [intMax]; omega, h⟩

theorem checkInt_of_abs_le {z : Int} (h0 : -intMax ≤ z) (h : z ≤ intMax) : checkInt z = .ok z :=
  if_pos ⟨by omega, h⟩

theorem checkLong_of_lt {z : Int} (h0 : 0 ≤ z) (h : z < 2 ^ 63) : checkLong z = .ok z :=
  if_pos ⟨by omega, h⟩

theorem checkInt_of_lt {z : Int} (h : intMax < z) : checkInt z = .error .intOverflow :=
  if_neg fun hz => by omega

theorem bind_eq_ok {ε α β : Type} {x : Except ε α} {f : α → Except ε β} {b : β}
    (h : (x >>= f) = .ok b) : ∃ a, x = .ok a ∧ f a = .ok b := by
  cases x with
  | error e => cases h
  | ok a => exact ⟨a, rfl, h⟩

theorem bind_eq_error {ε α β : Type} {x : Except ε α} {f : α → Except ε β} {e : ε}
    (h : (x >>= f) = .error e) : x = .error e ∨ ∃ a, x = .ok a ∧ f a = .error e := by
  cases x with
  | error e' =>
      cases h
      exact .inl rfl
  | ok a => exact .inr ⟨a, rfl, h⟩

/-- A run is known to end when a part of its result can be computed. -/
theorem exists_eq_ok_of_map {ε α β : Type} {x : Except ε α} {g : α → β} {b : β} (h : x.map g = .ok b) :
    ∃ a, x = .ok a ∧ g a = b := by
  cases x with
  | error e => cases h
  | ok a => exact ⟨a, rfl, Except.ok.inj h⟩

theorem eq_error_of_map {ε α β : Type} {x : Except ε α} {g : α → β} {e : ε} (h : x.map g = .error e) :
    x = .error e := by
  cases x with
  | error e' => exact congrArg Except.error (Except.error.inj h)
  | ok a => cases h

theorem exists_eq_ok_of_map_fst {ε α β : Type} {x : Except ε (α × β)} {a : α} (h : x.map Prod.fst = .ok a) :
    ∃ b, x = .ok (a, b) := by
  obtain ⟨⟨a', b⟩, hx, rfl⟩ := exists_eq_ok_of_map h
  exact ⟨b, hx⟩

theorem assertC_eq_ok {b : Bool} {expr : String} {u : Unit} (h : assertC b expr = .ok u) : b = true := by
  cases b with
  | true => rfl
  | false => cases h

/-! ### Computations that do not stop in one way -/

/-- The computation does not stop with `e`, and what it returns satisfies `P`. -/
structure Avoids {α : Type} (e : Abort) (x : Except Abort α) (P : α → Prop) : Prop where
  ne_error : x ≠ .error e
  of_ok : ∀ a, x = .ok a → P a

namespace Avoids

variable {α β : Type} {e : Abort} {x : Except Abort α} {P : α → Prop} {Q : β → Prop}

theorem pure {a : α} (h : P a) : Avoids e (Pure.pure a) P := by
  constructor
  · intro heq
    cases heq
  · intro b hb
    cases hb
    exact h

theorem throw {e' : Abort} (h : e' ≠ e) : Avoids e (MonadExcept.throw e') P := by
  constructor
  · intro heq
    exact h (Except.error.inj heq)
  · intro b hb
    cases hb

theorem bind {f : α → Except Abort β} (hx : Avoids e x P) (hf : ∀ a, P a → Avoids e (f a) Q) :
    Avoids e (x >>= f) Q := by
  cases x with
  | ok a =>
      rw [ok_bind]
      exact hf a (hx.of_ok a rfl)
  | error e' => exact throw fun heq => hx.ne_error (congrArg Except.error heq)

theorem ite {c : Prop} [Decidable c] {y : Except Abort α} (hx : c → Avoids e x P) (hy : ¬ c → Avoids e y P) :
    Avoids e (if c then x else y) P := by
  by_cases hc : c
  · rw [if_pos hc]
    exact hx hc
  · rw [if_neg hc]
    exact hy hc

end Avoids

end CLang
