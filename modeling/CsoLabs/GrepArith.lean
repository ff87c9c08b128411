import CsoLabs.CLang

/-! The modular helpers of `rkgrep.c` and the expressions that are made of them. A difference of equal numbers
is `PRIME` and not 0, so that the helpers keep the interval from 0 to `PRIME` and not the residues below it;
sums and products bring every such number back to its residue. -/

namespace CsoLabs.Grep
open CLang

/-- `PRIME` -/
def prime : Int := 961748941

def madd (a b : Int) : Except Abort Int := do
  let sum ← checkLong (a + b)
  return sum.tmod prime

def msub (a b : Int) : Except Abort Int :=
  if a > b then checkLong (a - b)
  else do
    let sum ← checkLong (a + prime)
    checkLong (sum - b)

def mmul (a b : Int) : Except Abort Int := do
  let product ← checkLong (a * b)
  return product.tmod prime

/-- The numbers the helpers are given and return. -/
def InRange (a : Int) : Prop := 0 ≤ a ∧ a ≤ prime

instance decidableInRange (a : Int) : Decidable (InRange a) := inferInstanceAs (Decidable (_ ∧ _))

/-! ### Single calls -/

theorem emod_inRange (z : Int) : InRange (z % prime) :=
  ⟨Int.emod_nonneg z (by decide), (Int.emod_lt_of_pos z (by decide)).le⟩

section

variable {a b : Int}

theorem madd_eq (ha : InRange a) (hb : InRange b) : madd a b = .ok ((a + b) % prime) := by
  obtain ⟨ha0, hap⟩ := ha
  obtain ⟨hb0, hbp⟩ := hb
  have hsum : a + b < 2 ^ 63 :=
    calc a + b ≤ prime + prime := Int.add_le_add hap hbp
      _ < 2 ^ 63 := by decide
  rw [madd, checkLong_of_lt (by omega) hsum, ok_bind, pure_eq_ok, Int.tmod_eq_emod_of_nonneg (by omega)]

theorem mmul_eq (ha : InRange a) (hb : InRange b) : mmul a b = .ok ((a * b) % prime) := by
  obtain ⟨ha0, hap⟩ := ha
  obtain ⟨hb0, hbp⟩ := hb
  have hnonneg : 0 ≤ a * b := Int.mul_nonneg ha0 hb0
  have hproduct : a * b < 2 ^ 63 :=
    calc a * b ≤ prime * prime := Int.mul_le_mul hap hbp hb0 (by decide)
      _ < 2 ^ 63 := by decide
  rw [mmul, checkLong_of_lt hnonneg hproduct, ok_bind, pure_eq_ok, Int.tmod_eq_emod_of_nonneg hnonneg]

theorem msub_eq (ha : InRange a) (hb : InRange b) :
    msub a b = .ok (if a > b then a - b else a + prime - b) := by
  obtain ⟨ha0, hap⟩ := ha
  obtain ⟨hb0, hbp⟩ := hb
  simp only [prime] at hap hbp
  unfold msub
  split_ifs with hgt
  · exact checkLong_of_lt (by omega) (by omega)
  · rw [checkLong_of_lt (by simp only [prime]; omega) (by simp only [prime]; omega), ok_bind]
    exact checkLong_of_lt (by simp only [prime]; omega) (by simp only [prime]; omega)

/-- A difference stays in the interval, which has `PRIME` for equal numbers. -/
theorem msub_inRange (ha : InRange a) (hb : InRange b) : InRange (if a > b then a - b else a + prime - b) := by
  obtain ⟨ha0, hap⟩ := ha
  obtain ⟨hb0, hbp⟩ := hb
  split_ifs with hgt
  · exact ⟨by omega, by omega⟩
  · exact ⟨by omega, by omega⟩

theorem msub_modEq (a b : Int) : (if a > b then a - b else a + prime - b) ≡ a - b [ZMOD prime] := by
  split_ifs with hgt
  · exact Int.ModEq.refl _
  · have hshift : a + prime - b = a - b + prime := by ring
    rw [hshift]
    exact Int.add_modEq_right

end

/-! ### Expressions -/

/-- An operand from 0 to `PRIME`. -/
structure Operand where
  value : Int
  inRange : InRange value

inductive Expr where
  | leaf (operand : Operand)
  | madd (left right : Expr)
  | msub (left right : Expr)
  | mmul (left right : Expr)

namespace Expr

def eval : Expr → Except Abort Int
  | .leaf operand => .ok operand.value
  | .madd left right => do
      let a ← left.eval
      let b ← right.eval
      Grep.madd a b
  | .msub left right => do
      let a ← left.eval
      let b ← right.eval
      Grep.msub a b
  | .mmul left right => do
      let a ← left.eval
      let b ← right.eval
      Grep.mmul a b

/-- The same expression over the integers. -/
def integerValue : Expr → Int
  | .leaf operand => operand.value
  | .madd left right => left.integerValue + right.integerValue
  | .msub left right => left.integerValue - right.integerValue
  | .mmul left right => left.integerValue * right.integerValue

/-- The last call is `madd` or `mmul`. -/
def EndsReduced : Expr → Prop
  | .madd _ _ => True
  | .mmul _ _ => True
  | _ => False

/-- The last call is `msub`, or there is none and the operand is `PRIME`. -/
def MayBePrime : Expr → Prop
  | .leaf operand => operand.value = prime
  | .msub _ _ => True
  | _ => False

end Expr

theorem emod_ne_prime (z : Int) : z % prime ≠ prime := (Int.emod_lt_of_pos z (by decide)).ne

/-- **Expressions over the helpers stay reduced.** Every expression, and with it each of its nodes, evaluates
without overflow to a number from 0 to `PRIME` that is congruent to its value over the integers; behind a sum
or a product it is the residue, and only a difference can be `PRIME` without having been one before. -/
theorem eval_reduced (e : Expr) :
    ∃ v, e.eval = .ok v ∧ InRange v ∧ v ≡ e.integerValue [ZMOD prime] ∧ (e.EndsReduced → v = e.integerValue % prime) ∧
      (v = prime → e.MayBePrime) := by
  induction e with
  | leaf operand => exact ⟨operand.value, rfl, operand.inRange, Int.ModEq.refl _, False.elim, id⟩
  | madd left right ihl ihr =>
      obtain ⟨a, hleft, ha, haMod, -, -⟩ := ihl
      obtain ⟨b, hright, hb, hbMod, -, -⟩ := ihr
      have hmod : (a + b) % prime = (left.integerValue + right.integerValue) % prime := haMod.add hbMod
      refine ⟨(a + b) % prime, ?_, emod_inRange _, ?_, fun _ => hmod, fun hv => absurd hv (emod_ne_prime _)⟩
      · rw [Expr.eval, hleft, ok_bind, hright, ok_bind, madd_eq ha hb]
      · exact (Int.mod_modEq _ _).trans hmod
  | msub left right ihl ihr =>
      obtain ⟨a, hleft, ha, haMod, -, -⟩ := ihl
      obtain ⟨b, hright, hb, hbMod, -, -⟩ := ihr
      refine ⟨_, ?_, msub_inRange ha hb, ?_, False.elim, fun _ => trivial⟩
      · rw [Expr.eval, hleft, ok_bind, hright, ok_bind, msub_eq ha hb]
      · exact (msub_modEq a b).trans (haMod.sub hbMod)
  | mmul left right ihl ihr =>
      obtain ⟨a, hleft, ha, haMod, -, -⟩ := ihl
      obtain ⟨b, hright, hb, hbMod, -, -⟩ := ihr
      have hmod : (a * b) % prime = (left.integerValue * right.integerValue) % prime := haMod.mul hbMod
      refine ⟨(a * b) % prime, ?_, emod_inRange _, ?_, fun _ => hmod, fun hv => absurd hv (emod_ne_prime _)⟩
      · rw [Expr.eval, hleft, ok_bind, hright, ok_bind, mmul_eq ha hb]
      · exact (Int.mod_modEq _ _).trans hmod

example : (Expr.msub (.leaf ⟨5, by decide⟩) (.leaf ⟨5, by decide⟩)).eval = .ok prime := by decide

end CsoLabs.Grep
