import Mathlib.Logic.Basic

/-! Computations that may stop with an error: what a result of one satisfies, and two of them side by side, where
the second is what the first looks like from a point of view that forgets a part of its state. -/

namespace Fallible

variable {ε α β : Type}

/-! ### When there is a result -/

theorem unit_bind_eq_ok_iff {x : Except ε Unit} {f : Unit → Except ε β} {b : β} :
    (x >>= f) = .ok b ↔ x = .ok () ∧ f () = .ok b := by
  cases x with
  | error e => exact iff_of_false nofun fun h => nomatch h.1
  | ok u => exact (and_iff_right rfl).symm

/-- A computation with one possible result, and what follows it. -/
theorem bind_eq_ok_iff_of {x : Except ε α} {a : α} {P : Prop} (hx : ∀ {a'}, x = .ok a' ↔ P ∧ a' = a)
    {f : α → Except ε β} {b : β} : (x >>= f) = .ok b ↔ P ∧ f a = .ok b := by
  constructor
  · intro hrun
    cases hval : x with
    | error e =>
        rw [hval] at hrun
        cases hrun
    | ok a' =>
        obtain ⟨hP, rfl⟩ := hx.mp hval
        rw [hval] at hrun
        exact ⟨hP, hrun⟩
  · rintro ⟨hP, hrun⟩
    rw [hx.mpr ⟨hP, rfl⟩]
    exact hrun

theorem ite_ok_eq_ok_iff {c : Prop} [Decidable c] {x : Except ε Unit} {u : Unit} :
    (if c then x else .ok ()) = .ok u ↔ (c → x = .ok u) := by
  by_cases hc : c
  · rw [if_pos hc]
    exact ⟨fun h _ => h, fun h => h hc⟩
  · rw [if_neg hc]
    exact iff_of_true rfl fun h => absurd h hc

/-! ### What a result satisfies -/

/-- Whatever the computation returns satisfies `P`; it may stop with any error. -/
def Ensures (x : Except ε α) (P : α → Prop) : Prop := ∀ a, x = .ok a → P a

namespace Ensures

variable {x : Except ε α} {P Q : α → Prop} {R : β → Prop}

theorem pure {a : α} (h : P a) : Ensures (Pure.pure a : Except ε α) P := by
  intro b hb
  cases hb
  exact h

theorem throw (e : ε) : Ensures (MonadExcept.throw e : Except ε α) P := by
  intro b hb
  cases hb

theorem trivial (x : Except ε α) : Ensures x fun _ => True := fun _ _ => True.intro

theorem mono (h : Ensures x P) (himp : ∀ a, P a → Q a) : Ensures x Q := fun a ha => himp a (h a ha)

theorem bind {f : α → Except ε β} (hx : Ensures x P) (hf : ∀ a, P a → Ensures (f a) R) : Ensures (x >>= f) R := by
  intro b hb
  cases x with
  | error e => cases hb
  | ok a => exact hf a (hx a rfl) b hb

theorem ite {c : Prop} [Decidable c] {y : Except ε α} (hx : c → Ensures x P) (hy : ¬ c → Ensures y P) :
    Ensures (if c then x else y) P := by
  by_cases hc : c
  · rw [if_pos hc]
    exact hx hc
  · rw [if_neg hc]
    exact hy hc

end Ensures

/-! ### One computation behind another -/

section

variable {S S' T T' : Type}

/-- `y` is `x` as `f` shows it, the errors included, and a result of `x` satisfies `P`. -/
def Simulates (f : S → T) (P : S → Prop) (x : Except ε S) (y : Except ε T) : Prop :=
  match x with
  | .error e => y = .error e
  | .ok s => y = .ok (f s) ∧ P s

namespace Simulates

variable {f : S → T} {g : S' → T'} {P Q : S → Prop} {x : Except ε S} {y : Except ε T}

theorem ok {s : S} (h : P s) : Simulates f P (.ok s : Except ε S) (.ok (f s)) := ⟨rfl, h⟩

theorem error (e : ε) : Simulates f P (.error e) (.error e) := rfl

theorem refl {x : Except ε S} (h : Ensures x P) : Simulates id P x x := by
  cases x with
  | error e => exact error e
  | ok s => exact ok (h s rfl)

theorem mono (h : Simulates f P x y) (himp : ∀ s, P s → Q s) : Simulates f Q x y := by
  cases x with
  | error e => exact h
  | ok s => exact ⟨h.1, himp s h.2⟩

theorem bind {next : S → Except ε S'} {next' : T → Except ε T'} {R : S' → Prop} (h : Simulates f P x y)
    (hnext : ∀ s, P s → Simulates g R (next s) (next' (f s))) : Simulates g R (x >>= next) (y >>= next') := by
  cases x with
  | error e =>
      rw [show y = .error e from h]
      exact error e
  | ok s =>
      obtain ⟨rfl, hs⟩ := h
      exact hnext s hs

theorem ite {c : Prop} [Decidable c] {x' : Except ε S} {y' : Except ε T} (h : c → Simulates f P x y)
    (h' : ¬ c → Simulates f P x' y') : Simulates f P (if c then x else x') (if c then y else y') := by
  by_cases hc : c
  · rw [if_pos hc, if_pos hc]
    exact h hc
  · rw [if_neg hc, if_neg hc]
    exact h' hc

theorem map_eq (h : Simulates f P x y) : x.map f = y := by
  cases x with
  | error e => exact (show y = .error e from h).symm
  | ok s => exact h.1.symm

end Simulates

end

end Fallible
