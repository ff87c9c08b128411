import Mathlib

/-! Lists of consecutive pieces that cover a stretch of addresses without gap or overlap. A piece is
any value with a first address `lo` and a length `len`. -/

namespace Tiling

variable {α : Type} (lo len : α → Nat)

/-- The pieces `xs`, in order, cover exactly `[a, b)`. -/
def Tiles : Nat → List α → Nat → Prop
  | a, [], b => a = b
  | a, x :: xs, b => lo x = a ∧ Tiles (a + len x) xs b

variable {lo len}

theorem Tiles.le {a b : Nat} {xs : List α} (h : Tiles lo len a xs b) : a ≤ b := by
  induction xs generalizing a with
  | nil => exact le_of_eq h
  | cons x xs ih => exact (Nat.le_add_right a (len x)).trans (ih h.2)

/-- A new piece goes at the end of the covered stretch. -/
theorem Tiles.concat {a b : Nat} {xs : List α} (h : Tiles lo len a xs b) {x : α} (hx : lo x = b) :
    Tiles lo len a (xs ++ [x]) (b + len x) := by
  induction xs generalizing a with
  | nil =>
      obtain rfl : a = b := h
      exact ⟨hx, rfl⟩
  | cons y ys ih => exact ⟨h.1, ih h.2⟩

theorem Tiles.bounds {a b : Nat} {xs : List α} (h : Tiles lo len a xs b) {x : α} (hx : x ∈ xs) :
    a ≤ lo x ∧ lo x + len x ≤ b := by
  induction xs generalizing a with
  | nil => cases hx
  | cons y ys ih =>
      rcases List.mem_cons.mp hx with rfl | hx
      · have := h.2.le
        have := h.1
        omega
      · have := ih h.2 hx
        omega

/-- Two pieces are the same one, or one ends before the other begins. -/
theorem Tiles.apart {a b : Nat} {xs : List α} (h : Tiles lo len a xs b) {x y : α} (hx : x ∈ xs)
    (hy : y ∈ xs) : x = y ∨ lo x + len x ≤ lo y ∨ lo y + len y ≤ lo x := by
  induction xs generalizing a with
  | nil => cases hx
  | cons z zs ih =>
      obtain ⟨hz, hzs⟩ := h
      rcases List.mem_cons.mp hx with hxz | hx' <;> rcases List.mem_cons.mp hy with hyz | hy'
      · exact .inl (hxz.trans hyz.symm)
      · have := (hzs.bounds hy').1
        subst hxz
        exact .inr (.inl (by omega))
      · have := (hzs.bounds hx').1
        subst hyz
        exact .inr (.inr (by omega))
      · exact ih hzs hx' hy'

/-- Non-empty pieces are known by their first address. -/
theorem Tiles.eq_of_lo_eq {a b : Nat} {xs : List α} (h : Tiles lo len a xs b)
    (hpos : ∀ x ∈ xs, 0 < len x) {x y : α} (hx : x ∈ xs) (hy : y ∈ xs) (hxy : lo x = lo y) : x = y := by
  have hxpos := hpos x hx
  have hypos := hpos y hy
  rcases h.apart hx hy with h | h | h
  · exact h
  all_goals omega

/-- Pieces whose lengths are multiples of `k` keep the alignment of the start. -/
theorem Tiles.dvd {k a b : Nat} {xs : List α} (h : Tiles lo len a xs b) (ha : k ∣ a)
    (hlen : ∀ x ∈ xs, k ∣ len x) : k ∣ b ∧ ∀ x ∈ xs, k ∣ lo x := by
  induction xs generalizing a with
  | nil =>
      obtain rfl : a = b := h
      exact ⟨ha, fun x hx => by cases hx⟩
  | cons y ys ih =>
      obtain ⟨hb, hys⟩ := ih h.2 ((Nat.dvd_add_right ha).mpr (hlen y List.mem_cons_self))
        fun x hx => hlen x (List.mem_cons_of_mem _ hx)
      refine ⟨hb, fun x hx => ?_⟩
      rcases List.mem_cons.mp hx with rfl | hx
      · exact h.1 ▸ ha
      · exact hys x hx

/-- The lengths of the pieces add up to the length of the stretch. -/
theorem Tiles.sum_len {a b : Nat} {xs : List α} (h : Tiles lo len a xs b) : a + (xs.map len).sum = b := by
  induction xs generalizing a with
  | nil => exact h
  | cons x xs ih =>
      rw [List.map_cons, List.sum_cons, ← Nat.add_assoc]
      exact ih h.2

/-- Non-empty pieces come in the order of their addresses. -/
theorem Tiles.pairwise_lt {a b : Nat} {xs : List α} (h : Tiles lo len a xs b) (hpos : ∀ x ∈ xs, 0 < len x) :
    (xs.map lo).Pairwise (· < ·) := by
  induction xs generalizing a with
  | nil => exact List.Pairwise.nil
  | cons x xs ih =>
      obtain ⟨hx, hxs⟩ := List.forall_mem_cons.mp hpos
      refine List.pairwise_cons.mpr ⟨fun y hy => ?_, ih h.2 hxs⟩
      obtain ⟨z, hz, rfl⟩ := List.mem_map.mp hy
      have hbounds := (h.2.bounds hz).1
      have hlo := h.1
      omega

end Tiling
