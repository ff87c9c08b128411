import Mathlib

/-! The `k` smallest elements of a list, in ascending order and with their repetitions. Such a selection is kept up
to date when the list grows at its end: the new element is added while the selection is not full, takes the place
of the largest one kept if it is below it, and is dropped otherwise. -/

namespace KSmallest

variable {α : Type} [LinearOrder α] {k : Nat} {v w : α} {kept kept' xs : List α}

/-- `kept` holds the `k` smallest elements of `xs` in ascending order, or all of them if there are fewer. -/
structure IsSmallest (k : Nat) (kept xs : List α) : Prop where
  sorted : kept.Pairwise (· ≤ ·)
  length_eq : kept.length = min xs.length k
  exists_rest : ∃ rest, (kept ++ rest).Perm xs ∧ ∀ a ∈ kept, ∀ b ∈ rest, a ≤ b

theorem isSmallest_nil (k : Nat) : IsSmallest k ([] : List α) [] := by
  refine ⟨List.Pairwise.nil, (Nat.zero_min k).symm, [], List.Perm.refl [], ?_⟩
  intro a ha
  cases ha

namespace IsSmallest

/-- The selection is the beginning of the sorted list. -/
theorem eq_take (h : IsSmallest k kept xs) : kept = (xs.insertionSort (· ≤ ·)).take (min xs.length k) := by
  obtain ⟨rest, hperm, hle⟩ := h.exists_rest
  have hsorted : (kept ++ rest.insertionSort (· ≤ ·)).Pairwise (· ≤ ·) := by
    refine List.pairwise_append.mpr ⟨h.sorted, List.pairwise_insertionSort _ rest, ?_⟩
    intro a ha b hb
    exact hle a ha b ((List.mem_insertionSort _).mp hb)
  have hsame : (kept ++ rest.insertionSort (· ≤ ·)).Perm (xs.insertionSort (· ≤ ·)) :=
    calc List.Perm (kept ++ rest.insertionSort (· ≤ ·)) (kept ++ rest) :=
          List.Perm.append_left kept (List.perm_insertionSort _ rest)
      List.Perm _ xs := hperm
      List.Perm _ (xs.insertionSort (· ≤ ·)) := (List.perm_insertionSort _ xs).symm
  rw [← hsame.eq_of_pairwise' hsorted (List.pairwise_insertionSort _ xs), ← h.length_eq, List.take_left]

/-- The new element is kept while there is room. -/
theorem add (h : IsSmallest k kept xs) (hroom : xs.length < k) (hsorted : kept'.Pairwise (· ≤ ·))
    (hperm : kept'.Perm (v :: kept)) : IsSmallest k kept' (xs ++ [v]) := by
  obtain ⟨rest, hrest, -⟩ := h.exists_rest
  have hlen := h.length_eq
  have hnil : rest = [] := by
    have := hrest.length_eq
    rw [List.length_append] at this
    exact List.length_eq_zero_iff.mp (by omega)
  rw [hnil, List.append_nil] at hrest
  refine ⟨hsorted, ?_, [], ?_, ?_⟩
  · rw [hperm.length_eq, List.length_cons, List.length_append, List.length_singleton]
    omega
  · rw [List.append_nil]
    exact hperm.trans ((hrest.cons v).trans (List.perm_append_singleton v xs).symm)
  · intro a ha b hb
    cases hb

/-- The last element kept is the largest one. -/
theorem le_last (h : IsSmallest k (kept ++ [w]) xs) {a : α} (ha : a ∈ kept ++ [w]) : a ≤ w := by
  rcases List.mem_append.mp ha with ha | ha
  · exact (List.pairwise_append.mp h.sorted).2.2 a ha w (List.mem_singleton_self w)
  · exact (List.mem_singleton.mp ha).le

/-- The new element takes the place of the largest one kept. -/
theorem replace (h : IsSmallest k (kept ++ [w]) xs) (hfull : k ≤ xs.length) (hlt : v < w)
    (hsorted : kept'.Pairwise (· ≤ ·)) (hperm : kept'.Perm (v :: kept)) : IsSmallest k kept' (xs ++ [v]) := by
  obtain ⟨rest, hrest, hle⟩ := h.exists_rest
  have hlen := h.length_eq
  rw [List.length_append, List.length_singleton] at hlen
  refine ⟨hsorted, ?_, w :: rest, ?_, ?_⟩
  · rw [hperm.length_eq, List.length_cons, List.length_append, List.length_singleton]
    omega
  · calc List.Perm (kept' ++ w :: rest) (v :: kept ++ w :: rest) := hperm.append_right _
      _ = v :: (kept ++ [w] ++ rest) := by rw [List.cons_append, List.append_assoc, List.singleton_append]
      List.Perm _ (v :: xs) := hrest.cons v
      List.Perm _ (xs ++ [v]) := (List.perm_append_singleton v xs).symm
  · intro a ha b hb
    have hrange : a ≤ w := by
      rcases List.mem_cons.mp (hperm.mem_iff.mp ha) with rfl | ha
      · exact hlt.le
      · exact h.le_last (List.mem_append_left _ ha)
    rcases List.mem_cons.mp hb with rfl | hb
    · exact hrange
    · exact hrange.trans (hle w (List.mem_append_right kept (List.mem_singleton_self w)) b hb)

/-- The new element is not below what is kept. -/
theorem discard (h : IsSmallest k (kept ++ [w]) xs) (hfull : k ≤ xs.length) (hge : w ≤ v) :
    IsSmallest k (kept ++ [w]) (xs ++ [v]) := by
  obtain ⟨rest, hrest, hle⟩ := h.exists_rest
  refine ⟨h.sorted, ?_, rest ++ [v], ?_, ?_⟩
  · rw [h.length_eq, List.length_append, List.length_singleton]
    omega
  · rw [← List.append_assoc]
    exact hrest.append_right [v]
  · intro a ha b hb
    rcases List.mem_append.mp hb with hb | hb
    · exact hle a ha b hb
    · obtain rfl := List.mem_singleton.mp hb
      exact (h.le_last ha).trans hge

/-- The first element kept is the least one. -/
theorem isLeast_head (h : IsSmallest k (v :: kept) xs) : IsLeast {x | x ∈ xs} v := by
  obtain ⟨rest, hrest, hle⟩ := h.exists_rest
  constructor
  · exact hrest.mem_iff.mp List.mem_cons_self
  · intro b hb
    rcases List.mem_append.mp (hrest.mem_iff.mpr hb) with hb | hb
    · rcases List.mem_cons.mp hb with rfl | hb
      · exact le_rfl
      · exact (List.pairwise_cons.mp h.sorted).1 b hb
    · exact hle v List.mem_cons_self b hb

end IsSmallest

end KSmallest
