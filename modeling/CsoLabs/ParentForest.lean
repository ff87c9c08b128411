import Mathlib

/-! Items numbered in the order in which they are declared, each of which may name an earlier one as its parent. An
item is visited after its parent, and no item twice: when a list of items is asked for one after the other, each
brings with it the ancestors that have not been visited yet. -/

structure Forest (n : Nat) where
  parent : Fin n → Option (Fin n)
  parent_lt : ∀ {i p : Fin n}, parent i = some p → p < i

namespace Forest

variable {n : Nat} (f : Forest n) {i j p : Fin n} {done asked : List (Fin n)}

/-- A forest from the positions of the parents. -/
def ofNat (n : Nat) (parent : Nat → Option Nat) (hlt : ∀ {i p : Nat}, parent i = some p → p < i) : Forest n where
  parent i := match h : parent i with
    | none => none
    | some p => some ⟨p, (hlt h).trans i.isLt⟩
  parent_lt h := by
    split at h
    · cases h
    · rename_i p hp
      rw [← Option.some.inj h]
      exact hlt hp

theorem ofNat_parent {parent : Nat → Option Nat} (hlt : ∀ {i p : Nat}, parent i = some p → p < i) (i : Fin n) :
    ((ofNat n parent hlt).parent i).map Fin.val = parent i := by
  unfold ofNat
  dsimp only
  split
  · rename_i h
    exact h.symm
  · rename_i p h
    exact h.symm

theorem ofNat_parent_eq_some {parent : Nat → Option Nat} (hlt : ∀ {i p : Nat}, parent i = some p → p < i)
    {i p : Fin n} : (ofNat n parent hlt).parent i = some p ↔ parent i = some p.val := by
  rw [← ofNat_parent hlt, Option.map_eq_some_iff]
  constructor
  · intro h
    exact ⟨p, h, rfl⟩
  · rintro ⟨q, hq, hqp⟩
    rw [hq, Fin.ext hqp]

/-- The ancestors of an item from the root down, and the item itself. -/
def chain (i : Fin n) : List (Fin n) :=
  (match h : f.parent i with
    | none => []
    | some p =>
        have := f.parent_lt h
        chain p) ++ [i]
termination_by i

theorem chain_of_root (h : f.parent i = none) : f.chain i = [i] := by
  rw [chain]
  split
  · rfl
  · rename_i p hp
    rw [h] at hp
    cases hp

theorem chain_of_parent (h : f.parent i = some p) : f.chain i = f.chain p ++ [i] := by
  rw [chain]
  split
  · rename_i hp
    rw [h] at hp
    cases hp
  · rename_i q hq
    rw [h] at hq
    cases hq
    rfl

theorem mem_chain_self (i : Fin n) : i ∈ f.chain i := by
  rw [chain]
  exact List.mem_append_right _ (List.mem_singleton_self i)

/-- From the roots down. -/
@[elab_as_elim]
theorem induct {motive : Fin n → Prop} (root : ∀ i, f.parent i = none → motive i)
    (child : ∀ i p, f.parent i = some p → motive p → motive i) (i : Fin n) : motive i := by
  induction i using WellFoundedLT.induction with
  | ind i ih =>
      cases hp : f.parent i with
      | none => exact root i hp
      | some p => exact child i p hp (ih p (f.parent_lt hp))

theorem le_of_mem_chain (h : j ∈ f.chain i) : j ≤ i := by
  induction i using f.induct with
  | root i hroot =>
      rw [f.chain_of_root hroot] at h
      exact (List.mem_singleton.mp h).le
  | child i p hp ih =>
      rw [f.chain_of_parent hp] at h
      rcases List.mem_append.mp h with h | h
      · exact (ih h).trans (f.parent_lt hp).le
      · exact (List.mem_singleton.mp h).le

theorem pairwise_chain (i : Fin n) : (f.chain i).Pairwise (· < ·) := by
  induction i using f.induct with
  | root i hroot =>
      rw [f.chain_of_root hroot]
      exact List.pairwise_singleton _ i
  | child i p hp ih =>
      rw [f.chain_of_parent hp]
      refine List.pairwise_append.mpr ⟨ih, List.pairwise_singleton _ i, ?_⟩
      intro j hj k hk
      rw [List.mem_singleton.mp hk]
      exact lt_of_le_of_lt (f.le_of_mem_chain hj) (f.parent_lt hp)

theorem nodup_chain (i : Fin n) : (f.chain i).Nodup := (f.pairwise_chain i).imp fun h => h.ne

theorem parent_mem_chain (hj : j ∈ f.chain i) (hp : f.parent j = some p) : p ∈ f.chain i := by
  induction i using f.induct with
  | root i hroot =>
      rw [f.chain_of_root hroot] at hj
      rw [List.mem_singleton.mp hj, hroot] at hp
      cases hp
  | child i q hq ih =>
      rw [f.chain_of_parent hq] at hj ⊢
      rcases List.mem_append.mp hj with hj | hj
      · exact List.mem_append_left _ (ih hj)
      · rw [List.mem_singleton.mp hj, hq] at hp
        rw [← Option.some.inj hp]
        exact List.mem_append_left _ (f.mem_chain_self q)

/-- With every item, its parent has been visited. -/
def Closed (done : List (Fin n)) : Prop := ∀ j ∈ done, ∀ p, f.parent j = some p → p ∈ done

/-- With every item up to `i`, its parent has been visited. -/
def ClosedUpTo (done : List (Fin n)) (i : Fin n) : Prop :=
  ∀ j ∈ done, j ≤ i → ∀ p, f.parent j = some p → p ∈ done

theorem chain_subset_of_closed (hclosed : f.ClosedUpTo done i) (hi : i ∈ done) : ∀ j ∈ f.chain i, j ∈ done := by
  induction i using f.induct with
  | root i hroot =>
      intro j hj
      rw [f.chain_of_root hroot] at hj
      rwa [List.mem_singleton.mp hj]
  | child i p hp ih =>
      intro j hj
      have hclosed' : f.ClosedUpTo done p := fun k hk hkp => hclosed k hk (hkp.trans (f.parent_lt hp).le)
      rw [f.chain_of_parent hp] at hj
      rcases List.mem_append.mp hj with hj | hj
      · exact ih hclosed' (hclosed i hi le_rfl p hp) j hj
      · rwa [List.mem_singleton.mp hj]

/-! ### Visits -/

/-- What has to be visited for `i`. -/
def missing (done : List (Fin n)) (i : Fin n) : List (Fin n) := (f.chain i).filter fun j => j ∉ done

theorem mem_missing : j ∈ f.missing done i ↔ j ∉ done ∧ j ∈ f.chain i := by
  rw [missing, List.mem_filter, decide_eq_true_eq, and_comm]

theorem missing_of_mem (hclosed : f.ClosedUpTo done i) (hi : i ∈ done) : f.missing done i = [] := by
  apply List.filter_eq_nil_iff.mpr
  intro j hj
  rw [decide_eq_true_eq, not_not]
  exact f.chain_subset_of_closed hclosed hi j hj

theorem missing_of_root (hroot : f.parent i = none) (hi : i ∉ done) : f.missing done i = [i] := by
  rw [missing, f.chain_of_root hroot, List.filter_singleton, decide_eq_true hi]
  rfl

/-- The item itself comes last, and is not one of its ancestors. -/
theorem missing_of_parent (hp : f.parent i = some p) (hi : i ∉ done) :
    f.missing done i = f.missing (i :: done) p ++ [i] := by
  have hsame : (f.chain p).filter (fun j => j ∉ done) = f.missing (i :: done) p := by
    apply List.filter_congr
    intro j hj
    have hne : j ≠ i := (lt_of_le_of_lt (f.le_of_mem_chain hj) (f.parent_lt hp)).ne
    rw [decide_eq_decide, List.mem_cons, not_or]
    exact (and_iff_right hne).symm
  rw [missing, f.chain_of_parent hp, List.filter_append, hsame, List.filter_singleton, decide_eq_true hi]
  rfl

/-- The visits that asking for the items of a list causes, in order. -/
def visits : List (Fin n) → List (Fin n) → List (Fin n)
  | _, [] => []
  | done, i :: asked => f.missing done i ++ visits (f.missing done i ++ done) asked

/-- All that is asked for is visited, with its ancestors, and nothing else. -/
theorem mem_visits : j ∈ f.visits done asked ↔ j ∉ done ∧ ∃ i ∈ asked, j ∈ f.chain i := by
  induction asked generalizing done with
  | nil =>
      refine iff_of_false List.not_mem_nil ?_
      rintro ⟨-, i, hi, -⟩
      cases hi
  | cons i asked ih =>
      rw [visits, List.mem_append, ih, List.mem_append, mem_missing, List.exists_mem_cons_iff]
      tauto

theorem nodup_visits : (f.visits done asked).Nodup := by
  induction asked generalizing done with
  | nil => exact List.nodup_nil
  | cons i asked ih =>
      refine List.Nodup.append ((f.nodup_chain i).filter _) ih ?_
      intro j hj hj'
      exact (f.mem_visits.mp hj').1 (List.mem_append_left _ hj)

/-- Between two requests, every visited item has its parent visited too. -/
theorem closed_missing_append (hclosed : f.Closed done) (i : Fin n) : f.Closed (f.missing done i ++ done) := by
  intro j hj p hp
  rcases List.mem_append.mp hj with hj | hj
  · have hpi : p ∈ f.chain i := f.parent_mem_chain (f.mem_missing.mp hj).2 hp
    by_cases hdone : p ∈ done
    · exact List.mem_append_right _ hdone
    · exact List.mem_append_left _ (f.mem_missing.mpr ⟨hdone, hpi⟩)
  · exact List.mem_append_right _ (hclosed j hj p hp)

/-- What has been visited is closed if nothing was left out before. -/
theorem closed_visits : f.Closed (f.visits [] asked) := by
  intro j hj p hp
  obtain ⟨-, i, hi, hji⟩ := f.mem_visits.mp hj
  exact f.mem_visits.mpr ⟨List.not_mem_nil, i, hi, f.parent_mem_chain hji hp⟩

/-! ### Blocks -/

/-- An item with children is followed by them, and they have no children themselves. -/
structure Blocks : Prop where
  root : ∀ {i p : Fin n}, f.parent i = some p → f.parent p = none
  next : ∀ {i p j : Fin n}, f.parent i = some p → p < j → j ≤ i → f.parent j = some p

variable {f}

/-- What is missing comes after all that has been visited before. -/
theorem Blocks.lt_of_mem_missing (h : f.Blocks) (hclosed : f.Closed done) (hlt : ∀ j ∈ done, j < i)
    {k : Fin n} (hj : j ∈ done) (hk : k ∈ f.missing done i) : j < k := by
  obtain ⟨hnew, hki⟩ := f.mem_missing.mp hk
  cases hp : f.parent i with
  | none =>
      rw [f.chain_of_root hp] at hki
      rw [List.mem_singleton.mp hki]
      exact hlt j hj
  | some p =>
      rw [f.chain_of_parent hp, f.chain_of_root (h.root hp)] at hki
      rcases List.mem_pair.mp hki with rfl | rfl
      · refine lt_of_not_ge fun hge => ?_
        rcases hge.eq_or_lt with rfl | hgt
        · exact hnew hj
        · exact hnew (hclosed j hj k (h.next hp hgt (hlt j hj).le))
      · exact hlt j hj

/-- Asked for in order, the items of blocks are visited in order. -/
theorem Blocks.pairwise_visits (h : f.Blocks) (hclosed : f.Closed done) (hasked : asked.Pairwise (· < ·))
    (hlt : ∀ i ∈ asked, ∀ j ∈ done, j < i) :
    (f.visits done asked).Pairwise (· < ·) ∧ ∀ j ∈ done, ∀ k ∈ f.visits done asked, j < k := by
  induction asked generalizing done with
  | nil =>
      refine ⟨List.Pairwise.nil, ?_⟩
      intro j _ k hk
      cases hk
  | cons i asked ih =>
      obtain ⟨hi, hasked'⟩ := List.pairwise_cons.mp hasked
      have hdone : ∀ j ∈ done, j < i := hlt i List.mem_cons_self
      have hnext : ∀ k ∈ asked, ∀ j ∈ f.missing done i ++ done, j < k := by
        intro k hk j hj
        rcases List.mem_append.mp hj with hj | hj
        · exact lt_of_le_of_lt (f.le_of_mem_chain (f.mem_missing.mp hj).2) (hi k hk)
        · exact (hdone j hj).trans (hi k hk)
      obtain ⟨hrest, hbelow⟩ := ih (f.closed_missing_append hclosed i) hasked' hnext
      refine ⟨?_, ?_⟩
      · refine List.pairwise_append.mpr ⟨(f.pairwise_chain i).filter _, hrest, ?_⟩
        intro j hj k hk
        exact hbelow j (List.mem_append_left _ hj) k hk
      · intro j hj k hk
        rcases List.mem_append.mp hk with hk | hk
        · exact h.lt_of_mem_missing hclosed hdone hj hk
        · exact hbelow j (List.mem_append_right _ hj) k hk

end Forest
