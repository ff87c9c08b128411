import Mathlib.Data.List.Basic
import Mathlib.Data.Fintype.Basic
import Mathlib.Algebra.BigOperators.Group.Finset.Basic
import Mathlib.Logic.Function.Basic

/-! Threads that run side by side. Each has a list of steps to take, and the scheduler picks any thread that
has one left. -/

namespace Interleaving

variable {ι β : Type} [DecidableEq ι]

/-- The steps of all threads in an order that a scheduler can choose. -/
inductive Schedule : (ι → List β) → List β → Prop where
  | done {todo : ι → List β} (h : ∀ t, todo t = []) : Schedule todo []
  | step {todo : ι → List β} {t : ι} {x : β} {rest l : List β} (h : todo t = x :: rest)
      (hrest : Schedule (Function.update todo t rest) l) : Schedule todo (x :: l)

namespace Schedule

variable {todo : ι → List β} {l : List β}

theorem mem_iff (h : Schedule todo l) {x : β} : x ∈ l ↔ ∃ t, x ∈ todo t := by
  induction h with
  | done hnone =>
      refine iff_of_false List.not_mem_nil ?_
      rintro ⟨t, ht⟩
      rw [hnone] at ht
      exact List.not_mem_nil ht
  | @step todo t y rest l hhead _ ih =>
      rw [List.mem_cons, ih]
      constructor
      · rintro (rfl | ⟨t', ht'⟩)
        · exact ⟨t, hhead ▸ List.mem_cons_self⟩
        · by_cases heq : t' = t
          · subst heq
            rw [Function.update_self] at ht'
            exact ⟨t', hhead ▸ List.mem_cons_of_mem y ht'⟩
          · rw [Function.update_of_ne heq] at ht'
            exact ⟨t', ht'⟩
      · rintro ⟨t', ht'⟩
        by_cases heq : t' = t
        · subst heq
          rw [hhead] at ht'
          refine (List.mem_cons.mp ht').imp_right fun hx => ⟨t', ?_⟩
          rwa [Function.update_self]
        · refine .inr ⟨t', ?_⟩
          rwa [Function.update_of_ne heq]

/-- There is always an order: the steps left come to an end. -/
theorem exists_of_finite [Fintype ι] (todo : ι → List β) : ∃ l, Schedule todo l := by
  generalize hn : ∑ t, (todo t).length = n
  induction n generalizing todo with
  | zero =>
      refine ⟨[], done fun t => List.length_eq_zero_iff.mp ?_⟩
      exact Finset.sum_eq_zero_iff.mp hn t (Finset.mem_univ t)
  | succ n ih =>
      have hsome : ∑ t, (todo t).length ≠ 0 := by omega
      obtain ⟨t, -, ht⟩ := Finset.exists_ne_zero_of_sum_ne_zero hsome
      obtain ⟨x, rest, hhead⟩ := List.exists_cons_of_ne_nil (mt List.length_eq_zero_iff.mpr ht)
      have hsum : ∑ t', (Function.update todo t rest t').length = n := by
        have hsplit := Finset.add_sum_erase Finset.univ (fun t' => (todo t').length) (Finset.mem_univ t)
        have hsplit' := Finset.add_sum_erase Finset.univ (fun t' => (Function.update todo t rest t').length)
          (Finset.mem_univ t)
        have hsame : ∑ t' ∈ Finset.univ.erase t, (Function.update todo t rest t').length =
            ∑ t' ∈ Finset.univ.erase t, (todo t').length := by
          refine Finset.sum_congr rfl fun t' ht' => ?_
          rw [Function.update_of_ne (Finset.ne_of_mem_erase ht')]
        simp only [Function.update_self, hhead, List.length_cons] at hsplit hsplit'
        omega
      obtain ⟨l, hl⟩ := ih _ hsum
      exact ⟨x :: l, step hhead hl⟩

end Schedule

end Interleaving
