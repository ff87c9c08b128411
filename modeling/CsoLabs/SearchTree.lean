import Mathlib

/-! Binary search trees that are not balanced. The values in order are what was inserted, sorted and without
duplicates; a list with these properties is the only one. -/

/-- A binary tree with a value at each node. -/
inductive SearchTree (α : Type) where
  | leaf
  | node (left : SearchTree α) (value : α) (right : SearchTree α)

namespace SearchTree

variable {α : Type}

def preorder : SearchTree α → List α
  | leaf => []
  | node left value right => value :: (left.preorder ++ right.preorder)

def inorder : SearchTree α → List α
  | leaf => []
  | node left value right => left.inorder ++ value :: right.inorder

variable [LinearOrder α]

/-- A value that is there already is not inserted again. -/
def insert (a : α) : SearchTree α → SearchTree α
  | leaf => node leaf a leaf
  | node left value right =>
      if a < value then node (left.insert a) value right
      else if value < a then node left value (right.insert a)
      else node left value right

def ofList (as : List α) : SearchTree α := as.foldl (fun t a => t.insert a) leaf

theorem mem_inorder_insert {a b : α} {t : SearchTree α} : b ∈ (t.insert a).inorder ↔ b = a ∨ b ∈ t.inorder := by
  induction t with
  | leaf => simp [insert, inorder]
  | node left value right ihLeft ihRight =>
      unfold insert
      split_ifs with hlt hgt
      · simp only [inorder, List.mem_append, List.mem_cons, ihLeft, or_assoc]
      · simp only [inorder, List.mem_append, List.mem_cons, ihRight]
        tauto
      · have heq : a = value := le_antisymm (not_lt.mp hgt) (not_lt.mp hlt)
        simp only [inorder, List.mem_append, List.mem_cons, heq]
        tauto

theorem pairwise_inorder_insert {a : α} {t : SearchTree α} (h : t.inorder.Pairwise (· < ·)) :
    (t.insert a).inorder.Pairwise (· < ·) := by
  induction t with
  | leaf => exact List.pairwise_singleton _ a
  | node left value right ihLeft ihRight =>
      unfold inorder at h
      obtain ⟨hleft, hright, hcross⟩ := List.pairwise_append.mp h
      obtain ⟨hvalue, hright⟩ := List.pairwise_cons.mp hright
      unfold insert
      split_ifs with hlt hgt
      · refine List.pairwise_append.mpr ⟨ihLeft hleft, List.pairwise_cons.mpr ⟨hvalue, hright⟩, fun b hb c hc => ?_⟩
        rcases mem_inorder_insert.mp hb with rfl | hb
        · rcases List.mem_cons.mp hc with rfl | hc
          · exact hlt
          · exact hlt.trans (hvalue c hc)
        · exact hcross b hb c hc
      · refine List.pairwise_append.mpr ⟨hleft, List.pairwise_cons.mpr ⟨fun c hc => ?_, ihRight hright⟩, fun b hb c hc => ?_⟩
        · rcases mem_inorder_insert.mp hc with rfl | hc
          · exact hgt
          · exact hvalue c hc
        · rcases List.mem_cons.mp hc with rfl | hc
          · exact hcross b hb c List.mem_cons_self
          · rcases mem_inorder_insert.mp hc with rfl | hc
            · exact (hcross b hb value List.mem_cons_self).trans hgt
            · exact hcross b hb c (List.mem_cons_of_mem _ hc)
      · exact h

theorem ofList_append_singleton (as : List α) (a : α) : ofList (as ++ [a]) = (ofList as).insert a :=
  List.foldl_concat ..

theorem mem_inorder_ofList {as : List α} {b : α} : b ∈ (ofList as).inorder ↔ b ∈ as := by
  induction as using List.reverseRecOn with
  | nil => exact Iff.rfl
  | append_singleton as a ih =>
      rw [ofList_append_singleton, mem_inorder_insert, ih, List.mem_append, List.mem_singleton, or_comm]

theorem pairwise_inorder_ofList (as : List α) : (ofList as).inorder.Pairwise (· < ·) := by
  induction as using List.reverseRecOn with
  | nil => exact List.Pairwise.nil
  | append_singleton as a ih =>
      rw [ofList_append_singleton]
      exact pairwise_inorder_insert ih

/-- The values in order are the only sorted list without duplicates of what was inserted. -/
theorem eq_inorder_ofList {as bs : List α} (hsorted : bs.Pairwise (· < ·)) (hmem : ∀ b, b ∈ bs ↔ b ∈ as) :
    bs = (ofList as).inorder := by
  have hother := pairwise_inorder_ofList as
  have hperm : bs.Perm (ofList as).inorder := by
    apply (List.perm_ext_iff_of_nodup (hsorted.imp fun h => h.ne) (hother.imp fun h => h.ne)).mpr
    intro b
    rw [hmem, mem_inorder_ofList]
  exact hperm.eq_of_pairwise (fun a b _ _ hab hba => absurd hab hba.asymm) hsorted hother

end SearchTree
