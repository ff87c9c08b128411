import Mathlib.Data.List.Nodup
import Mathlib.Data.List.Basic
import Mathlib.Data.List.Perm.Basic
import Mathlib.Logic.Function.Basic

/-! Singly linked chains in a heap of cells, and arrays of such chains. The heap is a list whose
positions are the addresses; a new cell goes to its end. A cell is of any type that has a link. An array
of chains is a set of buckets when every address it holds is in the chain of its own index, once. -/

namespace LinkedChain

variable {ν : Type} {next : ν → Option Nat} {heap heap' : List ν} {p : Option Nat} {ids : List Nat}

/-- From the pointer `p`, following the links, one visits `ids` and ends. -/
def Chain (next : ν → Option Nat) (heap : List ν) : Option Nat → List Nat → Prop
  | p, [] => p = none
  | p, i :: ids => p = some i ∧ ∃ n, heap[i]? = some n ∧ Chain next heap (next n) ids

namespace Chain

theorem nil : Chain next heap none [] := rfl

theorem cons {i : Nat} {n : ν} (hi : heap[i]? = some n) (h : Chain next heap (next n) ids) :
    Chain next heap (some i) (i :: ids) :=
  ⟨rfl, n, hi, h⟩

theorem getElem? (h : Chain next heap p ids) {i : Nat} (hi : i ∈ ids) : ∃ n, heap[i]? = some n := by
  induction ids generalizing p with
  | nil => cases hi
  | cons j ids ih =>
      obtain ⟨-, n, hj, hrest⟩ := h
      rcases List.mem_cons.mp hi with rfl | hi
      · exact ⟨n, hj⟩
      · exact ih hrest hi

theorem lt_length (h : Chain next heap p ids) {i : Nat} (hi : i ∈ ids) : i < heap.length := by
  obtain ⟨n, hn⟩ := h.getElem? hi
  exact (List.getElem?_eq_some_iff.mp hn).1

/-- A chain stays where its cells stay. -/
theorem congr (h : Chain next heap p ids) (hheap : ∀ i ∈ ids, heap'[i]? = heap[i]?) :
    Chain next heap' p ids := by
  induction ids generalizing p with
  | nil => exact h
  | cons j ids ih =>
      obtain ⟨rfl, n, hj, hrest⟩ := h
      obtain ⟨hj', hheap⟩ := List.forall_mem_cons.mp hheap
      exact cons (hj'.trans hj) (ih hrest hheap)

theorem length_le (h : Chain next heap p ids) (hnodup : ids.Nodup) : ids.length ≤ heap.length := by
  have hsub : ids ⊆ List.range heap.length := fun i hi => List.mem_range.mpr (h.lt_length hi)
  have hle := (List.subperm_of_subset hnodup hsub).length_le
  rwa [List.length_range] at hle

/-- The last cell is linked to a new one. -/
theorem snoc {i j : Nat} {n m : ν} (h : Chain next heap p (ids ++ [i]))
    (hheap : ∀ k ∈ ids, heap'[k]? = heap[k]?) (hi : heap'[i]? = some n) (hlink : next n = some j)
    (hj : heap'[j]? = some m) (hlast : next m = none) : Chain next heap' p (ids ++ [i] ++ [j]) := by
  induction ids generalizing p with
  | nil =>
      obtain ⟨rfl, -⟩ := h
      refine cons hi ?_
      rw [hlink]
      refine cons hj ?_
      rw [hlast]
      exact nil
  | cons k ids ih =>
      obtain ⟨rfl, c, hk, hrest⟩ := h
      obtain ⟨hk', hheap⟩ := List.forall_mem_cons.mp hheap
      exact cons (hk'.trans hk) (ih hrest hheap)

end Chain

/-! ### Buckets -/

/-- `store` is an array of chains that hold exactly the addresses `mem`, each in the chain of its `home`. -/
structure Buckets (next : ν → Option Nat) (heap : List ν) (store : List (Option Nat)) (mem : Nat → Prop)
    (home : Nat → Nat) (chains : Nat → List Nat) : Prop where
  linked : ∀ i head, store[i]? = some head → Chain next heap head (chains i)
  nodup : ∀ i < store.length, (chains i).Nodup
  mem_iff : ∀ i < store.length, ∀ id, id ∈ chains i ↔ mem id ∧ home id = i

namespace Buckets

variable {store : List (Option Nat)} {mem mem' : Nat → Prop} {home home' : Nat → Nat} {chains : Nat → List Nat}

theorem empty (n : Nat) : Buckets next heap (List.replicate n none) (fun _ => False) home (fun _ => []) := by
  refine ⟨fun i head hhead => ?_, fun i _ => List.nodup_nil, fun i _ id => ?_⟩
  · obtain ⟨hi, hget⟩ := List.getElem?_eq_some_iff.mp hhead
    rw [List.getElem_replicate] at hget
    subst hget
    exact Chain.nil
  · simp only [List.not_mem_nil, false_and]

theorem congr (h : Buckets next heap store mem home chains) (hheap : ∀ id, mem id → heap'[id]? = heap[id]?)
    (hmem : ∀ id, mem' id ↔ mem id) (hhome : ∀ id, mem id → home' id = home id) :
    Buckets next heap' store mem' home' chains := by
  refine ⟨fun i head hhead => (h.linked i head hhead).congr fun id hid => hheap id ?_, h.nodup, fun i hi id => ?_⟩
  · exact ((h.mem_iff i (List.getElem?_eq_some_iff.mp hhead).1 id).mp hid).1
  · rw [h.mem_iff i hi, hmem]
    exact and_congr_right fun hid => by rw [hhome id hid]

/-- A new address in the chain of its home, which has become `ids`. -/
theorem update (h : Buckets next heap store mem home chains) {id slot : Nat} {head : Option Nat} {ids : List Nat}
    (hslot : home id = slot) (hid : ¬ mem id) (hperm : ids.Perm (id :: chains slot))
    (hchain : Chain next heap' head ids)
    (hheap : ∀ j, mem j → home j ≠ slot → heap'[j]? = heap[j]?) :
    Buckets next heap' (store.set slot head) (fun j => j = id ∨ mem j) home
      (Function.update chains slot ids) := by
  constructor
  · intro i head' hhead'
    rw [Function.update_apply]
    by_cases hi : i = slot
    · subst hi
      rw [if_pos rfl]
      have hlen := (List.getElem?_eq_some_iff.mp hhead').1
      rw [List.getElem?_set_self (by simpa using hlen)] at hhead'
      cases hhead'
      exact hchain
    · rw [if_neg hi]
      rw [List.getElem?_set_ne (Ne.symm hi)] at hhead'
      refine (h.linked i head' hhead').congr fun j hj => ?_
      obtain ⟨hmem, hhome⟩ := (h.mem_iff i (List.getElem?_eq_some_iff.mp hhead').1 j).mp hj
      exact hheap j hmem fun heq => hi (hhome.symm.trans heq)
  · intro i hi
    rw [List.length_set] at hi
    rw [Function.update_apply]
    split_ifs with hslot'
    · subst hslot'
      rw [hperm.nodup_iff, List.nodup_cons]
      exact ⟨fun hmem => hid ((h.mem_iff i hi id).mp hmem).1, h.nodup i hi⟩
    · exact h.nodup i hi
  · intro i hi j
    rw [List.length_set] at hi
    rw [Function.update_apply]
    split_ifs with hslot'
    · subst hslot'
      rw [hperm.mem_iff, List.mem_cons, h.mem_iff i hi]
      constructor
      · rintro (rfl | ⟨hmem, hhome⟩)
        · exact ⟨.inl rfl, hslot⟩
        · exact ⟨.inr hmem, hhome⟩
      · rintro ⟨rfl | hmem, hhome⟩
        · exact .inl rfl
        · exact .inr ⟨hmem, hhome⟩
    · rw [h.mem_iff i hi]
      constructor
      · rintro ⟨hmem, hhome⟩
        exact ⟨.inr hmem, hhome⟩
      · rintro ⟨rfl | hmem, hhome⟩
        · exact absurd (hhome.symm.trans hslot) hslot'
        · exact ⟨hmem, hhome⟩

/-- A new cell at the end of its chain, whose last cell so far is `p`. -/
theorem snoc (h : Buckets next heap store mem home chains) {id slot p : Nat} {ids : List Nat} {n m : ν}
    (hslot : home id = slot) (hid : ¬ mem id) (hlt : slot < store.length) (hids : chains slot = ids ++ [p])
    (hother : ∀ j, j ≠ p → heap'[j]? = heap[j]?) (hp : heap'[p]? = some n) (hlink : next n = some id)
    (hnew : heap'[id]? = some m) (hlast : next m = none) :
    Buckets next heap' store (fun j => j = id ∨ mem j) home (Function.update chains slot (ids ++ [p] ++ [id])) := by
  have hchain := h.linked slot store[slot] (List.getElem?_eq_getElem hlt)
  have hnodup := h.nodup slot hlt
  rw [hids] at hchain hnodup
  have hne : ∀ j ∈ ids, j ≠ p := by
    rintro j hj rfl
    exact (List.nodup_append.mp hnodup).2.2 j hj j (List.mem_singleton_self j) rfl
  have hperm : (ids ++ [p] ++ [id]).Perm (id :: chains slot) := by
    rw [hids]
    exact List.perm_append_singleton id (ids ++ [p])
  have hupdate := h.update hslot hid hperm
    (hchain.snoc (fun j hj => hother j (hne j hj)) hp hlink hnew hlast) fun j hj hhome => hother j ?_
  · rwa [List.set_getElem_self hlt] at hupdate
  · rintro rfl
    refine hhome ((h.mem_iff slot hlt j).mp ?_).2
    rw [hids]
    exact List.mem_append_right _ (List.mem_singleton_self j)

/-- The length of a chain is the number of addresses that belong there. -/
theorem length_eq {n : Nat} (h : Buckets next heap store (· < n) home chains) {i : Nat} (hi : i < store.length) :
    (chains i).length = (List.range n).countP (home · = i) := by
  have hperm : (chains i).Perm ((List.range n).filter (home · = i)) := by
    refine (List.perm_ext_iff_of_nodup (h.nodup i hi) (List.nodup_range.filter _)).mpr fun id => ?_
    rw [h.mem_iff i hi, List.mem_filter, List.mem_range, decide_eq_true_eq]
  rw [hperm.length_eq, List.countP_eq_length_filter]

/-- Together the chains hold every address once. -/
theorem flatMap_perm {n : Nat} (h : Buckets next heap store (· < n) home chains)
    (hhome : ∀ id < n, home id < store.length) : ((List.range store.length).flatMap chains).Perm (List.range n) := by
  have hnodup : ((List.range store.length).flatMap chains).Nodup := by
    refine List.nodup_flatMap.mpr ⟨fun i hi => h.nodup i (List.mem_range.mp hi), ?_⟩
    refine List.nodup_range.imp_of_mem fun {i j} hi hj hne id hid hid' => hne ?_
    have hidHome := ((h.mem_iff i (List.mem_range.mp hi) id).mp hid).2
    exact hidHome.symm.trans ((h.mem_iff j (List.mem_range.mp hj) id).mp hid').2
  refine (List.perm_ext_iff_of_nodup hnodup List.nodup_range).mpr fun id => ?_
  rw [List.mem_flatMap, List.mem_range]
  constructor
  · rintro ⟨i, hi, hid⟩
    exact ((h.mem_iff i (List.mem_range.mp hi) id).mp hid).1
  · intro hid
    exact ⟨home id, List.mem_range.mpr (hhome id hid), (h.mem_iff _ (hhome id hid) id).mpr ⟨hid, rfl⟩⟩

end Buckets

end LinkedChain
