import CsoLabs.TableStore
import CsoLabs.LinkedChain

/-! The invariant of the hash table: its array is a set of buckets that hold every node allocated, each in
the chain its hash code selects. `htable_resize` takes a node off its chain, by remembering the rest, and
links it to the front of a new one; at any moment the nodes of the chains not yet read are still linked
as they were, and all others are in the new array. -/

namespace CsoLabs.Table
open CLang LinkedChain

variable {α : Type}

/-- The slot of a hash code that is not negative. -/
def slotOf (size hcode : Int) : Nat := (hcode.tmod size).toNat

/-- The slot of the node at an address. -/
def home (size : Int) (nodes : List (Node α)) (id : Nat) : Nat := (nodes.map (slotOf size ·.hashcode)).getD id 0

/-- What a node keeps while its link changes. -/
def Node.data (n : Node α) : Int × CString × Option α := (n.hashcode, n.key, n.val)

theorem tmod_bounds {size hcode : Int} (hpos : 0 < size) (h : 0 ≤ hcode) :
    0 ≤ hcode.tmod size ∧ hcode.tmod size < size :=
  ⟨Int.tmod_nonneg _ h, Int.tmod_lt_of_pos _ hpos⟩

theorem slotOf_lt {size hcode : Int} (hpos : 0 < size) (h : 0 ≤ hcode) : (slotOf size hcode : Int) < size := by
  have := tmod_bounds hpos h
  rw [slotOf]
  omega

theorem home_eq {size : Int} {nodes : List (Node α)} {id : Nat} {n : Node α} (h : nodes[id]? = some n) :
    home size nodes id = slotOf size n.hashcode := by
  rw [home, List.getD_eq_getElem?_getD, List.getElem?_map, h]
  rfl

theorem home_append {size : Int} {nodes : List (Node α)} (n : Node α) {id : Nat} (h : id < nodes.length) :
    home size (nodes ++ [n]) id = home size nodes id := by
  have hget := List.getElem?_eq_getElem h
  rw [home_eq hget, home_eq (n := nodes[id])]
  rw [List.getElem?_append_left h, hget]

/-- Slots depend on hash codes only. -/
theorem home_congr {size : Int} {nodes nodes' : List (Node α)} (h : nodes'.map Node.data = nodes.map Node.data) :
    home size nodes' = home size nodes := by
  have hcodes : ∀ l : List (Node α), l.map (slotOf size ·.hashcode) = (l.map Node.data).map (slotOf size ·.1) :=
    fun l => by rw [List.map_map]; rfl
  funext id
  rw [home, home, hcodes, hcodes, h]

theorem map_data_set {nodes : List (Node α)} {id : Nat} {n : Node α} (h : nodes[id]? = some n) (next : Option Nat) :
    (nodes.set id { n with next := next }).map Node.data = nodes.map Node.data := by
  obtain ⟨hid, hget⟩ := List.getElem?_eq_some_iff.mp h
  rw [List.map_set]
  refine List.ext_getElem (by rw [List.length_set]) fun j hj hj' => ?_
  rw [List.getElem_set]
  split_ifs with heq
  · subst heq
    rw [List.getElem_map, hget]
    rfl
  · rfl

theorem of_map_data {nodes nodes' : List (Node α)} (h : nodes'.map Node.data = nodes.map Node.data) {id : Nat}
    {n : Node α} (hn : nodes'[id]? = some n) : ∃ m, nodes[id]? = some m ∧ m.hashcode = n.hashcode := by
  have hmap : (nodes.map Node.data)[id]? = some n.data := by rw [← h, List.getElem?_map, hn, Option.map_some]
  rw [List.getElem?_map, Option.map_eq_some_iff] at hmap
  obtain ⟨m, hm, hdata⟩ := hmap
  exact ⟨m, hm, congrArg Prod.fst hdata⟩

theorem deref_eq {nodes : List (Node α)} {p : Nat} {n : Node α} (h : nodes[p]? = some n) : deref nodes p = .ok n := by
  rw [deref, h]

namespace Slots

variable {size : Int}

theorem get_eq (s : Slots size) {slot : Int} (h : 0 ≤ slot ∧ slot < size) :
    ∃ head, s.get slot = .ok head ∧ s.heads[slot.toNat]? = some head := by
  have hlen := s.length_eq
  have hlt : slot.toNat < s.heads.length := by omega
  refine ⟨s.heads[slot.toNat], ?_, List.getElem?_eq_getElem hlt⟩
  rw [get, if_pos h, List.getD_eq_getElem _ _ hlt]

theorem set_eq (s : Slots size) {slot : Int} (h : 0 ≤ slot ∧ slot < size) (p : Option Nat) :
    ∃ s' : Slots size, s.set slot p = .ok s' ∧ s'.heads = s.heads.set slot.toNat p := by
  rw [set, if_pos h]
  exact ⟨_, rfl, rfl⟩

end Slots

/-! ### `htable_resize` moves every node once -/

section Move

variable {newSize : Int} {nodes : List (Node α)} {mem : Nat → Prop} {home' : Nat → Nat} {chains : Nat → List Nat}

/-- One pass of the inner loop: the node at `id` goes to the front of its new chain. -/
theorem moveNode (hpos : 0 < newSize) {store : Slots newSize}
    (hb : Buckets Node.next nodes store.heads mem home' chains) {id : Nat} {n : Node α} (hn : nodes[id]? = some n)
    (hcode : 0 ≤ n.hashcode) (hhome : home' id = slotOf newSize n.hashcode) (hid : ¬ mem id) :
    ∃ (head : Option Nat) (store' : Slots newSize) (chains' : Nat → List Nat),
      store.get (n.hashcode.tmod newSize) = .ok head ∧
      store.set (n.hashcode.tmod newSize) (some id) = .ok store' ∧
      Buckets Node.next (nodes.set id { n with next := if head.isSome then head else none }) store'.heads
        (fun j => j = id ∨ mem j) home' chains' := by
  have hslot := tmod_bounds hpos hcode
  obtain ⟨head, hget, hhead⟩ := store.get_eq hslot
  obtain ⟨store', hset, hheads⟩ := store.set_eq hslot (some id)
  refine ⟨head, store', Function.update chains (slotOf newSize n.hashcode) (id :: chains (slotOf newSize n.hashcode)),
    hget, hset, ?_⟩
  have hnext : (if head.isSome then head else none) = head := by cases head <;> rfl
  have hlen := (List.getElem?_eq_some_iff.mp hhead).1
  have hother : ∀ j, j ≠ id → (nodes.set id { n with next := head })[j]? = nodes[j]? :=
    fun j hj => List.getElem?_set_ne (Ne.symm hj)
  rw [hnext, hheads]
  refine hb.update hhome hid (List.Perm.refl _) (Chain.cons (n := { n with next := head }) ?_ ?_) ?_
  · exact List.getElem?_set_self (List.getElem?_eq_some_iff.mp hn).1
  · refine (hb.linked _ head hhead).congr fun j hj => hother j ?_
    rintro rfl
    exact hid ((hb.mem_iff _ hlen j).mp hj).1
  · rintro j hj -
    refine hother j ?_
    rintro rfl
    exact hid hj

theorem moveChain_ok (hpos : 0 < newSize) {store : Slots newSize}
    (hb : Buckets Node.next nodes store.heads mem home' chains) {fuel : Nat} {curr : Option Nat} {ids : List Nat}
    (hchain : Chain Node.next nodes curr ids) (hnodup : ids.Nodup) (hfuel : ids.length ≤ fuel)
    (hdisj : ∀ id ∈ ids, ¬ mem id)
    (hhome : ∀ id ∈ ids, ∀ n, nodes[id]? = some n → 0 ≤ n.hashcode ∧ home' id = slotOf newSize n.hashcode) :
    ∃ (nodes' : List (Node α)) (store' : Slots newSize) (chains' : Nat → List Nat),
      moveChain newSize fuel curr nodes store = .ok (nodes', store') ∧
      Buckets Node.next nodes' store'.heads (fun j => j ∈ ids ∨ mem j) home' chains' ∧
      nodes'.map Node.data = nodes.map Node.data ∧ ∀ j, j ∉ ids → nodes'[j]? = nodes[j]? := by
  induction ids generalizing curr nodes store mem chains fuel with
  | nil =>
      obtain rfl : curr = none := hchain
      refine ⟨nodes, store, chains, by rw [moveChain], ?_, rfl, fun _ _ => rfl⟩
      exact hb.congr (fun _ _ => rfl) (fun j => by simp only [List.not_mem_nil, false_or]) fun _ _ => rfl
  | cons id ids ih =>
      obtain ⟨rfl, n, hn, hrest⟩ := hchain
      obtain ⟨hid, hnodup⟩ := List.nodup_cons.mp hnodup
      obtain ⟨hidMem, hdisj⟩ := List.forall_mem_cons.mp hdisj
      obtain ⟨hidHome, hhome⟩ := List.forall_mem_cons.mp hhome
      obtain ⟨hcode, hslot⟩ := hidHome n hn
      obtain ⟨head, store₁, chains₁, hget, hset, hb₁⟩ := moveNode hpos hb hn hcode hslot hidMem
      -- the rest of the chain was read before the link of `id` was overwritten
      have hother : ∀ j, j ≠ id →
          (nodes.set id { n with next := if head.isSome then head else none })[j]? = nodes[j]? :=
        fun j hj => List.getElem?_set_ne (Ne.symm hj)
      have hne : ∀ j ∈ ids, j ≠ id := fun j hj heq => hid (heq ▸ hj)
      obtain ⟨fuel, rfl⟩ : ∃ k, fuel = k + 1 := ⟨fuel - 1, by simp only [List.length_cons] at hfuel; omega⟩
      obtain ⟨nodes', store', chains', hrun, hb', hdata, hframe⟩ := ih hb₁
        (hrest.congr fun j hj => hother j (hne j hj)) hnodup (show ids.length ≤ fuel by simpa using hfuel)
        (fun j hj h => h.elim (hne j hj) (hdisj j hj))
        (fun j hj m hm => hhome j hj m (by rwa [hother j (hne j hj)] at hm))
      refine ⟨nodes', store', chains', ?_, ?_, hdata.trans (map_data_set hn _), fun j hj => ?_⟩
      · simp only [moveChain, deref_eq hn, ok_bind, hget, hset]
        exact hrun
      · refine hb'.congr (fun _ _ => rfl) (fun j => ?_) fun _ _ => rfl
        rw [List.mem_cons]
        tauto
      · rw [List.mem_cons, not_or] at hj
        rw [hframe j hj.2, hother j hj.1]

/-- The outer loop, over the chains `old` that start at `heads`. -/
theorem moveAll_ok (hpos : 0 < newSize) {store : Slots newSize}
    (hb : Buckets Node.next nodes store.heads mem home' chains) {heads : List (Option Nat)} {old : Nat → List Nat}
    (hlinked : ∀ i head, heads[i]? = some head → Chain Node.next nodes head (old i))
    (hnodup : ∀ i < heads.length, (old i).Nodup)
    (hapart : ∀ i < heads.length, ∀ j < heads.length, i ≠ j → ∀ id ∈ old i, id ∉ old j)
    (hdisj : ∀ i < heads.length, ∀ id ∈ old i, ¬ mem id)
    (hhome : ∀ id n, nodes[id]? = some n → 0 ≤ n.hashcode ∧ home' id = slotOf newSize n.hashcode) :
    ∃ (nodes' : List (Node α)) (store' : Slots newSize) (chains' : Nat → List Nat),
      moveAll newSize heads nodes store = .ok (nodes', store') ∧
      Buckets Node.next nodes' store'.heads (fun id => (∃ i < heads.length, id ∈ old i) ∨ mem id) home' chains' ∧
      nodes'.map Node.data = nodes.map Node.data := by
  induction heads generalizing nodes store mem chains old with
  | nil =>
      refine ⟨nodes, store, chains, by rw [moveAll], ?_, rfl⟩
      exact hb.congr (fun _ _ => rfl) (fun id => by simp) fun _ _ => rfl
  | cons head heads ih =>
      simp only [List.length_cons] at hnodup hapart hdisj
      have hzero := hlinked 0 head rfl
      obtain ⟨nodes₁, store₁, chains₁, hrun, hb₁, hdata, hframe⟩ := moveChain_ok hpos hb hzero
        (hnodup 0 (by omega)) (hzero.length_le (hnodup 0 (by omega))) (hdisj 0 (by omega)) fun id _ n hn => hhome id n hn
      have hkeep : ∀ i < heads.length, ∀ id ∈ old (i + 1), nodes₁[id]? = nodes[id]? := fun i hi id hid =>
        hframe id (hapart (i + 1) (by omega) 0 (by omega) (by omega) id hid)
      have hlinked₁ : ∀ i head, heads[i]? = some head → Chain Node.next nodes₁ head (old (i + 1)) := fun i head' hi =>
        (hlinked (i + 1) head' hi).congr (hkeep i (List.getElem?_eq_some_iff.mp hi).1)
      have hdisj₁ : ∀ i < heads.length, ∀ id ∈ old (i + 1), ¬ (id ∈ old 0 ∨ mem id) := fun i hi id hid hor =>
        hor.elim (hapart (i + 1) (by omega) 0 (by omega) (by omega) id hid) (hdisj (i + 1) (by omega) id hid)
      have hhome₁ : ∀ id n, nodes₁[id]? = some n → 0 ≤ n.hashcode ∧ home' id = slotOf newSize n.hashcode := by
        intro id n hn
        obtain ⟨m, hm, hcode⟩ := of_map_data hdata hn
        rw [← hcode]
        exact hhome id m hm
      obtain ⟨nodes', store', chains', hrest, hb', hdata'⟩ := ih hb₁ hlinked₁ (fun i hi => hnodup (i + 1) (by omega))
        (fun i hi j hj hne => hapart (i + 1) (by omega) (j + 1) (by omega) (by omega)) hdisj₁ hhome₁
      refine ⟨nodes', store', chains', ?_, ?_, hdata'.trans hdata⟩
      · simp only [moveAll, hrun, ok_bind, hrest]
      · refine hb'.congr (fun _ _ => rfl) (fun id => ?_) fun _ _ => rfl
        rw [List.length_cons, Nat.exists_lt_succ_left, or_assoc, or_left_comm]

end Move

/-! ### The invariant -/

/-- What the nodes hold: hash codes that are those of the keys, and no key twice. -/
structure DataOk (data : List (Int × CString × Option α)) : Prop where
  hash : ∀ x ∈ data, hashcode x.2.1 = .ok x.1 ∧ 0 ≤ x.1
  keys_nodup : (data.map (·.2.1)).Nodup

/-- `chains` are the chains of the table, slot by slot. -/
structure TableInv (ht : Htable α) (chains : Nat → List Nat) : Prop where
  size_pos : 0 < ht.size
  buckets : Buckets Node.next ht.nodes ht.store.heads (· < ht.nodes.length) (home ht.size ht.nodes) chains
  data : DataOk (ht.nodes.map Node.data)

theorem allocSlots_eq {size : Int} (h : 0 ≤ size) (expr : String) :
    ∃ store : Slots size, Slots.alloc size expr = .ok store ∧ store.heads = List.replicate size.toNat none := by
  rw [Slots.alloc, dif_pos h]
  exact ⟨_, rfl, rfl⟩

namespace TableInv

variable {ht : Htable α} {chains : Nat → List Nat}

theorem hash (h : TableInv ht chains) {n : Node α} (hn : n ∈ ht.nodes) :
    hashcode n.key = .ok n.hashcode ∧ 0 ≤ n.hashcode :=
  h.data.hash n.data (List.mem_map_of_mem hn)

theorem hash_eq (h : TableInv ht chains) {n : Node α} (hn : n ∈ ht.nodes) : n.hashcode = hashValue n.key :=
  hashValue_of_hashcode (h.hash hn).1

theorem home_lt (h : TableInv ht chains) {id : Nat} (hid : id < ht.nodes.length) :
    home ht.size ht.nodes id < ht.store.heads.length := by
  have hlt := slotOf_lt h.size_pos (h.hash (List.getElem_mem hid)).2
  have hlen := ht.store.length_eq
  rw [home_eq (List.getElem?_eq_getElem hid)]
  omega

/-- `htable_resize` keeps the nodes and the invariant, if `2 * size` is an `int`. -/
theorem resize (h : TableInv ht chains) (hsize : 2 * ht.size ≤ intMax) :
    ∃ (ht' : Htable α) (chains' : Nat → List Nat), htableResize ht = .ok ht' ∧ TableInv ht' chains' ∧
      ht'.nodes.map Node.data = ht.nodes.map Node.data ∧ ht'.allowResize = ht.allowResize ∧
      ht'.size = (nextPrime (2 * ht.size.toNat) : Nat) := by
  have hpos := h.size_pos
  have hnat : 2 * ht.size = ((2 * ht.size.toNat : Nat) : Int) := by omega
  have hprime := getPrime_eq (n := 2 * ht.size.toNat) (by omega) (by omega)
  have hnew : 0 < ((nextPrime (2 * ht.size.toNat) : Nat) : Int) := by
    exact_mod_cast (nextPrime_prime _).pos
  obtain ⟨newStore, halloc, hheads⟩ := allocSlots_eq hnew.le "new_store != NULL"
  have hempty : Buckets Node.next ht.nodes newStore.heads (fun _ => False)
      (home (nextPrime (2 * ht.size.toNat) : Nat) ht.nodes) fun _ => [] := by
    rw [hheads]
    exact Buckets.empty _
  have hb := h.buckets
  obtain ⟨nodes', store', chains', hrun, hb', hdata⟩ := moveAll_ok hnew hempty hb.linked hb.nodup
    (fun i hi j hj hne id hid hid' =>
      hne (((hb.mem_iff i hi id).mp hid).2.symm.trans ((hb.mem_iff j hj id).mp hid').2))
    (fun _ _ _ _ => not_false)
    (fun id n hn => ⟨(h.hash (List.mem_of_getElem? hn)).2, home_eq hn⟩)
  refine ⟨⟨ht.allowResize, _, store', nodes'⟩, chains', ?_, ⟨hnew, ?_, ?_⟩, hdata, rfl, rfl⟩
  · rw [htableResize, checkInt_of_le (by omega) hsize, ok_bind, hnat, hprime, ok_bind, halloc, ok_bind]
    simp only [hrun, ok_bind, pure_eq_ok]
  · have hlen : nodes'.length = ht.nodes.length := by simpa using congrArg List.length hdata
    refine hb'.congr (fun _ _ => rfl) (fun id => ?_) fun id _ => by rw [home_congr hdata]
    rw [hlen, or_false]
    constructor
    · intro hid
      exact ⟨_, h.home_lt hid, (hb.mem_iff _ (h.home_lt hid) id).mpr ⟨hid, rfl⟩⟩
    · rintro ⟨i, hi, hid⟩
      exact ((hb.mem_iff i hi id).mp hid).1
  · change DataOk (nodes'.map Node.data)
    rw [hdata]
    exact h.data

/-- A table that cannot double its size stops there. -/
theorem resize_overflow (hsize : intMax < 2 * ht.size) : htableResize ht = .error .intOverflow := by
  rw [htableResize, checkInt_of_lt hsize, error_bind]

end TableInv

theorem htableInit_ok {sz : Int} (h1 : 1 ≤ sz) (h : sz < intMax) (allowResize : Int) :
    ∃ ht : Htable α, htableInit sz allowResize = .ok ht ∧ TableInv ht (fun _ => []) ∧ ht.nodes = [] ∧
      ht.allowResize = allowResize ∧ ht.size = (nextPrime (sz.toNat + 1) : Nat) := by
  have hnat : sz + 1 = ((sz.toNat + 1 : Nat) : Int) := by omega
  have hprime := getPrime_eq (n := sz.toNat + 1) (by omega) (by omega)
  have hnew : 0 < ((nextPrime (sz.toNat + 1) : Nat) : Int) := by
    exact_mod_cast (nextPrime_prime _).pos
  obtain ⟨store, halloc, hheads⟩ := allocSlots_eq hnew.le "ht->store"
  refine ⟨⟨allowResize, _, store, []⟩, ?_,
    ⟨hnew, ?_, ⟨fun _ hx => absurd hx List.not_mem_nil, List.nodup_nil⟩⟩, rfl, rfl, rfl⟩
  · rw [htableInit, checkInt_of_le (by omega) (by omega), ok_bind, hnat, hprime, ok_bind, halloc, ok_bind]
    rfl
  · change Buckets Node.next [] store.heads _ _ _
    rw [hheads]
    exact (Buckets.empty _).congr (fun _ _ => rfl) (fun id => by simp) fun _ _ => rfl

end CsoLabs.Table
