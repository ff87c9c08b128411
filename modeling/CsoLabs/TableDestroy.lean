import CsoLabs.TableHistory

/-! Taking a table apart. `htable_destroy` frees the chains from their last node to their first, and then
the array. Memory remembers what has been freed: following a pointer to a freed node, or freeing it again,
stops the program. -/

namespace CsoLabs.Table
open CLang LinkedChain

variable {α : Type}

/-- The memory of a table on its way out: the nodes, the addresses of those already freed, the last one
first, and whether the array has been freed. -/
structure Remains (α : Type) where
  nodes : List (Node α)
  freed : List Nat
  storeFreed : Bool

namespace Remains

/-- Follow a pointer to a node. -/
def read (m : Remains α) (p : Nat) : Except Abort (Node α) :=
  if p ∈ m.freed then .error .invalidPointer else deref m.nodes p

/-- `free(p)` of a node. -/
def free (m : Remains α) (p : Nat) : Except Abort (Remains α) := do
  let _ ← m.read p
  return { m with freed := p :: m.freed }

end Remains

/-- A chain that does not end within the number of nodes has no end. -/
def freeLinkedList : Nat → Option Nat → Remains α → Except Abort (Remains α)
  | _, none, m => .ok m
  | 0, some _, _ => .error .diverges
  | fuel + 1, some n, m => do
      let node ← m.read n
      let m ← freeLinkedList fuel node.next m
      m.free n

/-- The loop of `htable_destroy` over the array. -/
def freeChains : List (Option Nat) → Remains α → Except Abort (Remains α)
  | [], m => .ok m
  | head :: heads, m => do
      let m ← freeLinkedList m.nodes.length head m
      freeChains heads m

def htableDestroy (ht : Htable α) : Except Abort (Remains α) := do
  let m ← freeChains ht.store.heads ⟨ht.nodes, [], false⟩
  return { m with storeFreed := true }

/-! ### One chain, all chains -/

theorem Remains.read_eq {m : Remains α} {p : Nat} {n : Node α} (hp : p ∉ m.freed) (hn : m.nodes[p]? = some n) :
    m.read p = .ok n := by
  rw [read, if_neg hp]
  exact deref_eq hn

theorem freeLinkedList_ok {m : Remains α} {head : Option Nat} {ids : List Nat}
    (h : Chain Node.next m.nodes head ids) (hnodup : ids.Nodup) {fuel : Nat} (hfuel : ids.length ≤ fuel)
    (hfresh : ∀ id ∈ ids, id ∉ m.freed) :
    freeLinkedList fuel head m = .ok { m with freed := ids ++ m.freed } := by
  induction ids generalizing head fuel with
  | nil =>
      obtain rfl : head = none := h
      cases fuel <;> rfl
  | cons id ids ih =>
      obtain ⟨rfl, n, hn, hrest⟩ := h
      obtain ⟨hid, hnodup⟩ := List.nodup_cons.mp hnodup
      obtain ⟨hidFresh, hfresh⟩ := List.forall_mem_cons.mp hfresh
      obtain ⟨fuel, rfl⟩ : ∃ k, fuel = k + 1 := ⟨fuel - 1, by simp only [List.length_cons] at hfuel; omega⟩
      have htail := ih hrest hnodup (by simpa using hfuel) hfresh
      -- the rest of the chain is gone before its first node is freed
      have hlive : id ∉ ids ++ m.freed := by
        rw [List.mem_append]
        exact not_or.mpr ⟨hid, hidFresh⟩
      have hread : Remains.read { m with freed := ids ++ m.freed } id = .ok n := Remains.read_eq hlive hn
      rw [freeLinkedList, Remains.read_eq hidFresh hn, ok_bind, htail, ok_bind, Remains.free, hread, ok_bind]
      rfl

theorem freeChains_ok {heads : List (Option Nat)} {m : Remains α} {chains : Nat → List Nat}
    (hlinked : ∀ i head, heads[i]? = some head → Chain Node.next m.nodes head (chains i))
    (hnodup : ((List.range heads.length).flatMap chains).Nodup)
    (hfresh : ∀ id ∈ (List.range heads.length).flatMap chains, id ∉ m.freed) :
    ∃ freed, freeChains heads m = .ok { m with freed := freed } ∧
      freed.Perm ((List.range heads.length).flatMap chains ++ m.freed) := by
  induction heads generalizing m chains with
  | nil => exact ⟨m.freed, rfl, List.Perm.refl _⟩
  | cons head heads ih =>
      have hsplit : (List.range (head :: heads).length).flatMap chains =
          chains 0 ++ (List.range heads.length).flatMap (fun i => chains (i + 1)) := by
        rw [List.length_cons, List.range_succ_eq_map, List.flatMap_cons, List.flatMap_map]
      rw [hsplit] at hnodup hfresh ⊢
      obtain ⟨hfirst, hrest, hapart⟩ := List.nodup_append.mp hnodup
      have hzero := hlinked 0 head rfl
      have hlist := freeLinkedList_ok hzero hfirst (hzero.length_le hfirst) fun id hid =>
        hfresh id (List.mem_append_left _ hid)
      have hfresh' : ∀ id ∈ (List.range heads.length).flatMap (fun i => chains (i + 1)), id ∉ chains 0 ++ m.freed := by
        intro id hid hmem
        rcases List.mem_append.mp hmem with hmem | hmem
        · exact hapart id hmem id hid rfl
        · exact hfresh id (List.mem_append_right _ hid) hmem
      obtain ⟨freed, hrun, hperm⟩ := ih (m := { m with freed := chains 0 ++ m.freed })
        (fun i head' hi => hlinked (i + 1) head' hi) hrest hfresh'
      refine ⟨freed, ?_, hperm.trans ?_⟩
      · rw [freeChains, hlist, ok_bind, hrun]
      · rw [← List.append_assoc]
        exact List.perm_append_comm.append_right _

/-- Every node of the table is freed, none of them twice, and then the array. -/
theorem TableInv.destroy {ht : Htable α} {chains : Nat → List Nat} (h : TableInv ht chains) :
    ∃ freed, htableDestroy ht = .ok ⟨ht.nodes, freed, true⟩ ∧ freed.Perm (List.range ht.nodes.length) := by
  have hperm := h.buckets.flatMap_perm fun _ hid => h.home_lt hid
  obtain ⟨freed, hrun, hfreed⟩ := freeChains_ok (m := ⟨ht.nodes, [], false⟩) h.buckets.linked
    (hperm.nodup_iff.mpr List.nodup_range) fun _ _ => List.not_mem_nil
  rw [List.append_nil] at hfreed
  refine ⟨freed, ?_, hfreed.trans hperm⟩
  rw [htableDestroy, hrun, ok_bind]
  rfl

/-- **No leak, no double free.** After every sequence of calls with keys of at most `INT_MAX` bytes `1 .. 127`, at most
`2 ^ 31` different ones inserted, `htable_destroy` never touches a freed node, and it frees exactly the nodes that the
insertions returning 0 allocated, each once, and then the array. -/
theorem htable_destroy_frees {sz : Int} (h1 : 1 ≤ sz) (hsz : sz < intMax) (allowResize : Int) (ops : List (Op α))
    (hkeys : ∀ op ∈ ops, op.key.IsAscii ∧ (op.key.bytes.length : Int) ≤ intMax)
    (hcount : ((insertedKeys ops).card : Int) ≤ intMax + 1) (hrun : runFrom sz allowResize ops ≠ .error .intOverflow) :
    ∃ as ht freed, runFrom sz allowResize ops = .ok (as, ht) ∧ htableDestroy ht = .ok ⟨ht.nodes, freed, true⟩ ∧
      freed.Perm (List.range (as.countP Answer.isNew)) := by
  obtain ⟨as, ht, chains, hok, hinv, hdict⟩ := runFrom_ok h1 hsz allowResize hkeys hcount hrun
  obtain ⟨freed, hdestroy, hperm⟩ := hinv.destroy
  rw [(Htable.size_of_run hdict).2.2] at hperm
  exact ⟨as, ht, freed, hok, hdestroy, hperm⟩

theorem htable_destroy_frees_exampleOps :
    ∃ as ht freed, runFrom 1 1 exampleOps = .ok (as, ht) ∧ htableDestroy ht = .ok ⟨ht.nodes, freed, true⟩ ∧
      freed.Perm (List.range (as.countP Answer.isNew)) :=
  htable_destroy_frees (by decide) (by decide) 1 exampleOps exampleOps_keys card_insertedKeys_exampleOps
    runFrom_exampleOps

end CsoLabs.Table
