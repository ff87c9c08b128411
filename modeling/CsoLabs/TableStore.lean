import CsoLabs.TableHash

/-! The hash table of `htable.c`, on the level of its pointers. The nodes ever allocated form a heap: a
node's position is its address, and `malloc` adds a node at the end. Following a pointer that is no such
position, or indexing the array outside its bounds, stops the program. No allocation fails, except that
of an array of negative size, which `size_t` makes huge. -/

namespace CsoLabs.Table
open CLang

variable {α : Type}

/-- `MAX_COLLISION` -/
def maxCollision : Int := 10

/-- A `node`. The key is its string, which the caller must not change; a `void *` is `NULL` or points to
an `α`. -/
structure Node (α : Type) where
  hashcode : Int
  key : CString
  val : Option α
  next : Option Nat

/-- An array of `size` chain heads. -/
structure Slots (size : Int) where
  heads : List (Option Nat)
  length_eq : (heads.length : Int) = size

namespace Slots

variable {size : Int}

/-- `malloc`, the assertion that it succeeded, and `bzero`. -/
def alloc (size : Int) (expr : String) : Except Abort (Slots size) :=
  if h : 0 ≤ size then .ok ⟨List.replicate size.toNat none, by rw [List.length_replicate]; omega⟩
  else .error (.assertion expr)

def get (s : Slots size) (slot : Int) : Except Abort (Option Nat) :=
  if 0 ≤ slot ∧ slot < size then .ok (s.heads.getD slot.toNat none) else .error .outOfBounds

def set (s : Slots size) (slot : Int) (p : Option Nat) : Except Abort (Slots size) :=
  if 0 ≤ slot ∧ slot < size then .ok ⟨s.heads.set slot.toNat p, by rw [List.length_set]; exact s.length_eq⟩
  else .error .outOfBounds

end Slots

/-- `htable`, with the nodes its pointers lead to. -/
structure Htable (α : Type) where
  allowResize : Int
  size : Int
  store : Slots size
  nodes : List (Node α)

def deref (nodes : List (Node α)) (p : Nat) : Except Abort (Node α) :=
  match nodes[p]? with
  | some n => .ok n
  | none => .error .invalidPointer

def htableInit (sz allowResize : Int) : Except Abort (Htable α) := do
  let min ← checkInt (sz + 1)
  let size ← getPrime min
  let store ← Slots.alloc size "ht->store"
  return ⟨allowResize, size, store, []⟩

/-! ### `htable_resize` -/

/-- The inner loop: every node of the chain goes to the front of its new chain. A chain that does not
end within the number of nodes has no end. -/
def moveChain (newSize : Int) :
    Nat → Option Nat → List (Node α) → Slots newSize → Except Abort (List (Node α) × Slots newSize)
  | _, none, nodes, newStore => .ok (nodes, newStore)
  | 0, some _, _, _ => .error .diverges
  | fuel + 1, some n, nodes, newStore => do
      let node ← deref nodes n
      let curr := node.next
      let slot := node.hashcode.tmod newSize
      let head ← newStore.get slot
      let nodes := nodes.set n { node with next := if head.isSome then head else none }
      let newStore ← newStore.set slot (some n)
      moveChain newSize fuel curr nodes newStore

/-- The loop over the old array. -/
def moveAll (newSize : Int) :
    List (Option Nat) → List (Node α) → Slots newSize → Except Abort (List (Node α) × Slots newSize)
  | [], nodes, newStore => .ok (nodes, newStore)
  | head :: heads, nodes, newStore => do
      let (nodes, newStore) ← moveChain newSize nodes.length head nodes newStore
      moveAll newSize heads nodes newStore

def htableResize (ht : Htable α) : Except Abort (Htable α) := do
  let min ← checkInt (2 * ht.size)
  let newSize ← getPrime min
  let newStore ← Slots.alloc newSize "new_store != NULL"
  let (nodes, newStore) ← moveAll newSize ht.store.heads ht.nodes newStore
  return ⟨ht.allowResize, newSize, newStore, nodes⟩

/-! ### `htable_insert` and `htable_lookup` -/

/-- The test both functions make: equal hash codes and `strcmp` zero. -/
def isMatch (hcode : Int) (key : CString) (n : Node α) : Bool := n.hashcode == hcode && n.key == key

/-- The loop of `htable_insert`: `none` when the key is found, else `prev` and `collision` at the end of
the chain. -/
def insertLoop (nodes : List (Node α)) (hcode : Int) (key : CString) :
    Nat → Option Nat → Option Nat → Int → Except Abort (Option (Option Nat × Int))
  | _, prev, none, collision => .ok (some (prev, collision))
  | 0, _, some _, _ => .error .diverges
  | fuel + 1, _, some curr, collision => do
      let n ← deref nodes curr
      if isMatch hcode key n then return none
      else
        let collision ← checkInt (collision + 1)
        insertLoop nodes hcode key fuel (some curr) n.next collision

/-- Append the new node `n` to the chain at `slot`, whose last node is `prev`. -/
def linkNode (ht : Htable α) (slot : Int) (prev : Option Nat) (n : Node α) : Except Abort (Htable α) :=
  match prev with
  | none => do
      let store ← ht.store.set slot (some ht.nodes.length)
      return { ht with store := store, nodes := ht.nodes ++ [n] }
  | some p => do
      let q ← deref ht.nodes p
      return { ht with nodes := ht.nodes.set p { q with next := some ht.nodes.length } ++ [n] }

def htableInsert (ht : Htable α) (key : CString) (val : Option α) : Except Abort (Int × Htable α) := do
  let hcode ← hashcode key
  let slot := hcode.tmod ht.size
  let head ← ht.store.get slot
  match ← insertLoop ht.nodes hcode key ht.nodes.length none head 0 with
  | none => return (1, ht)
  | some (prev, collision) =>
      let ht ← linkNode ht slot prev ⟨hcode, key, val, none⟩
      if ht.allowResize ≠ 0 ∧ collision ≥ maxCollision then
        let ht ← htableResize ht
        return (0, ht)
      else return (0, ht)

def lookupLoop (nodes : List (Node α)) (hcode : Int) (key : CString) : Nat → Option Nat → Except Abort (Option α)
  | _, none => .ok none
  | 0, some _ => .error .diverges
  | fuel + 1, some curr => do
      let n ← deref nodes curr
      if isMatch hcode key n then return n.val else lookupLoop nodes hcode key fuel n.next

def htableLookup (ht : Htable α) (key : CString) : Except Abort (Option α) := do
  let hcode ← hashcode key
  let slot := hcode.tmod ht.size
  let head ← ht.store.get slot
  lookupLoop ht.nodes hcode key ht.nodes.length head

end CsoLabs.Table
