import CsoLabs.MallocNaive
import CsoLabs.Tiling

/-! A client of the naive allocator, and what it may rely on. The client calls `mm_malloc`,
`mm_realloc` and `mm_free` and writes bytes into its blocks. Beside the memory system a run carries
the client's own view: the blocks it holds, each with the size it asked for and the bytes it has
last written there. -/

namespace CsoLabs.Malloc
open CLang ByteMemory

/-- A block the client holds: the pointer it was given, the size it asked for, and the last value it
wrote at each offset, carried along by `mm_realloc` as far as the old and the new size allow. -/
structure Block where
  ptr : Nat
  requested : Nat
  written : Nat → Option (BitVec 8)

namespace Block

def fresh (ptr requested : Nat) : Block := ⟨ptr, requested, fun _ => none⟩

def record (b : Block) (j : Nat) (v : BitVec 8) : Block :=
  { b with written := fun i => if i = j then some v else b.written i }

/-- The block after a successful `mm_realloc` to `requested` bytes at `ptr`. -/
def moveTo (b : Block) (ptr requested : Nat) : Block :=
  ⟨ptr, requested, fun j => if j < min b.requested requested then b.written j else none⟩

end Block

structure Client where
  lib : Memlib
  live : List Block

inductive Request where
  | malloc (size : SizeT)
  | realloc (ptr : Nat) (size : SizeT)
  | free (ptr : Nat)
  | write (ptr j : Nat) (v : BitVec 8)

/-- The pointer is one the client holds. -/
def IsLive (live : List Block) (p : Nat) : Prop := ∃ b ∈ live, b.ptr = p

instance (live : List Block) (p : Nat) : Decidable (IsLive live p) := inferInstanceAs (Decidable (∃ _ ∈ _, _))

/-- The blocks left when the one at `p` is given back. -/
def without (p : Nat) (live : List Block) : List Block := live.filter fun b => b.ptr ≠ p

/-- The block that `mm_realloc(ptr, requested)` makes at `p`; for `NULL` there is no old block. -/
def moved (live : List Block) (ptr p requested : Nat) : Block :=
  match live.find? fun b => b.ptr = ptr with
  | none => .fresh p requested
  | some b => b.moveTo p requested

/-- The sizes a client asks for: `1 .. INT_MAX`. -/
def InRange (size : SizeT) : Prop := 1 ≤ size.toNat ∧ (size.toNat : Int) ≤ intMax

instance (size : SizeT) : Decidable (InRange size) := inferInstanceAs (Decidable (_ ∧ _))

namespace Client

def Legal (c : Client) : Request → Prop
  | .malloc size => InRange size
  | .realloc ptr size => InRange size ∧ (ptr = null ∨ IsLive c.live ptr)
  | .free ptr => IsLive c.live ptr
  | .write ptr j _ => ∃ b ∈ c.live, b.ptr = ptr ∧ j < b.requested

instance (c : Client) : (r : Request) → Decidable (c.Legal r)
  | .malloc size => inferInstanceAs (Decidable (InRange size))
  | .realloc _ _ => inferInstanceAs (Decidable (_ ∧ (_ ∨ _)))
  | .free ptr => inferInstanceAs (Decidable (IsLive c.live ptr))
  | .write _ _ _ => inferInstanceAs (Decidable (∃ _ ∈ _, _))

/-- A call that returns `NULL` leaves the client with the blocks it had. -/
def exec (c : Client) : Request → Except Abort Client
  | .malloc size => do
      let (p, lib) ← mmMalloc size c.lib
      if p = null then return ⟨lib, c.live⟩
      else return ⟨lib, .fresh p size.toNat :: c.live⟩
  | .realloc ptr size => do
      let (p, lib) ← mmRealloc ptr size c.lib
      if p = null then return ⟨lib, c.live⟩
      else return ⟨lib, moved c.live ptr p size.toNat :: without ptr c.live⟩
  | .free ptr => do
      let lib ← mmFree ptr c.lib
      return ⟨lib, without ptr c.live⟩
  | .write ptr j v =>
      .ok ⟨c.lib.withMem (store8 c.lib.mem (ptr + j) v),
        c.live.map fun b => if b.ptr = ptr then b.record j v else b⟩

def run : List Request → Client → Except Abort Client
  | [], c => .ok c
  | r :: rs, c => do
      let c ← c.exec r
      run rs c

/-- Every request is legal in the state in which it is made. -/
def LegalRun : List Request → Client → Prop
  | [], _ => True
  | r :: rs, c => c.Legal r ∧
      match c.exec r with
      | .ok c' => LegalRun rs c'
      | .error _ => True

instance decidableLegalRun : (rs : List Request) → (c : Client) → Decidable (LegalRun rs c)
  | [], _ => inferInstanceAs (Decidable True)
  | r :: rs, c =>
      have : Decidable (match c.exec r with | .ok c' => LegalRun rs c' | .error _ => True) :=
        match c.exec r with
        | .ok c' => decidableLegalRun rs c'
        | .error _ => inferInstanceAs (Decidable True)
      inferInstanceAs (Decidable (_ ∧ _))

end Client

/-! ### What is promised -/

/-- Following `get_next_chunk` from `h`, the headers `hs` are met and then `e` is reached. -/
def ChunkWalk (m : Mem) : Nat → List Nat → Nat → Prop
  | h, [], e => h = e
  | h, x :: xs, e => x = h ∧ ChunkWalk m (getNextChunk m h) xs e

/-- The heap as the allocator and its client see it, with the headers `hs` of its chunks. -/
structure HeapWellFormed (c : Client) (hs : List Nat) : Prop where
  tiled : ChunkWalk c.lib.mem c.lib.memHeapLo hs c.lib.memBrk
  sizes : ∀ h ∈ hs, 0 < (getChunkSize c.lib.mem h).toNat ∧ 16 ∣ (getChunkSize c.lib.mem h).toNat
  status_iff : ∀ h ∈ hs, getChunkStatus c.lib.mem h = true ↔ IsLive c.live (headerToPayload h)
  aligned : ∀ b ∈ c.live, 16 ∣ b.ptr
  in_heap : ∀ b ∈ c.live, c.lib.memHeapLo ≤ b.ptr ∧ b.ptr + b.requested ≤ c.lib.memBrk
  fits : ∀ b ∈ c.live, payloadToHeader b.ptr ∈ hs ∧ headerToPayload (payloadToHeader b.ptr) = b.ptr ∧
    sizeofHeader + b.requested ≤ (getChunkSize c.lib.mem (payloadToHeader b.ptr)).toNat
  clear_of_headers : ∀ b ∈ c.live, ∀ h ∈ hs, b.ptr + b.requested ≤ h ∨ h + sizeofHeader ≤ b.ptr
  disjoint : c.live.Pairwise fun b b' => b.ptr + b.requested ≤ b'.ptr ∨ b'.ptr + b'.requested ≤ b.ptr

end CsoLabs.Malloc
