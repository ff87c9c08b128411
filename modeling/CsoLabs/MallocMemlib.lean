import CsoLabs.ByteMemory

/-! The simulated memory system of `memlib.c`: a 200 MB area obtained from libc, in which a break
pointer moves upwards. Addresses are natural numbers. libc hands out addresses of the user half of
the address space, so no address below wraps; this and the order of the three static pointers are
fields of the state, which every function of the module keeps. -/

namespace CsoLabs.Malloc
open CLang ByteMemory

/-- `ALIGNMENT` -/
def alignment : Nat := 16

/-- `MAX_HEAP` -/
def maxHeap : Nat := 200 * 2 ^ 20

/-- `NULL` -/
def null : Nat := 0

/-- Round up to a multiple of the alignment, with the wrap of `size_t`. -/
def align (size : SizeT) : SizeT :=
  (size + BitVec.ofNat 64 (alignment - 1)) &&& ~~~BitVec.ofNat 64 (alignment - 1)

def isAligned (p : Nat) : Bool := p % alignment == 0

/-- The area libc's `malloc(MAX_HEAP)` returns, with whatever bytes it holds. -/
structure Area where
  start : Nat
  mem : Mem
  start_pos : 0 < start
  end_le : start + maxHeap ≤ 2 ^ 47

/-- The static variables of `memlib.c` and the memory they point into. -/
structure Memlib where
  memStartBrk : Nat
  memBrk : Nat
  memMaxAddr : Nat
  mem : Mem
  start_pos : 0 < memStartBrk
  start_le_brk : memStartBrk ≤ memBrk
  brk_le_max : memBrk ≤ memMaxAddr
  max_eq : memMaxAddr = memStartBrk + maxHeap
  max_le : memMaxAddr ≤ 2 ^ 47

/-- `none` is a failed libc `malloc`. -/
def memInit (area : Option Area) : Except Abort Memlib :=
  match area with
  | none => .error (.exit "mem_init_vm: malloc error\n")
  | some area => .ok {
      memStartBrk := area.start
      memBrk := area.start
      memMaxAddr := area.start + maxHeap
      mem := area.mem
      start_pos := area.start_pos
      start_le_brk := le_rfl
      brk_le_max := Nat.le_add_right _ _
      max_eq := rfl
      max_le := area.end_le }

namespace Memlib

/-- The break goes back to the start; the bytes stay. -/
def memResetBrk (s : Memlib) : Memlib :=
  { s with
    memBrk := s.memStartBrk
    start_le_brk := le_rfl
    brk_le_max := by have := s.max_eq; omega }

/-- The address of the new area. A failure, which the source reports by the address `(void *)-1`, is
`none`: no break pointer has that value. -/
def memSbrk (s : Memlib) (incr : Int) : Option Nat × Memlib :=
  if h : incr < 0 ∨ (s.memMaxAddr : Int) < s.memBrk + incr then (none, s)
  else (some s.memBrk,
    { s with
      memBrk := s.memBrk + incr.toNat
      start_le_brk := by have := s.start_le_brk; omega
      brk_le_max := by omega })

def memHeapLo (s : Memlib) : Nat := s.memStartBrk

/-- The address of the last heap byte. -/
def memHeapHi (s : Memlib) : Nat := s.memBrk - 1

def memHeapsize (s : Memlib) : Nat := s.memBrk - s.memStartBrk

/-- The same memory system with other bytes. -/
def withMem (s : Memlib) (m : Mem) : Memlib := { s with mem := m }

@[simp] theorem withMem_mem (s : Memlib) (m : Mem) : (s.withMem m).mem = m := rfl


end Memlib

/-- A memory system just initialised: by `mem_init`, or by `mem_reset_brk` at any later moment. -/
inductive Initialised : Memlib → Prop
  | memInit {area : Option Area} {s : Memlib} (h : memInit area = .ok s) : Initialised s
  | memResetBrk (s : Memlib) : Initialised s.memResetBrk

theorem Initialised.brk_eq {s : Memlib} (h : Initialised s) : s.memBrk = s.memStartBrk := by
  cases h with
  | @memInit area _ h =>
      cases area with
      | none => cases h
      | some area => cases h; rfl
  | memResetBrk => rfl

theorem toNat_align (size : SizeT) : (align size).toNat = (size.toNat + 15) % 2 ^ 64 / 16 * 16 := by
  rw [align, show BitVec.ofNat 64 (alignment - 1) = 15#64 from rfl, toNat_and_not_fifteen,
    BitVec.toNat_add]
  rfl

/-- A heap at address 4096 that has just been reset. -/
def exampleLib : Memlib :=
  Memlib.memResetBrk ⟨4096, 4096, 4096 + maxHeap, fun _ => 0, by decide, by decide, by decide, rfl, by decide⟩

end CsoLabs.Malloc
