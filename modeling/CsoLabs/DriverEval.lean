import CsoLabs.DriverRanges
import CsoLabs.MallocNaive

/-! The trace interpreters of `mdriver.c`. `eval_mm_valid` checks every block the allocator hands out,
`eval_mm_util` adds up the sizes, `eval_mm_speed` only makes the calls. The three share the trace's
arrays of block pointers and block sizes, the simulated heap and, for the first, the range list.

The allocator under test is a parameter: it keeps a state of its own and works on the memory system, and
nothing is assumed about what it answers. -/

namespace CsoLabs.Driver
open CLang ByteMemory Malloc

/-- The allocator under test, with private state `σ`. -/
structure Allocator (σ : Type) where
  mmInit : σ → Memlib → Except Abort (Int × σ × Memlib)
  mmMalloc : SizeT → σ → Memlib → Except Abort (Nat × σ × Memlib)
  mmRealloc : Nat → SizeT → σ → Memlib → Except Abort (Nat × σ × Memlib)
  mmFree : Nat → σ → Memlib → Except Abort (σ × Memlib)

/-- The allocator of `mm-naive.c`, which has no state outside the heap. -/
def naive : Allocator Unit where
  mmInit _ lib := .ok (Malloc.mmInit, (), lib)
  mmMalloc size _ lib := do
    let (p, lib) ← Malloc.mmMalloc size lib
    return (p, (), lib)
  mmRealloc ptr size _ lib := do
    let (p, lib) ← Malloc.mmRealloc ptr size lib
    return (p, (), lib)
  mmFree ptr _ lib := do
    let lib ← Malloc.mmFree ptr lib
    return ((), lib)

inductive OpType where
  | alloc
  | free
  | realloc
  deriving DecidableEq

/-- `traceop_t` -/
structure TraceOp where
  type : OpType
  index : Int
  size : Int
  deriving DecidableEq

/-- `trace_t`, without the two header numbers nothing reads. The array `ops` has `num_ops` entries. -/
structure Trace where
  numIds : Int
  ops : List TraceOp
  blocks : Int → Nat
  blockSizes : Int → SizeT

/-- Everything an interpreter works on. `returned` records, for the statements below only, the pointers
`mm_malloc` and `mm_realloc` have returned in the run. -/
structure Session (σ : Type) where
  lib : Memlib
  priv : σ
  trace : Trace
  ranges : List Range
  report : Report
  returned : List Nat

variable {σ : Type}

namespace Session

def complain (d : Session σ) (tracenum opnum : Int) (msg : String) : Session σ :=
  { d with report := mallocError tracenum opnum msg d.report }

/-- The two arrays have `num_ids` entries. -/
def checkIndex (d : Session σ) (index : Int) : Except Abort Unit :=
  if 0 ≤ index ∧ index < d.trace.numIds then .ok () else .error .outOfBounds

def block (d : Session σ) (index : Int) : Except Abort Nat := do
  d.checkIndex index
  return d.trace.blocks index

/-- `trace->block_sizes[index]`, converted to `int` -/
def blockSize (d : Session σ) (index : Int) : Except Abort Int := do
  d.checkIndex index
  return toInt (d.trace.blockSizes index).toNat

def setBlock (d : Session σ) (index : Int) (p : Nat) : Except Abort (Session σ) := do
  d.checkIndex index
  return { d with trace := { d.trace with blocks := Function.update d.trace.blocks index p } }

def setBlockSize (d : Session σ) (index size : Int) : Except Abort (Session σ) := do
  d.checkIndex index
  return { d with trace :=
    { d.trace with blockSizes := Function.update d.trace.blockSizes index (toSizeT size) } }

def callInit (A : Allocator σ) (d : Session σ) : Except Abort (Int × Session σ) := do
  let (r, priv, lib) ← A.mmInit d.priv d.lib
  return (r, { d with priv := priv, lib := lib })

def callMalloc (A : Allocator σ) (d : Session σ) (size : Int) : Except Abort (Nat × Session σ) := do
  let (p, priv, lib) ← A.mmMalloc (toSizeT size) d.priv d.lib
  return (p, { d with priv := priv, lib := lib, returned := d.returned ++ [p] })

def callRealloc (A : Allocator σ) (d : Session σ) (ptr : Nat) (size : Int) : Except Abort (Nat × Session σ) := do
  let (p, priv, lib) ← A.mmRealloc ptr (toSizeT size) d.priv d.lib
  return (p, { d with priv := priv, lib := lib, returned := d.returned ++ [p] })

def callFree (A : Allocator σ) (d : Session σ) (ptr : Nat) : Except Abort (Session σ) := do
  let (priv, lib) ← A.mmFree ptr d.priv d.lib
  return { d with priv := priv, lib := lib }

def callAddRange (d : Session σ) (lo : Nat) (size tracenum opnum : Int) : Except Abort (Int × Session σ) := do
  let (v, ranges, report) ← addRange d.lib d.ranges lo size tracenum opnum d.report
  return (v, { d with ranges := ranges, report := report })

def callRemoveRange (d : Session σ) (lo : Nat) : Session σ := { d with ranges := removeRange d.ranges lo }

/-- `memset(p, index & 0xFF, size)` -/
def fill (d : Session σ) (p : Nat) (index size : Int) : Session σ :=
  { d with lib := d.lib.withMem (memset d.lib.mem p (BitVec.ofInt 8 (index % 256)) (toSizeT size).toNat) }

end Session

open Session

/-! ### `eval_mm_valid` -/

section Valid

variable (A : Allocator σ) (tracenum : Int)

/-- The case ALLOC. The flag is false where the source returns 0. -/
def validAlloc (i index size : Int) (d : Session σ) : Except Abort (Bool × Session σ) := do
  let (p, d) ← d.callMalloc A size
  if p = null then return (false, d.complain tracenum i "mm_malloc failed.")
  else
    let (v, d) ← d.callAddRange p size tracenum i
    if v = 0 then return (false, d)
    else
      let d ← (d.fill p index size).setBlock index p
      let d ← d.setBlockSize index size
      return (true, d)

/-- `newp[j] == (index & 0xFF)` for every `j < oldsize`: a plain `char` against a value of `0 .. 255`. -/
def dataKept (m : Mem) (newp : Nat) (index oldsize : Int) : Bool :=
  (List.range oldsize.toNat).all fun j => charToInt (m (newp + j)) == index % 256

/-- `oldsize` after `if (size < oldsize) oldsize = size` -/
def checkedBytes (size oldsize : Int) : Int := if size < oldsize then size else oldsize

def validRealloc (i index size : Int) (d : Session σ) : Except Abort (Bool × Session σ) := do
  let oldp ← d.block index
  let (newp, d) ← d.callRealloc A oldp size
  if newp = null then return (false, d.complain tracenum i "mm_realloc failed.")
  else
    let (v, d) ← (d.callRemoveRange oldp).callAddRange newp size tracenum i
    if v = 0 then return (false, d)
    else
      let oldsize ← d.blockSize index
      if dataKept d.lib.mem newp index (checkedBytes size oldsize) then
        let d ← (d.fill newp index size).setBlock index newp
        let d ← d.setBlockSize index size
        return (true, d)
      else return (false, d.complain tracenum i "mm_realloc did not preserve the data from old block")

def validFree (index : Int) (d : Session σ) : Except Abort (Bool × Session σ) := do
  let p ← d.block index
  let d ← (d.callRemoveRange p).callFree A p
  return (true, d)

def validStep (i : Int) (op : TraceOp) (d : Session σ) : Except Abort (Bool × Session σ) :=
  match op.type with
  | .alloc => validAlloc A tracenum i op.index op.size d
  | .realloc => validRealloc A tracenum i op.index op.size d
  | .free => validFree A op.index d

def validLoop : Int → List TraceOp → Session σ → Except Abort (Int × Session σ)
  | _, [], d => .ok (1, d)
  | i, op :: ops, d => do
      let (continues, d) ← validStep A tracenum i op d
      if continues then validLoop (i + 1) ops d else return (0, d)

/-- The state in which `eval_mm_valid` meets the first request. -/
def Session.restart (d : Session σ) : Session σ :=
  { d with lib := d.lib.memResetBrk, ranges := [], returned := [] }

def evalMmValid (d : Session σ) : Except Abort (Int × Session σ) := do
  let (r, d) ← d.restart.callInit A
  if r < 0 then return (0, d.complain tracenum 0 "mm_init failed.")
  else validLoop A tracenum 0 d.trace.ops d

end Valid

/-! ### `eval_mm_util` -/

/-- `max_total_size` and `total_size` -/
structure Totals where
  max : Int
  total : Int

/-- Add to `total_size` and keep the maximum. The sum is not checked here but brought into the range of `int`: no
branch of the driver looks at the totals, which only end up in the quotient that is reported. For the traces whose
totals are spoken of, `Totals.account` does the same sums with every one checked. -/
def Totals.grow (t : Totals) (n : Int) : Totals :=
  let total := toInt (t.total + n)
  ⟨if t.max < total then total else t.max, total⟩

section Util

variable (A : Allocator σ)

def utilStep (op : TraceOp) (st : Session σ × Totals) : Except Abort (Session σ × Totals) :=
  match st, op.type with
  | (d, t), .alloc => do
      let (p, d) ← d.callMalloc A op.size
      if p = null then throw (.exit "mm_malloc failed in eval_mm_util")
      else
        let d ← d.setBlock op.index p
        let d ← d.setBlockSize op.index op.size
        return (d, t.grow op.size)
  | (d, t), .realloc => do
      let oldsize ← d.blockSize op.index
      let oldp ← d.block op.index
      let (newp, d) ← d.callRealloc A oldp op.size
      if newp = null then throw (.exit "mm_realloc failed in eval_mm_util")
      else
        let d ← d.setBlock op.index newp
        let d ← d.setBlockSize op.index op.size
        return (d, t.grow (op.size - oldsize))
  | (d, t), .free => do
      let size ← d.blockSize op.index
      let p ← d.block op.index
      let d ← d.callFree A p
      return (d, { t with total := toInt (t.total - size) })

def utilLoop : List TraceOp → Session σ × Totals → Except Abort (Session σ × Totals)
  | [], st => .ok st
  | op :: ops, st => do
      let st ← utilStep A op st
      utilLoop ops st

/-- The range list is not touched. -/
def Session.rewind (d : Session σ) : Session σ := { d with lib := d.lib.memResetBrk, returned := [] }

/-- The utilization is the quotient of `max_total_size` and `mem_heapsize()`; the two are returned. -/
def evalMmUtil (d : Session σ) : Except Abort ((Int × Nat) × Session σ) := do
  let (r, d) ← d.rewind.callInit A
  if r < 0 then throw (.exit "mm_init failed in eval_mm_util")
  else
    let (d, t) ← utilLoop A d.trace.ops (d, ⟨0, 0⟩)
    return ((t.max, d.lib.memHeapsize), d)

end Util

/-! ### `eval_mm_speed` -/

section Speed

variable (A : Allocator σ)

def speedStep (op : TraceOp) (d : Session σ) : Except Abort (Session σ) :=
  match op.type with
  | .alloc => do
      let (p, d) ← d.callMalloc A op.size
      if p = null then throw (.exit "mm_malloc error in eval_mm_speed") else d.setBlock op.index p
  | .realloc => do
      let oldp ← d.block op.index
      let (newp, d) ← d.callRealloc A oldp op.size
      if newp = null then throw (.exit "mm_realloc error in eval_mm_speed") else d.setBlock op.index newp
  | .free => do
      let block ← d.block op.index
      d.callFree A block

def speedLoop : List TraceOp → Session σ → Except Abort (Session σ)
  | [], d => .ok d
  | op :: ops, d => do
      let d ← speedStep A op d
      speedLoop ops d

def evalMmSpeed (d : Session σ) : Except Abort (Session σ) := do
  let (r, d) ← d.rewind.callInit A
  if r < 0 then throw (.exit "mm_init failed in eval_mm_speed")
  else speedLoop A d.trace.ops d

end Speed

/-! ### Well-formed traces -/

/-- The ids that are live after a request. -/
def liveAfter (live : List Int) (op : TraceOp) : List Int :=
  match op.type with
  | .alloc => op.index :: live
  | .realloc => live
  | .free => live.erase op.index

/-- The request is in order when the ids in `live` are live: an ALLOC names another id, a REALLOC or a FREE
one of these. The size of a FREE is never read. -/
def OpOk (live : List Int) (op : TraceOp) : Prop :=
  match op.type with
  | .alloc => op.index ∉ live ∧ PosInt op.size
  | .realloc => op.index ∈ live ∧ PosInt op.size
  | .free => op.index ∈ live

def WellFormedFrom : List Int → List TraceOp → Prop
  | _, [] => True
  | live, op :: ops => OpOk live op ∧ WellFormedFrom (liveAfter live op) ops

/-- A trace whose requests are in order and name existing ids. -/
structure Trace.WellFormed (t : Trace) : Prop where
  requests : WellFormedFrom [] t.ops
  ids : ∀ op ∈ t.ops, 0 ≤ op.index ∧ op.index < t.numIds

instance decidablePosInt (size : Int) : Decidable (PosInt size) := inferInstanceAs (Decidable (_ ∧ _))

instance decidableOpOk (live : List Int) (op : TraceOp) : Decidable (OpOk live op) :=
  match op with
  | ⟨.alloc, index, size⟩ => inferInstanceAs (Decidable (index ∉ live ∧ PosInt size))
  | ⟨.realloc, index, size⟩ => inferInstanceAs (Decidable (index ∈ live ∧ PosInt size))
  | ⟨.free, index, _⟩ => inferInstanceAs (Decidable (index ∈ live))

instance decidableWellFormedFrom : (live : List Int) → (ops : List TraceOp) → Decidable (WellFormedFrom live ops)
  | _, [] => inferInstanceAs (Decidable True)
  | live, op :: ops =>
      have := decidableWellFormedFrom (liveAfter live op) ops
      inferInstanceAs (Decidable (_ ∧ _))

/-! ### What a completed request leaves behind -/

/-- The two arrays after a block of `size` bytes at `p` is remembered. -/
def Trace.remember (t : Trace) (index : Int) (p : Nat) (size : Int) : Trace :=
  { t with
    blocks := Function.update t.blocks index p
    blockSizes := Function.update t.blockSizes index (toSizeT size) }

theorem Trace.remember_blockSizes (t : Trace) (index : Int) (p : Nat) (size : Int) :
    (t.remember index p size).blockSizes = Function.update t.blockSizes index (toSizeT size) := rfl

/-- The state after a block has been accepted, filled and remembered. -/
def Session.accepted (d : Session σ) (priv : σ) (lib : Memlib) (ranges : List Range) (index : Int) (p : Nat)
    (size : Int) : Session σ where
  lib := lib.withMem (memset lib.mem p (BitVec.ofInt 8 (index % 256)) (toSizeT size).toNat)
  priv := priv
  trace := d.trace.remember index p size
  ranges := ⟨p, lastByte p size⟩ :: ranges
  report := d.report
  returned := d.returned ++ [p]

section

variable {A : Allocator σ} {tracenum i index size : Int} {d : Session σ}

theorem validAlloc_ok {p : Nat} {priv : σ} {lib : Memlib} (hsize : PosInt size)
    (hindex : 0 ≤ index ∧ index < d.trace.numIds)
    (hcall : A.mmMalloc (toSizeT size) d.priv d.lib = .ok (p, priv, lib)) (hp : p ≠ null)
    (hacc : Accepts lib d.ranges p size) :
    validAlloc A tracenum i index size d = .ok (true, d.accepted priv lib d.ranges index p size) := by
  rcases addRange_spec lib d.ranges p hsize tracenum i d.report with ⟨-, hadd⟩ | ⟨hno, -⟩
  · simp only [validAlloc, callMalloc, hcall, ok_bind, pure_eq_ok, if_neg hp, callAddRange, hadd,
      one_ne_zero, if_false, setBlock, setBlockSize, fill, checkIndex, hindex, and_self, if_true]
    rfl
  · exact absurd hacc hno

theorem of_validAlloc {d' : Session σ} (hsize : PosInt size)
    (h : validAlloc A tracenum i index size d = .ok (true, d')) :
    ∃ p priv lib, A.mmMalloc (toSizeT size) d.priv d.lib = .ok (p, priv, lib) ∧ p ≠ null ∧
      Accepts lib d.ranges p size ∧ (0 ≤ index ∧ index < d.trace.numIds) ∧
      d' = d.accepted priv lib d.ranges index p size := by
  cases hcall : A.mmMalloc (toSizeT size) d.priv d.lib with
  | error e => simp [validAlloc, callMalloc, hcall] at h
  | ok r =>
      obtain ⟨p, priv, lib⟩ := r
      by_cases hp : p = null
      · simp [validAlloc, callMalloc, hcall, hp] at h
      rcases addRange_spec lib d.ranges p hsize tracenum i d.report with ⟨hacc, hadd⟩ | ⟨-, msg, hadd⟩
      · by_cases hindex : 0 ≤ index ∧ index < d.trace.numIds
        · rw [validAlloc_ok hsize hindex hcall hp hacc] at h
          cases h
          exact ⟨p, priv, lib, rfl, hp, hacc, hindex, rfl⟩
        · simp [validAlloc, callMalloc, hcall, hp, callAddRange, hadd, setBlock, checkIndex, fill, hindex] at h
      · simp [validAlloc, callMalloc, hcall, hp, callAddRange, hadd] at h

theorem validRealloc_ok (tracenum i : Int) {newp : Nat} {priv : σ} {lib : Memlib} (hsize : PosInt size)
    (hindex : 0 ≤ index ∧ index < d.trace.numIds)
    (hcall : A.mmRealloc (d.trace.blocks index) (toSizeT size) d.priv d.lib = .ok (newp, priv, lib))
    (hp : newp ≠ null) (hacc : Accepts lib (removeRange d.ranges (d.trace.blocks index)) newp size) :
    validRealloc A tracenum i index size d =
      if dataKept lib.mem newp index (checkedBytes size (toInt (d.trace.blockSizes index).toNat)) then
        .ok (true, d.accepted priv lib (removeRange d.ranges (d.trace.blocks index)) index newp size)
      else .ok (false, { d with
        lib := lib, priv := priv, returned := d.returned ++ [newp],
        ranges := ⟨newp, lastByte newp size⟩ :: removeRange d.ranges (d.trace.blocks index),
        report := mallocError tracenum i "mm_realloc did not preserve the data from old block" d.report }) := by
  rcases addRange_spec lib (removeRange d.ranges (d.trace.blocks index)) newp hsize tracenum i d.report with
    ⟨-, hadd⟩ | ⟨hno, -⟩
  · simp only [validRealloc, block, checkIndex, hindex, and_self, if_true, ok_bind, pure_eq_ok, callRealloc, hcall,
      if_neg hp, callRemoveRange, callAddRange, hadd, one_ne_zero, if_false, blockSize]
    split
    · simp only [setBlock, setBlockSize, fill, checkIndex, hindex, and_self, if_true, ok_bind, pure_eq_ok]
      rfl
    · rfl
  · exact absurd hacc hno

theorem of_validRealloc {d' : Session σ} (hsize : PosInt size)
    (h : validRealloc A tracenum i index size d = .ok (true, d')) :
    ∃ newp priv lib, A.mmRealloc (d.trace.blocks index) (toSizeT size) d.priv d.lib = .ok (newp, priv, lib) ∧
      newp ≠ null ∧ Accepts lib (removeRange d.ranges (d.trace.blocks index)) newp size ∧
      (0 ≤ index ∧ index < d.trace.numIds) ∧
      d' = d.accepted priv lib (removeRange d.ranges (d.trace.blocks index)) index newp size := by
  by_cases hindex : 0 ≤ index ∧ index < d.trace.numIds
  swap
  · simp [validRealloc, block, checkIndex, hindex] at h
  cases hcall : A.mmRealloc (d.trace.blocks index) (toSizeT size) d.priv d.lib with
  | error e => simp [validRealloc, block, checkIndex, hindex, callRealloc, hcall] at h
  | ok r =>
      obtain ⟨newp, priv, lib⟩ := r
      by_cases hp : newp = null
      · simp [validRealloc, block, checkIndex, hindex, callRealloc, hcall, hp] at h
      rcases addRange_spec lib (removeRange d.ranges (d.trace.blocks index)) newp hsize tracenum i d.report with
        ⟨hacc, hadd⟩ | ⟨-, msg, hadd⟩
      · rw [validRealloc_ok tracenum i hsize hindex hcall hp hacc] at h
        split at h
        · cases h
          exact ⟨newp, priv, lib, rfl, hp, hacc, hindex, rfl⟩
        · cases h
      · simp [validRealloc, block, checkIndex, hindex, callRealloc, hcall, hp, callRemoveRange, callAddRange,
          hadd] at h

theorem validFree_ok {priv : σ} {lib : Memlib} (hindex : 0 ≤ index ∧ index < d.trace.numIds)
    (hcall : A.mmFree (d.trace.blocks index) d.priv d.lib = .ok (priv, lib)) :
    validFree A index d = .ok (true, { d with
      priv := priv, lib := lib, ranges := removeRange d.ranges (d.trace.blocks index) }) := by
  simp only [validFree, block, checkIndex, hindex, and_self, if_true, ok_bind, pure_eq_ok, callRemoveRange,
    callFree, hcall]

theorem of_validFree {d' : Session σ} {b : Bool} (h : validFree A index d = .ok (b, d')) :
    ∃ priv lib, A.mmFree (d.trace.blocks index) d.priv d.lib = .ok (priv, lib) ∧
      (0 ≤ index ∧ index < d.trace.numIds) ∧ b = true ∧
      d' = { d with priv := priv, lib := lib, ranges := removeRange d.ranges (d.trace.blocks index) } := by
  by_cases hindex : 0 ≤ index ∧ index < d.trace.numIds
  swap
  · simp [validFree, block, checkIndex, hindex] at h
  cases hcall : A.mmFree (d.trace.blocks index) d.priv d.lib with
  | error e => simp [validFree, block, checkIndex, hindex, callRemoveRange, callFree, hcall] at h
  | ok r =>
      obtain ⟨priv, lib⟩ := r
      rw [validFree_ok hindex hcall] at h
      cases h
      exact ⟨priv, lib, rfl, hindex, rfl, rfl⟩

end

end CsoLabs.Driver
