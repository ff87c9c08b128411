import CsoLabs.MallocMemlib

/-! The allocator of `mm-naive.c`. A chunk is a 16-byte header followed by its payload, and chunks
follow each other in memory. Only the first word of the header is used: the chunk's size, whose low
bit is borrowed for the status. A chunk is made by moving the break and is never used again. -/

namespace CsoLabs.Malloc
open CLang ByteMemory

/-- `sizeof(header)`: the word `size_n_status` and eight bytes of padding. -/
def sizeofHeader : Nat := 16

/-- `(size_t)status` -/
def statusWord (status : Bool) : SizeT := BitVec.ofNat 64 status.toNat

def setChunkSizeStatus (m : Mem) (hdr : Nat) (size : SizeT) (status : Bool) : Mem :=
  store64 m hdr (size ||| statusWord status)

/-- The mask is all ones when `status` is true: the call clears the bit or leaves the word alone. -/
def setChunkStatus (m : Mem) (hdr : Nat) (status : Bool) : Mem :=
  store64 m hdr (load64 m hdr &&& ~~~(1#64 - statusWord status))

def getChunkStatus (m : Mem) (hdr : Nat) : Bool := load64 m hdr &&& 1#64 != 0#64

def getChunkSize (m : Mem) (hdr : Nat) : SizeT := load64 m hdr &&& ~~~1#64

def payloadToHeader (p : Nat) : Nat := p - sizeofHeader

def headerToPayload (hdr : Nat) : Nat := hdr + sizeofHeader

def getNextChunk (m : Mem) (hdr : Nat) : Nat := hdr + (getChunkSize m hdr).toNat

def mmInit : Int := 0

/-- `newsize`: the chunk's size, narrowed to `int` before it reaches `mem_sbrk`. -/
def newsize (size : SizeT) : Int := toInt (align size + BitVec.ofNat 64 sizeofHeader).toNat

/-- The body of `mm_malloc` after `newsize` is computed. -/
def mallocChunk (newsize : Int) (s : Memlib) : Except Abort (Nat × Memlib) :=
  match s.memSbrk newsize with
  | (none, s) => .ok (null, s)
  | (some h, s) => do
    assertC (isAligned h) "is_aligned((void *)h)"
    let m := setChunkSizeStatus s.mem h (toSizeT newsize) true
    assertC (getChunkStatus m h == true) "get_chunk_status(h) == true"
    assertC (getChunkSize m h == toSizeT newsize) "get_chunk_size(h) == newsize"
    return (headerToPayload h, s.withMem m)

def mmMalloc (size : SizeT) (s : Memlib) : Except Abort (Nat × Memlib) := mallocChunk (newsize size) s

def mmFree (ptr : Nat) (s : Memlib) : Except Abort Memlib := do
  assertC (s.memHeapLo ≤ ptr && ptr ≤ s.memHeapHi) "ptr >= mem_heap_lo() && ptr <= mem_heap_hi()"
  let h := payloadToHeader ptr
  let m := setChunkStatus s.mem h false
  assertC (getChunkStatus m h == false) "get_chunk_status(h) == false"
  return s.withMem m

/-- What `mm_realloc` copies: the old chunk's payload size, rounded up as it is, unless the new request
is smaller. -/
def copySize (m : Mem) (ptr : Nat) (size : SizeT) : SizeT :=
  let payload := getChunkSize m (payloadToHeader ptr) - BitVec.ofNat 64 sizeofHeader
  if size < payload then size else payload

def mmRealloc (ptr : Nat) (size : SizeT) (s : Memlib) : Except Abort (Nat × Memlib) :=
  if 0#64 < size then do
    let (newptr, s) ← mmMalloc size s
    if newptr = null then return (null, s)
    else if ptr = null then return (newptr, s)
    else
      let s := s.withMem (memcpy s.mem newptr ptr (copySize s.mem ptr size).toNat)
      let s ← mmFree ptr s
      return (newptr, s)
  else if ptr = null then return (null, s)
  else do
    let s ← mmFree ptr s
    return (null, s)

/-! ### Header words -/

/-- The header at `hdr` says that its chunk has `size` bytes and the given status. -/
def HeaderAt (m : Mem) (hdr size : Nat) (status : Bool) : Prop :=
  (getChunkSize m hdr).toNat = size ∧ getChunkStatus m hdr = status

theorem HeaderAt.of_eqOutside {m m' : Mem} {hdr size a n : Nat} {status : Bool}
    (h : HeaderAt m hdr size status) (hm : EqOutside m m' a n) (ha : hdr + 8 ≤ a ∨ a + n ≤ hdr) :
    HeaderAt m' hdr size status := by
  have hload := hm.load64 ha
  simpa only [HeaderAt, getChunkSize, getChunkStatus, hload] using h

theorem getLsbD_statusWord (status : Bool) (i : Nat) :
    (statusWord status).getLsbD i = (decide (i = 0) && status) := by
  cases status with
  | false => rw [Bool.and_false]; exact BitVec.getLsbD_zero
  | true => rw [Bool.and_true]; exact BitVec.getLsbD_one

theorem getLsbD_zero_of_even {size : SizeT} (h : size.toNat % 2 = 0) : size.getLsbD 0 = false := by
  rw [BitVec.getLsbD, Nat.testBit_zero, h]
  rfl

/-- The low bit of an even size is free for the status. -/
theorem or_statusWord_and_not_one {size : SizeT} (heven : size.getLsbD 0 = false) (status : Bool) :
    (size ||| statusWord status) &&& ~~~1#64 = size := by
  apply BitVec.eq_of_getLsbD_eq
  intro i hi
  rw [BitVec.getLsbD_and, BitVec.getLsbD_or, BitVec.getLsbD_not, getLsbD_statusWord, BitVec.getLsbD_one]
  by_cases h : i = 0
  · rw [h, heven]
    simp only [show 0 < 64 by omega, decide_true, Bool.and_true, Bool.not_true, Bool.and_false]
  · simp only [h, hi, decide_true, decide_false, Bool.false_and, Bool.or_false, Bool.and_false, Bool.not_false,
      Bool.and_true]

theorem or_statusWord_and_one {size : SizeT} (heven : size.getLsbD 0 = false) (status : Bool) :
    (size ||| statusWord status) &&& 1#64 = statusWord status := by
  apply BitVec.eq_of_getLsbD_eq
  intro i hi
  rw [BitVec.getLsbD_and, BitVec.getLsbD_or, getLsbD_statusWord, BitVec.getLsbD_one]
  by_cases h : i = 0
  · rw [h, heven]
    simp only [show 0 < 64 by omega, decide_true, Bool.true_and, Bool.false_or, Bool.and_true]
  · simp only [h, decide_false, Bool.false_and, Bool.and_false]

theorem setChunkSizeStatus_headerAt (m : Mem) (hdr : Nat) {size : SizeT} (heven : size.toNat % 2 = 0)
    (status : Bool) : HeaderAt (setChunkSizeStatus m hdr size status) hdr size.toNat status := by
  have hlow := getLsbD_zero_of_even heven
  constructor
  · rw [getChunkSize, setChunkSizeStatus, load64_store64, or_statusWord_and_not_one hlow]
  · rw [getChunkStatus, setChunkSizeStatus, load64_store64, or_statusWord_and_one hlow]
    cases status <;> rfl

theorem setChunkStatus_headerAt {m : Mem} {hdr size : Nat} {status : Bool}
    (h : HeaderAt m hdr size status) : HeaderAt (setChunkStatus m hdr false) hdr size false := by
  have hmask : ~~~(1#64 - statusWord false) = ~~~1#64 := rfl
  constructor
  · rw [getChunkSize, setChunkStatus, load64_store64, hmask, BitVec.and_assoc, BitVec.and_self]
    exact h.1
  · rw [getChunkStatus, setChunkStatus, load64_store64, hmask, BitVec.and_assoc,
      show ~~~1#64 &&& 1#64 = 0#64 from rfl, BitVec.and_zero]
    rfl

theorem getChunkStatus_setChunkStatus (m : Mem) (hdr : Nat) :
    getChunkStatus (setChunkStatus m hdr false) hdr = false :=
  (setChunkStatus_headerAt (show HeaderAt m hdr _ _ from ⟨rfl, rfl⟩)).2

/-! ### What the calls do -/

/-- The bytes a request takes from the heap: its payload rounded up, and the header. -/
def chunkBytes (size : SizeT) : Nat := (size.toNat + 15) / 16 * 16 + 16

theorem chunkBytes_eq {size : SizeT} (h : (size.toNat : Int) ≤ intMax) :
    chunkBytes size = (align size).toNat + sizeofHeader := by
  simp only [intMax] at h
  rw [toNat_align, chunkBytes, sizeofHeader]
  omega

theorem newsize_eq {size : SizeT} (h : (size.toNat : Int) ≤ intMax) :
    newsize size = toInt (chunkBytes size) := by
  simp only [intMax] at h
  have hnat : (align size + BitVec.ofNat 64 sizeofHeader).toNat = chunkBytes size := by
    rw [BitVec.toNat_add, toNat_align, BitVec.toNat_ofNat, chunkBytes, sizeofHeader]
    omega
  rw [newsize, hnat]

theorem isAligned_iff {p : Nat} : isAligned p = true ↔ 16 ∣ p := by
  simp only [isAligned, alignment, beq_iff_eq]
  omega

/-- The break moves by the whole chunk, if there is room. -/
theorem memSbrk_room (s : Memlib) {n : Nat} (hroom : s.memBrk + n ≤ s.memMaxAddr) :
    ∃ s', s.memSbrk n = (some s.memBrk, s') ∧ s'.memStartBrk = s.memStartBrk ∧
      s'.memBrk = s.memBrk + n ∧ s'.mem = s.mem := by
  rw [Memlib.memSbrk, dif_neg (by omega)]
  exact ⟨_, rfl, rfl, by simp, rfl⟩

theorem memSbrk_noRoom (s : Memlib) {incr : Int}
    (h : incr < 0 ∨ (s.memMaxAddr : Int) < s.memBrk + incr) : s.memSbrk incr = (none, s) :=
  dif_pos h

theorem mallocChunk_room {s : Memlib} {n : Nat} (heven : n % 2 = 0) (hn : (n : Int) ≤ intMax)
    (haligned : 16 ∣ s.memBrk) (hroom : s.memBrk + n ≤ s.memMaxAddr) :
    ∃ s', mallocChunk n s = .ok (headerToPayload s.memBrk, s') ∧ s'.memStartBrk = s.memStartBrk ∧
      s'.memBrk = s.memBrk + n ∧ EqOutside s.mem s'.mem s.memBrk 8 ∧ HeaderAt s'.mem s.memBrk n true := by
  obtain ⟨s', hsbrk, hstart, hbrk, hmem⟩ := memSbrk_room s hroom
  have hword : (toSizeT n).toNat = n := by rw [toNat_toSizeT (by omega) hn, Int.toNat_natCast]
  have hheader : HeaderAt (setChunkSizeStatus s'.mem s.memBrk (toSizeT n) true) s.memBrk n true := by
    have := setChunkSizeStatus_headerAt s'.mem s.memBrk (hword.symm ▸ heven) true
    rwa [hword] at this
  have hsize : getChunkSize (setChunkSizeStatus s'.mem s.memBrk (toSizeT n) true) s.memBrk = toSizeT n :=
    BitVec.eq_of_toNat_eq (hheader.1.trans hword.symm)
  refine ⟨s'.withMem (setChunkSizeStatus s'.mem s.memBrk (toSizeT n) true), ?_, hstart, hbrk, ?_, hheader⟩
  · simp only [mallocChunk, hsbrk, isAligned_iff.mpr haligned, hheader.2, hsize, beq_self_eq_true,
      assertC_true, ok_bind, pure_eq_ok]
  · rw [Memlib.withMem_mem, ← hmem]
    exact store64_eqOutside _ _ _

theorem mallocChunk_noRoom {s : Memlib} {n : Int} (h : n < 0 ∨ (s.memMaxAddr : Int) < s.memBrk + n) :
    mallocChunk n s = .ok (null, s) := by
  rw [mallocChunk, memSbrk_noRoom s h]

/-- A chunk that fits in the heap has a size that fits in an `int`. -/
theorem chunkBytes_le_intMax {s : Memlib} {n : Nat} (h : s.memBrk + n ≤ s.memMaxAddr) : (n : Int) ≤ intMax := by
  have hstart := s.start_le_brk
  have hmax := s.max_eq
  simp only [maxHeap] at hmax
  simp only [intMax]
  omega

theorem mmMalloc_room {size : SizeT} (hsize : (size.toNat : Int) ≤ intMax) {s : Memlib}
    (haligned : 16 ∣ s.memBrk) (hroom : s.memBrk + chunkBytes size ≤ s.memMaxAddr) :
    ∃ s', mmMalloc size s = .ok (headerToPayload s.memBrk, s') ∧ s'.memStartBrk = s.memStartBrk ∧
      s'.memBrk = s.memBrk + chunkBytes size ∧
      EqOutside s.mem s'.mem s.memBrk 8 ∧ HeaderAt s'.mem s.memBrk (chunkBytes size) true := by
  have hle := chunkBytes_le_intMax hroom
  rw [mmMalloc, newsize_eq hsize, toInt_of_le (by omega) hle]
  exact mallocChunk_room (by rw [chunkBytes]; omega) hle haligned hroom

/-- Out of memory, also when the size turned negative on its way to `mem_sbrk`. -/
theorem mmMalloc_noRoom {size : SizeT} (hsize : (size.toNat : Int) ≤ intMax) {s : Memlib}
    (hroom : s.memMaxAddr < s.memBrk + chunkBytes size) : mmMalloc size s = .ok (null, s) := by
  rw [mmMalloc, newsize_eq hsize]
  apply mallocChunk_noRoom
  by_cases hle : (chunkBytes size : Int) ≤ intMax
  · rw [toInt_of_le (by omega) hle]
    omega
  · refine .inl (toInt_neg (by omega) ?_)
    simp only [intMax] at hsize
    simp only [chunkBytes]
    omega

theorem mmFree_ok {ptr : Nat} {s : Memlib} (hlo : s.memHeapLo ≤ ptr) (hhi : ptr ≤ s.memHeapHi) :
    mmFree ptr s = .ok (s.withMem (setChunkStatus s.mem (payloadToHeader ptr) false)) := by
  simp only [mmFree, hlo, hhi, decide_true, Bool.and_true, getChunkStatus_setChunkStatus, beq_self_eq_true,
    assertC_true, ok_bind, pure_eq_ok]

end CsoLabs.Malloc
