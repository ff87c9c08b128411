import CsoLabs.MallocZero

/-! `mm_checkheap`: the walk over the chunks that counts and prints them. The walk has no counter of its
own. It follows the sizes stored in the headers and stops at the last heap byte, so it rests on the
chunks tiling the heap. What it counts is compared with the client's own books: a live block has the chunk
made for its request, and a chunk without a live block is one that was given back. -/

namespace CsoLabs.Malloc
open CLang ByteMemory Tiling

/-- `NORMAL_VERBOSE` -/
def normalVerbose : Int := 1

/-- The four counters and what has been printed. `visited` records, for the statements below only, the
headers the walk has read. -/
structure HeapCheck where
  totalAllocated : SizeT
  totalFree : SizeT
  totalAllocatedSz : SizeT
  totalFreeSz : SizeT
  output : List String
  visited : List Nat

namespace HeapCheck

def start : HeapCheck := ⟨0, 0, 0, 0, [], []⟩

/-- `%ld` of a `size_t` -/
def longText (n : SizeT) : String := toString n.toInt

def chunkLine (m : Mem) (h : Nat) : String :=
  "chunk size " ++ longText (getChunkSize m h) ++ " status " ++ toString (getChunkStatus m h).toNat ++ "\n"

def totalsLine (t : HeapCheck) : String :=
  "total non-free chunks " ++ longText t.totalAllocated ++ " size " ++ longText t.totalAllocatedSz ++
    ", total free chunks " ++ longText t.totalFree ++ " size " ++ longText t.totalFreeSz ++ "\n"

/-- The body of the loop. -/
def visit (m : Mem) (verboseLevel : Int) (t : HeapCheck) (h : Nat) : HeapCheck :=
  let output := if verboseLevel > normalVerbose then t.output ++ [chunkLine m h] else t.output
  let visited := t.visited ++ [h]
  if getChunkStatus m h then
    { t with
      totalAllocatedSz := t.totalAllocatedSz + getChunkSize m h
      totalAllocated := t.totalAllocated + 1
      output := output
      visited := visited }
  else
    { t with
      totalFreeSz := t.totalFreeSz + getChunkSize m h
      totalFree := t.totalFree + 1
      output := output
      visited := visited }

end HeapCheck

/-- The loop from the header at `h`, with `hi` the last heap byte. -/
def checkLoop (m : Mem) (hi : Nat) (verboseLevel : Int) : Nat → Nat → HeapCheck → Except Abort HeapCheck
  | 0, _, _ => .error .diverges
  | fuel + 1, h, t =>
      if h < hi then checkLoop m hi verboseLevel fuel (getNextChunk m h) (t.visit m verboseLevel h) else .ok t

/-- A walk that ends makes no more steps than the heap has bytes. -/
def mmCheckheap (verboseLevel : Int) (s : Memlib) : Except Abort HeapCheck := do
  let t ← checkLoop s.mem s.memHeapHi verboseLevel (s.memHeapsize + 1) s.memHeapLo .start
  if verboseLevel > 0 then return { t with output := t.output ++ [t.totalsLine] } else return t

/-! ### The walk -/

/-- The loop meets the chunks in order and then stops: the last one ends a byte behind `hi`. -/
theorem checkLoop_eq {m : Mem} {a e fuel : Nat} {chunks : List Chunk} (verboseLevel : Int) (t : HeapCheck)
    (htiles : Tiles Chunk.addr Chunk.size a chunks e)
    (hsize : ∀ c ∈ chunks, (getChunkSize m c.addr).toNat = c.size ∧ sizeofHeader ≤ c.size)
    (hfuel : chunks.length < fuel) :
    checkLoop m (e - 1) verboseLevel fuel a t =
      .ok ((chunks.map Chunk.addr).foldl (HeapCheck.visit m verboseLevel) t) := by
  induction chunks generalizing a fuel t with
  | nil =>
      obtain rfl : a = e := htiles
      obtain ⟨fuel, rfl⟩ := Nat.exists_eq_succ_of_ne_zero (Nat.ne_zero_of_lt hfuel)
      rw [checkLoop, if_neg (by omega)]
      rfl
  | cons c chunks ih =>
      obtain ⟨fuel, rfl⟩ := Nat.exists_eq_succ_of_ne_zero (Nat.ne_zero_of_lt hfuel)
      obtain ⟨haddr, hrest⟩ := htiles
      obtain ⟨⟨hc, hmin⟩, hchunks⟩ := List.forall_mem_cons.mp hsize
      have hend := hrest.le
      simp only [sizeofHeader] at hmin
      have hnext : getNextChunk m a = a + c.size := by rw [getNextChunk, ← haddr, hc]
      rw [checkLoop, if_pos (by omega), hnext, List.map_cons, List.foldl_cons, haddr]
      exact ih _ hrest hchunks (by simpa using hfuel)

/-- The chunks whose header says they are in use, and the others. -/
def inUse (m : Mem) (chunks : List Chunk) : List Chunk := chunks.filter fun c => getChunkStatus m c.addr

def notInUse (m : Mem) (chunks : List Chunk) : List Chunk := chunks.filter fun c => !getChunkStatus m c.addr

def sizeSum (chunks : List Chunk) : Nat := (chunks.map Chunk.size).sum

theorem ofNat_sizeSum_cons (c : Chunk) (chunks : List Chunk) :
    BitVec.ofNat 64 (sizeSum (c :: chunks)) = BitVec.ofNat 64 c.size + BitVec.ofNat 64 (sizeSum chunks) :=
  BitVec.ofNat_add _ _

section

variable {m : Mem} {c : Chunk} {chunks : List Chunk}

theorem inUse_cons_true (h : getChunkStatus m c.addr = true) : inUse m (c :: chunks) = c :: inUse m chunks :=
  List.filter_cons_of_pos h

theorem inUse_cons_false (h : getChunkStatus m c.addr = false) : inUse m (c :: chunks) = inUse m chunks :=
  List.filter_cons_of_neg (by rw [h]; exact Bool.false_ne_true)

theorem notInUse_cons_true (h : getChunkStatus m c.addr = true) : notInUse m (c :: chunks) = notInUse m chunks :=
  List.filter_cons_of_neg (by rw [h]; exact Bool.false_ne_true)

theorem notInUse_cons_false (h : getChunkStatus m c.addr = false) :
    notInUse m (c :: chunks) = c :: notInUse m chunks :=
  List.filter_cons_of_pos (by rw [h]; rfl)

end

theorem ofNat_one_add (n : Nat) : BitVec.ofNat 64 (n + 1) = 1 + BitVec.ofNat 64 n := by
  rw [Nat.add_comm, BitVec.ofNat_add]
  rfl

/-- What the counters hold after the chunks have been visited. -/
theorem foldl_visit {m : Mem} (verboseLevel : Int) (t : HeapCheck) {chunks : List Chunk}
    (hsize : ∀ c ∈ chunks, (getChunkSize m c.addr).toNat = c.size) :
    let t' := (chunks.map Chunk.addr).foldl (HeapCheck.visit m verboseLevel) t
    t'.totalAllocated = t.totalAllocated + BitVec.ofNat 64 (inUse m chunks).length ∧
    t'.totalAllocatedSz = t.totalAllocatedSz + BitVec.ofNat 64 (sizeSum (inUse m chunks)) ∧
    t'.totalFree = t.totalFree + BitVec.ofNat 64 (notInUse m chunks).length ∧
    t'.totalFreeSz = t.totalFreeSz + BitVec.ofNat 64 (sizeSum (notInUse m chunks)) ∧
    t'.visited = t.visited ++ chunks.map Chunk.addr := by
  induction chunks generalizing t with
  | nil => simp [inUse, notInUse, sizeSum]
  | cons c chunks ih =>
      obtain ⟨hc, hchunks⟩ := List.forall_mem_cons.mp hsize
      have hword : getChunkSize m c.addr = BitVec.ofNat 64 c.size := by
        rw [← hc, BitVec.ofNat_toNat, BitVec.setWidth_eq]
      obtain ⟨h1, h2, h3, h4, h5⟩ := ih (t.visit m verboseLevel c.addr) hchunks
      simp only [List.map_cons, List.foldl_cons]
      rw [h1, h2, h3, h4, h5]
      cases hst : getChunkStatus m c.addr with
      | true =>
          rw [inUse_cons_true hst, notInUse_cons_true hst]
          simp only [HeapCheck.visit, hst, if_true, List.length_cons, ofNat_sizeSum_cons, hword, ofNat_one_add,
            BitVec.add_assoc, List.append_assoc, List.singleton_append, and_self]
      | false =>
          rw [inUse_cons_false hst, notInUse_cons_false hst]
          simp only [HeapCheck.visit, hst, Bool.false_eq_true, if_false, List.length_cons, ofNat_sizeSum_cons, hword,
            ofNat_one_add, BitVec.add_assoc, List.append_assoc, List.singleton_append, and_self]

/-! ### The accounts of a run -/

/-- The block has the chunk that was made for its request. -/
def Block.HasChunk (b : Block) (chunks : List Chunk) : Prop :=
  (b.requested : Int) ≤ intMax ∧
    ⟨payloadToHeader b.ptr, chunkBytes (BitVec.ofNat 64 b.requested)⟩ ∈ chunks

/-- The books of a run in which `departed` blocks have been given back: every block has its own chunk, and
there is one more chunk for each block that is gone. -/
structure Accounts (c : Client) (chunks : List Chunk) (departed : Nat) : Prop where
  heap : HeapInv c.lib c.live chunks
  pos : ∀ b ∈ c.live, 1 ≤ b.requested
  chunk : ∀ b ∈ c.live, b.HasChunk chunks
  count : chunks.length = c.live.length + departed

theorem length_without {live : List Block} (hnodup : (live.map Block.ptr).Nodup) {b : Block} (hb : b ∈ live) :
    (without b.ptr live).length + 1 = live.length := by
  have herase : (without b.ptr live).map Block.ptr = (live.map Block.ptr).erase b.ptr := by
    rw [hnodup.erase_eq_filter, List.filter_map, without]
    apply congrArg (List.map Block.ptr)
    apply List.filter_congr
    intro b' _
    by_cases heq : b'.ptr = b.ptr
    · simp [heq]
    · simp [heq]
  have hmem : b.ptr ∈ live.map Block.ptr := List.mem_map_of_mem hb
  have hlen := congrArg List.length herase
  rw [List.length_map, List.length_erase_of_mem hmem, List.length_map] at hlen
  have hpos := List.length_pos_of_mem hb
  omega

section

variable {brk departed : Nat} {live live' : List Block} {chunks chunks' : List Chunk}

/-- A turn adds a chunk for each block it makes, and a block it gives back leaves its chunk behind. -/
theorem Turn.count (h : Turn brk live chunks live' chunks' departed) (hnodup : (live.map Block.ptr).Nodup) :
    chunks'.length + live.length = chunks.length + live'.length + departed := by
  cases h with
  | stay => omega
  | make size hsize =>
      rw [List.length_append, List.length_singleton, List.length_cons]
      omega
  | move hb size hsize =>
      have hlen := length_without hnodup hb
      rw [List.length_append, List.length_singleton, List.length_cons]
      omega
  | release hb =>
      have hlen := length_without hnodup hb
      omega
  | record f hptr hreq =>
      rw [List.length_map]
      omega

theorem Block.HasChunk.append {b : Block} (h : b.HasChunk chunks) (more : List Chunk) : b.HasChunk (chunks ++ more) :=
  ⟨h.1, List.mem_append_left _ h.2⟩

/-- The chunk just made is the new block's. -/
theorem hasChunk_new {b : Block} {size : SizeT} (hsize : (size.toNat : Int) ≤ intMax)
    (hptr : b.ptr = headerToPayload brk) (hreq : b.requested = size.toNat) (chunks : List Chunk) :
    b.HasChunk (chunks ++ [⟨brk, chunkBytes size⟩]) := by
  refine ⟨by rw [hreq]; exact hsize, ?_⟩
  rw [hptr, payloadToHeader_headerToPayload, hreq, BitVec.ofNat_toNat, BitVec.setWidth_eq]
  exact List.mem_append_right _ (List.mem_singleton.mpr rfl)

theorem Turn.chunk (h : Turn brk live chunks live' chunks' departed) (hlive : ∀ b ∈ live, b.HasChunk chunks) :
    ∀ b ∈ live', b.HasChunk chunks' := by
  cases h with
  | stay => exact hlive
  | make size hsize =>
      refine List.forall_mem_cons.mpr ⟨hasChunk_new hsize rfl rfl chunks, fun b hb => ?_⟩
      exact (hlive b hb).append _
  | move hb₀ size hsize =>
      refine List.forall_mem_cons.mpr ⟨hasChunk_new hsize rfl rfl chunks, fun b hb => ?_⟩
      exact (hlive b (List.mem_of_mem_filter hb)).append _
  | release hb₀ => exact fun b hb => hlive b (List.mem_of_mem_filter hb)
  | record f hptr hreq =>
      intro b hb
      obtain ⟨b', hb', rfl⟩ := List.mem_map.mp hb
      rw [Block.HasChunk, hptr, hreq]
      exact hlive b' hb'

end

namespace Client

/-- The blocks given back in a run: freed, or moved away. -/
def departures : List Request → Client → Nat
  | [], _ => 0
  | r :: rs, c => c.departs r +
      match c.exec r with
      | .ok c' => departures rs c'
      | .error _ => 0

variable {c : Client} {chunks : List Chunk} {departed : Nat}

/-- Sizes from 1 on are among those from 0 on, and their blocks do not start at the break. -/
theorem Legal.withZero (h : Accounts c chunks departed) {r : Request} (hr : c.Legal r) :
    c.LegalWithZero r ∧ c.FreesBelowBreak r ∧ c.exec r = c.execWithZero r := by
  have hbelow : ∀ ptr, IsLive c.live ptr → ptr ≠ c.lib.memBrk := by
    rintro ptr ⟨b, hb, rfl⟩
    have hbounds := (h.heap.block_bounds hb).2
    have hpos := h.pos b hb
    omega
  cases r with
  | malloc size => exact ⟨hr.2, trivial, rfl⟩
  | realloc ptr size =>
      have hne := ne_zero_of_toNat_pos hr.1.1
      refine ⟨⟨hr.1.2, hr.2⟩, fun hzero => absurd hzero hne, ?_⟩
      simp only [exec, execWithZero, if_neg hne]
  | free ptr => exact ⟨hr, hbelow ptr hr, rfl⟩
  | write ptr j v => exact ⟨hr, trivial, rfl⟩

theorem exec_accounts (h : Accounts c chunks departed) {r : Request} (hr : c.Legal r) :
    ∃ c' chunks', c.exec r = .ok c' ∧ Accounts c' chunks' (departed + c.departs r) := by
  obtain ⟨hlegal, hbelow, hexec⟩ := hr.withZero h
  obtain ⟨c', chunks', hcall, hinv, hturn⟩ := turns_of_legal h.heap hlegal hbelow
  obtain ⟨c'', hcall', -, hpos⟩ := exec_inv ⟨⟨chunks, h.heap⟩, h.pos⟩ hr
  rw [← hexec] at hcall
  obtain rfl : c'' = c' := by
    rw [hcall] at hcall'
    cases hcall'
    rfl
  have hcount := hturn.count h.heap.nodup
  refine ⟨c'', chunks', hcall, hinv, hpos, hturn.chunk h.chunk, ?_⟩
  have := h.count
  omega

theorem run_accounts (h : Accounts c chunks departed) (rs : List Request) (hrs : LegalRun rs c) :
    ∃ c' chunks', run rs c = .ok c' ∧ Accounts c' chunks' (departed + departures rs c) := by
  induction rs generalizing c chunks departed with
  | nil => exact ⟨c, chunks, rfl, h⟩
  | cons r rs ih =>
      obtain ⟨hlegal, hrest⟩ := hrs
      obtain ⟨c₁, chunks₁, hexec, h₁⟩ := exec_accounts h hlegal
      rw [hexec] at hrest
      obtain ⟨c', chunks', hrun, h'⟩ := ih h₁ hrest
      refine ⟨c', chunks', by simp only [run, hexec, ok_bind, hrun], ?_⟩
      simpa only [departures, hexec, Nat.add_assoc] using h'

end Client

/-! ### The counters and the books -/

namespace Accounts

variable {c : Client} {chunks : List Chunk} {departed : Nat}

theorem size_eq (h : Accounts c chunks departed) {ch : Chunk} (hch : ch ∈ chunks) :
    (getChunkSize c.lib.mem ch.addr).toNat = ch.size := by
  obtain ⟨st, hst, -⟩ := h.heap.header ch hch
  exact hst.1

theorem size_pos (h : Accounts c chunks departed) {ch : Chunk} (hch : ch ∈ chunks) : 0 < ch.size :=
  lt_of_lt_of_le (by decide) (h.heap.size_ok ch hch).2

theorem addrs_lt (h : Accounts c chunks departed) : (chunks.map Chunk.addr).Pairwise (· < ·) :=
  h.heap.tiles.pairwise_lt fun _ => h.size_pos

/-- The chunks in use are the live blocks', in some order. -/
theorem inUse_perm (h : Accounts c chunks departed) :
    ((inUse c.lib.mem chunks).map Chunk.addr).Perm (c.live.map fun b => payloadToHeader b.ptr) := by
  have hchunk : ∀ b ∈ c.live, ∃ ch ∈ chunks, b.ptr = headerToPayload ch.addr := by
    intro b hb
    obtain ⟨ch, hch, hptr, -⟩ := h.heap.block b hb
    exact ⟨ch, hch, hptr⟩
  have hnodup : (chunks.map Chunk.addr).Nodup := h.addrs_lt.imp fun hlt => Nat.ne_of_lt hlt
  have hlive : (c.live.map fun b => payloadToHeader b.ptr).Nodup := by
    refine List.Nodup.map_on ?_ h.heap.nodup.of_map
    intro b hb b' hb' heq
    obtain ⟨ch, -, hptr⟩ := hchunk b hb
    obtain ⟨ch', -, hptr'⟩ := hchunk b' hb'
    rw [hptr, hptr', payloadToHeader_headerToPayload, payloadToHeader_headerToPayload] at heq
    exact h.heap.block_unique hb hb' (by rw [hptr, hptr', heq])
  apply (List.perm_ext_iff_of_nodup (hnodup.sublist (List.filter_sublist.map _)) hlive).mpr
  intro a
  simp only [List.mem_map, List.mem_filter]
  constructor
  · rintro ⟨ch, ⟨hch, hst⟩, rfl⟩
    obtain ⟨st, hheader, hiff⟩ := h.heap.header ch hch
    rw [hheader.2] at hst
    obtain ⟨b, hb, hptr⟩ := hiff.mp hst
    exact ⟨b, hb, by rw [hptr, payloadToHeader_headerToPayload]⟩
  · rintro ⟨b, hb, rfl⟩
    obtain ⟨ch, hch, hptr⟩ := hchunk b hb
    obtain ⟨st, hheader, hiff⟩ := h.heap.header ch hch
    refine ⟨ch, ⟨hch, ?_⟩, by rw [hptr, payloadToHeader_headerToPayload]⟩
    rw [hheader.2]
    exact hiff.mpr ⟨b, hb, hptr⟩

theorem inUse_length (h : Accounts c chunks departed) : (inUse c.lib.mem chunks).length = c.live.length := by
  have hlen := h.inUse_perm.length_eq
  rwa [List.length_map, List.length_map] at hlen

theorem notInUse_length (h : Accounts c chunks departed) : (notInUse c.lib.mem chunks).length = departed := by
  have hsplit : chunks.length = (inUse c.lib.mem chunks).length + (notInUse c.lib.mem chunks).length :=
    List.length_eq_length_filter_add _
  have huse := h.inUse_length
  have hcount := h.count
  omega

theorem size_of_live (h : Accounts c chunks departed) {b : Block} (hb : b ∈ c.live) :
    (getChunkSize c.lib.mem (payloadToHeader b.ptr)).toNat =
      (align (BitVec.ofNat 64 b.requested)).toNat + sizeofHeader := by
  obtain ⟨hint, hmem⟩ := h.chunk b hb
  rw [h.size_eq hmem]
  apply chunkBytes_eq
  simp only [intMax] at hint ⊢
  rw [BitVec.toNat_ofNat]
  omega

theorem sizeSum_inUse (h : Accounts c chunks departed) :
    sizeSum (inUse c.lib.mem chunks) =
      (c.live.map fun b => (align (BitVec.ofNat 64 b.requested)).toNat + sizeofHeader).sum := by
  -- both sides add the size word at the header over the same headers
  have hperm := h.inUse_perm.map fun a => (getChunkSize c.lib.mem a).toNat
  rw [List.map_map, List.map_map] at hperm
  have hleft : (inUse c.lib.mem chunks).map Chunk.size =
      (inUse c.lib.mem chunks).map ((fun a => (getChunkSize c.lib.mem a).toNat) ∘ Chunk.addr) :=
    List.map_congr_left fun ch hch => (h.size_eq (List.mem_of_mem_filter hch)).symm
  have hright : c.live.map ((fun a => (getChunkSize c.lib.mem a).toNat) ∘ fun b => payloadToHeader b.ptr) =
      c.live.map fun b => (align (BitVec.ofNat 64 b.requested)).toNat + sizeofHeader :=
    List.map_congr_left fun b hb => h.size_of_live hb
  rw [sizeSum, hleft, hperm.sum_eq, hright]

theorem sizeSum_total (h : Accounts c chunks departed) :
    sizeSum (inUse c.lib.mem chunks) + sizeSum (notInUse c.lib.mem chunks) = c.lib.memHeapsize := by
  have hsplit := ((List.filter_append_perm (fun ch => getChunkStatus c.lib.mem ch.addr) chunks).map
    Chunk.size).sum_eq
  have htotal := h.heap.tiles.sum_len
  rw [List.map_append, List.sum_append] at hsplit
  simp only [sizeSum, inUse, notInUse, Memlib.memHeapsize]
  omega

theorem length_le (h : Accounts c chunks departed) : chunks.length ≤ c.lib.memHeapsize := by
  have htotal := h.heap.tiles.sum_len
  have hle := List.length_le_sum_of_one_le (chunks.map Chunk.size) fun n hn => by
    obtain ⟨ch, hch, rfl⟩ := List.mem_map.mp hn
    exact h.size_pos hch
  rw [List.length_map] at hle
  rw [Memlib.memHeapsize]
  omega

/-- What the walk comes to. -/
theorem checkLoop (h : Accounts c chunks departed) (verboseLevel : Int) :
    Malloc.checkLoop c.lib.mem c.lib.memHeapHi verboseLevel (c.lib.memHeapsize + 1) c.lib.memHeapLo .start =
      .ok ((chunks.map Chunk.addr).foldl (HeapCheck.visit c.lib.mem verboseLevel) .start) :=
  checkLoop_eq verboseLevel .start h.heap.tiles (fun ch hch => ⟨h.size_eq hch, (h.heap.size_ok ch hch).2⟩)
    (Nat.lt_succ_of_le h.length_le)

end Accounts

/-- The walk has ended with the right accounts: it has read the headers `hs` in order, the counters are
those of the client's books, and together they cover the heap. -/
structure HeapCheck.Exact (t : HeapCheck) (c : Client) (hs : List Nat) (departed : Nat) : Prop where
  visited : t.visited = hs
  allocated : t.totalAllocated.toNat = c.live.length
  allocatedSz : t.totalAllocatedSz.toNat =
    (c.live.map fun b => (align (BitVec.ofNat 64 b.requested)).toNat + sizeofHeader).sum
  free : t.totalFree.toNat = departed
  covers : t.totalAllocatedSz.toNat + t.totalFreeSz.toNat = c.lib.memHeapsize

/-- A counter that started at zero. -/
theorem toNat_counter {x : SizeT} {n : Nat} (hx : x = 0#64 + BitVec.ofNat 64 n) (h : n < 2 ^ 64) : x.toNat = n := by
  rw [hx, BitVec.zero_add, BitVec.toNat_ofNat]
  omega

theorem Accounts.exact {c : Client} {chunks : List Chunk} {departed : Nat} (h : Accounts c chunks departed)
    (verboseLevel : Int) :
    ((chunks.map Chunk.addr).foldl (HeapCheck.visit c.lib.mem verboseLevel) .start).Exact c
      (chunks.map Chunk.addr) departed := by
  obtain ⟨h1, h2, h3, h4, h5⟩ := foldl_visit verboseLevel .start fun ch hch => h.size_eq hch
  have hlen := h.length_le
  have hsum := h.sizeSum_total
  have huse := h.inUse_length
  have hnot := h.notInUse_length
  have hcount := h.count
  have hheap : c.lib.memHeapsize < 2 ^ 64 := by
    have hmax := c.lib.brk_le_max
    have hmax' := c.lib.max_le
    rw [Memlib.memHeapsize]
    omega
  refine ⟨h5, ?_, ?_, ?_, ?_⟩
  · rw [toNat_counter h1 (by omega), huse]
  · rw [toNat_counter h2 (by omega), h.sizeSum_inUse]
  · rw [toNat_counter h3 (by omega), hnot]
  · rw [toNat_counter h2 (by omega), toNat_counter h4 (by omega), hsum]

/-- **`mm_checkheap` ends with exact accounts.** At the end of every legal run, at every verbosity, the walk
ends. It has visited the chunks once each in the order of their addresses, every header inside the heap,
and its counters are the client's own books. -/
theorem checkheap_exact_of_legalRun {s : Memlib} (hinit : Initialised s) (haligned : 16 ∣ s.memStartBrk)
    (rs : List Request) (hrs : Client.LegalRun rs ⟨s, []⟩) (verboseLevel : Int) :
    ∃ c, Client.run rs ⟨s, []⟩ = .ok c ∧ ∃ hs t, HeapWellFormed c hs ∧ mmCheckheap verboseLevel c.lib = .ok t ∧
      t.Exact c hs (Client.departures rs ⟨s, []⟩) ∧ hs.Pairwise (· < ·) ∧
      ∀ h ∈ hs, c.lib.memHeapLo ≤ h ∧ h + sizeofHeader ≤ c.lib.memBrk := by
  have hempty : Accounts ⟨s, []⟩ [] 0 :=
    ⟨HeapInv.empty hinit.brk_eq haligned, fun b hb => (List.not_mem_nil hb).elim,
      fun b hb => (List.not_mem_nil hb).elim, rfl⟩
  obtain ⟨c, chunks, hrun, h⟩ := Client.run_accounts hempty rs hrs
  rw [Nat.zero_add] at h
  have hexact := h.exact verboseLevel
  refine ⟨c, hrun, chunks.map Chunk.addr, ?_⟩
  have hinside : ∀ a ∈ chunks.map Chunk.addr, c.lib.memHeapLo ≤ a ∧ a + sizeofHeader ≤ c.lib.memBrk := by
    intro a ha
    obtain ⟨ch, hch, rfl⟩ := List.mem_map.mp ha
    have hbounds := h.heap.tiles.bounds hch
    have hsize := (h.heap.size_ok ch hch).2
    exact ⟨hbounds.1, by omega⟩
  by_cases hverbose : verboseLevel > 0
  · refine ⟨_, h.heap.wellFormed, by rw [mmCheckheap, h.checkLoop, ok_bind, if_pos hverbose, pure_eq_ok], ?_,
      h.addrs_lt, hinside⟩
    exact ⟨hexact.visited, hexact.allocated, hexact.allocatedSz, hexact.free, hexact.covers⟩
  · exact ⟨_, h.heap.wellFormed, by rw [mmCheckheap, h.checkLoop, ok_bind, if_neg hverbose, pure_eq_ok], hexact,
      h.addrs_lt, hinside⟩

theorem checkheap_exact_exampleRun :
    ∃ c, Client.run exampleRun ⟨exampleLib, []⟩ = .ok c ∧ ∃ hs t, mmCheckheap 2 c.lib = .ok t ∧
      t.Exact c hs 2 := by
  have hinit : Initialised exampleLib := .memResetBrk _
  have hdepartures : Client.departures exampleRun ⟨exampleLib, []⟩ = 2 := by decide +kernel
  obtain ⟨c, hrun, hs, t, -, hcall, hexact, -⟩ :=
    checkheap_exact_of_legalRun hinit (by decide) exampleRun (by decide +kernel) 2
  exact ⟨c, hrun, hs, t, hcall, hdepartures ▸ hexact⟩

end CsoLabs.Malloc
