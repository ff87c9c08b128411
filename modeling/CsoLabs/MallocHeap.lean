import CsoLabs.MallocInvariant

/-! The calls of the naive allocator under the heap invariant, and from them what holds along every
run of a legal client: the heap stays tiled by its chunks, and what the client wrote stays. -/

namespace CsoLabs.Malloc
open CLang ByteMemory Tiling

/-- Recording a byte changes neither where a block is nor how large. -/
theorem Block.recordAt_same (ptr j : Nat) (v : BitVec 8) (b : Block) :
    (if b.ptr = ptr then b.record j v else b).ptr = b.ptr ∧
      (if b.ptr = ptr then b.record j v else b).requested = b.requested := by
  split
  · exact ⟨rfl, rfl⟩
  · exact ⟨rfl, rfl⟩

namespace HeapInv

variable {s : Memlib} {live : List Block} {chunks : List Chunk}

theorem malloc (h : HeapInv s live chunks) {size : SizeT} (hsize : (size.toNat : Int) ≤ intMax)
    (hroom : s.memBrk + chunkBytes size ≤ s.memMaxAddr) :
    ∃ s', mmMalloc size s = .ok (headerToPayload s.memBrk, s') ∧ s'.memStartBrk = s.memStartBrk ∧
      s'.memBrk = s.memBrk + chunkBytes size ∧ EqOutside s.mem s'.mem s.memBrk 8 ∧
      HeapInv s' (.fresh (headerToPayload s.memBrk) size.toNat :: live)
        (chunks ++ [⟨s.memBrk, chunkBytes size⟩]) := by
  obtain ⟨s', hcall, hstart, hbrk, hmem, hheader⟩ := mmMalloc_room hsize h.brk_aligned hroom
  refine ⟨s', hcall, hstart, hbrk, hmem, h.extend hstart hbrk hmem hheader ?_ ?_⟩
  · simp only [chunkBytes]
    omega
  · simp only [chunkBytes, sizeofHeader]
    omega

/-- The range check of `mm_free` asks for a payload that starts below the break. -/
theorem free_below (h : HeapInv s live chunks) {b : Block} (hb : b ∈ live) (hlt : b.ptr < s.memBrk) :
    mmFree b.ptr s = .ok (s.withMem (setChunkStatus s.mem (payloadToHeader b.ptr) false)) := by
  have hlo := (h.block_bounds hb).1
  apply mmFree_ok
  · simp only [Memlib.memHeapLo]
    omega
  · simp only [Memlib.memHeapHi]
    omega

theorem free (h : HeapInv s live chunks) {b : Block} (hb : b ∈ live) (hpos : 1 ≤ b.requested) :
    mmFree b.ptr s = .ok (s.withMem (setChunkStatus s.mem (payloadToHeader b.ptr) false)) := by
  have hhi := (h.block_bounds hb).2
  exact h.free_below hb (by omega)

theorem toNat_copySize {m : Mem} {ptr n : Nat} {st : Bool} (h : HeaderAt m (payloadToHeader ptr) n st)
    (hn : sizeofHeader ≤ n) (size : SizeT) :
    (copySize m ptr size).toNat = min size.toNat (n - sizeofHeader) := by
  have hpayload : (getChunkSize m (payloadToHeader ptr) - BitVec.ofNat 64 sizeofHeader).toNat =
      n - sizeofHeader := by
    rw [BitVec.toNat_sub_of_le, h.1, BitVec.toNat_ofNat]
    · rfl
    · rw [BitVec.le_def, h.1]
      exact hn
  simp only [copySize, BitVec.lt_def, hpayload]
  split
  · rw [hpayload] at *
    omega
  · omega

/-- The copy fills the new block with what the client had written in the old one: it reaches as far as
both requests, and never past the new one. -/
theorem copy {b : Block} {p : Nat} {size : SizeT}
    (h : HeapInv s (.fresh p size.toNat :: live) chunks) (hb : b ∈ live) :
    HeapInv (s.withMem (memcpy s.mem p b.ptr (copySize s.mem b.ptr size).toNat))
      (b.moveTo p size.toNat :: live) chunks := by
  have hmem : b ∈ Block.fresh p size.toNat :: live := List.mem_cons_of_mem _ hb
  obtain ⟨c, hc, hptr, hfit⟩ := h.block b hmem
  obtain ⟨st, hst, -⟩ := h.header c hc
  have hhdr : payloadToHeader b.ptr = c.addr := by rw [hptr, payloadToHeader_headerToPayload]
  have hcopy := toNat_copySize (hhdr ▸ hst) (h.size_ok c hc).2 size
  refine h.overwrite_head (w := (b.moveTo p size.toNat).written)
    ((memcpy_eqOutside _ _ _ _).mono le_rfl ?_) ?_
  · simp only [Block.fresh]
    omega
  · intro j hj v hv
    simp only [Block.moveTo] at hv
    split at hv
    · rename_i hlt
      rw [Block.fresh, memcpy_apply s.mem p b.ptr (show j < _ by rw [hcopy]; omega)]
      exact h.data b hmem j (by omega) v hv
    · cases hv

theorem realloc (h : HeapInv s live chunks) {b : Block} (hb : b ∈ live) {size : SizeT}
    (hsize0 : 0 < size.toNat) (hsize : (size.toNat : Int) ≤ intMax)
    (hroom : s.memBrk + chunkBytes size ≤ s.memMaxAddr) :
    ∃ s', mmRealloc b.ptr size s = .ok (headerToPayload s.memBrk, s') ∧ s'.memStartBrk = s.memStartBrk ∧
      s'.memBrk = s.memBrk + chunkBytes size ∧
      HeapInv s' (b.moveTo (headerToPayload s.memBrk) size.toNat :: without b.ptr live)
        (chunks ++ [⟨s.memBrk, chunkBytes size⟩]) := by
  obtain ⟨s₁, hcall, hstart, hbrk, -, h₁⟩ := h.malloc hsize hroom
  have h₂ := h₁.copy hb
  have hb₂ : b ∈ b.moveTo (headerToPayload s.memBrk) size.toNat :: live := List.mem_cons_of_mem _ hb
  have h₃ := h₂.release hb₂
  have hne : headerToPayload s.memBrk ≠ b.ptr := by
    intro heq
    have hbounds := (h.block_bounds hb).2
    simp only [headerToPayload, sizeofHeader] at heq
    omega
  have hwithout : without b.ptr (b.moveTo (headerToPayload s.memBrk) size.toNat :: live) =
      b.moveTo (headerToPayload s.memBrk) size.toNat :: without b.ptr live :=
    List.filter_cons_of_pos (by simpa [Block.moveTo] using hne)
  rw [hwithout] at h₃
  refine ⟨_, ?_, ?_, ?_, h₃⟩
  rotate_left
  · exact hstart
  · exact hbrk
  have hnew : headerToPayload s.memBrk ≠ null := by simp [headerToPayload, sizeofHeader, null]
  -- the new chunk lies above the old block, so that one starts below the break
  have hlt : b.ptr < s₁.memBrk := by
    have hbounds := (h.block_bounds hb).2
    rw [hbrk, chunkBytes]
    omega
  simp only [mmRealloc, BitVec.lt_def, BitVec.toNat_ofNat, Nat.zero_mod, hsize0, if_true, hcall, ok_bind,
    if_neg hnew, if_neg (h.ptr_ne_null hb), h₂.free_below hb₂ hlt, pure_eq_ok]

/-- The client writes one byte of a block. -/
theorem write (h : HeapInv s live chunks) {b : Block} (hb : b ∈ live) {j : Nat} (hj : j < b.requested)
    (v : BitVec 8) :
    HeapInv (s.withMem (store8 s.mem (b.ptr + j) v))
      (live.map fun b' => if b'.ptr = b.ptr then b'.record j v else b') chunks := by
  refine h.overwrite hb ?_ _ (fun b' => (Block.recordAt_same b.ptr j v b').1)
    (fun b' => (Block.recordAt_same b.ptr j v b').2) ?_ ?_
  · exact (store8_eqOutside _ _ _).mono (by omega) (by omega)
  · exact fun b' hne => if_neg hne
  · intro i hi w hw
    rw [if_pos rfl] at hw
    simp only [Block.record] at hw
    split at hw
    · rename_i hij
      cases hw
      rw [hij, store8, if_pos rfl]
    · rename_i hij
      rw [store8, if_neg (by omega)]
      exact h.data b hb i hi w hw

end HeapInv

/-- Without room `mm_realloc` stops before it copies or frees anything. -/
theorem mmRealloc_noRoom {s : Memlib} (ptr : Nat) {size : SizeT} (hsize0 : 0 < size.toNat)
    (hsize : (size.toNat : Int) ≤ intMax) (hroom : s.memMaxAddr < s.memBrk + chunkBytes size) :
    mmRealloc ptr size s = .ok (null, s) := by
  simp only [mmRealloc, BitVec.lt_def, BitVec.toNat_ofNat, Nat.zero_mod, hsize0, if_true,
    mmMalloc_noRoom hsize hroom, ok_bind, pure_eq_ok]

theorem mmRealloc_null {s : Memlib} {size : SizeT} (hsize0 : 0 < size.toNat) :
    mmRealloc null size s = mmMalloc size s := by
  simp only [mmRealloc, BitVec.lt_def, BitVec.toNat_ofNat, Nat.zero_mod, hsize0, if_true]
  cases mmMalloc size s with
  | error e => rfl
  | ok r =>
      obtain ⟨p, s'⟩ := r
      by_cases hp : p = null
      · simp only [ok_bind, hp, if_true, pure_eq_ok]
      · simp only [ok_bind, if_neg hp, pure_eq_ok]

/-- A call of size zero frees its block and answers `NULL`. -/
theorem mmRealloc_zero {ptr : Nat} {s s' : Memlib} (hptr : ptr ≠ null) (hfree : mmFree ptr s = .ok s') :
    mmRealloc ptr 0#64 s = .ok (null, s') := by
  rw [mmRealloc, if_neg (show ¬ 0#64 < 0#64 by decide), if_neg hptr, hfree]
  rfl

theorem mmRealloc_zero_null (s : Memlib) : mmRealloc null 0#64 s = .ok (null, s) := by
  rw [mmRealloc, if_neg (show ¬ 0#64 < 0#64 by decide), if_pos rfl]
  rfl

/-! ### Runs of a client -/

namespace Client

/-- The invariant of a run: the heap invariant, for blocks none of which is empty. -/
def Inv (c : Client) : Prop := (∃ chunks, HeapInv c.lib c.live chunks) ∧ ∀ b ∈ c.live, 1 ≤ b.requested

theorem pos_cons {b : Block} {live : List Block} (hb : 1 ≤ b.requested) (hlive : ∀ b ∈ live, 1 ≤ b.requested) :
    ∀ b' ∈ b :: live, 1 ≤ b'.requested := List.forall_mem_cons.mpr ⟨hb, hlive⟩

theorem pos_without {p : Nat} {live : List Block} (hlive : ∀ b ∈ live, 1 ≤ b.requested) :
    ∀ b ∈ without p live, 1 ≤ b.requested := fun b hb => hlive b (List.mem_of_mem_filter hb)

theorem headerToPayload_ne_null (h : Nat) : headerToPayload h ≠ null := by
  simp [headerToPayload, sizeofHeader, null]

theorem exec_malloc {c : Client} (h : c.Inv) {size : SizeT} (hsize : InRange size) :
    ∃ c', c.exec (.malloc size) = .ok c' ∧ c'.Inv := by
  obtain ⟨⟨chunks, hinv⟩, hpos⟩ := h
  by_cases hroom : c.lib.memBrk + chunkBytes size ≤ c.lib.memMaxAddr
  · obtain ⟨s', hcall, -, -, -, hinv'⟩ := hinv.malloc hsize.2 hroom
    refine ⟨⟨s', .fresh (headerToPayload c.lib.memBrk) size.toNat :: c.live⟩, ?_, ⟨_, hinv'⟩,
      pos_cons hsize.1 hpos⟩
    simp only [exec, hcall, ok_bind, if_neg (headerToPayload_ne_null _), pure_eq_ok]
  · refine ⟨c, ?_, ⟨chunks, hinv⟩, hpos⟩
    simp only [exec, mmMalloc_noRoom hsize.2 (not_le.mp hroom), ok_bind, if_true, pure_eq_ok]

/-- For a pointer that is not live, such as `NULL`, there is no old block to move. -/
theorem moved_of_not_live {live : List Block} {ptr : Nat} (h : ¬ IsLive live ptr) (p requested : Nat) :
    moved live ptr p requested = .fresh p requested := by
  have hfind : live.find? (fun b => b.ptr = ptr) = none := by
    rw [List.find?_eq_none]
    intro b hb hptr
    exact h ⟨b, hb, of_decide_eq_true hptr⟩
  rw [moved, hfind]

theorem without_of_not_live {live : List Block} {ptr : Nat} (h : ¬ IsLive live ptr) :
    without ptr live = live := by
  rw [without, List.filter_eq_self]
  intro b hb
  exact decide_eq_true fun hptr => h ⟨b, hb, hptr⟩

theorem moved_of_mem {s : Memlib} {live : List Block} {chunks : List Chunk} (h : HeapInv s live chunks)
    {b : Block} (hb : b ∈ live) (p requested : Nat) : moved live b.ptr p requested = b.moveTo p requested := by
  cases hfind : live.find? fun b' => b'.ptr = b.ptr with
  | none =>
      have := List.find?_eq_none.mp hfind b hb
      simp at this
  | some b' =>
      have hptr := List.find?_some hfind
      have hb' := h.block_unique (List.mem_of_find?_eq_some hfind) hb (of_decide_eq_true hptr)
      simp only [moved, hfind, hb']

theorem exec_realloc {c : Client} (h : c.Inv) {ptr : Nat} {size : SizeT} (hsize : InRange size)
    (hptr : ptr = null ∨ IsLive c.live ptr) : ∃ c', c.exec (.realloc ptr size) = .ok c' ∧ c'.Inv := by
  obtain ⟨⟨chunks, hinv⟩, hpos⟩ := h
  by_cases hroom : c.lib.memBrk + chunkBytes size ≤ c.lib.memMaxAddr
  · rcases hptr with rfl | ⟨b, hb, rfl⟩
    · have hnull : ¬ IsLive c.live null := fun ⟨b, hb, hb0⟩ => hinv.ptr_ne_null hb hb0
      obtain ⟨c', hcall, hinv'⟩ := exec_malloc ⟨⟨chunks, hinv⟩, hpos⟩ hsize
      refine ⟨c', ?_, hinv'⟩
      simp only [exec, mmRealloc_null hsize.1, without_of_not_live hnull, moved_of_not_live hnull]
      exact hcall
    · obtain ⟨s', hcall, -, -, hinv'⟩ := hinv.realloc hb hsize.1 hsize.2 hroom
      refine ⟨⟨s', b.moveTo (headerToPayload c.lib.memBrk) size.toNat :: without b.ptr c.live⟩, ?_,
        ⟨_, hinv'⟩, pos_cons hsize.1 (pos_without hpos)⟩
      simp only [exec, hcall, ok_bind, if_neg (headerToPayload_ne_null _), moved_of_mem hinv hb, pure_eq_ok]
  · refine ⟨c, ?_, ⟨chunks, hinv⟩, hpos⟩
    simp only [exec, mmRealloc_noRoom ptr hsize.1 hsize.2 (not_le.mp hroom), ok_bind, if_true, pure_eq_ok]

theorem exec_free {c : Client} (h : c.Inv) {ptr : Nat} (hptr : IsLive c.live ptr) :
    ∃ c', c.exec (.free ptr) = .ok c' ∧ c'.Inv := by
  obtain ⟨⟨chunks, hinv⟩, hpos⟩ := h
  obtain ⟨b, hb, rfl⟩ := hptr
  refine ⟨⟨c.lib.withMem (setChunkStatus c.lib.mem (payloadToHeader b.ptr) false), without b.ptr c.live⟩,
    ?_, ⟨chunks, hinv.release hb⟩, pos_without hpos⟩
  simp only [exec, hinv.free hb (hpos b hb), ok_bind, pure_eq_ok]

theorem exec_write {c : Client} (h : c.Inv) {b : Block} (hb : b ∈ c.live) {j : Nat} (hj : j < b.requested)
    (v : BitVec 8) : ∃ c', c.exec (.write b.ptr j v) = .ok c' ∧ c'.Inv := by
  obtain ⟨⟨chunks, hinv⟩, hpos⟩ := h
  refine ⟨_, rfl, ⟨chunks, hinv.write hb hj v⟩, ?_⟩
  intro b' hb'
  obtain ⟨b'', hb'', rfl⟩ := List.mem_map.mp hb'
  rw [(Block.recordAt_same b.ptr j v b'').2]
  exact hpos b'' hb''

theorem exec_inv {c : Client} (h : c.Inv) {r : Request} (hr : c.Legal r) : ∃ c', c.exec r = .ok c' ∧ c'.Inv := by
  cases r with
  | malloc size => exact exec_malloc h hr
  | realloc ptr size => exact exec_realloc h hr.1 hr.2
  | free ptr => exact exec_free h hr
  | write ptr j v =>
      obtain ⟨b, hb, rfl, hj⟩ := hr
      exact exec_write h hb hj v

theorem run_inv {c : Client} (h : c.Inv) (rs : List Request) (hrs : LegalRun rs c) :
    ∃ c', run rs c = .ok c' ∧ c'.Inv := by
  induction rs generalizing c with
  | nil => exact ⟨c, rfl, h⟩
  | cons r rs ih =>
      obtain ⟨c₁, hexec, h₁⟩ := exec_inv h hrs.1
      obtain ⟨hlegal, hrest⟩ := hrs
      rw [hexec] at hrest
      obtain ⟨c₂, hrun, h₂⟩ := ih h₁ hrest
      exact ⟨c₂, by simp only [run, hexec, ok_bind, hrun], h₂⟩

theorem inv_init {s : Memlib} (hinit : Initialised s) (haligned : 16 ∣ s.memStartBrk) : Inv ⟨s, []⟩ :=
  ⟨⟨[], HeapInv.empty hinit.brk_eq haligned⟩, fun b hb => by cases hb⟩

end Client

/-- Following the headers visits exactly the chunks. -/
theorem chunkWalk_of_tiles {m : Mem} {chunks : List Chunk} {a e : Nat}
    (htiles : Tiles Chunk.addr Chunk.size a chunks e)
    (hsize : ∀ c ∈ chunks, (getChunkSize m c.addr).toNat = c.size) : ChunkWalk m a (chunks.map Chunk.addr) e := by
  induction chunks generalizing a with
  | nil => exact htiles
  | cons c cs ih =>
      refine ⟨htiles.1, ?_⟩
      rw [getNextChunk, ← htiles.1, hsize c List.mem_cons_self, htiles.1]
      exact ih htiles.2 fun c' hc' => hsize c' (List.mem_cons_of_mem _ hc')

theorem HeapInv.wellFormed {c : Client} {chunks : List Chunk} (h : HeapInv c.lib c.live chunks) :
    HeapWellFormed c (chunks.map Chunk.addr) := by
  have hsize : ∀ ch ∈ chunks, (getChunkSize c.lib.mem ch.addr).toNat = ch.size := by
    intro ch hch
    obtain ⟨st, hst, -⟩ := h.header ch hch
    exact hst.1
  refine ⟨chunkWalk_of_tiles h.tiles hsize, ?_, ?_, ?_, ?_, ?_, ?_, ?_⟩
  · intro a ha
    obtain ⟨ch, hch, rfl⟩ := List.mem_map.mp ha
    rw [hsize ch hch]
    exact ⟨lt_of_lt_of_le (by decide) (h.size_ok ch hch).2, (h.size_ok ch hch).1⟩
  · intro a ha
    obtain ⟨ch, hch, rfl⟩ := List.mem_map.mp ha
    obtain ⟨st, hst, hlive⟩ := h.header ch hch
    rw [hst.2]
    exact hlive
  · intro b hb
    obtain ⟨ch, hch, hptr, -⟩ := h.block b hb
    rw [hptr]
    exact (Nat.dvd_add_right (h.addr_aligned hch)).mpr (dvd_refl 16)
  · intro b hb
    have hbounds := h.block_bounds hb
    exact ⟨(Nat.le_add_right _ _).trans hbounds.1, hbounds.2⟩
  · intro b hb
    obtain ⟨ch, hch, hptr, hfit⟩ := h.block b hb
    rw [hptr, payloadToHeader_headerToPayload, hsize ch hch]
    exact ⟨List.mem_map_of_mem hch, rfl, hfit⟩
  · intro b hb a ha
    obtain ⟨ch, hch, rfl⟩ := List.mem_map.mp ha
    exact h.header_apart hb hch
  · have hptrs : c.live.Pairwise fun b b' => b.ptr ≠ b'.ptr := List.pairwise_map.mp h.nodup
    exact hptrs.imp_of_mem fun hb hb' hne => h.blocks_apart hb hb' hne

/-- **The heap stays tiled.** Every legal run goes through, and in the state it ends in the chunks tile the
heap, their status bits are the live pointers, and every payload is where it should be. -/
theorem heap_wellFormed_of_legalRun {s : Memlib} (hinit : Initialised s) (haligned : 16 ∣ s.memStartBrk)
    (rs : List Request) (hrs : Client.LegalRun rs ⟨s, []⟩) :
    ∃ c, Client.run rs ⟨s, []⟩ = .ok c ∧ ∃ hs, HeapWellFormed c hs := by
  obtain ⟨c, hrun, ⟨chunks, hinv⟩, -⟩ := Client.run_inv (Client.inv_init hinit haligned) rs hrs
  exact ⟨c, hrun, chunks.map Chunk.addr, hinv.wellFormed⟩

/-- A block is written to, moved, and given back after another one was made. -/
def exampleRun : List Request :=
  [.malloc 5, .write 4112 3 7, .realloc 4112 40, .malloc 1, .write 4208 0 1, .free 4144]

theorem heap_wellFormed_exampleRun :
    ∃ c, Client.run exampleRun ⟨exampleLib, []⟩ = .ok c ∧ ∃ hs, HeapWellFormed c hs :=
  heap_wellFormed_of_legalRun (.memResetBrk _) (by decide) exampleRun (by decide +kernel)

/-- **What was written stays.** At the end of every legal run, each byte the client has written in a block it
still holds, there or before the block was moved, is read back. -/
theorem data_preserved_of_legalRun {s : Memlib} (hinit : Initialised s) (haligned : 16 ∣ s.memStartBrk)
    (rs : List Request) (hrs : Client.LegalRun rs ⟨s, []⟩) :
    ∃ c, Client.run rs ⟨s, []⟩ = .ok c ∧ ∀ b ∈ c.live, ∀ j, j < b.requested → ∀ v,
      b.written j = some v → c.lib.mem (b.ptr + j) = v := by
  obtain ⟨c, hrun, ⟨chunks, hinv⟩, -⟩ := Client.run_inv (Client.inv_init hinit haligned) rs hrs
  exact ⟨c, hrun, hinv.data⟩

theorem data_preserved_exampleRun :
    ∃ c, Client.run exampleRun ⟨exampleLib, []⟩ = .ok c ∧ ∀ b ∈ c.live, ∀ j, j < b.requested → ∀ v,
      b.written j = some v → c.lib.mem (b.ptr + j) = v :=
  data_preserved_of_legalRun (.memResetBrk _) (by decide) exampleRun (by decide +kernel)

end CsoLabs.Malloc
