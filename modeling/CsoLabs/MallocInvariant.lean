import CsoLabs.MallocClient

/-! The invariant that ties the break pointer, the header words and the client's blocks together, and
one lemma for each thing that happens to the heap: a chunk is carved off the top (`extend`), a
payload is overwritten (`overwrite`), a status bit is cleared (`release`). Every call of the
allocator is one of these or a sequence of them. -/

namespace CsoLabs.Malloc
open CLang ByteMemory Tiling

/-- A chunk, by the address of its header and its whole size. -/
structure Chunk where
  addr : Nat
  size : Nat

structure HeapInv (s : Memlib) (live : List Block) (chunks : List Chunk) : Prop where
  start_aligned : 16 ∣ s.memStartBrk
  tiles : Tiles Chunk.addr Chunk.size s.memStartBrk chunks s.memBrk
  size_ok : ∀ c ∈ chunks, 16 ∣ c.size ∧ sizeofHeader ≤ c.size
  header : ∀ c ∈ chunks, ∃ st, HeaderAt s.mem c.addr c.size st ∧
    (st = true ↔ IsLive live (headerToPayload c.addr))
  block : ∀ b ∈ live, ∃ c ∈ chunks, b.ptr = headerToPayload c.addr ∧ sizeofHeader + b.requested ≤ c.size
  nodup : (live.map Block.ptr).Nodup
  data : ∀ b ∈ live, ∀ j, j < b.requested → ∀ v, b.written j = some v → s.mem (b.ptr + j) = v

@[simp] theorem payloadToHeader_headerToPayload (h : Nat) : payloadToHeader (headerToPayload h) = h :=
  Nat.add_sub_cancel h sizeofHeader

namespace HeapInv

variable {s : Memlib} {live : List Block} {chunks : List Chunk}

theorem empty (hbrk : s.memBrk = s.memStartBrk) (haligned : 16 ∣ s.memStartBrk) : HeapInv s [] [] where
  start_aligned := haligned
  tiles := hbrk.symm
  size_ok := by simp
  header := by simp
  block := by simp
  nodup := by simp
  data := by simp

theorem brk_aligned (h : HeapInv s live chunks) : 16 ∣ s.memBrk :=
  (h.tiles.dvd h.start_aligned fun c hc => (h.size_ok c hc).1).1

theorem addr_aligned (h : HeapInv s live chunks) {c : Chunk} (hc : c ∈ chunks) : 16 ∣ c.addr :=
  (h.tiles.dvd h.start_aligned fun c hc => (h.size_ok c hc).1).2 c hc

theorem chunk_unique (h : HeapInv s live chunks) {c c' : Chunk} (hc : c ∈ chunks) (hc' : c' ∈ chunks)
    (haddr : c.addr = c'.addr) : c = c' :=
  h.tiles.eq_of_lo_eq (fun c hc => lt_of_lt_of_le (by decide) (h.size_ok c hc).2) hc hc' haddr

/-- Blocks are known by their pointers. -/
theorem block_unique (h : HeapInv s live chunks) {b b' : Block} (hb : b ∈ live) (hb' : b' ∈ live)
    (hptr : b.ptr = b'.ptr) : b = b' :=
  List.inj_on_of_nodup_map h.nodup hb hb' hptr

/-- A payload lies in the heap, behind its own header. -/
theorem block_bounds (h : HeapInv s live chunks) {b : Block} (hb : b ∈ live) :
    s.memStartBrk + sizeofHeader ≤ b.ptr ∧ b.ptr + b.requested ≤ s.memBrk := by
  obtain ⟨c, hc, hptr, hfit⟩ := h.block b hb
  have hbounds := h.tiles.bounds hc
  rw [hptr, headerToPayload]
  omega

/-- No live payload is at `NULL`. -/
theorem ptr_ne_null (h : HeapInv s live chunks) {b : Block} (hb : b ∈ live) : b.ptr ≠ null := by
  have hpos := s.start_pos
  have hbounds := (h.block_bounds hb).1
  simp only [null]
  omega

/-- A payload meets no chunk but its own, and of that one only what follows the header. -/
theorem block_apart (h : HeapInv s live chunks) {b : Block} (hb : b ∈ live) {c : Chunk} (hc : c ∈ chunks) :
    (b.ptr = headerToPayload c.addr ∧ sizeofHeader + b.requested ≤ c.size) ∨
      b.ptr + b.requested ≤ c.addr ∨ c.addr + c.size ≤ b.ptr := by
  obtain ⟨c', hc', hptr, hfit⟩ := h.block b hb
  have hsize := (h.size_ok c hc).2
  simp only [headerToPayload] at hptr ⊢
  rcases h.tiles.apart hc' hc with heq | hlt | hlt
  · subst heq
    exact .inl ⟨hptr, hfit⟩
  · exact .inr (.inl (by omega))
  · exact .inr (.inr (by omega))

theorem header_apart (h : HeapInv s live chunks) {b : Block} (hb : b ∈ live) {c : Chunk} (hc : c ∈ chunks) :
    b.ptr + b.requested ≤ c.addr ∨ c.addr + sizeofHeader ≤ b.ptr := by
  have hsize := (h.size_ok c hc).2
  rcases h.block_apart hb hc with ⟨hptr, -⟩ | hlt | hlt
  · simp only [headerToPayload] at hptr
    omega
  · exact .inl hlt
  · exact .inr (by omega)

theorem blocks_apart (h : HeapInv s live chunks) {b b' : Block} (hb : b ∈ live) (hb' : b' ∈ live)
    (hne : b.ptr ≠ b'.ptr) : b.ptr + b.requested ≤ b'.ptr ∨ b'.ptr + b'.requested ≤ b.ptr := by
  obtain ⟨c, hc, hptr, hfit⟩ := h.block b hb
  rcases h.block_apart hb' hc with ⟨hptr', -⟩ | hlt | hlt
  · exact absurd (hptr.trans hptr'.symm) hne
  all_goals
    simp only [headerToPayload] at hptr
    omega

/-- The order in which the client lists its blocks does not matter. -/
theorem perm (h : HeapInv s live chunks) {live' : List Block} (hperm : live.Perm live') :
    HeapInv s live' chunks where
  start_aligned := h.start_aligned
  tiles := h.tiles
  size_ok := h.size_ok
  header c hc := by
    obtain ⟨st, hst, hlive⟩ := h.header c hc
    refine ⟨st, hst, hlive.trans ?_⟩
    simp only [IsLive, hperm.mem_iff]
  block b hb := h.block b (hperm.mem_iff.mpr hb)
  nodup := (hperm.map Block.ptr).nodup_iff.mp h.nodup
  data b hb := h.data b (hperm.mem_iff.mpr hb)

/-! ### Carving a chunk -/

/-- A new chunk above the old break, whose header is already written. -/
theorem extend (h : HeapInv s live chunks) {s' : Memlib} {n requested : Nat}
    (hstart : s'.memStartBrk = s.memStartBrk) (hbrk : s'.memBrk = s.memBrk + n)
    (hmem : EqOutside s.mem s'.mem s.memBrk 8) (hheader : HeaderAt s'.mem s.memBrk n true)
    (hn : 16 ∣ n) (hfit : sizeofHeader + requested ≤ n) :
    HeapInv s' (.fresh (headerToPayload s.memBrk) requested :: live) (chunks ++ [⟨s.memBrk, n⟩]) := by
  have hfresh : ∀ c ∈ chunks, headerToPayload s.memBrk ≠ headerToPayload c.addr := by
    intro c hc heq
    have hbounds := (h.tiles.bounds hc).2
    have hsize := (h.size_ok c hc).2
    simp only [headerToPayload, sizeofHeader] at heq hsize
    omega
  refine ⟨hstart ▸ h.start_aligned, ?_, ?_, ?_, ?_, ?_, ?_⟩
  · rw [hstart, hbrk]
    exact h.tiles.concat rfl
  · intro c hc
    rcases List.mem_append.mp hc with hc | hc
    · exact h.size_ok c hc
    · rw [List.mem_singleton.mp hc]
      exact ⟨hn, (Nat.le_add_right _ _).trans hfit⟩
  · intro c hc
    rcases List.mem_append.mp hc with hc | hc
    · obtain ⟨st, hst, hlive⟩ := h.header c hc
      have hbounds := (h.tiles.bounds hc).2
      have hsize := (h.size_ok c hc).2
      refine ⟨st, hst.of_eqOutside hmem (.inl (by simp only [sizeofHeader] at hsize; omega)), hlive.trans ?_⟩
      simp only [IsLive, List.exists_mem_cons_iff, Block.fresh, hfresh c hc, false_or]
    · rw [List.mem_singleton.mp hc]
      exact ⟨true, hheader, by simp [IsLive, Block.fresh]⟩
  · intro b hb
    rcases List.mem_cons.mp hb with rfl | hb
    · exact ⟨⟨s.memBrk, n⟩, by simp, rfl, hfit⟩
    · obtain ⟨c, hc, hrest⟩ := h.block b hb
      exact ⟨c, List.mem_append_left _ hc, hrest⟩
  · refine List.nodup_cons.mpr ⟨?_, h.nodup⟩
    intro hmem
    obtain ⟨b, hb, hptr⟩ := List.mem_map.mp hmem
    obtain ⟨c, hc, hbc, -⟩ := h.block b hb
    exact hfresh c hc (hptr.symm.trans hbc)
  · intro b hb j hj v hv
    rcases List.mem_cons.mp hb with rfl | hb
    · cases hv
    · have hbounds := (h.block_bounds hb).2
      rw [hmem _ (.inl (by omega))]
      exact h.data b hb j hj v hv

/-! ### Writing into a payload -/

/-- Bytes change inside one live payload only; `f` brings the client's view of that block up to date. -/
theorem overwrite (h : HeapInv s live chunks) {b₀ : Block} (hb₀ : b₀ ∈ live) {m : Mem}
    (hm : EqOutside s.mem m b₀.ptr b₀.requested) (f : Block → Block)
    (hptr : ∀ b, (f b).ptr = b.ptr) (hreq : ∀ b, (f b).requested = b.requested)
    (hother : ∀ b, b.ptr ≠ b₀.ptr → f b = b)
    (hdata : ∀ j, j < b₀.requested → ∀ v, (f b₀).written j = some v → m (b₀.ptr + j) = v) :
    HeapInv (s.withMem m) (live.map f) chunks := by
  refine ⟨h.start_aligned, h.tiles, h.size_ok, ?_, ?_, ?_, ?_⟩
  · intro c hc
    obtain ⟨st, hst, hlive⟩ := h.header c hc
    have hsep := h.header_apart hb₀ hc
    refine ⟨st, hst.of_eqOutside hm ?_, hlive.trans ?_⟩
    · simp only [sizeofHeader] at hsep
      omega
    · simp only [IsLive, List.mem_map, exists_exists_and_eq_and, hptr]
  · intro b hb
    obtain ⟨b', hb', rfl⟩ := List.mem_map.mp hb
    rw [hptr, hreq]
    exact h.block b' hb'
  · rw [List.map_map, show Block.ptr ∘ f = Block.ptr from funext hptr]
    exact h.nodup
  · intro b hb j hj v hv
    obtain ⟨b', hb', rfl⟩ := List.mem_map.mp hb
    rw [hreq] at hj
    rw [hptr, Memlib.withMem_mem]
    by_cases heq : b'.ptr = b₀.ptr
    · obtain rfl := h.block_unique hb' hb₀ heq
      exact hdata j hj v hv
    · rw [hother b' heq] at hv
      have hsep := h.blocks_apart hb' hb₀ heq
      rw [hm _ (by omega)]
      exact h.data b' hb' j hj v hv

/-- The same for the block listed first. -/
theorem overwrite_head {b : Block} (h : HeapInv s (b :: live) chunks) {m : Mem}
    (hm : EqOutside s.mem m b.ptr b.requested) {w : Nat → Option (BitVec 8)}
    (hdata : ∀ j, j < b.requested → ∀ v, w j = some v → m (b.ptr + j) = v) :
    HeapInv (s.withMem m) ({ b with written := w } :: live) chunks := by
  have hb : b ∈ b :: live := List.mem_cons_self
  have hlive : ∀ b' ∈ live, b'.ptr ≠ b.ptr := by
    intro b' hb' heq
    exact (List.nodup_cons.mp h.nodup).1 (List.mem_map.mpr ⟨b', hb', heq⟩)
  have hinv := h.overwrite hb hm (fun b' => if b'.ptr = b.ptr then { b' with written := w } else b')
    (fun b' => by split <;> rfl) (fun b' => by split <;> rfl) (fun b' hne => if_neg hne)
    (fun j hj v hv => hdata j hj v (by simpa using hv))
  have hmap : live.map (fun b' => if b'.ptr = b.ptr then { b' with written := w } else b') = live := by
    rw [List.map_congr_left fun b' hb' => if_neg (hlive b' hb'), List.map_id']
  rwa [List.map_cons, if_pos rfl, hmap] at hinv

/-! ### Clearing a status bit -/

theorem release (h : HeapInv s live chunks) {b : Block} (hb : b ∈ live) :
    HeapInv (s.withMem (setChunkStatus s.mem (payloadToHeader b.ptr) false)) (without b.ptr live) chunks := by
  obtain ⟨c₀, hc₀, hptr, -⟩ := h.block b hb
  have hhdr : payloadToHeader b.ptr = c₀.addr := by rw [hptr, payloadToHeader_headerToPayload]
  have hm : EqOutside s.mem (setChunkStatus s.mem c₀.addr false) c₀.addr 8 := store64_eqOutside _ _ _
  have hmem : ∀ b', b' ∈ without b.ptr live ↔ b' ∈ live ∧ b'.ptr ≠ b.ptr := by
    intro b'
    simp only [without, List.mem_filter, decide_eq_true_eq]
  rw [hhdr]
  refine ⟨h.start_aligned, h.tiles, h.size_ok, ?_, ?_, ?_, ?_⟩
  · intro c hc
    obtain ⟨st, hst, hlive⟩ := h.header c hc
    by_cases haddr : c.addr = c₀.addr
    · obtain rfl := h.chunk_unique hc hc₀ haddr
      refine ⟨false, setChunkStatus_headerAt hst, iff_of_false Bool.false_ne_true ?_⟩
      rintro ⟨b', hb', hptr'⟩
      exact ((hmem b').mp hb').2 (hptr'.trans hptr.symm)
    · have hsize := (h.size_ok c hc).2
      have hsize₀ := (h.size_ok c₀ hc₀).2
      simp only [sizeofHeader] at hsize hsize₀
      refine ⟨st, hst.of_eqOutside hm ?_, hlive.trans ?_⟩
      · rcases h.tiles.apart hc hc₀ with heq | hlt | hlt
        · exact absurd (congrArg Chunk.addr heq) haddr
        all_goals omega
      · refine exists_congr fun b' => ?_
        rw [hmem]
        refine ⟨fun hb' => ⟨⟨hb'.1, fun heq => haddr ?_⟩, hb'.2⟩, fun hb' => ⟨hb'.1.1, hb'.2⟩⟩
        have := hb'.2.symm.trans (heq.trans hptr)
        simpa [headerToPayload] using this
  · exact fun b' hb' => h.block b' ((hmem b').mp hb').1
  · exact h.nodup.sublist (List.filter_sublist.map Block.ptr)
  · intro b' hb' j hj v hv
    have hlive := ((hmem b').mp hb').1
    have hsep := h.header_apart hlive hc₀
    simp only [sizeofHeader] at hsep
    rw [Memlib.withMem_mem, hm _ (by omega)]
    exact h.data b' hlive j hj v hv

end HeapInv

end CsoLabs.Malloc
