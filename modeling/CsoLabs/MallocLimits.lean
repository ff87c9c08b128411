import CsoLabs.MallocHeap

/-! What the naive allocator answers to a request of any `size_t`, in the states a legal client reaches.
The size is rounded up and widened by the header in 64 bits and then narrowed to `int`. Up to `INT_MAX`
the outcome is right: the block is there, or there was no room for it and nothing has changed. Past
`INT_MAX` the low 32 bits decide alone, and where they fit the heap the block is too small. -/

namespace CsoLabs.Malloc
open CLang ByteMemory

/-- The low 32 bits of `align(size) + sizeof(header)`: all that `mem_sbrk` learns of a request. -/
def narrowedBytes (size : SizeT) : Nat := (align size + BitVec.ofNat 64 sizeofHeader).toNat % 2 ^ 32

theorem narrowedBytes_dvd (size : SizeT) : 16 ∣ narrowedBytes size := by
  rw [narrowedBytes, BitVec.toNat_add, toNat_align, BitVec.toNat_ofNat, sizeofHeader]
  omega

theorem narrowedBytes_eq {size : SizeT} (h : (size.toNat : Int) ≤ intMax) : narrowedBytes size = chunkBytes size := by
  simp only [intMax] at h
  rw [narrowedBytes, BitVec.toNat_add, toNat_align, BitVec.toNat_ofNat, chunkBytes, sizeofHeader]
  omega

theorem newsize_eq_narrowed {size : SizeT} (h : (narrowedBytes size : Int) ≤ intMax) :
    newsize size = narrowedBytes size := by
  simp only [intMax, narrowedBytes] at h ⊢
  rw [newsize, toInt, Int.bmod_def]
  omega

theorem newsize_neg {size : SizeT} (h : intMax < narrowedBytes size) : newsize size < 0 := by
  simp only [intMax, narrowedBytes] at h
  rw [newsize, toInt, Int.bmod_def]
  omega

/-- A request whose low bits do not fit is refused. -/
theorem mmMalloc_refused {size : SizeT} {s : Memlib} (hroom : s.memMaxAddr < s.memBrk + narrowedBytes size) :
    mmMalloc size s = .ok (null, s) := by
  apply mallocChunk_noRoom
  by_cases hle : (narrowedBytes size : Int) ≤ intMax
  · rw [newsize_eq_narrowed hle]
    omega
  · exact .inl (newsize_neg (by omega))

/-- A request whose low bits fit is given a chunk of that many bytes, whatever it asked for. -/
theorem mmMalloc_narrowed {size : SizeT} {s : Memlib} (haligned : 16 ∣ s.memBrk)
    (hroom : s.memBrk + narrowedBytes size ≤ s.memMaxAddr) :
    ∃ s', mmMalloc size s = .ok (headerToPayload s.memBrk, s') ∧ s'.memStartBrk = s.memStartBrk ∧
      s'.memBrk = s.memBrk + narrowedBytes size ∧ HeaderAt s'.mem s.memBrk (narrowedBytes size) true := by
  have hle := chunkBytes_le_intMax hroom
  have hdvd := narrowedBytes_dvd size
  rw [mmMalloc, newsize_eq_narrowed hle]
  obtain ⟨s', hcall, hstart, hbrk, -, hheader⟩ := mallocChunk_room (by omega) hle haligned hroom
  exact ⟨s', hcall, hstart, hbrk, hheader⟩

/-- The copy and the release of `mm_realloc` leave the break and the header of the new chunk alone. -/
theorem mmRealloc_narrowed {size : SizeT} {c : Client} (h : c.Inv) {ptr : Nat} (hptr : ptr = null ∨ IsLive c.live ptr)
    (hsize0 : 0 < size.toNat) (hroom : c.lib.memBrk + narrowedBytes size ≤ c.lib.memMaxAddr) :
    ∃ s', mmRealloc ptr size c.lib = .ok (headerToPayload c.lib.memBrk, s') ∧
      s'.memBrk = c.lib.memBrk + narrowedBytes size ∧ HeaderAt s'.mem c.lib.memBrk (narrowedBytes size) true := by
  obtain ⟨⟨chunks, hinv⟩, hpos⟩ := h
  obtain ⟨s₁, hcall, hstart, hbrk, hheader⟩ := mmMalloc_narrowed hinv.brk_aligned hroom
  rcases hptr with rfl | ⟨b, hb, rfl⟩
  · exact ⟨s₁, by rw [mmRealloc_null hsize0, hcall], hbrk, hheader⟩
  obtain ⟨hlo, hhi⟩ := hinv.block_bounds hb
  have hpos := hpos b hb
  let s₂ := s₁.withMem (memcpy s₁.mem (headerToPayload c.lib.memBrk) b.ptr (copySize s₁.mem b.ptr size).toNat)
  have hfree : mmFree b.ptr s₂ = .ok (s₂.withMem (setChunkStatus s₂.mem (payloadToHeader b.ptr) false)) := by
    apply mmFree_ok
    · change s₁.memStartBrk ≤ b.ptr
      omega
    · change b.ptr ≤ s₁.memBrk - 1
      omega
  refine ⟨s₂.withMem (setChunkStatus s₂.mem (payloadToHeader b.ptr) false), ?_, hbrk, ?_⟩
  · simp only [mmRealloc, BitVec.lt_def, BitVec.toNat_ofNat, Nat.zero_mod, hsize0, if_true, hcall, ok_bind,
      if_neg (Client.headerToPayload_ne_null _), if_neg (hinv.ptr_ne_null hb), hfree, pure_eq_ok, s₂]
  · have hcopied : HeaderAt s₂.mem c.lib.memBrk (narrowedBytes size) true := by
      refine hheader.of_eqOutside (memcpy_eqOutside _ _ _ _) (.inl ?_)
      simp only [headerToPayload, sizeofHeader]
      omega
    refine hcopied.of_eqOutside (store64_eqOutside _ _ _) (.inr ?_)
    simp only [payloadToHeader, sizeofHeader] at hlo ⊢
    omega

/-! ### Out of memory -/

/-- The answer to a request is `NULL` exactly when it does not fit, and then nothing has changed. -/
def RefusedExactly (answer : Except Abort (Nat × Memlib)) (size : SizeT) (s : Memlib) : Prop :=
  ∃ p s', answer = .ok (p, s') ∧ (p = null ↔ s.memMaxAddr - s.memBrk < (align size).toNat + sizeofHeader) ∧
    (p = null → s' = s)

theorem refusedExactly_of_room {answer : Except Abort (Nat × Memlib)} {size : SizeT} {s s' : Memlib}
    (hsize : InRange size) (hroom : s.memBrk + chunkBytes size ≤ s.memMaxAddr)
    (h : answer = .ok (headerToPayload s.memBrk, s')) : RefusedExactly answer size s := by
  have hbytes := chunkBytes_eq hsize.2
  have hne := Client.headerToPayload_ne_null s.memBrk
  exact ⟨_, s', h, iff_of_false hne (by omega), fun hnull => absurd hnull hne⟩

theorem refusedExactly_of_noRoom {answer : Except Abort (Nat × Memlib)} {size : SizeT} {s : Memlib}
    (hsize : InRange size) (hroom : s.memMaxAddr < s.memBrk + chunkBytes size) (h : answer = .ok (null, s)) :
    RefusedExactly answer size s := by
  have hbytes := chunkBytes_eq hsize.2
  have hmax := s.brk_le_max
  exact ⟨null, s, h, iff_of_true rfl (by omega), fun _ => rfl⟩

theorem Client.Inv.mmMalloc_refusedExactly {c : Client} (h : c.Inv) {size : SizeT} (hsize : InRange size) :
    RefusedExactly (mmMalloc size c.lib) size c.lib := by
  obtain ⟨⟨chunks, hinv⟩, -⟩ := h
  by_cases hroom : c.lib.memBrk + chunkBytes size ≤ c.lib.memMaxAddr
  · obtain ⟨s', hcall, -⟩ := hinv.malloc hsize.2 hroom
    exact refusedExactly_of_room hsize hroom hcall
  · exact refusedExactly_of_noRoom hsize (not_le.mp hroom) (mmMalloc_noRoom hsize.2 (not_le.mp hroom))

theorem Client.Inv.mmRealloc_refusedExactly {c : Client} (h : c.Inv) {size : SizeT} (hsize : InRange size) {ptr : Nat}
    (hptr : ptr = null ∨ IsLive c.live ptr) : RefusedExactly (mmRealloc ptr size c.lib) size c.lib := by
  by_cases hroom : c.lib.memBrk + chunkBytes size ≤ c.lib.memMaxAddr
  · rw [← narrowedBytes_eq hsize.2] at hroom
    obtain ⟨s', hcall, -⟩ := mmRealloc_narrowed h hptr hsize.1 hroom
    rw [narrowedBytes_eq hsize.2] at hroom
    exact refusedExactly_of_room hsize hroom hcall
  · exact refusedExactly_of_noRoom hsize (not_le.mp hroom) (mmRealloc_noRoom ptr hsize.1 hsize.2 (not_le.mp hroom))

/-- The block at a live pointer is marked allocated. -/
theorem Client.Inv.status_of_live {c : Client} (h : c.Inv) {ptr : Nat} (hptr : IsLive c.live ptr) :
    getChunkStatus c.lib.mem (payloadToHeader ptr) = true := by
  obtain ⟨⟨chunks, hinv⟩, -⟩ := h
  obtain ⟨b, hb, rfl⟩ := hptr
  obtain ⟨ch, hch, hb', -⟩ := hinv.block b hb
  obtain ⟨st, hst, hlive⟩ := hinv.header ch hch
  rw [hb', payloadToHeader_headerToPayload, hst.2]
  exact hlive.mpr ⟨b, hb, hb'⟩

/-- **Out of memory is exact and atomic.** At the end of every legal run, a request in range is refused
exactly when the chunk exceeds what is left of the heap, and a refused request leaves the break, every
byte and the status of the block to be moved as they were. -/
theorem outOfMemory_of_legalRun {s : Memlib} (hinit : Initialised s) (haligned : 16 ∣ s.memStartBrk)
    (rs : List Request) (hrs : Client.LegalRun rs ⟨s, []⟩) :
    ∃ c, Client.run rs ⟨s, []⟩ = .ok c ∧ ∀ size, InRange size →
      RefusedExactly (mmMalloc size c.lib) size c.lib ∧
      ∀ ptr, ptr = null ∨ IsLive c.live ptr → RefusedExactly (mmRealloc ptr size c.lib) size c.lib ∧
        (IsLive c.live ptr → ∀ s', mmRealloc ptr size c.lib = .ok (null, s') →
          getChunkStatus s'.mem (payloadToHeader ptr) = true) := by
  obtain ⟨c, hrun, hinv⟩ := Client.run_inv (Client.inv_init hinit haligned) rs hrs
  refine ⟨c, hrun, fun size hsize => ⟨hinv.mmMalloc_refusedExactly hsize, fun ptr hptr => ?_⟩⟩
  have hrefused := hinv.mmRealloc_refusedExactly hsize hptr
  refine ⟨hrefused, fun hlive s' hcall => ?_⟩
  obtain ⟨p, s'', hcall', -, hsame⟩ := hrefused
  rw [hcall] at hcall'
  cases hcall'
  rw [hsame rfl]
  exact hinv.status_of_live hlive

theorem outOfMemory_exampleRun :
    ∃ c, Client.run exampleRun ⟨exampleLib, []⟩ = .ok c ∧ RefusedExactly (mmMalloc 2147483647 c.lib) 2147483647 c.lib := by
  have hinit : Initialised exampleLib := .memResetBrk _
  obtain ⟨c, hrun, h⟩ := outOfMemory_of_legalRun hinit (by decide) exampleRun (by decide +kernel)
  exact ⟨c, hrun, (h 2147483647 (by decide)).1⟩

/-! ### Blocks that are too small -/

/-- The call returns, and a block it hands out ends inside the heap and has a chunk with room for it. -/
def Serves (answer : Except Abort (Nat × Memlib)) (size : SizeT) : Prop :=
  ∃ p s', answer = .ok (p, s') ∧ (p = null ∨ (p + size.toNat ≤ s'.memBrk ∧
    size.toNat + sizeofHeader ≤ (getChunkSize s'.mem (payloadToHeader p)).toNat))

/-- The size is an `int`, or its low bits say that it does not fit. -/
def Servable (s : Memlib) (size : SizeT) : Prop :=
  (size.toNat : Int) ≤ intMax ∨ s.memMaxAddr - s.memBrk < narrowedBytes size

theorem serves_null {answer : Except Abort (Nat × Memlib)} {size : SizeT} {s : Memlib} (h : answer = .ok (null, s)) :
    Serves answer size := ⟨null, s, h, .inl rfl⟩

/-- A chunk of the narrowed size has room for the request exactly when nothing was cut off. -/
theorem serves_narrowed_iff {answer : Except Abort (Nat × Memlib)} {size : SizeT} {s s' : Memlib}
    (hroom : s.memBrk + narrowedBytes size ≤ s.memMaxAddr) (h : answer = .ok (headerToPayload s.memBrk, s'))
    (hbrk : s'.memBrk = s.memBrk + narrowedBytes size) (hheader : HeaderAt s'.mem s.memBrk (narrowedBytes size) true) :
    Serves answer size ↔ Servable s size := by
  have hle := chunkBytes_le_intMax hroom
  constructor
  · rintro ⟨p, s'', h', hserved⟩
    rw [h] at h'
    cases h'
    obtain ⟨hend, -⟩ := hserved.resolve_left (Client.headerToPayload_ne_null _)
    rw [headerToPayload, hbrk] at hend
    exact .inl (by omega)
  · intro hservable
    have hint : (size.toNat : Int) ≤ intMax := hservable.resolve_right (by omega)
    refine ⟨_, s', h, .inr ?_⟩
    rw [payloadToHeader_headerToPayload, hheader.1, hbrk, narrowedBytes_eq hint, headerToPayload, chunkBytes,
      sizeofHeader]
    omega

/-- What is refused is servable: nothing is promised. -/
theorem servable_of_noRoom {size : SizeT} {s : Memlib} (hroom : s.memMaxAddr < s.memBrk + narrowedBytes size) :
    Servable s size := by
  have hmax := s.brk_le_max
  exact .inr (by omega)

theorem Client.Inv.mmMalloc_serves_iff {c : Client} (h : c.Inv) (size : SizeT) :
    Serves (mmMalloc size c.lib) size ↔ Servable c.lib size := by
  by_cases hroom : c.lib.memBrk + narrowedBytes size ≤ c.lib.memMaxAddr
  · obtain ⟨⟨chunks, hinv⟩, -⟩ := h
    obtain ⟨s', hcall, -, hbrk, hheader⟩ := mmMalloc_narrowed hinv.brk_aligned hroom
    exact serves_narrowed_iff hroom hcall hbrk hheader
  · have hnull := mmMalloc_refused (not_le.mp hroom)
    exact iff_of_true (serves_null hnull) (servable_of_noRoom (not_le.mp hroom))

theorem Client.Inv.mmRealloc_serves_iff {c : Client} (h : c.Inv) {ptr : Nat} (hptr : ptr = null ∨ IsLive c.live ptr)
    (size : SizeT) : Serves (mmRealloc ptr size c.lib) size ↔ Servable c.lib size := by
  rcases Nat.eq_zero_or_pos size.toNat with hzero | hpos
  · -- the call frees the block, if there is one, and answers `NULL`
    obtain rfl : size = 0#64 := BitVec.eq_of_toNat_eq hzero
    have hservable : Servable c.lib 0#64 := .inl (by decide)
    refine iff_of_true ?_ hservable
    rcases hptr with rfl | hlive
    · exact serves_null (mmRealloc_zero_null c.lib)
    · obtain ⟨b, hb, rfl⟩ := hlive
      obtain ⟨⟨chunks, hinv⟩, hsizes⟩ := h
      exact serves_null (mmRealloc_zero (hinv.ptr_ne_null hb) (hinv.free hb (hsizes b hb)))
  by_cases hroom : c.lib.memBrk + narrowedBytes size ≤ c.lib.memMaxAddr
  · obtain ⟨s', hcall, hbrk, hheader⟩ := mmRealloc_narrowed h hptr hpos hroom
    exact serves_narrowed_iff hroom hcall hbrk hheader
  · have hnull : mmRealloc ptr size c.lib = .ok (null, c.lib) := by
      simp only [mmRealloc, BitVec.lt_def, BitVec.toNat_ofNat, Nat.zero_mod, hpos, if_true,
        mmMalloc_refused (not_le.mp hroom), ok_bind, pure_eq_ok]
    exact iff_of_true (serves_null hnull) (servable_of_noRoom (not_le.mp hroom))

/-- **When a block is as large as requested.** At the end of every legal run and for every `size_t`, what
`mm_malloc` and `mm_realloc` hand out is large enough exactly when the size is an `int` or its low bits do
not fit in what is left of the heap. -/
theorem serves_iff_of_legalRun {s : Memlib} (hinit : Initialised s) (haligned : 16 ∣ s.memStartBrk)
    (rs : List Request) (hrs : Client.LegalRun rs ⟨s, []⟩) :
    ∃ c, Client.run rs ⟨s, []⟩ = .ok c ∧ ∀ size : SizeT,
      (Serves (mmMalloc size c.lib) size ↔ Servable c.lib size) ∧
      ∀ ptr, ptr = null ∨ IsLive c.live ptr →
        (Serves (mmRealloc ptr size c.lib) size ↔ Servable c.lib size) := by
  obtain ⟨c, hrun, hinv⟩ := Client.run_inv (Client.inv_init hinit haligned) rs hrs
  exact ⟨c, hrun, fun size => ⟨hinv.mmMalloc_serves_iff size, fun ptr hptr => hinv.mmRealloc_serves_iff hptr size⟩⟩

theorem serves_exampleRun :
    ∃ c, Client.run exampleRun ⟨exampleLib, []⟩ = .ok c ∧ Serves (mmMalloc 2147483647 c.lib) 2147483647 := by
  have hinit : Initialised exampleLib := .memResetBrk _
  obtain ⟨c, hrun, h⟩ := serves_iff_of_legalRun hinit (by decide) exampleRun (by decide +kernel)
  exact ⟨c, hrun, (h 2147483647).1.mpr (.inl (by decide))⟩

/-- On the heap just initialised a request of 2^32 bytes is given the 16 bytes of a header: the payload
pointer is the break itself. -/
theorem not_serves_fourGigabytes :
    Client.run [] ⟨exampleLib, []⟩ = .ok ⟨exampleLib, []⟩ ∧
      (mmMalloc 4294967296 exampleLib).map (fun r => (r.1, r.2.memBrk)) = .ok (4112, 4112) ∧
      ¬ Serves (mmMalloc 4294967296 exampleLib) 4294967296 := by
  have hinv : Client.Inv ⟨exampleLib, []⟩ := Client.inv_init (.memResetBrk _) (by decide)
  refine ⟨rfl, by decide +kernel, fun hserves => ?_⟩
  have hservable := (hinv.mmMalloc_serves_iff 4294967296).mp hserves
  rcases hservable with hint | hroom
  · exact absurd hint (by decide)
  · exact absurd hroom (by decide +kernel)

end CsoLabs.Malloc
