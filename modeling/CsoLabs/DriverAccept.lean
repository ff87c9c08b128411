import CsoLabs.DriverMirror
import CsoLabs.MallocHeap

/-! `eval_mm_valid` on the naive allocator. The driver is a legal client: the heap invariant holds along
its run, with the blocks of the live ids, each filled with the low byte of its id. What the driver then
finds wrong is its own: after a REALLOC it compares a plain `char` with a value of `0 .. 255`, and for an
id whose low byte is 128 or more the two are never equal. -/

namespace CsoLabs.Driver
open CLang ByteMemory Malloc

/-- `index & 0xFF` as it is stored. -/
def fillByte (id : Int) : BitVec 8 := BitVec.ofInt 8 (id % 256)

/-- The block of a live id as a client of the allocator sees it. -/
def blockOf (t : Trace) (id : Int) : Block := ⟨t.blocks id, (t.blockSizes id).toNat, fun _ => some (fillByte id)⟩

structure Served (d : Session Unit) (live : List Int) (chunks : List Chunk) : Prop where
  heap : HeapInv d.lib (live.map (blockOf d.trace)) chunks
  mirror : Mirror d live
  sizes : ∀ id ∈ live, 1 ≤ (d.trace.blockSizes id).toNat ∧ ((d.trace.blockSizes id).toNat : Int) ≤ intMax

/-- What a request takes from the heap. -/
def demand (op : TraceOp) : Nat :=
  match op.type with
  | .alloc => (align (toSizeT op.size)).toNat + 16
  | .realloc => (align (toSizeT op.size)).toNat + 16
  | .free => 0

theorem toNat_toSizeT_pos {size : Int} (hsize : PosInt size) :
    0 < (toSizeT size).toNat ∧ ((toSizeT size).toNat : Int) ≤ intMax := by
  have hpos := hsize.1
  have hle := hsize.2
  rw [toNat_toSizeT hpos.le hle]
  omega

theorem align_add_header {size : Int} (hsize : PosInt size) :
    (align (toSizeT size)).toNat + 16 = chunkBytes (toSizeT size) :=
  (chunkBytes_eq (toNat_toSizeT_pos hsize).2).symm

/-- As many bytes are compared as both sizes cover. -/
theorem toNat_checkedBytes {size : Int} {old : SizeT} (hsize : PosInt size)
    (hold : 1 ≤ old.toNat ∧ (old.toNat : Int) ≤ intMax) :
    (checkedBytes size (toInt old.toNat)).toNat = min old.toNat size.toNat := by
  have hpos := hsize.1
  rw [toInt_of_le (by omega) hold.2, checkedBytes]
  split <;> omega

/-- A comparison of at least one byte comes out true only for an id whose low byte is below 128, and then the
bytes are those the block was filled with. -/
theorem of_dataKept {m : Mem} {p : Nat} {index n : Int} (hn : 0 < n.toNat) (h : dataKept m p index n = true) :
    index % 256 < 128 ∧ ∀ j < n.toNat, m (p + j) = fillByte index := by
  have hmod := Int.emod_nonneg index (show (256 : Int) ≠ 0 by decide)
  simp only [dataKept, List.all_eq_true, List.mem_range, beq_iff_eq] at h
  have hlow : index % 256 < 128 := by
    have hfirst := h 0 hn
    have hlt := charToInt_lt (m (p + 0))
    omega
  refine ⟨hlow, fun j hj => BitVec.eq_of_toInt_eq ?_⟩
  exact (h j hj).trans (charToInt_ofInt hmod hlow).symm

namespace Served

variable {d : Session Unit} {live : List Int} {chunks : List Chunk}

theorem range_hi_lt (h : Served d live chunks) {q : Range} (hq : q ∈ d.ranges) :
    d.lib.memStartBrk ≤ q.lo ∧ q.hi < d.lib.memBrk := by
  obtain ⟨id, hid, rfl⟩ := List.mem_map.mp (h.mirror.ranges_perm.mem_iff.mp hq)
  have hbounds := h.heap.block_bounds (List.mem_map_of_mem (f := blockOf d.trace) hid)
  have hsize := (h.sizes id hid).1
  simp only [blockOf] at hbounds
  simp only [record]
  omega

/-- A payload in a chunk above the old break passes the driver's tests. -/
theorem accepts {s' : Memlib} {ranges : List Range} (hranges : ∀ q ∈ ranges, q.hi < d.lib.memBrk) {size : Int}
    (hsize : PosInt size) (haligned : 16 ∣ d.lib.memBrk) (hstart : s'.memStartBrk = d.lib.memStartBrk)
    (hbrk : s'.memBrk = d.lib.memBrk + chunkBytes (toSizeT size)) :
    Accepts s' ranges (headerToPayload d.lib.memBrk) size := by
  have hlo := d.lib.start_le_brk
  have hpos := hsize.1
  have hle := le_lastByte (headerToPayload d.lib.memBrk) hsize
  refine ⟨(Nat.dvd_add_right haligned).mpr (dvd_refl 16), ?_, ?_, ?_⟩
  · simp only [Memlib.memHeapLo, hstart, headerToPayload]
    omega
  · simp only [Memlib.memHeapHi, hbrk, lastByte, headerToPayload, sizeofHeader, chunkBytes,
      toNat_toSizeT hpos.le hsize.2]
    omega
  · intro q hq
    have hhi := hranges q hq
    simp only [headerToPayload] at hle ⊢
    simp only [endInside, Bool.or_eq_false_iff, Bool.and_eq_false_iff, decide_eq_false_iff_not, not_le]
    omega

theorem map_blockOf_remember {ids : List Int} {t : Trace} {index : Int} (hindex : index ∉ ids) (p : Nat)
    (size : Int) : ids.map (blockOf (t.remember index p size)) = ids.map (blockOf t) := by
  apply List.map_congr_left
  intro id hid
  have hne : id ≠ index := fun heq => hindex (heq ▸ hid)
  simp only [blockOf, Trace.remember, Function.update_of_ne hne]

/-- A new block is filled by the driver and joins the others. -/
theorem accepted {s' : Memlib} {chunks' : List Chunk} {b : Block} {ids : List Int} {index size : Int} {p : Nat}
    (hheap : HeapInv s' (b :: ids.map (blockOf d.trace)) chunks') (hptr : b.ptr = p)
    (hreq : b.requested = (toSizeT size).toNat) (hindex : index ∉ ids) (ranges : List Range) :
    HeapInv (d.accepted () s' ranges index p size).lib
      ((index :: ids).map (blockOf (d.accepted () s' ranges index p size).trace)) chunks' := by
  subst hptr
  have hnew : blockOf (d.trace.remember index b.ptr size) index =
      { b with written := fun _ => some (fillByte index) } := by
    simp only [blockOf, Trace.remember, Function.update_self, hreq]
  change HeapInv (s'.withMem (memset s'.mem b.ptr (fillByte index) (toSizeT size).toNat))
    ((index :: ids).map (blockOf (d.trace.remember index b.ptr size))) chunks'
  rw [List.map_cons, map_blockOf_remember hindex, hnew, ← hreq]
  refine hheap.overwrite_head (memset_eqOutside _ _ _ _) ?_
  intro j hj v hv
  rw [memset_apply _ _ _ hj]
  exact Option.some.inj hv

theorem sizes_remember {t : Trace} {ids : List Int} {index size : Int} (p : Nat) (hsize : PosInt size)
    (hsizes : ∀ id ∈ ids, 1 ≤ (t.blockSizes id).toNat ∧ ((t.blockSizes id).toNat : Int) ≤ intMax) :
    ∀ id ∈ index :: ids, 1 ≤ ((t.remember index p size).blockSizes id).toNat ∧
      (((t.remember index p size).blockSizes id).toNat : Int) ≤ intMax := by
  intro id hid
  by_cases heq : id = index
  · rw [heq, Trace.remember_blockSizes, Function.update_self]
    exact toNat_toSizeT_pos hsize
  · rw [Trace.remember_blockSizes, Function.update_of_ne heq]
    exact hsizes id ((List.mem_cons.mp hid).resolve_left heq)

theorem without_map_blockOf (h : Served d live chunks) {id : Int} (hid : id ∈ live) :
    without (d.trace.blocks id) (live.map (blockOf d.trace)) = (live.erase id).map (blockOf d.trace) := by
  have hinj : ∀ id' ∈ live, d.trace.blocks id' = d.trace.blocks id → id' = id := by
    intro id' hid' heq
    have hnodup := h.heap.nodup
    rw [List.map_map] at hnodup
    exact List.inj_on_of_nodup_map hnodup hid' hid heq
  rw [h.mirror.live_nodup.erase_eq_filter, without, List.filter_map]
  congr 1
  apply List.filter_congr
  intro id' hid'
  by_cases heq : id' = id
  · simp [heq, blockOf]
  · have hne : d.trace.blocks id' ≠ d.trace.blocks id := fun hb => heq (hinj id' hid' hb)
    simp [heq, blockOf, hne]

/-! ### One request -/

theorem alloc {tracenum i index size : Int} (h : Served d live chunks)
    (hindex : 0 ≤ index ∧ index < d.trace.numIds) (hnew : index ∉ live) (hsize : PosInt size)
    (hroom : d.lib.memBrk + chunkBytes (toSizeT size) ≤ d.lib.memMaxAddr) :
    ∃ d' chunks', validAlloc naive tracenum i index size d = .ok (true, d') ∧ Served d' (index :: live) chunks' ∧
      d'.report = d.report ∧ d'.trace.numIds = d.trace.numIds ∧ d'.lib.memStartBrk = d.lib.memStartBrk ∧
      d'.lib.memBrk = d.lib.memBrk + chunkBytes (toSizeT size) := by
  obtain ⟨s', hcall, hstart, hbrk, -, hheap⟩ := h.heap.malloc (toNat_toSizeT_pos hsize).2 hroom
  have hacc := accepts (fun q hq => (h.range_hi_lt hq).2) hsize h.heap.brk_aligned hstart hbrk
  have hnaive : naive.mmMalloc (toSizeT size) d.priv d.lib = .ok (headerToPayload d.lib.memBrk, (), s') := by
    simp only [naive, hcall, ok_bind, pure_eq_ok]
  refine ⟨_, _, validAlloc_ok hsize hindex hnaive (Client.headerToPayload_ne_null _) hacc,
    ⟨accepted hheap rfl rfl hnew _, ?_, sizes_remember _ hsize h.sizes⟩, rfl, rfl, hstart, hbrk⟩
  exact h.mirror.accepted hnew hsize hacc ()

theorem realloc_call {index size : Int} (h : Served d live chunks) (hlive : index ∈ live) (hsize : PosInt size)
    (hroom : d.lib.memBrk + chunkBytes (toSizeT size) ≤ d.lib.memMaxAddr) :
    ∃ s', naive.mmRealloc (d.trace.blocks index) (toSizeT size) d.priv d.lib =
        .ok (headerToPayload d.lib.memBrk, (), s') ∧ s'.memStartBrk = d.lib.memStartBrk ∧
      s'.memBrk = d.lib.memBrk + chunkBytes (toSizeT size) ∧
      HeapInv s' ((blockOf d.trace index).moveTo (headerToPayload d.lib.memBrk) (toSizeT size).toNat ::
        (live.erase index).map (blockOf d.trace)) (chunks ++ [⟨d.lib.memBrk, chunkBytes (toSizeT size)⟩]) := by
  have hmem : blockOf d.trace index ∈ live.map (blockOf d.trace) := List.mem_map_of_mem hlive
  obtain ⟨hsize0, hsize1⟩ := toNat_toSizeT_pos hsize
  obtain ⟨s', hcall, hstart, hbrk, hheap⟩ := h.heap.realloc hmem hsize0 hsize1 hroom
  refine ⟨s', ?_, hstart, hbrk, ?_⟩
  · simp only [blockOf] at hcall
    simp only [naive, hcall, ok_bind, pure_eq_ok]
  · rw [← h.without_map_blockOf hlive]
    exact hheap

/-- The bytes of the old block arrive in the new one, and the driver sees that they did exactly when the low
byte of the id is below 128. -/
theorem dataKept_iff {s' : Memlib} {t : Trace} {p : Nat} {index size : Int} {rest : List Block} {chunks' : List Chunk}
    (hheap : HeapInv s' ((blockOf t index).moveTo p (toSizeT size).toNat :: rest) chunks') (hsize : PosInt size)
    (hold : 1 ≤ (t.blockSizes index).toNat ∧ ((t.blockSizes index).toNat : Int) ≤ intMax) :
    dataKept s'.mem p index (checkedBytes size (toInt (t.blockSizes index).toNat)) = true ↔ index % 256 < 128 := by
  have hpos := hsize.1
  have hchecked := toNat_checkedBytes hsize hold
  have hbyte : ∀ j, j < min (t.blockSizes index).toNat size.toNat → s'.mem (p + j) = fillByte index := by
    intro j hj
    rw [← toNat_toSizeT hpos.le hsize.2] at hj
    exact hheap.data _ List.mem_cons_self j (lt_of_lt_of_le hj (Nat.min_le_right _ _)) _ (if_pos hj)
  constructor
  · intro hkept
    exact (of_dataKept (by omega) hkept).1
  · intro hlow
    have hmod := Int.emod_nonneg index (show (256 : Int) ≠ 0 by decide)
    simp only [dataKept, List.all_eq_true, List.mem_range, hchecked, beq_iff_eq]
    intro j hj
    rw [hbyte j hj, fillByte, charToInt_ofInt hmod hlow]

theorem realloc (tracenum i : Int) {index size : Int} (h : Served d live chunks)
    (hindex : 0 ≤ index ∧ index < d.trace.numIds) (hlive : index ∈ live) (hsize : PosInt size)
    (hroom : d.lib.memBrk + chunkBytes (toSizeT size) ≤ d.lib.memMaxAddr) :
    (index % 256 < 128 → ∃ d' chunks', validRealloc naive tracenum i index size d = .ok (true, d') ∧
        Served d' live chunks' ∧ d'.report = d.report ∧ d'.trace.numIds = d.trace.numIds ∧
        d'.lib.memStartBrk = d.lib.memStartBrk ∧ d'.lib.memBrk = d.lib.memBrk + chunkBytes (toSizeT size)) ∧
      (¬ index % 256 < 128 → ∃ d', validRealloc naive tracenum i index size d = .ok (false, d')) := by
  obtain ⟨s', hcall, hstart, hbrk, hheap⟩ := h.realloc_call hlive hsize hroom
  have hsub := removeRange_sublist d.ranges (d.trace.blocks index)
  have hbelow : ∀ q ∈ removeRange d.ranges (d.trace.blocks index), q.hi < d.lib.memBrk :=
    fun q hq => (h.range_hi_lt (hsub.subset hq)).2
  have hacc := accepts hbelow hsize h.heap.brk_aligned hstart hbrk
  have hkept := dataKept_iff hheap hsize (h.sizes index hlive)
  have hok := validRealloc_ok tracenum i hsize hindex hcall (Client.headerToPayload_ne_null _) hacc
  constructor
  · intro hlow
    rw [if_pos (hkept.mpr hlow)] at hok
    have hnew : index ∉ live.erase index := h.mirror.live_nodup.not_mem_erase
    have hperm := (List.perm_cons_erase hlive).symm
    refine ⟨_, _, hok, ⟨(accepted hheap rfl rfl hnew _).perm (hperm.map _), ?_, fun id hid => ?_⟩, rfl, rfl, hstart, hbrk⟩
    · have hremoved := h.mirror.removed hlive d.priv d.lib
      exact (hremoved.accepted hnew hsize hacc ()).perm_live hperm
    · exact sizes_remember _ hsize (fun id hid => h.sizes id (List.mem_of_mem_erase hid)) id (hperm.mem_iff.mpr hid)
  · intro hhigh
    rw [if_neg (mt hkept.mp hhigh)] at hok
    exact ⟨_, hok⟩

theorem free {index : Int} (h : Served d live chunks) (hindex : 0 ≤ index ∧ index < d.trace.numIds)
    (hlive : index ∈ live) :
    ∃ d' chunks', validFree naive index d = .ok (true, d') ∧ Served d' (live.erase index) chunks' ∧
      d'.report = d.report ∧ d'.trace.numIds = d.trace.numIds ∧ d'.lib.memStartBrk = d.lib.memStartBrk ∧
      d'.lib.memBrk = d.lib.memBrk := by
  have hmem : blockOf d.trace index ∈ live.map (blockOf d.trace) := List.mem_map_of_mem hlive
  have hfree := h.heap.free hmem (h.sizes index hlive).1
  have hheap := h.heap.release hmem
  simp only [blockOf] at hfree
  have hnaive : naive.mmFree (d.trace.blocks index) d.priv d.lib =
      .ok ((), d.lib.withMem (setChunkStatus d.lib.mem (payloadToHeader (d.trace.blocks index)) false)) := by
    simp only [naive, hfree, ok_bind, pure_eq_ok]
  refine ⟨_, chunks, validFree_ok hindex hnaive, ⟨?_, h.mirror.removed hlive () _, fun id hid => h.sizes id (List.mem_of_mem_erase hid)⟩,
    rfl, rfl, rfl, rfl⟩
  rw [← h.without_map_blockOf hlive]
  exact hheap

/-- One request, if the id of a REALLOC has a low byte below 128. -/
theorem step (tracenum i : Int) {op : TraceOp} (h : Served d live chunks)
    (hindex : 0 ≤ op.index ∧ op.index < d.trace.numIds) (hop : OpOk live op)
    (hroom : d.lib.memBrk + demand op ≤ d.lib.memMaxAddr) (hlow : op.type = .realloc → op.index % 256 < 128) :
    ∃ d' chunks', validStep naive tracenum i op d = .ok (true, d') ∧ Served d' (liveAfter live op) chunks' ∧
      d'.report = d.report ∧ d'.trace.numIds = d.trace.numIds ∧ d'.lib.memStartBrk = d.lib.memStartBrk ∧
      d'.lib.memBrk = d.lib.memBrk + demand op := by
  obtain ⟨type, index, size⟩ := op
  cases type with
  | alloc =>
      obtain ⟨hnew, hsize⟩ := hop
      simp only [demand, align_add_header hsize] at hroom ⊢
      exact h.alloc hindex hnew hsize hroom
  | realloc =>
      obtain ⟨hlive, hsize⟩ := hop
      simp only [demand, align_add_header hsize] at hroom ⊢
      exact (h.realloc tracenum i hindex hlive hsize hroom).1 (hlow rfl)
  | free => exact h.free hindex hop

theorem step_high (tracenum i : Int) {op : TraceOp} (h : Served d live chunks)
    (hindex : 0 ≤ op.index ∧ op.index < d.trace.numIds) (hop : OpOk live op)
    (hroom : d.lib.memBrk + demand op ≤ d.lib.memMaxAddr) (htype : op.type = .realloc)
    (hhigh : ¬ op.index % 256 < 128) : ∃ d', validStep naive tracenum i op d = .ok (false, d') := by
  obtain ⟨type, index, size⟩ := op
  cases htype
  obtain ⟨hlive, hsize⟩ := hop
  simp only [demand, align_add_header hsize] at hroom
  exact (h.realloc tracenum i hindex hlive hsize hroom).2 hhigh

end Served

theorem validLoop_naive_iff (tracenum i : Int) {ops : List TraceOp} {d : Session Unit} {live : List Int}
    {chunks : List Chunk} (h : Served d live chunks) (hops : WellFormedFrom live ops)
    (hids : ∀ op ∈ ops, 0 ≤ op.index ∧ op.index < d.trace.numIds)
    (hroom : d.lib.memBrk + (ops.map demand).sum ≤ d.lib.memMaxAddr) :
    (∃ d', validLoop naive tracenum i ops d = .ok (1, d') ∧ d'.report = d.report) ↔
      ∀ op ∈ ops, op.type = .realloc → op.index % 256 < 128 := by
  induction ops generalizing d live chunks i with
  | nil => exact iff_of_true ⟨d, rfl, rfl⟩ fun op hop => by cases hop
  | cons op ops ih =>
      rw [List.map_cons, List.sum_cons] at hroom
      obtain ⟨hindex, hids'⟩ := List.forall_mem_cons.mp hids
      rw [List.forall_mem_cons]
      by_cases hlow : op.type = .realloc → op.index % 256 < 128
      · obtain ⟨d₁, chunks₁, hstep, h₁, hreport, hnum, hstart, hbrk⟩ :=
          h.step tracenum i hindex hops.1 (by omega) hlow
        have hmax : d₁.lib.memMaxAddr = d.lib.memMaxAddr := by rw [d₁.lib.max_eq, d.lib.max_eq, hstart]
        have hrest := ih (i + 1) h₁ hops.2 (by rwa [hnum]) (by rw [hbrk, hmax]; omega)
        simp only [validLoop, hstep, ok_bind, if_true, ← hreport]
        rw [hrest]
        exact ⟨fun hall => ⟨hlow, hall⟩, fun hall => hall.2⟩
      · obtain ⟨htype, hhigh⟩ := Classical.not_imp.mp hlow
        obtain ⟨d₁, hstep⟩ := h.step_high tracenum i hindex hops.1 (by omega) htype hhigh
        refine iff_of_false ?_ fun hall => hlow hall.1
        rintro ⟨d', hrun, -⟩
        simp [validLoop, hstep] at hrun

/-- **What `eval_mm_valid` says about a correct allocator.** On a well-formed trace that fits in the heap it
accepts the naive allocator, with no error reported and no assertion failed, exactly when no REALLOC names
an id whose low byte is 128 or more. -/
theorem evalMmValid_naive_iff (tracenum : Int) (d : Session Unit) (haligned : 16 ∣ d.lib.memStartBrk)
    (hwf : d.trace.WellFormed) (hsum : (d.trace.ops.map demand).sum ≤ maxHeap) :
    (∃ d', evalMmValid naive tracenum d = .ok (1, d') ∧ d'.report = d.report) ↔
      ∀ op ∈ d.trace.ops, op.type = .realloc → op.index % 256 < 128 := by
  have hserved : Served d.restart [] [] :=
    ⟨HeapInv.empty rfl haligned, (Mirror.restart d (A := naive) rfl).1, fun id hid => by cases hid⟩
  refine Iff.trans ?_ (validLoop_naive_iff tracenum 0 hserved hwf.requests hwf.ids ?_)
  · rfl
  · have hmax := d.lib.max_eq
    change d.lib.memStartBrk + (d.trace.ops.map demand).sum ≤ d.lib.memMaxAddr
    omega

theorem evalMmValid_naive_iff_example :
    (∃ d', evalMmValid naive 0 exampleSession = .ok (1, d') ∧ d'.report = exampleSession.report) ↔
      ∀ op ∈ exampleSession.trace.ops, op.type = .realloc → op.index % 256 < 128 :=
  evalMmValid_naive_iff 0 exampleSession (by decide) ⟨by decide, by decide⟩ (by decide)

/-- A trace that makes one block and moves it, with the id 128. -/
def highIdSession : Session Unit :=
  { exampleSession with
    trace := ⟨129, [⟨.alloc, 128, 1⟩, ⟨.realloc, 128, 1⟩], fun _ => 0, fun _ => 0⟩ }

/-- The driver blames the allocator for a block whose byte was kept. -/
theorem evalMmValid_rejects_highId :
    16 ∣ highIdSession.lib.memStartBrk ∧ highIdSession.trace.WellFormed ∧
      (highIdSession.trace.ops.map demand).sum ≤ maxHeap ∧
      (evalMmValid naive 0 highIdSession).map Prod.fst = .ok 0 :=
  ⟨by decide, ⟨by decide, by decide⟩, by decide, by decide +kernel⟩

end CsoLabs.Driver
