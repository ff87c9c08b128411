import CsoLabs.DriverAccept
import CsoLabs.DriverAgree

/-! The accounting of `eval_mm_util` on the naive allocator. The running total is kept in an `int`, by
differences to sizes read back from the trace's array, which earlier runs have used too. It is the sum of
the sizes of the live blocks, since a live id has been written in this run; and it fits, since the
allocator has moved its break by more than each size it was asked for. -/

namespace CsoLabs.Driver
open CLang ByteMemory Malloc Session

/-! ### The sum of the live sizes -/

/-- The size of each id's block, when the table was `sizes` before the request. -/
def sizeAfter (sizes : Int → Int) (op : TraceOp) : Int → Int :=
  match op.type with
  | .alloc => Function.update sizes op.index op.size
  | .realloc => Function.update sizes op.index op.size
  | .free => sizes

/-- The size last asked for under each id. -/
def currentSize (ops : List TraceOp) : Int → Int := ops.foldl sizeAfter fun _ => 0

/-- The sum of the current sizes of the live blocks after the requests `ops`. -/
def liveTotal (ops : List TraceOp) : Int := ((liveIds ops).map (currentSize ops)).sum

theorem liveIds_concat (ops : List TraceOp) (op : TraceOp) : liveIds (ops ++ [op]) = liveAfter (liveIds ops) op :=
  List.foldl_concat ..

theorem currentSize_concat (ops : List TraceOp) (op : TraceOp) :
    currentSize (ops ++ [op]) = sizeAfter (currentSize ops) op :=
  List.foldl_concat ..

theorem map_update_of_notMem {l : List Int} {a : Int} (ha : a ∉ l) (f : Int → Int) (v : Int) :
    l.map (Function.update f a v) = l.map f := by
  apply List.map_congr_left
  intro x hx
  apply Function.update_of_ne
  rintro rfl
  exact ha hx

theorem liveTotal_alloc {ops : List TraceOp} {index : Int} (hnew : index ∉ liveIds ops) (size : Int) :
    liveTotal (ops ++ [⟨.alloc, index, size⟩]) = liveTotal ops + size := by
  rw [liveTotal, liveIds_concat, currentSize_concat]
  simp only [liveAfter, sizeAfter, List.map_cons, Function.update_self, map_update_of_notMem hnew, List.sum_cons]
  rw [add_comm, liveTotal]

theorem liveTotal_realloc {ops : List TraceOp} (hnodup : (liveIds ops).Nodup) {index : Int}
    (hlive : index ∈ liveIds ops) (size : Int) :
    liveTotal (ops ++ [⟨.realloc, index, size⟩]) = liveTotal ops + (size - currentSize ops index) := by
  have hold := List.sum_map_erase (currentSize ops) hlive
  have hnew := List.sum_map_erase (Function.update (currentSize ops) index size) hlive
  rw [Function.update_self, map_update_of_notMem hnodup.not_mem_erase] at hnew
  rw [liveTotal, liveIds_concat, currentSize_concat]
  simp only [liveAfter, sizeAfter, ← hnew]
  rw [liveTotal, ← hold]
  ring

theorem liveTotal_free {ops : List TraceOp} {index : Int} (hlive : index ∈ liveIds ops) (size : Int) :
    liveTotal (ops ++ [⟨.free, index, size⟩]) = liveTotal ops - currentSize ops index := by
  have hold := List.sum_map_erase (currentSize ops) hlive
  rw [liveTotal, liveIds_concat, currentSize_concat]
  simp only [liveAfter, sizeAfter]
  rw [liveTotal, ← hold]
  ring

/-- The totals of all prefixes. -/
def totalsUpTo (ops : List TraceOp) : Set Int := {v | ∃ pre, pre <+: ops ∧ v = liveTotal pre}

theorem mem_totalsUpTo_concat {ops : List TraceOp} {op : TraceOp} {v : Int} :
    v ∈ totalsUpTo (ops ++ [op]) ↔ v ∈ totalsUpTo ops ∨ v = liveTotal (ops ++ [op]) := by
  constructor
  · rintro ⟨pre, hpre, rfl⟩
    rcases List.prefix_concat_iff.mp hpre with rfl | hpre
    · exact .inr rfl
    · exact .inl ⟨pre, hpre, rfl⟩
  · rintro (⟨pre, hpre, rfl⟩ | rfl)
    · exact ⟨pre, hpre.trans (List.prefix_append ops [op]), rfl⟩
    · exact ⟨ops ++ [op], List.prefix_refl _, rfl⟩

/-- The maximum after one more request, as the source keeps it. -/
theorem isGreatest_concat {ops : List TraceOp} {m : Int} (h : IsGreatest (totalsUpTo ops) m) (op : TraceOp) :
    IsGreatest (totalsUpTo (ops ++ [op])) (if m < liveTotal (ops ++ [op]) then liveTotal (ops ++ [op]) else m) := by
  constructor
  · rw [mem_totalsUpTo_concat]
    split_ifs
    · exact .inr rfl
    · exact .inl h.1
  · intro v hv
    rcases mem_totalsUpTo_concat.mp hv with hv | rfl
    · have := h.2 hv
      split_ifs <;> omega
    · split_ifs <;> omega

/-! ### What a call takes from the heap -/

/-- A chunk that was handed out was taken from the break. -/
theorem mallocChunk_brk {n : Int} {s s' : Memlib} {p : Nat} (h : mallocChunk n s = .ok (p, s')) (hp : p ≠ null) :
    0 ≤ n ∧ s'.memStartBrk = s.memStartBrk ∧ (s'.memBrk : Int) = s.memBrk + n := by
  by_cases hroom : n < 0 ∨ (s.memMaxAddr : Int) < s.memBrk + n
  · rw [mallocChunk_noRoom hroom] at h
    cases h
    exact absurd rfl hp
  · obtain ⟨k, rfl⟩ := Int.eq_ofNat_of_zero_le (show 0 ≤ n by omega)
    obtain ⟨s₁, hsbrk, hstart, hbrk, -⟩ := memSbrk_room s (n := k) (by omega)
    unfold mallocChunk at h
    rw [hsbrk] at h
    obtain ⟨_, -, h⟩ := bind_eq_ok h
    obtain ⟨_, -, h⟩ := bind_eq_ok h
    obtain ⟨_, -, h⟩ := bind_eq_ok h
    cases h
    refine ⟨by omega, hstart, ?_⟩
    change (s₁.memBrk : Int) = _
    rw [hbrk]
    push_cast
    ring

theorem mmMalloc_brk {size : SizeT} (hsize : (size.toNat : Int) ≤ intMax) {s s' : Memlib} {p : Nat}
    (h : Malloc.mmMalloc size s = .ok (p, s')) (hp : p ≠ null) :
    s'.memStartBrk = s.memStartBrk ∧ s'.memBrk = s.memBrk + chunkBytes size := by
  obtain ⟨hpos, hstart, hbrk⟩ := mallocChunk_brk h hp
  rw [newsize_eq hsize] at hpos hbrk
  have hle : (chunkBytes size : Int) ≤ intMax := by
    by_contra hgt
    have hneg := toInt_neg (not_le.mp hgt) (by simp only [intMax] at hsize; simp only [chunkBytes]; omega)
    omega
  rw [toInt_of_le (by omega) hle] at hbrk
  exact ⟨hstart, by exact_mod_cast hbrk⟩

theorem mmFree_brk {ptr : Nat} {s s' : Memlib} (h : Malloc.mmFree ptr s = .ok s') :
    s'.memStartBrk = s.memStartBrk ∧ s'.memBrk = s.memBrk := by
  obtain ⟨_, -, h⟩ := bind_eq_ok h
  obtain ⟨_, -, h⟩ := bind_eq_ok h
  cases h
  exact ⟨rfl, rfl⟩

theorem mmRealloc_brk {ptr : Nat} {size : SizeT} (hpos : 0 < size.toNat) (hsize : (size.toNat : Int) ≤ intMax)
    {s s' : Memlib} {p : Nat} (h : Malloc.mmRealloc ptr size s = .ok (p, s')) (hp : p ≠ null) :
    s'.memStartBrk = s.memStartBrk ∧ s'.memBrk = s.memBrk + chunkBytes size := by
  simp only [Malloc.mmRealloc, BitVec.lt_def, BitVec.toNat_ofNat, Nat.zero_mod, hpos, if_true] at h
  obtain ⟨⟨newptr, s₁⟩, hmalloc, h⟩ := bind_eq_ok h
  dsimp only at h
  by_cases hnew : newptr = null
  · rw [if_pos hnew] at h
    cases h
    exact absurd rfl hp
  obtain ⟨hstart, hbrk⟩ := mmMalloc_brk hsize hmalloc hnew
  rw [if_neg hnew] at h
  by_cases hptr : ptr = null
  · rw [if_pos hptr] at h
    cases h
    exact ⟨hstart, hbrk⟩
  · rw [if_neg hptr] at h
    obtain ⟨s₂, hfree, h⟩ := bind_eq_ok h
    cases h
    obtain ⟨hstart', hbrk'⟩ := mmFree_brk hfree
    exact ⟨hstart'.trans hstart, hbrk'.trans hbrk⟩

/-! ### What a step of `eval_mm_util` has done -/

section

variable {index size : Int} {e : Session Unit} {t : Totals} {st : Session Unit × Totals}

theorem of_utilStep_alloc (hsize : PosInt size) (h : utilStep naive ⟨.alloc, index, size⟩ (e, t) = .ok st) :
    ∃ lib p, st = (e.answered () lib index p (Function.update e.trace.blockSizes index (toSizeT size)),
      t.grow size) ∧ lib.memStartBrk = e.lib.memStartBrk ∧
      lib.memBrk = e.lib.memBrk + chunkBytes (toSizeT size) := by
  cases hcall : Malloc.mmMalloc (toSizeT size) e.lib with
  | error err => simp [utilStep, callMalloc, naive, hcall] at h
  | ok r =>
      obtain ⟨p, lib⟩ := r
      have hnaive : naive.mmMalloc (toSizeT size) e.priv e.lib = .ok (p, (), lib) := by
        simp only [naive, hcall, ok_bind, pure_eq_ok]
      by_cases hp : p = null
      · simp [utilStep, callMalloc, hnaive, hp, throw, throwThe, MonadExceptOf.throw] at h
      by_cases hindex : 0 ≤ index ∧ index < e.trace.numIds
      · rw [utilStep_alloc hindex hnaive hp] at h
        cases h
        exact ⟨lib, p, rfl, mmMalloc_brk (toNat_toSizeT_pos hsize).2 hcall hp⟩
      · simp [utilStep, callMalloc, hnaive, hp, setBlock, checkIndex, hindex] at h

theorem of_utilStep_realloc (hsize : PosInt size) (h : utilStep naive ⟨.realloc, index, size⟩ (e, t) = .ok st) :
    ∃ lib p, st = (e.answered () lib index p (Function.update e.trace.blockSizes index (toSizeT size)),
      t.grow (size - toInt (e.trace.blockSizes index).toNat)) ∧ lib.memStartBrk = e.lib.memStartBrk ∧
      lib.memBrk = e.lib.memBrk + chunkBytes (toSizeT size) := by
  by_cases hindex : 0 ≤ index ∧ index < e.trace.numIds
  swap
  · simp [utilStep, blockSize, checkIndex, hindex] at h
  cases hcall : Malloc.mmRealloc (e.trace.blocks index) (toSizeT size) e.lib with
  | error err => simp [utilStep, blockSize, block, checkIndex, hindex, callRealloc, naive, hcall] at h
  | ok r =>
      obtain ⟨p, lib⟩ := r
      have hnaive : naive.mmRealloc (e.trace.blocks index) (toSizeT size) e.priv e.lib = .ok (p, (), lib) := by
        simp only [naive, hcall, ok_bind, pure_eq_ok]
      by_cases hp : p = null
      · simp [utilStep, blockSize, block, checkIndex, hindex, callRealloc, hnaive, hp, throw, throwThe,
          MonadExceptOf.throw] at h
      obtain ⟨hpos, hle⟩ := toNat_toSizeT_pos hsize
      rw [utilStep_realloc hindex hnaive hp] at h
      cases h
      exact ⟨lib, p, rfl, mmRealloc_brk hpos hle hcall hp⟩

theorem of_utilStep_free (h : utilStep naive ⟨.free, index, size⟩ (e, t) = .ok st) :
    ∃ lib, st = ({ e with priv := (), lib := lib },
      { t with total := toInt (t.total - toInt (e.trace.blockSizes index).toNat) }) ∧
      lib.memStartBrk = e.lib.memStartBrk ∧ lib.memBrk = e.lib.memBrk := by
  by_cases hindex : 0 ≤ index ∧ index < e.trace.numIds
  swap
  · simp [utilStep, blockSize, checkIndex, hindex] at h
  cases hcall : Malloc.mmFree (e.trace.blocks index) e.lib with
  | error err => simp [utilStep, blockSize, block, checkIndex, hindex, callFree, naive, hcall] at h
  | ok lib =>
      have hnaive : naive.mmFree (e.trace.blocks index) e.priv e.lib = .ok ((), lib) := by
        simp only [naive, hcall, ok_bind, pure_eq_ok]
      rw [utilStep_free hindex hnaive] at h
      cases h
      exact ⟨lib, rfl, mmFree_brk hcall⟩

end

/-! ### The books -/

/-- `total_size` and `max_total_size` after a request, with every `int` operation checked; `oldsize` is the
size read back from the array. -/
def Totals.account (t : Totals) (op : TraceOp) (oldsize : Int) : Except Abort Totals :=
  match op.type with
  | .alloc => do
      let total ← checkInt (t.total + op.size)
      return ⟨if total > t.max then total else t.max, total⟩
  | .realloc => do
      let difference ← checkInt (op.size - oldsize)
      let total ← checkInt (t.total + difference)
      return ⟨if total > t.max then total else t.max, total⟩
  | .free => do
      let total ← checkInt (t.total - oldsize)
      return { t with total := total }

/-- The state after the requests `ops`: the array holds the sizes of the live ids, the two totals are
those of the requests, and the heap has room for them. -/
structure Booked (ops : List TraceOp) (e : Session Unit) (t : Totals) : Prop where
  nodup : (liveIds ops).Nodup
  pos : ∀ id ∈ liveIds ops, PosInt (currentSize ops id)
  sizes : ∀ id ∈ liveIds ops, e.trace.blockSizes id = toSizeT (currentSize ops id)
  total : t.total = liveTotal ops
  peak : IsGreatest (totalsUpTo ops) t.max
  fits : ∀ v ∈ totalsUpTo ops, v ≤ e.lib.memHeapsize

theorem Booked.start (e : Session Unit) : Booked [] e ⟨0, 0⟩ := by
  have hzero : ∀ v ∈ totalsUpTo [], v = 0 := by
    rintro v ⟨pre, hpre, rfl⟩
    rw [List.prefix_nil.mp hpre]
    rfl
  refine ⟨List.nodup_nil, fun id hid => (List.not_mem_nil hid).elim, fun id hid => (List.not_mem_nil hid).elim, rfl,
    ⟨⟨[], List.prefix_refl _, rfl⟩, fun v hv => (hzero v hv).le⟩, fun v hv => ?_⟩
  rw [hzero v hv]
  omega

theorem memHeapsize_le_intMax (s : Memlib) : (s.memHeapsize : Int) ≤ intMax := by
  have hbrk := s.brk_le_max
  have hmax := s.max_eq
  simp only [maxHeap] at hmax
  simp only [Memlib.memHeapsize, intMax]
  omega

theorem liveTotal_nonneg {ops : List TraceOp} (hpos : ∀ id ∈ liveIds ops, PosInt (currentSize ops id)) :
    0 ≤ liveTotal ops := by
  apply List.sum_nonneg
  intro v hv
  obtain ⟨id, hid, rfl⟩ := List.mem_map.mp hv
  exact (hpos id hid).1.le

/-- The `int` addition is exact where the sum fits. -/
theorem grow_eq {t : Totals} {n : Int} (h0 : 0 ≤ t.total + n) (h : t.total + n ≤ intMax) :
    t.grow n = ⟨if t.max < t.total + n then t.total + n else t.max, t.total + n⟩ := by
  rw [Totals.grow, toInt_of_le h0 h]

namespace Booked

variable {ops : List TraceOp} {e : Session Unit} {t : Totals} {op : TraceOp}

/-- The size of a live id comes back from the array as it was stored. -/
theorem toInt_size (h : Booked ops e t) {id : Int} (hid : id ∈ liveIds ops) :
    toInt (e.trace.blockSizes id).toNat = currentSize ops id := by
  have hpos := h.pos id hid
  rw [h.sizes id hid, toNat_toSizeT hpos.1.le hpos.2, Int.toNat_of_nonneg hpos.1.le, toInt_of_le hpos.1.le hpos.2]

theorem fits_concat (h : Booked ops e t) (op : TraceOp) {e' : Session Unit} (hheap : e.lib.memHeapsize ≤ e'.lib.memHeapsize)
    (htotal : liveTotal (ops ++ [op]) ≤ e'.lib.memHeapsize) :
    ∀ v ∈ totalsUpTo (ops ++ [op]), v ≤ e'.lib.memHeapsize := by
  intro v hv
  rcases mem_totalsUpTo_concat.mp hv with hv | rfl
  · have hfits := h.fits v hv
    omega
  · exact htotal

theorem total_fits (h : Booked ops e t) : t.total ≤ e.lib.memHeapsize := by
  rw [h.total]
  exact h.fits _ ⟨ops, List.prefix_refl _, rfl⟩

/-- A request that stores a new size: the total moves by `n`, which is at most that size, and the heap has
grown by at least as much. -/
theorem remember (h : Booked ops e t) (e' : Session Unit) (hsize : PosInt op.size) (hnodup : (liveIds (ops ++ [op])).Nodup)
    (hids : ∀ id ∈ liveIds (ops ++ [op]), id = op.index ∨ id ∈ liveIds ops)
    (hcurrent : currentSize (ops ++ [op]) = Function.update (currentSize ops) op.index op.size)
    (hstored : e'.trace.blockSizes = Function.update e.trace.blockSizes op.index (toSizeT op.size))
    (hheap : e.lib.memHeapsize + op.size ≤ e'.lib.memHeapsize) {n : Int} (hn : n ≤ op.size)
    (htotal : liveTotal (ops ++ [op]) = liveTotal ops + n) :
    Booked (ops ++ [op]) e' (t.grow n) ∧ checkInt (t.total + n) = .ok (t.total + n) ∧
      t.grow n = ⟨if t.total + n > t.max then t.total + n else t.max, t.total + n⟩ := by
  have hpos : ∀ id ∈ liveIds (ops ++ [op]), PosInt (currentSize (ops ++ [op]) id) := by
    intro id hid
    rw [hcurrent]
    by_cases heq : id = op.index
    · rw [heq, Function.update_self]
      exact hsize
    · rw [Function.update_of_ne heq]
      exact h.pos id ((hids id hid).resolve_left heq)
  have hfits := h.total_fits
  have hsize0 := hsize.1
  have hmax := memHeapsize_le_intMax e'.lib
  have h0 : 0 ≤ t.total + n := by
    rw [h.total, ← htotal]
    exact liveTotal_nonneg hpos
  have hgrow := grow_eq h0 (show t.total + n ≤ intMax by omega)
  refine ⟨⟨hnodup, hpos, ?_, ?_, ?_, ?_⟩, checkInt_of_le h0 (by omega), hgrow⟩
  · intro id hid
    rw [hcurrent, hstored]
    by_cases heq : id = op.index
    · rw [heq, Function.update_self, Function.update_self]
    · rw [Function.update_of_ne heq, Function.update_of_ne heq]
      exact h.sizes id ((hids id hid).resolve_left heq)
  · rw [hgrow, htotal, h.total]
  · rw [hgrow, h.total, ← htotal]
    exact isGreatest_concat h.peak op
  · apply h.fits_concat op (by omega)
    rw [htotal, ← h.total]
    omega

/-- The break has moved by the chunk of the request, so the heap has grown by more than its size. -/
theorem heapsize_grows {lib lib' : Memlib} {size : Int} (hsize : PosInt size)
    (hstart : lib'.memStartBrk = lib.memStartBrk) (hbrk : lib'.memBrk = lib.memBrk + chunkBytes (toSizeT size)) :
    lib.memHeapsize + size ≤ lib'.memHeapsize := by
  have hle := lib.start_le_brk
  have hpos := hsize.1
  rw [chunkBytes, toNat_toSizeT hpos.le hsize.2] at hbrk
  simp only [Memlib.memHeapsize]
  omega

/-- What is shown of each request. -/
def Steps (ops : List TraceOp) (e : Session Unit) (t : Totals) (op : TraceOp) (st : Session Unit × Totals) : Prop :=
  Booked (ops ++ [op]) st.1 st.2 ∧ t.account op (toInt (e.trace.blockSizes op.index).toNat) = .ok st.2

theorem alloc {index size : Int} {st : Session Unit × Totals} (h : Booked ops e t) (hnew : index ∉ liveIds ops)
    (hsize : PosInt size) (hstep : utilStep naive ⟨.alloc, index, size⟩ (e, t) = .ok st) :
    Steps ops e t ⟨.alloc, index, size⟩ st := by
  obtain ⟨lib, p, rfl, hstart, hbrk⟩ := of_utilStep_alloc hsize hstep
  have hids : liveIds (ops ++ [⟨.alloc, index, size⟩]) = index :: liveIds ops := liveIds_concat ..
  have hnodup : (liveIds (ops ++ [⟨.alloc, index, size⟩])).Nodup := by
    rw [hids]
    exact List.nodup_cons.mpr ⟨hnew, h.nodup⟩
  have hmem : ∀ id ∈ liveIds (ops ++ [⟨.alloc, index, size⟩]), id = index ∨ id ∈ liveIds ops := by
    intro id hid
    rw [hids] at hid
    exact List.mem_cons.mp hid
  obtain ⟨hbooked, hcheck, hgrow⟩ := h.remember
    (e.answered () lib index p (Function.update e.trace.blockSizes index (toSizeT size))) hsize hnodup hmem
    (currentSize_concat ..) rfl (heapsize_grows hsize hstart hbrk) le_rfl (liveTotal_alloc hnew size)
  refine ⟨hbooked, ?_⟩
  simp only [Totals.account, hcheck, ok_bind, pure_eq_ok, hgrow]

theorem realloc {index size : Int} {st : Session Unit × Totals} (h : Booked ops e t) (hlive : index ∈ liveIds ops)
    (hsize : PosInt size) (hstep : utilStep naive ⟨.realloc, index, size⟩ (e, t) = .ok st) :
    Steps ops e t ⟨.realloc, index, size⟩ st := by
  obtain ⟨lib, p, rfl, hstart, hbrk⟩ := of_utilStep_realloc hsize hstep
  have hids : liveIds (ops ++ [⟨.realloc, index, size⟩]) = liveIds ops := liveIds_concat ..
  obtain ⟨hold0, hold⟩ := h.pos index hlive
  have hdiff : checkInt (size - currentSize ops index) = .ok (size - currentSize ops index) := by
    obtain ⟨hsize0, hsize1⟩ := hsize
    exact if_pos ⟨by omega, by omega⟩
  rw [h.toInt_size hlive]
  obtain ⟨hbooked, hcheck, hgrow⟩ := h.remember
    (e.answered () lib index p (Function.update e.trace.blockSizes index (toSizeT size))) hsize
    (hids ▸ h.nodup) (fun id hid => .inr (hids ▸ hid)) (currentSize_concat ..) rfl
    (heapsize_grows hsize hstart hbrk) (show size - currentSize ops index ≤ size by omega)
    (liveTotal_realloc h.nodup hlive size)
  refine ⟨hbooked, ?_⟩
  simp only [Totals.account, h.toInt_size hlive, hdiff, hcheck, ok_bind, pure_eq_ok, hgrow]

/-- A FREE lowers the total, and the maximum stays. -/
theorem free {index size : Int} {st : Session Unit × Totals} (h : Booked ops e t) (hlive : index ∈ liveIds ops)
    (hstep : utilStep naive ⟨.free, index, size⟩ (e, t) = .ok st) : Steps ops e t ⟨.free, index, size⟩ st := by
  obtain ⟨lib, rfl, hstart, hbrk⟩ := of_utilStep_free hstep
  have hids : liveIds (ops ++ [⟨.free, index, size⟩]) = (liveIds ops).erase index := liveIds_concat ..
  have hcurrent : currentSize (ops ++ [⟨.free, index, size⟩]) = currentSize ops := currentSize_concat ..
  have hsub : ∀ id ∈ liveIds (ops ++ [⟨.free, index, size⟩]), id ∈ liveIds ops :=
    fun id hid => List.mem_of_mem_erase (hids ▸ hid)
  have hpos : ∀ id ∈ liveIds (ops ++ [⟨.free, index, size⟩]),
      PosInt (currentSize (ops ++ [⟨.free, index, size⟩]) id) := by
    intro id hid
    rw [hcurrent]
    exact h.pos id (hsub id hid)
  have hsum := h.total
  have htotal := liveTotal_free hlive size
  have hnonneg := liveTotal_nonneg hpos
  have hfits := h.total_fits
  have hmax := memHeapsize_le_intMax e.lib
  have hold := (h.pos index hlive).1
  have hexact : t.total - currentSize ops index = liveTotal (ops ++ [⟨.free, index, size⟩]) := by omega
  have hheap : lib.memHeapsize = e.lib.memHeapsize := by
    rw [Memlib.memHeapsize, Memlib.memHeapsize, hstart, hbrk]
  have hpeak := isGreatest_concat h.peak ⟨.free, index, size⟩
  have hle : liveTotal ops ≤ t.max := h.peak.2 ⟨ops, List.prefix_refl _, rfl⟩
  rw [if_neg (by omega)] at hpeak
  rw [h.toInt_size hlive, hexact, toInt_of_le hnonneg (by omega)]
  refine ⟨⟨hids ▸ h.nodup.erase index, hpos, ?_, rfl, hpeak, ?_⟩, ?_⟩
  · intro id hid
    rw [hcurrent]
    exact h.sizes id (hsub id hid)
  · apply h.fits_concat
    · exact hheap.ge
    · change liveTotal (ops ++ [⟨.free, index, size⟩]) ≤ lib.memHeapsize
      omega
  · simp only [Totals.account, h.toInt_size hlive, hexact, checkInt_of_le hnonneg (show _ ≤ intMax by omega), ok_bind,
      pure_eq_ok]

theorem step {st : Session Unit × Totals} (h : Booked ops e t) (hop : OpOk (liveIds ops) op)
    (hstep : utilStep naive op (e, t) = .ok st) : Steps ops e t op st := by
  obtain ⟨type, index, size⟩ := op
  cases type with
  | alloc => exact h.alloc hop.1 hop.2 hstep
  | realloc => exact h.realloc hop.1 hop.2 hstep
  | free => exact h.free hop hstep

theorem loop {post : List TraceOp} {st : Session Unit × Totals} (h : Booked ops e t)
    (hwf : WellFormedFrom (liveIds ops) post) (hrun : utilLoop naive post (e, t) = .ok st) :
    Booked (ops ++ post) st.1 st.2 := by
  induction post generalizing ops e t with
  | nil =>
      cases hrun
      rw [List.append_nil]
      exact h
  | cons op post ih =>
      obtain ⟨⟨e₁, t₁⟩, hstep, hrest⟩ := bind_eq_ok hrun
      rw [List.append_cons]
      refine ih (h.step hwf.1 hstep).1 ?_ hrest
      rw [liveIds_concat]
      exact hwf.2

end Booked

theorem utilLoop_append {pre post : List TraceOp} {st st' : Session Unit × Totals}
    (h : utilLoop naive (pre ++ post) st = .ok st') :
    ∃ st₁, utilLoop naive pre st = .ok st₁ ∧ utilLoop naive post st₁ = .ok st' := by
  induction pre generalizing st with
  | nil => exact ⟨st, rfl, h⟩
  | cons op pre ih =>
      obtain ⟨st₂, hstep, hrest⟩ := bind_eq_ok h
      obtain ⟨st₁, hpre, hpost⟩ := ih hrest
      exact ⟨st₁, by rw [utilLoop, hstep, ok_bind, hpre], hpost⟩

/-- **The accounting is exact.** If `eval_mm_util` gets through a well-formed trace on the naive allocator,
then after every prefix `total_size` is the sum of the sizes of the live blocks and `max_total_size` the
largest such sum so far; the next request's additions and subtractions are `int` values; and the
maximum is at most the size of the heap in the end. -/
theorem util_accounting (d d' : Session Unit) (maxTotal : Int) (heapsize : Nat) (hwf : d.trace.WellFormed)
    (hrun : evalMmUtil naive d = .ok ((maxTotal, heapsize), d')) :
    (∀ pre post, d.trace.ops = pre ++ post → ∃ e t, utilLoop naive pre (d.rewind, ⟨0, 0⟩) = .ok (e, t) ∧
      t.total = liveTotal pre ∧ IsGreatest (totalsUpTo pre) t.max ∧
      ∀ op rest, post = op :: rest → ∃ e' t', utilStep naive op (e, t) = .ok (e', t') ∧
        t.account op (toInt (e.trace.blockSizes op.index).toNat) = .ok t') ∧
    IsGreatest (totalsUpTo d.trace.ops) maxTotal ∧ heapsize = d'.lib.memHeapsize ∧ maxTotal ≤ heapsize ∧
    (0 < heapsize → (maxTotal : ℚ) / heapsize ≤ 1) := by
  obtain ⟨⟨r, d₀⟩, hinit, hrun⟩ := bind_eq_ok hrun
  cases hinit
  obtain ⟨⟨e, t⟩, hloop, hret⟩ := bind_eq_ok hrun
  cases hret
  have hfinal := (Booked.start d.rewind).loop hwf.requests hloop
  have hle : t.max ≤ d'.lib.memHeapsize := hfinal.fits _ hfinal.peak.1
  refine ⟨fun pre post hops => ?_, hfinal.peak, rfl, hle, fun hheap => ?_⟩
  · have hrequests := hwf.requests
    rw [hops, wellFormedFrom_append] at hrequests
    change utilLoop naive d.trace.ops (d.rewind, ⟨0, 0⟩) = _ at hloop
    rw [hops] at hloop
    obtain ⟨⟨e₁, t₁⟩, hpre, hpost⟩ := utilLoop_append hloop
    have hbooked := (Booked.start d.rewind).loop hrequests.1 hpre
    refine ⟨e₁, t₁, hpre, hbooked.total, hbooked.peak, fun op rest hcons => ?_⟩
    subst hcons
    obtain ⟨⟨e₂, t₂⟩, hstep, -⟩ := bind_eq_ok hpost
    exact ⟨e₂, t₂, hstep, (hbooked.step hrequests.2.1 hstep).2⟩
  · rw [div_le_one (by exact_mod_cast hheap)]
    exact_mod_cast hle

theorem util_accounting_example :
    ∃ heapsize d', evalMmUtil naive exampleSession = .ok ((48, heapsize), d') ∧
      IsGreatest (totalsUpTo exampleSession.trace.ops) 48 ∧ 48 ≤ heapsize := by
  have hrun : (evalMmUtil naive exampleSession).map Prod.fst = .ok (48, 128) := by decide +kernel
  obtain ⟨d', hrun⟩ := exists_eq_ok_of_map_fst hrun
  obtain ⟨-, hpeak, -, hle, -⟩ := util_accounting exampleSession d' 48 128 ⟨by decide, by decide⟩ hrun
  exact ⟨128, d', hrun, hpeak, by exact_mod_cast hle⟩

end CsoLabs.Driver
