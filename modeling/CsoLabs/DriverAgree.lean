import CsoLabs.DriverMirror

/-! The three interpreters on the naive allocator. They leave different bytes in the heap and different
sizes in the trace, and none of them clears what the previous run left. The naive allocator places its
chunks by the break alone, and what its assertions read back is what it has just written, so its answers
depend on none of this: a run is determined by the start of the heap and the requests. -/

namespace CsoLabs.Driver
open CLang ByteMemory Malloc Session

/-- Two memory systems on the area at `start` that differ in their bytes at most. -/
structure SameShape (start : Nat) (s t : Memlib) : Prop where
  left : s.memStartBrk = start
  right : t.memStartBrk = start
  brk : t.memBrk = s.memBrk

namespace SameShape

variable {start : Nat} {s t : Memlib}

theorem max (h : SameShape start s t) : t.memMaxAddr = s.memMaxAddr := by
  rw [t.max_eq, s.max_eq, h.left, h.right]

theorem withMem (h : SameShape start s t) (m m' : Mem) : SameShape start (s.withMem m) (t.withMem m') := ⟨h.left, h.right, h.brk⟩

theorem memSbrk (h : SameShape start s t) (incr : Int) :
    (t.memSbrk incr).1 = (s.memSbrk incr).1 ∧ SameShape start (s.memSbrk incr).2 (t.memSbrk incr).2 := by
  by_cases hroom : incr < 0 ∨ (s.memMaxAddr : Int) < s.memBrk + incr
  · rw [memSbrk_noRoom s hroom, memSbrk_noRoom t (by rwa [h.max, h.brk])]
    exact ⟨rfl, h⟩
  · obtain ⟨n, rfl⟩ := Int.eq_ofNat_of_zero_le (show 0 ≤ incr by omega)
    obtain ⟨s', hs, hsstart, hsbrk, -⟩ := memSbrk_room s (n := n) (by omega)
    obtain ⟨t', ht, htstart, htbrk, -⟩ := memSbrk_room t (n := n) (by rw [h.max, h.brk]; omega)
    rw [hs, ht]
    exact ⟨congrArg some h.brk, hsstart.trans h.left, htstart.trans h.right, by rw [htbrk, hsbrk, h.brk]⟩

theorem mallocChunk (h : SameShape start s t) {n : Int} {p : Nat} {s' : Memlib}
    (hcall : Malloc.mallocChunk n s = .ok (p, s')) :
    ∃ t', Malloc.mallocChunk n t = .ok (p, t') ∧ SameShape start s' t' := by
  obtain ⟨hptr, hshape⟩ := h.memSbrk n
  unfold Malloc.mallocChunk at hcall ⊢
  generalize s.memSbrk n = rs at hcall hptr hshape
  generalize t.memSbrk n = rt at hptr hshape ⊢
  obtain ⟨hs, s₁⟩ := rs
  obtain ⟨ht, t₁⟩ := rt
  obtain rfl : ht = hs := hptr
  cases ht with
  | none =>
      cases hcall
      exact ⟨t₁, rfl, hshape⟩
  | some a =>
      -- the three assertions see the word just stored
      simp only [getChunkStatus, getChunkSize, setChunkSizeStatus, load64_store64] at hcall ⊢
      obtain ⟨_, haligned, hcall⟩ := bind_eq_ok hcall
      obtain ⟨_, hstatus, hcall⟩ := bind_eq_ok hcall
      obtain ⟨_, hsize, hcall⟩ := bind_eq_ok hcall
      cases hcall
      refine ⟨t₁.withMem (store64 t₁.mem a (toSizeT n ||| statusWord true)), ?_, hshape.withMem _ _⟩
      rw [haligned, hstatus, hsize]
      rfl

theorem mmMalloc (h : SameShape start s t) {size : SizeT} {p : Nat} {s' : Memlib}
    (hcall : Malloc.mmMalloc size s = .ok (p, s')) :
    ∃ t', Malloc.mmMalloc size t = .ok (p, t') ∧ SameShape start s' t' :=
  h.mallocChunk hcall

theorem mmFree (h : SameShape start s t) {ptr : Nat} {s' : Memlib} (hcall : Malloc.mmFree ptr s = .ok s') :
    ∃ t', Malloc.mmFree ptr t = .ok t' ∧ SameShape start s' t' := by
  obtain ⟨_, hrange, hrest⟩ := bind_eq_ok hcall
  have hin := assertC_eq_ok hrange
  simp only [Bool.and_eq_true, decide_eq_true_eq] at hin
  rw [mmFree_ok hin.1 hin.2] at hcall
  cases hcall
  refine ⟨_, mmFree_ok ?_ ?_, h.withMem _ _⟩
  · rw [Memlib.memHeapLo, h.right, ← h.left]
    exact hin.1
  · rw [Memlib.memHeapHi, h.brk]
    exact hin.2

theorem mmRealloc (h : SameShape start s t) {ptr : Nat} {size : SizeT} {p : Nat} {s' : Memlib}
    (hcall : Malloc.mmRealloc ptr size s = .ok (p, s')) :
    ∃ t', Malloc.mmRealloc ptr size t = .ok (p, t') ∧ SameShape start s' t' := by
  unfold Malloc.mmRealloc at hcall ⊢
  by_cases hsize : 0#64 < size
  · rw [if_pos hsize] at hcall ⊢
    obtain ⟨⟨newptr, s₁⟩, hmalloc, hrest⟩ := bind_eq_ok hcall
    obtain ⟨t₁, ht₁, h₁⟩ := h.mmMalloc hmalloc
    rw [ht₁, ok_bind]
    dsimp only at hrest ⊢
    by_cases hnew : newptr = null
    · rw [if_pos hnew] at hrest ⊢
      cases hrest
      exact ⟨t₁, rfl, h₁⟩
    rw [if_neg hnew] at hrest ⊢
    by_cases hptr : ptr = null
    · rw [if_pos hptr] at hrest ⊢
      cases hrest
      exact ⟨t₁, rfl, h₁⟩
    rw [if_neg hptr] at hrest ⊢
    obtain ⟨s₂, hfree, hrest⟩ := bind_eq_ok hrest
    cases hrest
    obtain ⟨t₂, ht₂, h₂⟩ := (h₁.withMem _ (memcpy t₁.mem p ptr (copySize t₁.mem ptr size).toNat)).mmFree hfree
    exact ⟨t₂, by rw [ht₂]; rfl, h₂⟩
  rw [if_neg hsize] at hcall ⊢
  by_cases hptr : ptr = null
  · rw [if_pos hptr] at hcall ⊢
    cases hcall
    exact ⟨t, rfl, h⟩
  rw [if_neg hptr] at hcall ⊢
  obtain ⟨s₁, hfree, hrest⟩ := bind_eq_ok hcall
  cases hrest
  obtain ⟨t₁, ht₁, h₁⟩ := h.mmFree hfree
  exact ⟨t₁, by rw [ht₁]; rfl, h₁⟩

end SameShape

/-! ### What the other two interpreters do with a request -/

section

variable {σ : Type}

/-- The state after the allocator has answered `p` for `index`; `sizes` are the new block sizes. -/
def Session.answered (e : Session σ) (priv : σ) (lib : Memlib) (index : Int) (p : Nat) (sizes : Int → SizeT) :
    Session σ :=
  { e with
    lib := lib
    priv := priv
    returned := e.returned ++ [p]
    trace := { e.trace with blocks := Function.update e.trace.blocks index p, blockSizes := sizes } }

variable {A : Allocator σ} {index size : Int} {e : Session σ} {priv : σ} {lib : Memlib} {p : Nat}

theorem utilStep_alloc (hindex : 0 ≤ index ∧ index < e.trace.numIds)
    (hcall : A.mmMalloc (toSizeT size) e.priv e.lib = .ok (p, priv, lib)) (hp : p ≠ null) (t : Totals) :
    utilStep A ⟨.alloc, index, size⟩ (e, t) = .ok (e.answered priv lib index p
      (Function.update e.trace.blockSizes index (toSizeT size)), t.grow size) := by
  simp only [utilStep, callMalloc, hcall, ok_bind, pure_eq_ok, if_neg hp, setBlock, setBlockSize, checkIndex,
    hindex, and_self, if_true]
  rfl

theorem speedStep_alloc (hindex : 0 ≤ index ∧ index < e.trace.numIds)
    (hcall : A.mmMalloc (toSizeT size) e.priv e.lib = .ok (p, priv, lib)) (hp : p ≠ null) :
    speedStep A ⟨.alloc, index, size⟩ e = .ok (e.answered priv lib index p e.trace.blockSizes) := by
  simp only [speedStep, callMalloc, hcall, ok_bind, pure_eq_ok, if_neg hp, setBlock, checkIndex, hindex, and_self,
    if_true]
  rfl

theorem utilStep_realloc (hindex : 0 ≤ index ∧ index < e.trace.numIds)
    (hcall : A.mmRealloc (e.trace.blocks index) (toSizeT size) e.priv e.lib = .ok (p, priv, lib)) (hp : p ≠ null)
    (t : Totals) :
    utilStep A ⟨.realloc, index, size⟩ (e, t) = .ok (e.answered priv lib index p
      (Function.update e.trace.blockSizes index (toSizeT size)),
      t.grow (size - toInt (e.trace.blockSizes index).toNat)) := by
  simp only [utilStep, blockSize, block, callRealloc, hcall, ok_bind, pure_eq_ok, if_neg hp, setBlock, setBlockSize,
    checkIndex, hindex, and_self, if_true]
  rfl

theorem speedStep_realloc (hindex : 0 ≤ index ∧ index < e.trace.numIds)
    (hcall : A.mmRealloc (e.trace.blocks index) (toSizeT size) e.priv e.lib = .ok (p, priv, lib)) (hp : p ≠ null) :
    speedStep A ⟨.realloc, index, size⟩ e = .ok (e.answered priv lib index p e.trace.blockSizes) := by
  simp only [speedStep, block, callRealloc, hcall, ok_bind, pure_eq_ok, if_neg hp, setBlock, checkIndex, hindex,
    and_self, if_true]
  rfl

theorem utilStep_free (hindex : 0 ≤ index ∧ index < e.trace.numIds)
    (hcall : A.mmFree (e.trace.blocks index) e.priv e.lib = .ok (priv, lib)) (t : Totals) :
    utilStep A ⟨.free, index, size⟩ (e, t) = .ok ({ e with priv := priv, lib := lib },
      { t with total := toInt (t.total - toInt (e.trace.blockSizes index).toNat) }) := by
  simp only [utilStep, blockSize, block, callFree, hcall, ok_bind, pure_eq_ok, checkIndex, hindex, and_self, if_true]

theorem speedStep_free (hindex : 0 ≤ index ∧ index < e.trace.numIds)
    (hcall : A.mmFree (e.trace.blocks index) e.priv e.lib = .ok (priv, lib)) :
    speedStep A ⟨.free, index, size⟩ e = .ok { e with priv := priv, lib := lib } := by
  simp only [speedStep, block, callFree, hcall, ok_bind, pure_eq_ok, checkIndex, hindex, and_self, if_true]

end

/-! ### The runs in step -/

/-- What an interpreter is given to work on, the heap area and the trace, is that of `base`. -/
structure SameTask (base d : Session Unit) : Prop where
  start : d.lib.memStartBrk = base.lib.memStartBrk
  numIds : d.trace.numIds = base.trace.numIds
  ops : d.trace.ops = base.trace.ops

/-- `e` is at the same place of its run as `d`. Nothing is said about the bytes of the heap, the block
sizes, or the pointers of ids that are not live. -/
structure Agree (base : Session Unit) (live : List Int) (d e : Session Unit) : Prop where
  left : SameTask base d
  right : SameTask base e
  brk : e.lib.memBrk = d.lib.memBrk
  blocks : ∀ id ∈ live, e.trace.blocks id = d.trace.blocks id
  returned : e.returned = d.returned

namespace Agree

variable {base : Session Unit} {live : List Int} {d e : Session Unit}

theorem shape (h : Agree base live d e) : SameShape base.lib.memStartBrk d.lib e.lib :=
  ⟨h.left.start, h.right.start, h.brk⟩

theorem memHeapsize (h : Agree base live d e) : e.lib.memHeapsize = d.lib.memHeapsize := by
  rw [Memlib.memHeapsize, Memlib.memHeapsize, h.brk, h.left.start, h.right.start]

theorem numIds (h : Agree base live d e) : e.trace.numIds = d.trace.numIds := by
  rw [h.right.numIds, h.left.numIds]

/-- Both sessions remember `p` for `index`. -/
theorem remember (h : Agree base live d e) {ids : List Int} (index size : Int) (p : Nat) {s t : Memlib}
    (hst : SameShape base.lib.memStartBrk s t) (hids : ∀ id ∈ ids, id = index ∨ id ∈ live)
    (ranges : List Range) (sizes : Int → SizeT) :
    Agree base ids (d.accepted () s ranges index p size)
      (e.answered () t index p sizes) := by
  refine ⟨⟨hst.left, h.left.numIds, h.left.ops⟩, ⟨hst.right, h.right.numIds, h.right.ops⟩, hst.brk, fun id hid => ?_, ?_⟩
  · change Function.update e.trace.blocks index p id = Function.update d.trace.blocks index p id
    rw [Function.update_apply, Function.update_apply]
    by_cases heq : id = index
    · rw [if_pos heq, if_pos heq]
    · rw [if_neg heq, if_neg heq, h.blocks id ((hids id hid).resolve_left heq)]
  · exact congrArg (· ++ [p]) h.returned

theorem mmMalloc (h : Agree base live d e) {size : SizeT} {p : Nat} {priv : Unit} {lib : Memlib}
    (hcall : naive.mmMalloc size d.priv d.lib = .ok (p, priv, lib)) :
    ∃ t, naive.mmMalloc size e.priv e.lib = .ok (p, (), t) ∧ SameShape base.lib.memStartBrk lib t := by
  obtain ⟨⟨q, s⟩, hmalloc, hret⟩ := bind_eq_ok hcall
  cases hret
  obtain ⟨t, ht, hst⟩ := h.shape.mmMalloc hmalloc
  exact ⟨t, by simp only [naive, ht, ok_bind, pure_eq_ok], hst⟩

theorem mmRealloc (h : Agree base live d e) {ptr : Nat} {size : SizeT} {p : Nat} {priv : Unit} {lib : Memlib}
    (hcall : naive.mmRealloc ptr size d.priv d.lib = .ok (p, priv, lib)) :
    ∃ t, naive.mmRealloc ptr size e.priv e.lib = .ok (p, (), t) ∧ SameShape base.lib.memStartBrk lib t := by
  obtain ⟨⟨q, s⟩, hrealloc, hret⟩ := bind_eq_ok hcall
  cases hret
  obtain ⟨t, ht, hst⟩ := h.shape.mmRealloc hrealloc
  exact ⟨t, by simp only [naive, ht, ok_bind, pure_eq_ok], hst⟩

theorem mmFree (h : Agree base live d e) {ptr : Nat} {priv : Unit} {lib : Memlib}
    (hcall : naive.mmFree ptr d.priv d.lib = .ok (priv, lib)) :
    ∃ t, naive.mmFree ptr e.priv e.lib = .ok ((), t) ∧ SameShape base.lib.memStartBrk lib t := by
  obtain ⟨s, hfree, hret⟩ := bind_eq_ok hcall
  cases hret
  obtain ⟨t, ht, hst⟩ := h.shape.mmFree hfree
  exact ⟨t, by simp only [naive, ht, ok_bind, pure_eq_ok], hst⟩

/-- A request that `eval_mm_valid` got through is served alike in the other two interpreters. -/
theorem step {tracenum i : Int} {op : TraceOp} {d' : Session Unit} (h : Agree base live d e) (hop : OpOk live op)
    (hstep : validStep naive tracenum i op d = .ok (true, d')) :
    (∀ t, ∃ st, utilStep naive op (e, t) = .ok st ∧ Agree base (liveAfter live op) d' st.1) ∧
      ∃ e', speedStep naive op e = .ok e' ∧ Agree base (liveAfter live op) d' e' := by
  obtain ⟨type, index, size⟩ := op
  cases type with
  | alloc =>
      obtain ⟨p, priv, lib, hcall, hp, -, hindex, rfl⟩ := of_validAlloc hop.2 hstep
      obtain ⟨t, ht, hst⟩ := h.mmMalloc hcall
      have hnew := h.remember index size p hst (fun id (hid : id ∈ index :: live) => List.mem_cons.mp hid) d.ranges
      rw [← h.numIds] at hindex
      exact ⟨fun tot => ⟨_, utilStep_alloc hindex ht hp tot, hnew _⟩, _, speedStep_alloc hindex ht hp, hnew _⟩
  | realloc =>
      obtain ⟨p, priv, lib, hcall, hp, -, hindex, rfl⟩ := of_validRealloc hop.2 hstep
      rw [← h.blocks index hop.1] at hcall
      obtain ⟨t, ht, hst⟩ := h.mmRealloc hcall
      have hnew := h.remember index size p hst (fun id (hid : id ∈ live) => Or.inr hid)
        (removeRange d.ranges (d.trace.blocks index))
      rw [← h.numIds] at hindex
      exact ⟨fun tot => ⟨_, utilStep_realloc hindex ht hp tot, hnew _⟩, _, speedStep_realloc hindex ht hp, hnew _⟩
  | free =>
      obtain ⟨priv, lib, hcall, hindex, -, rfl⟩ := of_validFree hstep
      rw [← h.blocks index hop] at hcall
      obtain ⟨t, ht, hst⟩ := h.mmFree hcall
      have hnew : Agree base (live.erase index)
          { d with priv := priv, lib := lib, ranges := removeRange d.ranges (d.trace.blocks index) }
          { e with priv := (), lib := t } :=
        ⟨⟨hst.left, h.left.numIds, h.left.ops⟩, ⟨hst.right, h.right.numIds, h.right.ops⟩, hst.brk,
          fun id hid => h.blocks id (List.mem_of_mem_erase hid), h.returned⟩
      rw [← h.numIds] at hindex
      exact ⟨fun tot => ⟨_, utilStep_free hindex ht tot, hnew⟩, _, speedStep_free hindex ht, hnew⟩

/-- Two loops in step: `loop` works through the requests with `step`, on states that hold a session. -/
theorem loop {S : Type} (session : S → Session Unit) (step : TraceOp → S → Except Abort S)
    (loop : List TraceOp → S → Except Abort S) (hnil : ∀ s, loop [] s = .ok s)
    (hcons : ∀ op ops s, loop (op :: ops) s = step op s >>= loop ops) {tracenum : Int}
    (hstep : ∀ {live : List Int} {d d' : Session Unit} {i : Int} {op : TraceOp} {s : S}, Agree base live d (session s) →
      OpOk live op → validStep naive tracenum i op d = .ok (true, d') →
      ∃ s', step op s = .ok s' ∧ Agree base (liveAfter live op) d' (session s'))
    {i : Int} {ops : List TraceOp} {d' : Session Unit} {s : S} (h : Agree base live d (session s))
    (hops : WellFormedFrom live ops) (hrun : validLoop naive tracenum i ops d = .ok (1, d')) :
    ∃ s', loop ops s = .ok s' ∧ Agree base (ops.foldl liveAfter live) d' (session s') := by
  induction ops generalizing live d s i with
  | nil =>
      cases hrun
      exact ⟨s, hnil s, h⟩
  | cons op ops ih =>
      obtain ⟨⟨continues, d₁⟩, hvalid, hrest⟩ := bind_eq_ok hrun
      cases continues with
      | false => cases hrest
      | true =>
          obtain ⟨s₁, hs₁, h₁⟩ := hstep h hops.1 hvalid
          obtain ⟨s', hs', h'⟩ := ih h₁ hops.2 hrest
          exact ⟨s', by rw [hcons, hs₁, ok_bind, hs'], h'⟩

/-- A session with the same task, rewound, is where `eval_mm_valid` started. -/
theorem rewind (he : SameTask base e) : Agree base [] base.restart e.rewind :=
  ⟨⟨rfl, rfl, rfl⟩, ⟨he.start, he.numIds, he.ops⟩, he.start, fun _ hid => absurd hid List.not_mem_nil, rfl⟩

theorem evalMmUtil {tracenum : Int} {d₁ : Session Unit} (hwf : base.trace.WellFormed)
    (hvalid : evalMmValid naive tracenum base = .ok (1, d₁)) (he : SameTask base e) :
    ∃ u e', Driver.evalMmUtil naive e = .ok (u, e') ∧ Agree base (liveIds base.trace.ops) d₁ e' := by
  obtain ⟨⟨e', t⟩, hloop, h'⟩ := loop Prod.fst (utilStep naive) (utilLoop naive) (s := (e.rewind, ⟨0, 0⟩))
    (fun _ => rfl) (fun _ _ _ => rfl) (fun {_ _ _ _ _ s} h hop hvalid => (h.step hop hvalid).1 s.2) (rewind he)
    hwf.requests hvalid
  refine ⟨(t.max, e'.lib.memHeapsize), e', ?_, h'⟩
  rw [← he.ops] at hloop
  simp only [Driver.evalMmUtil, callInit, naive, Malloc.mmInit, ok_bind, pure_eq_ok, lt_irrefl, if_false]
  change (utilLoop naive e.trace.ops (e.rewind, ⟨0, 0⟩) >>= _) = _
  rw [hloop]
  rfl

theorem evalMmSpeed {tracenum : Int} {d₁ : Session Unit} (hwf : base.trace.WellFormed)
    (hvalid : evalMmValid naive tracenum base = .ok (1, d₁)) (he : SameTask base e) :
    ∃ e', Driver.evalMmSpeed naive e = .ok e' ∧ Agree base (liveIds base.trace.ops) d₁ e' := by
  obtain ⟨e', hloop, h'⟩ := loop id (speedStep naive) (speedLoop naive) (fun _ => rfl) (fun _ _ _ => rfl)
    (fun h hop hvalid => (h.step hop hvalid).2) (rewind he) hwf.requests hvalid
  rw [← he.ops] at hloop
  exact ⟨e', hloop, h'⟩

end Agree

/-- `eval_mm_speed`, run `n` times in a row. -/
def speedRuns {σ : Type} (A : Allocator σ) : Nat → Session σ → Except Abort (Session σ)
  | 0, d => .ok d
  | n + 1, d => do
      let d ← evalMmSpeed A d
      speedRuns A n d

theorem Agree.speedRuns {tracenum : Int} {base d₁ e : Session Unit} (hwf : base.trace.WellFormed)
    (hvalid : evalMmValid naive tracenum base = .ok (1, d₁)) (he : Agree base (liveIds base.trace.ops) d₁ e)
    (n : Nat) : ∃ e', Driver.speedRuns naive n e = .ok e' ∧ Agree base (liveIds base.trace.ops) d₁ e' := by
  induction n generalizing e with
  | zero => exact ⟨e, rfl, he⟩
  | succ n ih =>
      obtain ⟨e₁, hspeed, h₁⟩ := Agree.evalMmSpeed hwf hvalid he.right
      obtain ⟨e', hruns, h'⟩ := ih h₁
      exact ⟨e', by rw [Driver.speedRuns, hspeed, ok_bind, hruns], h'⟩

end CsoLabs.Driver
