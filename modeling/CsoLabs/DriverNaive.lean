import CsoLabs.DriverMain

/-! The driver on `mm-naive.c`, over a list of trace files. Each trace meets the heap and the range list as the ones
before it have left them, and none is affected: what is written down for a trace can be computed from its requests. -/

namespace CsoLabs.Driver
open CLang ByteMemory Malloc Session

/-- No REALLOC names an id whose low byte is 128 or more. -/
def LowIds (ops : List TraceOp) : Prop := ∀ op ∈ ops, op.type = .realloc → op.index % 256 < 128

instance (ops : List TraceOp) : Decidable (LowIds ops) := inferInstanceAs (Decidable (∀ op ∈ ops, _ → _))

/-- The requests take no more than the heap has, with a header for each block and no block used again. -/
def Fits (t : Trace) : Prop := (t.ops.map demand).sum ≤ maxHeap

/-- What `main` writes down for a trace, if the allocator under test is the naive one. -/
structure NaiveEntry (t : Trace) (s : Stats) : Prop where
  ops : s.ops = t.ops.length
  valid : s.valid = if LowIds t.ops then 1 else 0
  util : LowIds t.ops →
    ∃ peak, IsGreatest (totalsUpTo t.ops) peak ∧ s.util = some (peak, (t.ops.map demand).sum)

/-! ### `eval_mm_valid` -/

section Valid

variable {d : Session Unit} {live : List Int} {chunks : List Chunk}

/-- A REALLOC of a high id is worked through up to the comparison. -/
theorem Served.realloc_high (tracenum i : Int) {index size : Int} (h : Served d live chunks)
    (hindex : 0 ≤ index ∧ index < d.trace.numIds) (hlive : index ∈ live) (hsize : PosInt size)
    (hroom : d.lib.memBrk + chunkBytes (toSizeT size) ≤ d.lib.memMaxAddr) (hhigh : ¬ index % 256 < 128) :
    ∃ d', validRealloc naive tracenum i index size d = .ok (false, d') ∧
      d'.lib.memStartBrk = d.lib.memStartBrk := by
  obtain ⟨s', hcall, hstart, hbrk, hheap⟩ := h.realloc_call hlive hsize hroom
  have hsub := removeRange_sublist d.ranges (d.trace.blocks index)
  have hbelow : ∀ q ∈ removeRange d.ranges (d.trace.blocks index), q.hi < d.lib.memBrk :=
    fun q hq => (h.range_hi_lt (hsub.subset hq)).2
  have hacc := accepts hbelow hsize h.heap.brk_aligned hstart hbrk
  have hok := validRealloc_ok tracenum i hsize hindex hcall (Client.headerToPayload_ne_null _) hacc
  rw [if_neg (mt (dataKept_iff hheap hsize (h.sizes index hlive)).mp hhigh)] at hok
  exact ⟨_, hok, hstart⟩

/-- The loop always comes to its end, and for low ids the break has then moved by the demands. -/
theorem Served.loop (tracenum i : Int) {ops : List TraceOp} (h : Served d live chunks)
    (hops : WellFormedFrom live ops) (hids : ∀ op ∈ ops, 0 ≤ op.index ∧ op.index < d.trace.numIds)
    (hroom : d.lib.memBrk + (ops.map demand).sum ≤ d.lib.memMaxAddr) :
    ∃ d', validLoop naive tracenum i ops d = .ok (if LowIds ops then 1 else 0, d') ∧
      d'.lib.memStartBrk = d.lib.memStartBrk ∧
      (LowIds ops → d'.lib.memBrk = d.lib.memBrk + (ops.map demand).sum) := by
  induction ops generalizing d live chunks i with
  | nil => exact ⟨d, rfl, rfl, fun _ => rfl⟩
  | cons op ops ih =>
      rw [List.map_cons, List.sum_cons] at hroom
      obtain ⟨hindex, hids'⟩ := List.forall_mem_cons.mp hids
      have hcons : LowIds (op :: ops) ↔ (op.type = .realloc → op.index % 256 < 128) ∧ LowIds ops :=
        List.forall_mem_cons
      by_cases hlow : op.type = .realloc → op.index % 256 < 128
      · obtain ⟨d₁, chunks₁, hstep, h₁, -, hnum, hstart, hbrk⟩ := h.step tracenum i hindex hops.1 (by omega) hlow
        have hmax : d₁.lib.memMaxAddr = d.lib.memMaxAddr := by rw [d₁.lib.max_eq, d.lib.max_eq, hstart]
        obtain ⟨d', hrun, hstart', hbrk'⟩ := ih (i + 1) h₁ hops.2 (by rwa [hnum]) (by rw [hbrk, hmax]; omega)
        have hrest : LowIds (op :: ops) ↔ LowIds ops := hcons.trans (and_iff_right hlow)
        refine ⟨d', ?_, hstart'.trans hstart, fun hall => ?_⟩
        · simp only [validLoop, hstep, ok_bind, if_true, hrun, hrest]
        · rw [hbrk' (hrest.mp hall), hbrk, List.map_cons, List.sum_cons, Nat.add_assoc]
      · have hnot : ¬ LowIds (op :: ops) := fun hall => hlow (hcons.mp hall).1
        obtain ⟨htype, hhigh⟩ := Classical.not_imp.mp hlow
        obtain ⟨type, index, size⟩ := op
        cases htype
        obtain ⟨hlive, hsize⟩ := hops.1
        simp only [demand, align_add_header hsize] at hroom
        have hchunk : d.lib.memBrk + chunkBytes (toSizeT size) ≤ d.lib.memMaxAddr := by omega
        obtain ⟨d₁, hstep, hstart⟩ := h.realloc_high tracenum i hindex hlive hsize hchunk hhigh
        refine ⟨d₁, ?_, hstart, fun hall => absurd hall hnot⟩
        rw [if_neg hnot, validLoop, show validStep naive tracenum i ⟨.realloc, index, size⟩ d = _ from hstep]
        rfl

theorem evalMmValid_naive (tracenum : Int) (d : Session Unit) (haligned : 16 ∣ d.lib.memStartBrk)
    (hwf : d.trace.WellFormed) (hfits : Fits d.trace) :
    ∃ d', evalMmValid naive tracenum d = .ok (if LowIds d.trace.ops then 1 else 0, d') ∧
      d'.lib.memStartBrk = d.lib.memStartBrk ∧
      (LowIds d.trace.ops → d'.lib.memHeapsize = (d.trace.ops.map demand).sum) := by
  have hserved : Served d.restart [] [] :=
    ⟨HeapInv.empty rfl haligned, (Mirror.restart d (A := naive) rfl).1, fun id hid => by cases hid⟩
  have hmax := d.lib.max_eq
  obtain ⟨d', hrun, hstart, hbrk⟩ := hserved.loop tracenum 0 hwf.requests hwf.ids (by
    change d.lib.memStartBrk + (d.trace.ops.map demand).sum ≤ d.lib.memMaxAddr
    rw [Fits] at hfits
    omega)
  refine ⟨d', hrun, hstart, fun hlow => ?_⟩
  rw [Memlib.memHeapsize, hbrk hlow, hstart]
  exact Nat.add_sub_cancel_left ..

end Valid

/-! ### One trace, then all -/

/-- The two numbers `eval_mm_util` divides. -/
theorem of_evalMmUtil {d d' : Session Unit} {util : Int × Nat} (hwf : d.trace.WellFormed)
    (h : evalMmUtil naive d = .ok (util, d')) :
    IsGreatest (totalsUpTo d.trace.ops) util.1 ∧ util.2 = d'.lib.memHeapsize := by
  obtain ⟨⟨r, d₀⟩, hinit, h⟩ := bind_eq_ok h
  cases hinit
  obtain ⟨⟨e, t⟩, hloop, hret⟩ := bind_eq_ok h
  cases hret
  exact ⟨((Booked.start d.rewind).loop hwf.requests hloop).peak, rfl⟩

theorem evalMmTrace_naive (tracenum : Int) {job : Job} {t : Trace} (hread : job.read = .ok t) (hwf : t.WellFormed)
    (hfits : Fits t) (d : Session Unit) (haligned : 16 ∣ d.lib.memStartBrk) :
    ∃ s d', evalMmTrace naive tracenum job d = .ok (s, d') ∧ NaiveEntry t s ∧
      d'.lib.memStartBrk = d.lib.memStartBrk := by
  obtain ⟨d₁, hvalid, hstart, hheap⟩ := evalMmValid_naive tracenum { d with trace := t } haligned hwf hfits
  by_cases hlow : LowIds t.ops
  · rw [if_pos hlow] at hvalid
    obtain ⟨_, -, h₀⟩ := Agree.evalMmSpeed hwf hvalid (e := { d with trace := t }) ⟨rfl, rfl, rfl⟩
    obtain ⟨util, d₂, hutil, h₂⟩ := Agree.evalMmUtil hwf hvalid h₀.left
    obtain ⟨d₃, hruns, h₃⟩ := h₂.speedRuns hwf hvalid job.runs
    have hops : d₁.trace.ops = t.ops := h₀.left.ops
    have hwf₁ : d₁.trace.WellFormed := ⟨hops ▸ hwf.requests, by
      rw [hops, show d₁.trace.numIds = t.numIds from h₀.left.numIds]
      exact hwf.ids⟩
    obtain ⟨hpeak, hsize⟩ := of_evalMmUtil hwf₁ hutil
    refine ⟨⟨t.ops.length, 1, some util⟩, d₃, ?_, ⟨rfl, (if_pos hlow).symm, fun _ => ⟨util.1, hops ▸ hpeak, ?_⟩⟩,
      h₃.right.start⟩
    · simp only [evalMmTrace, hread, ok_bind, hvalid, one_ne_zero, if_false, hutil, hruns, pure_eq_ok]
    · rw [← hheap hlow, ← h₂.memHeapsize, ← hsize]
  · rw [if_neg hlow] at hvalid
    refine ⟨⟨t.ops.length, 0, none⟩, d₁, ?_, ⟨rfl, (if_neg hlow).symm, fun h => absurd h hlow⟩, hstart⟩
    simp only [evalMmTrace, hread, ok_bind, hvalid, if_true, pure_eq_ok]

/-- **The driver on the naive allocator.** Given any list of trace files that `read_trace` accepts, with requests in
order that fit in the heap, the loop over them comes to its end with no assertion failed and no exit. A trace is
counted as correct exactly when no REALLOC of it names an id with a low byte of 128 or more, whichever traces were
run before it; and its utilization is that of the largest sum of live sizes in a heap that never shrinks. -/
theorem evalMmTraces_naive (tracenum : Int) {jobs : List Job}
    (hjobs : ∀ job ∈ jobs, ∃ t, job.read = .ok t ∧ t.WellFormed ∧ Fits t) (d : Session Unit)
    (haligned : 16 ∣ d.lib.memStartBrk) :
    ∃ stats d', evalMmTraces naive tracenum jobs d = .ok (stats, d') ∧
      List.Forall₂ (fun job s => ∃ t, job.read = .ok t ∧ NaiveEntry t s) jobs stats := by
  induction jobs generalizing tracenum d with
  | nil => exact ⟨[], d, rfl, .nil⟩
  | cons job jobs ih =>
      obtain ⟨⟨t, hread, hwf, hfits⟩, hjobs'⟩ := List.forall_mem_cons.mp hjobs
      obtain ⟨s, d₁, htrace, hentry, hstart⟩ := evalMmTrace_naive tracenum hread hwf hfits d haligned
      obtain ⟨stats, d', hrest, hentries⟩ := ih (tracenum + 1) hjobs' d₁ (by rwa [hstart])
      rw [evalMmTraces] at hrest ⊢
      refine ⟨s :: stats, d', ?_, .cons ⟨t, hread, hentry⟩ hentries⟩
      simp only [evalTraces, htrace, ok_bind, hrest, pure_eq_ok]

/-- The requests of a job's file, as `read_trace` stores them. -/
def Job.accepted (job : Job) : Bool :=
  match job.read with
  | .ok t => decide (WellFormedFrom [] t.ops ∧ (∀ op ∈ t.ops, 0 ≤ op.index ∧ op.index < t.numIds) ∧
      (t.ops.map demand).sum ≤ maxHeap)
  | .error _ => false

theorem Job.of_accepted {job : Job} (h : job.accepted = true) : ∃ t, job.read = .ok t ∧ t.WellFormed ∧ Fits t := by
  unfold accepted at h
  split at h
  · rename_i t hread
    obtain ⟨hrequests, hids, hfits⟩ := of_decide_eq_true h
    exact ⟨t, hread, ⟨hrequests, hids⟩, hfits⟩
  · cases h

theorem evalMmTraces_naive_exampleJobs :
    ∃ stats d', evalMmTraces naive 0 exampleJobs exampleSession = .ok (stats, d') ∧
      List.Forall₂ (fun job s => ∃ t, job.read = .ok t ∧ NaiveEntry t s) exampleJobs stats :=
  evalMmTraces_naive 0 (fun job hjob => Job.of_accepted (List.all_eq_true.mp
    (show exampleJobs.all Job.accepted = true by decide +kernel) job hjob)) exampleSession (by decide)

end CsoLabs.Driver
