import CsoLabs.DriverIndices
import CsoLabs.DriverReadBounds
import CsoLabs.DriverUtil
import CsoLabs.Fallible

/-! The two loops of `main` in `mdriver.c`: each trace file is read and run, first on the allocator of the C library
and then on the one under test. How often the timer calls `eval_libc_speed` or `eval_mm_speed` for a trace is a
parameter; what it measures is not modelled. -/

namespace CsoLabs.Driver
open CLang ByteMemory Malloc Session Fallible

variable {σ : Type}

/-- A trace file with what `read_trace` finds when it is read, and how often the timer runs it. -/
structure Job where
  env : Environment
  path : String
  file : Option (List Char)
  runs : Nat

/-- `read_trace` -/
def Job.read (job : Job) : Except Abort Trace := readTrace job.env job.path job.file

/-- `stats_t`, as far as no time is measured: the number of requests, whether the trace is valid, and the two
numbers whose quotient is the utilization. -/
structure Stats where
  ops : Nat
  valid : Int
  util : Option (Int × Nat)
  deriving DecidableEq

section Loops

variable (A : Allocator σ)

/-- `eval_libc_speed`, run `n` times in a row. -/
def libcSpeedRuns : Nat → Session σ → Except Abort (Session σ)
  | 0, d => .ok d
  | n + 1, d => do
      let d ← evalLibcSpeed A d
      libcSpeedRuns n d

def evalLibcTrace (tracenum : Int) (job : Job) (d : Session σ) : Except Abort (Stats × Session σ) := do
  let t ← job.read
  let (valid, d) ← evalLibcValid A tracenum { d with trace := t }
  if valid = 0 then return (⟨t.ops.length, valid, none⟩, d)
  else
    let d ← libcSpeedRuns A job.runs d
    return (⟨t.ops.length, valid, none⟩, d)

def evalMmTrace (tracenum : Int) (job : Job) (d : Session σ) : Except Abort (Stats × Session σ) := do
  let t ← job.read
  let (valid, d) ← evalMmValid A tracenum { d with trace := t }
  if valid = 0 then return (⟨t.ops.length, valid, none⟩, d)
  else
    let (util, d) ← evalMmUtil A d
    let d ← speedRuns A job.runs d
    return (⟨t.ops.length, valid, some util⟩, d)

end Loops

/-- A loop over the trace files, from the one numbered `tracenum`; `run` is what it does with one. -/
def evalTraces (run : Int → Job → Session σ → Except Abort (Stats × Session σ)) :
    Int → List Job → Session σ → Except Abort (List Stats × Session σ)
  | _, [], d => .ok ([], d)
  | tracenum, job :: jobs, d => do
      let (stats, d) ← run tracenum job d
      let (rest, d) ← evalTraces run (tracenum + 1) jobs d
      return (stats :: rest, d)

def evalLibcTraces (A : Allocator σ) : Int → List Job → Session σ → Except Abort (List Stats × Session σ) :=
  evalTraces (evalLibcTrace A)

def evalMmTraces (A : Allocator σ) : Int → List Job → Session σ → Except Abort (List Stats × Session σ) :=
  evalTraces (evalMmTrace A)

/-- `numcorrect` -/
def numcorrect (stats : List Stats) : Nat := stats.countP fun s => s.valid ≠ 0

/-! ### The calls leave the report alone -/

/-- The report and the requests are those of `d`. -/
def Quiet (d d' : Session σ) : Prop := d'.report = d.report ∧ d'.trace.ops = d.trace.ops

section Quiet

variable {A : Allocator σ} {d d₀ : Session σ}

theorem quiet_callInit (h : Quiet d₀ d) : Ensures (d.callInit A) fun r => Quiet d₀ r.2 :=
  (Ensures.trivial _).bind fun _ _ => .pure h

theorem quiet_callMalloc (h : Quiet d₀ d) (size : Int) : Ensures (d.callMalloc A size) fun r => Quiet d₀ r.2 :=
  (Ensures.trivial _).bind fun _ _ => .pure h

theorem quiet_callRealloc (h : Quiet d₀ d) (ptr : Nat) (size : Int) :
    Ensures (d.callRealloc A ptr size) fun r => Quiet d₀ r.2 :=
  (Ensures.trivial _).bind fun _ _ => .pure h

theorem quiet_callFree (h : Quiet d₀ d) (ptr : Nat) : Ensures (d.callFree A ptr) (Quiet d₀) :=
  (Ensures.trivial _).bind fun _ _ => .pure h

theorem quiet_setBlock (h : Quiet d₀ d) (index : Int) (p : Nat) : Ensures (d.setBlock index p) (Quiet d₀) :=
  (Ensures.trivial _).bind fun _ _ => .pure h

theorem quiet_setBlockSize (h : Quiet d₀ d) (index size : Int) : Ensures (d.setBlockSize index size) (Quiet d₀) :=
  (Ensures.trivial _).bind fun _ _ => .pure h

theorem quiet_utilStep (h : Quiet d₀ d) (op : TraceOp) (t : Totals) :
    Ensures (utilStep A op (d, t)) fun st => Quiet d₀ st.1 := by
  unfold utilStep
  cases op.type with
  | alloc =>
      refine (quiet_callMalloc h _).bind fun ⟨p, d₁⟩ h₁ => .ite (fun _ => .throw _) fun _ => ?_
      exact (quiet_setBlock h₁ _ _).bind fun d₂ h₂ => (quiet_setBlockSize h₂ _ _).bind fun d₃ h₃ => .pure h₃
  | realloc =>
      refine (Ensures.trivial _).bind fun oldsize _ => (Ensures.trivial _).bind fun oldp _ => ?_
      refine (quiet_callRealloc h _ _).bind fun ⟨newp, d₁⟩ h₁ => .ite (fun _ => .throw _) fun _ => ?_
      exact (quiet_setBlock h₁ _ _).bind fun d₂ h₂ => (quiet_setBlockSize h₂ _ _).bind fun d₃ h₃ => .pure h₃
  | free =>
      refine (Ensures.trivial _).bind fun size _ => (Ensures.trivial _).bind fun p _ => ?_
      exact (quiet_callFree h _).bind fun d₁ h₁ => .pure h₁

theorem quiet_speedStep (h : Quiet d₀ d) (op : TraceOp) : Ensures (speedStep A op d) (Quiet d₀) := by
  unfold speedStep
  cases op.type with
  | alloc =>
      exact (quiet_callMalloc h _).bind fun ⟨p, d₁⟩ h₁ => .ite (fun _ => .throw _) fun _ => quiet_setBlock h₁ _ _
  | realloc =>
      refine (Ensures.trivial _).bind fun oldp _ => ?_
      exact (quiet_callRealloc h _ _).bind fun ⟨newp, d₁⟩ h₁ => .ite (fun _ => .throw _) fun _ => quiet_setBlock h₁ _ _
  | free => exact (Ensures.trivial _).bind fun block _ => quiet_callFree h block

theorem quiet_utilLoop (ops : List TraceOp) (h : Quiet d₀ d) (t : Totals) :
    Ensures (utilLoop A ops (d, t)) fun st => Quiet d₀ st.1 := by
  induction ops generalizing d t with
  | nil => exact .pure h
  | cons op ops ih => exact (quiet_utilStep h op t).bind fun ⟨d₁, t₁⟩ h₁ => ih h₁ t₁

theorem quiet_speedLoop (ops : List TraceOp) (h : Quiet d₀ d) : Ensures (speedLoop A ops d) (Quiet d₀) := by
  induction ops generalizing d with
  | nil => exact .pure h
  | cons op ops ih => exact (quiet_speedStep h op).bind fun d₁ h₁ => ih h₁

/-- `eval_mm_util` and `eval_mm_speed` exit where they find fault. -/
theorem quiet_evalMmUtil (h : Quiet d₀ d) : Ensures (evalMmUtil A d) fun r => Quiet d₀ r.2 := by
  refine (quiet_callInit (d := d.rewind) h).bind fun ⟨r, d₁⟩ h₁ => .ite (fun _ => .throw _) fun _ => ?_
  exact (quiet_utilLoop _ h₁ _).bind fun st hst => .pure hst

theorem quiet_speedRuns (n : Nat) (h : Quiet d₀ d) : Ensures (speedRuns A n d) (Quiet d₀) := by
  induction n generalizing d with
  | zero => exact .pure h
  | succ n ih =>
      refine Ensures.bind (P := Quiet d₀) ?_ fun d₁ h₁ => ih h₁
      refine (quiet_callInit (d := d.rewind) h).bind fun ⟨r, d₁⟩ h₁ => .ite (fun _ => .throw _) fun _ => ?_
      exact quiet_speedLoop _ h₁

end Quiet

/-! ### One complaint for each trace that fails -/

/-- A call of `malloc_error`. -/
structure Complaint where
  tracenum : Int
  opnum : Int
  msg : String

def Report.add (r : Report) (c : Complaint) : Report := mallocError c.tracenum c.opnum c.msg r

/-- The report after one complaint about the request `opnum` of the trace. -/
def Complains (tracenum opnum : Int) (r r' : Report) : Prop := ∃ msg, r' = r.add ⟨tracenum, opnum, msg⟩

section Valid

variable {A : Allocator σ} {d : Session σ} {tracenum : Int}

/-- `add_range` complains exactly when it returns 0. -/
theorem addRange_complains (lib : Memlib) (ranges : List Range) (lo : Nat) (size opnum : Int) (r : Report) :
    Ensures (addRange lib ranges lo size tracenum opnum r) fun res =>
      if res.1 = 0 then Complains tracenum opnum r res.2.2 else res.2.2 = r := by
  unfold addRange
  refine (Ensures.trivial _).bind fun _ _ => .ite (fun _ => .pure ⟨_, rfl⟩) fun _ => ?_
  refine .ite (fun _ => .pure ⟨_, rfl⟩) fun _ => ?_
  split
  · exact .pure ⟨_, rfl⟩
  · exact .pure rfl

theorem callAddRange_complains {d₀ : Session σ} (h : Quiet d₀ d) (lo : Nat) (size opnum : Int) :
    Ensures (d.callAddRange lo size tracenum opnum) fun r => r.2.trace.ops = d₀.trace.ops ∧
      if r.1 = 0 then Complains tracenum opnum d₀.report r.2.report else r.2.report = d₀.report := by
  refine (addRange_complains _ _ _ _ _ _).bind fun ⟨v, ranges, report⟩ hv => .pure ⟨h.2, ?_⟩
  rw [← h.1]
  exact hv

theorem complain_complains {d₀ : Session σ} (h : Quiet d₀ d) (tracenum opnum : Int) (msg : String) :
    (d.complain tracenum opnum msg).trace.ops = d₀.trace.ops ∧
      Complains tracenum opnum d₀.report (d.complain tracenum opnum msg).report := by
  refine ⟨h.2, msg, ?_⟩
  rw [← h.1]
  rfl

/-- A request that was worked through leaves the report alone, and one that was not is complained about. -/
theorem validStep_complains (i : Int) (op : TraceOp) (d : Session σ) :
    Ensures (validStep A tracenum i op d) fun r => r.2.trace.ops = d.trace.ops ∧
      if r.1 then r.2.report = d.report else Complains tracenum i d.report r.2.report := by
  have hquiet : Quiet d d := ⟨rfl, rfl⟩
  unfold validStep
  cases op.type with
  | alloc =>
      refine (quiet_callMalloc hquiet _).bind fun ⟨p, d₁⟩ h₁ => .ite (fun _ => ?_) fun _ => ?_
      · exact .pure (complain_complains h₁ _ _ _)
      refine (callAddRange_complains h₁ _ _ _).bind fun ⟨v, d₂⟩ ⟨hops, hreport⟩ => .ite (fun hv => ?_) fun hv => ?_
      · exact .pure ⟨hops, by rwa [if_pos hv] at hreport⟩
      rw [if_neg hv] at hreport
      refine (quiet_setBlock (d := d₂.fill p op.index op.size) ⟨hreport, hops⟩ _ _).bind fun d₃ h₃ => ?_
      exact (quiet_setBlockSize h₃ _ _).bind fun d₄ h₄ => .pure ⟨h₄.2, h₄.1⟩
  | realloc =>
      refine (Ensures.trivial _).bind fun oldp _ => ?_
      refine (quiet_callRealloc hquiet _ _).bind fun ⟨newp, d₁⟩ h₁ => .ite (fun _ => ?_) fun _ => ?_
      · exact .pure (complain_complains h₁ _ _ _)
      refine (callAddRange_complains (d := d₁.callRemoveRange oldp) h₁ _ _ _).bind fun ⟨v, d₂⟩ ⟨hops, hreport⟩ =>
        .ite (fun hv => ?_) fun hv => ?_
      · exact .pure ⟨hops, by rwa [if_pos hv] at hreport⟩
      rw [if_neg hv] at hreport
      refine (Ensures.trivial _).bind fun oldsize _ => .ite (fun _ => ?_) fun _ => ?_
      · refine (quiet_setBlock (d := d₂.fill newp op.index op.size) ⟨hreport, hops⟩ _ _).bind fun d₃ h₃ => ?_
        exact (quiet_setBlockSize h₃ _ _).bind fun d₄ h₄ => .pure ⟨h₄.2, h₄.1⟩
      · exact .pure (complain_complains ⟨hreport, hops⟩ _ _ _)
  | free =>
      refine (Ensures.trivial _).bind fun p _ => ?_
      exact (quiet_callFree (d := d.callRemoveRange p) hquiet p).bind fun d₁ h₁ => .pure ⟨h₁.2, h₁.1⟩

/-- What `eval_mm_valid` leaves behind when it returns `valid` after the requests numbered `lo ≤ i < hi`. -/
def Verdict (tracenum lo hi : Int) (r r' : Report) (valid : Int) : Prop :=
  (valid = 1 ∧ r' = r) ∨ (valid = 0 ∧ ∃ opnum, lo ≤ opnum ∧ opnum < hi ∧ Complains tracenum opnum r r')

theorem validLoop_verdict (i : Int) (ops : List TraceOp) (d : Session σ) :
    Ensures (validLoop A tracenum i ops d) fun r => r.2.trace.ops = d.trace.ops ∧
      Verdict tracenum i (i + ops.length) d.report r.2.report r.1 := by
  induction ops generalizing i d with
  | nil => exact .pure ⟨rfl, .inl ⟨rfl, rfl⟩⟩
  | cons op ops ih =>
      refine (validStep_complains i op d).bind fun ⟨continues, d₁⟩ ⟨hops, hreport⟩ => .ite (fun hc => ?_) fun hc => ?_
      · rw [if_pos hc] at hreport
        refine (ih (i + 1) d₁).mono fun r ⟨hops', hverdict⟩ => ⟨hops'.trans hops, ?_⟩
        rw [hreport] at hverdict
        refine hverdict.imp_right fun ⟨hvalid, opnum, hlo, hhi, hcomplains⟩ => ⟨hvalid, opnum, by omega, ?_, hcomplains⟩
        simp only [List.length_cons]
        omega
      · rw [if_neg hc] at hreport
        refine .pure ⟨hops, .inr ⟨rfl, i, le_rfl, ?_, hreport⟩⟩
        simp only [List.length_cons]
        omega

/-- A failure of `mm_init` is put down to the first request, whether there is one or not. -/
theorem evalMmValid_verdict (d : Session σ) :
    Ensures (evalMmValid A tracenum d) fun r => r.2.trace.ops = d.trace.ops ∧
      Verdict tracenum 0 (max 1 d.trace.ops.length) d.report r.2.report r.1 := by
  refine (quiet_callInit (show Quiet d d.restart from ⟨rfl, rfl⟩)).bind fun ⟨r, d₀⟩ h₀ =>
    .ite (fun _ => ?_) fun _ => ?_
  · obtain ⟨hops, hcomplains⟩ := complain_complains h₀ tracenum 0 "mm_init failed."
    exact .pure ⟨hops, .inr ⟨rfl, 0, le_rfl, by omega, hcomplains⟩⟩
  · refine (validLoop_verdict 0 d₀.trace.ops d₀).mono fun r ⟨hops, hverdict⟩ => ⟨hops.trans h₀.2, ?_⟩
    rw [h₀.2, h₀.1, zero_add] at hverdict
    exact hverdict.imp_right fun ⟨hvalid, opnum, hlo, hhi, hcomplains⟩ => ⟨hvalid, opnum, hlo, by omega, hcomplains⟩

end Valid

/-- The traces that failed, each with its number. -/
def failed : Int → List Stats → List (Int × Stats)
  | _, [] => []
  | tracenum, s :: stats => if s.valid = 0 then (tracenum, s) :: failed (tracenum + 1) stats else failed (tracenum + 1) stats

theorem numcorrect_cons (s : Stats) (stats : List Stats) :
    numcorrect (s :: stats) = numcorrect stats + if s.valid = 0 then 0 else 1 := by
  by_cases hvalid : s.valid = 0 <;> simp [numcorrect, hvalid]

theorem length_failed_add_numcorrect (tracenum : Int) (stats : List Stats) :
    (failed tracenum stats).length + numcorrect stats = stats.length := by
  induction stats generalizing tracenum with
  | nil => rfl
  | cons s stats ih =>
      have hrest := ih (tracenum + 1)
      rw [failed, numcorrect_cons, List.length_cons]
      by_cases hvalid : s.valid = 0
      · rw [if_pos hvalid, if_pos hvalid, List.length_cons]
        omega
      · rw [if_neg hvalid, if_neg hvalid]
        omega

theorem errors_foldl_add (complaints : List Complaint) (r : Report) :
    (complaints.foldl Report.add r).errors = r.errors + complaints.length := by
  induction complaints generalizing r with
  | nil => rfl
  | cons c complaints ih =>
      rw [List.foldl_cons, ih, List.length_cons]
      change r.errors + 1 + complaints.length = _
      omega

/-- The entry of a trace that was read from the job's file and run. -/
structure Recorded (job : Job) (s : Stats) : Prop where
  ops : ∃ t, job.read = .ok t ∧ s.ops = t.ops.length
  valid : s.valid = 1 ∨ s.valid = 0
  util : s.util = none ↔ s.valid = 0

section Traces

variable {A : Allocator σ} {tracenum : Int}

theorem evalMmTrace_verdict (job : Job) (d : Session σ) :
    Ensures (evalMmTrace A tracenum job d) fun r => Recorded job r.1 ∧
      Verdict tracenum 0 (max 1 r.1.ops) d.report r.2.report r.1.valid := by
  have hread : Ensures job.read fun t => job.read = .ok t := fun t ht => ht
  refine hread.bind fun t ht => ?_
  refine (evalMmValid_verdict { d with trace := t }).bind fun ⟨valid, d₁⟩ ⟨hops, hverdict⟩ => ?_
  refine .ite (fun hvalid => .pure ⟨⟨⟨t, ht, rfl⟩, .inr hvalid, by simp [hvalid]⟩, hverdict⟩) fun hvalid => ?_
  obtain ⟨hvalid', hreport⟩ | ⟨hvalid', -⟩ := hverdict
  · refine (quiet_evalMmUtil (show Quiet d₁ d₁ from ⟨rfl, rfl⟩)).bind fun ⟨util, d₂⟩ h₂ => ?_
    refine (quiet_speedRuns job.runs h₂).bind fun d₃ h₃ => .pure ⟨⟨⟨t, ht, rfl⟩, .inl hvalid', by simp [hvalid]⟩, ?_⟩
    exact .inl ⟨hvalid', h₃.1.trans hreport⟩
  · exact absurd hvalid' hvalid

/-- A complaint that names a trace that failed, and one of its requests. -/
def Names (c : Complaint) (f : Int × Stats) : Prop :=
  c.tracenum = f.1 ∧ 0 ≤ c.opnum ∧ c.opnum < max 1 (f.2.ops : Int)

theorem evalMmTraces_complaints (jobs : List Job) (d : Session σ) :
    Ensures (evalMmTraces A tracenum jobs d) fun r => List.Forall₂ Recorded jobs r.1 ∧
      ∃ complaints, List.Forall₂ Names complaints (failed tracenum r.1) ∧
        r.2.report = complaints.foldl Report.add d.report := by
  induction jobs generalizing tracenum d with
  | nil => exact .pure ⟨.nil, [], .nil, rfl⟩
  | cons job jobs ih =>
      refine (evalMmTrace_verdict job d).bind fun ⟨s, d₁⟩ ⟨hs, hverdict⟩ => ?_
      refine (ih d₁).bind fun ⟨stats, d₂⟩ ⟨hstats, complaints, hnames, hreport⟩ => .pure ⟨.cons hs hstats, ?_⟩
      obtain ⟨hvalid, hquiet⟩ | ⟨hvalid, opnum, hlo, hhi, msg, hfirst⟩ := hverdict
      · refine ⟨complaints, ?_, by rw [hreport, hquiet]⟩
        dsimp only at hvalid
        rw [failed, if_neg (by omega)]
        exact hnames
      · refine ⟨⟨tracenum, opnum, msg⟩ :: complaints, ?_, by rw [hreport, hfirst, List.foldl_cons]⟩
        rw [failed, if_pos hvalid]
        exact .cons ⟨rfl, hlo, hhi⟩ hnames

/-- **Every failure is reported once.** Whatever allocator is under test and whatever it answers: when the loop over
the trace files ends, the lines printed since its start are one complaint for each trace counted as failed, in the
order of the traces, under the number of the trace and of one of its requests; and the errors counted and the traces
counted as correct make up all the traces. -/
theorem failures_reported_once {jobs : List Job} {d d' : Session σ} {stats : List Stats}
    (h : evalMmTraces A tracenum jobs d = .ok (stats, d')) :
    List.Forall₂ Recorded jobs stats ∧
      (∃ complaints, List.Forall₂ Names complaints (failed tracenum stats) ∧
        d'.report = complaints.foldl Report.add d.report) ∧
      d'.report.errors + numcorrect stats = d.report.errors + jobs.length := by
  obtain ⟨hstats, complaints, hnames, hreport⟩ := evalMmTraces_complaints jobs d _ h
  refine ⟨hstats, ⟨complaints, hnames, hreport⟩, ?_⟩
  have hlength : complaints.length = (failed tracenum stats).length := hnames.length_eq
  have hall : jobs.length = stats.length := hstats.length_eq
  have hsum := length_failed_add_numcorrect tracenum stats
  rw [show d'.report = _ from hreport, errors_foldl_add]
  omega

end Traces

/-- A file whose only REALLOC is of the id 128. -/
def highIdText : List Char := "20 129 2 1\na 128 1\nr 128 1\n".toList

/-- Two files, of which the naive allocator fails the second. -/
def exampleJobs : List Job :=
  [⟨exampleEnvironment, "./short.rep", some shortText, 2⟩, ⟨exampleEnvironment, "./high.rep", some highIdText, 3⟩]

theorem failures_reported_once_exampleJobs :
    ∃ stats d', evalMmTraces naive 0 exampleJobs exampleSession = .ok (stats, d') ∧ numcorrect stats = 1 ∧
      d'.report.errors = 1 := by
  have hrun : (evalMmTraces naive 0 exampleJobs exampleSession).map Prod.fst =
      .ok [⟨2, 1, some (8, 32)⟩, ⟨2, 0, none⟩] := by
    decide +kernel
  obtain ⟨d', hrun⟩ := exists_eq_ok_of_map_fst hrun
  obtain ⟨-, -, herrors⟩ := failures_reported_once hrun
  exact ⟨_, d', hrun, by decide, Nat.add_right_cancel herrors⟩

end CsoLabs.Driver
