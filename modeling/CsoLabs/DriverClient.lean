import CsoLabs.DriverNaive

/-! The driver as a client. An allocator is put under a guard that knows which pointers are out: those it has returned
since the last `mm_init` and that have not been freed or moved since. The guard stops a request for a size that is not
in `1 .. INT_MAX`, and a `realloc` or `free` of a pointer that is not out. For traces whose requests are in order it
never does, so that the driver does the same without it. -/

namespace CsoLabs.Driver
open CLang ByteMemory Malloc Session Fallible

variable {σ : Type}

/-- The pointers that are out after a call has answered `p`. -/
def handOut (p : Nat) (out : List Nat) : List Nat := if p = null then out else p :: out

/-- The allocator under guard; a call that is stopped ends with `e`. A `realloc` that fails leaves the old block. -/
def guarded (e : Abort) (A : Allocator σ) : Allocator (σ × List Nat) where
  mmInit s lib := do
    let (r, priv, lib) ← A.mmInit s.1 lib
    return (r, (priv, []), lib)
  mmMalloc size s lib :=
    if InRange size then do
      let (p, priv, lib) ← A.mmMalloc size s.1 lib
      return (p, (priv, handOut p s.2), lib)
    else .error e
  mmRealloc ptr size s lib :=
    if InRange size ∧ ptr ∈ s.2 then do
      let (p, priv, lib) ← A.mmRealloc ptr size s.1 lib
      return (p, (priv, if p = null then s.2 else p :: s.2.erase ptr), lib)
    else .error e
  mmFree ptr s lib :=
    if ptr ∈ s.2 then do
      let (priv, lib) ← A.mmFree ptr s.1 lib
      return ((priv, s.2.erase ptr), lib)
    else .error e

namespace Session

/-- The session without the list of the guard. -/
def unguard (d : Session (σ × List Nat)) : Session σ := ⟨d.lib, d.priv.1, d.trace, d.ranges, d.report, d.returned⟩

end Session

/-- An answer and the session behind it, without the list of the guard. -/
def unguardSnd {α : Type} (r : α × Session (σ × List Nat)) : α × Session σ := (r.1, r.2.unguard)

/-! ### Single calls -/

section Calls

variable {e : Abort} {A : Allocator σ} {d : Session (σ × List Nat)} {index size : Int}

theorem inRange_toSizeT (hsize : PosInt size) : InRange (toSizeT size) := toNat_toSizeT_pos hsize

theorem simulates_callInit : Simulates unguardSnd (fun r => r.2.trace = d.trace)
    (d.callInit (guarded e A)) (d.unguard.callInit A) := by
  unfold callInit
  cases hcall : A.mmInit d.priv.1 d.lib with
  | error e' =>
      simp only [guarded, unguard, hcall]
      exact .error e'
  | ok r =>
      simp only [guarded, unguard, hcall]
      exact .ok rfl

theorem simulates_callMalloc (hsize : PosInt size) :
    Simulates unguardSnd (fun r => r.2.trace = d.trace ∧ r.2.priv.2 = handOut r.1 d.priv.2)
      (d.callMalloc (guarded e A) size) (d.unguard.callMalloc A size) := by
  unfold callMalloc
  simp only [guarded, if_pos (inRange_toSizeT hsize)]
  cases hcall : A.mmMalloc (toSizeT size) d.priv.1 d.lib with
  | error e' =>
      simp only [unguard, hcall]
      exact .error e'
  | ok r =>
      simp only [unguard, hcall]
      exact .ok ⟨rfl, rfl⟩

theorem simulates_callRealloc (hsize : PosInt size) {ptr : Nat} (hptr : ptr ∈ d.priv.2) :
    Simulates unguardSnd
      (fun r => r.2.trace = d.trace ∧ r.2.priv.2 = if r.1 = null then d.priv.2 else r.1 :: d.priv.2.erase ptr)
      (d.callRealloc (guarded e A) ptr size) (d.unguard.callRealloc A ptr size) := by
  unfold callRealloc
  simp only [guarded, if_pos (And.intro (inRange_toSizeT hsize) hptr)]
  cases hcall : A.mmRealloc ptr (toSizeT size) d.priv.1 d.lib with
  | error e' =>
      simp only [unguard, hcall]
      exact .error e'
  | ok r =>
      simp only [unguard, hcall]
      exact .ok ⟨rfl, rfl⟩

theorem simulates_callFree {ptr : Nat} (hptr : ptr ∈ d.priv.2) :
    Simulates unguard (fun d' => d'.trace = d.trace ∧ d'.priv.2 = d.priv.2.erase ptr)
      (d.callFree (guarded e A) ptr) (d.unguard.callFree A ptr) := by
  unfold callFree
  simp only [guarded, if_pos hptr]
  cases hcall : A.mmFree ptr d.priv.1 d.lib with
  | error e' =>
      simp only [unguard, hcall]
      exact .error e'
  | ok r =>
      simp only [unguard, hcall]
      exact .ok ⟨rfl, rfl⟩

theorem simulates_checkIndex (index : Int) :
    Simulates id (fun _ => True) (d.checkIndex index) (d.unguard.checkIndex index) := .refl (.trivial _)

theorem simulates_block (index : Int) :
    Simulates id (fun p => p = d.trace.blocks index) (d.block index) (d.unguard.block index) :=
  (simulates_checkIndex index).bind fun _ _ => .ok rfl

theorem simulates_blockSize (index : Int) :
    Simulates id (fun _ => True) (d.blockSize index) (d.unguard.blockSize index) := .refl (.trivial _)

/-- The same blocks, requests and pointers that are out. -/
structure SameHold (d d' : Session (σ × List Nat)) : Prop where
  blocks : d'.trace.blocks = d.trace.blocks
  ops : d'.trace.ops = d.trace.ops
  out : d'.priv.2 = d.priv.2

/-- The block `p` is remembered for `index`. -/
structure Stored (d : Session (σ × List Nat)) (index : Int) (p : Nat) (d' : Session (σ × List Nat)) : Prop where
  blocks : d'.trace.blocks = Function.update d.trace.blocks index p
  ops : d'.trace.ops = d.trace.ops
  out : d'.priv.2 = d.priv.2

theorem simulates_setBlock (index : Int) (p : Nat) :
    Simulates unguard (Stored d index p) (d.setBlock index p) (d.unguard.setBlock index p) :=
  (simulates_checkIndex index).bind fun _ _ => .ok ⟨rfl, rfl, rfl⟩

theorem simulates_setBlockSize (index size : Int) :
    Simulates unguard (SameHold d) (d.setBlockSize index size) (d.unguard.setBlockSize index size) :=
  (simulates_checkIndex index).bind fun _ _ => .ok ⟨rfl, rfl, rfl⟩

theorem simulates_callAddRange (lo : Nat) (size tracenum opnum : Int) :
    Simulates unguardSnd (fun r => SameHold d r.2) (d.callAddRange lo size tracenum opnum)
      (d.unguard.callAddRange lo size tracenum opnum) := by
  unfold callAddRange
  simp only [unguard]
  cases addRange d.lib d.ranges lo size tracenum opnum d.report with
  | error e' => exact .error e'
  | ok r => exact .ok ⟨rfl, rfl, rfl⟩

theorem SameHold.fill {d₁ d₂ : Session (σ × List Nat)} (h : SameHold d₁ d₂) {p : Nat} :
    SameHold d₁ (d₂.fill p index size) := ⟨h.blocks, h.ops, h.out⟩

theorem Stored.between {d₁ d₂ d₃ d₄ : Session (σ × List Nat)} {p : Nat} (h₂ : SameHold d₁ d₂) (h₃ : Stored d₂ index p d₃)
    (h₄ : SameHold d₃ d₄) : Stored d₁ index p d₄ :=
  ⟨by rw [h₄.blocks, h₃.blocks, h₂.blocks], h₄.ops.trans (h₃.ops.trans h₂.ops), h₄.out.trans (h₃.out.trans h₂.out)⟩

end Calls

/-! ### The blocks of the live ids are out -/

/-- The pointers of the live ids are out, each as often as there are ids that hold it. -/
structure Holds (d : Session (σ × List Nat)) (live : List Int) : Prop where
  nodup : live.Nodup
  out : (live.map d.trace.blocks).Subperm d.priv.2

/-- What a request leaves behind: the blocks of the ids that are live now are out, and the requests are the same. -/
def HoldsAfter (d : Session (σ × List Nat)) (live : List Int) (op : TraceOp) (d' : Session (σ × List Nat)) : Prop :=
  d'.trace.ops = d.trace.ops ∧ Holds d' (liveAfter live op)

namespace Holds

variable {d d₁ d' : Session (σ × List Nat)} {live : List Int} {index size : Int} {p : Nat}

theorem mem (h : Holds d live) (hindex : index ∈ live) : d.trace.blocks index ∈ d.priv.2 :=
  h.out.subset (List.mem_map_of_mem hindex)

/-- The blocks of the other ids. -/
theorem erase (h : Holds d live) (hindex : index ∈ live) :
    ((live.erase index).map d.trace.blocks).Subperm (d.priv.2.erase (d.trace.blocks index)) := by
  have hperm := (List.perm_cons_erase hindex).map d.trace.blocks
  rw [List.map_cons] at hperm
  have herase := (hperm.symm.subperm.trans h.out).erase (d.trace.blocks index)
  rwa [List.erase_cons_head] at herase

theorem map_update {ids : List Int} (hindex : index ∉ ids) (f : Int → Nat) (p : Nat) :
    ids.map (Function.update f index p) = ids.map f := by
  apply List.map_congr_left
  intro id hid
  have hne : id ≠ index := fun heq => hindex (heq ▸ hid)
  exact Function.update_of_ne hne p f

theorem alloc (h : Holds d live) (hindex : index ∉ live) (hp : p ≠ null) (htrace : d₁.trace = d.trace)
    (hout : d₁.priv.2 = handOut p d.priv.2) (hstored : Stored d₁ index p d') :
    HoldsAfter d live ⟨.alloc, index, size⟩ d' := by
  refine ⟨hstored.ops.trans (congrArg Trace.ops htrace), List.nodup_cons.mpr ⟨hindex, h.nodup⟩, ?_⟩
  change ((index :: live).map d'.trace.blocks).Subperm d'.priv.2
  rw [hstored.blocks, hstored.out, hout, handOut, if_neg hp, htrace, List.map_cons, Function.update_self,
    map_update hindex]
  exact (List.subperm_cons p).mpr h.out

theorem realloc (h : Holds d live) (hindex : index ∈ live) (hp : p ≠ null) (htrace : d₁.trace = d.trace)
    (hout : d₁.priv.2 = if p = null then d.priv.2 else p :: d.priv.2.erase (d.trace.blocks index))
    (hstored : Stored d₁ index p d') : HoldsAfter d live ⟨.realloc, index, size⟩ d' := by
  refine ⟨hstored.ops.trans (congrArg Trace.ops htrace), h.nodup, ?_⟩
  have hperm := (List.perm_cons_erase hindex).map (Function.update d.trace.blocks index p)
  rw [List.map_cons, Function.update_self, map_update h.nodup.not_mem_erase] at hperm
  rw [hstored.blocks, hstored.out, hout, if_neg hp, htrace]
  exact hperm.subperm.trans ((List.subperm_cons p).mpr (h.erase hindex))

theorem free (h : Holds d live) (hindex : index ∈ live) (htrace : d'.trace = d.trace)
    (hout : d'.priv.2 = d.priv.2.erase (d.trace.blocks index)) : HoldsAfter d live ⟨.free, index, size⟩ d' := by
  refine ⟨congrArg Trace.ops htrace, h.nodup.erase index, ?_⟩
  rw [htrace, hout]
  exact h.erase hindex

end Holds

/-! ### One request -/

section Step

variable {e : Abort} {A : Allocator σ} {d : Session (σ × List Nat)} {live : List Int} {op : TraceOp}

theorem gives_up {P : Session (σ × List Nat) → Prop} (d : Session (σ × List Nat)) :
    Simulates unguardSnd (fun r => r.1 = true → P r.2) (.ok (false, d) : Except Abort _) (.ok (false, d.unguard)) :=
  .ok (f := unguardSnd) (s := (false, d)) nofun

theorem goes_on {P : Session (σ × List Nat) → Prop} {d : Session (σ × List Nat)} (h : P d) :
    Simulates unguardSnd (fun r => r.1 = true → P r.2) (.ok (true, d) : Except Abort _) (.ok (true, d.unguard)) :=
  .ok (f := unguardSnd) (s := (true, d)) fun _ => h

theorem simulates_validStep (tracenum i : Int) (h : Holds d live) (hop : OpOk live op) :
    Simulates unguardSnd (fun r => r.1 = true → HoldsAfter d live op r.2) (validStep (guarded e A) tracenum i op d)
      (validStep A tracenum i op d.unguard) := by
  obtain ⟨type, index, size⟩ := op
  cases type with
  | alloc =>
      obtain ⟨hindex, hsize⟩ := hop
      refine (simulates_callMalloc hsize).bind fun ⟨p, d₁⟩ ⟨htrace, hout⟩ => ?_
      refine .ite (fun _ => gives_up (d₁.complain tracenum i "mm_malloc failed.")) fun hp => ?_
      refine (simulates_callAddRange p size tracenum i).bind fun ⟨v, d₂⟩ h₂ => .ite (fun _ => gives_up d₂) fun _ => ?_
      refine (simulates_setBlock (d := d₂.fill p index size) index p).bind fun d₃ h₃ => ?_
      refine (simulates_setBlockSize index size).bind fun d₄ h₄ => goes_on ?_
      exact h.alloc hindex hp htrace hout (.between h₂.fill h₃ h₄)
  | realloc =>
      obtain ⟨hindex, hsize⟩ := hop
      refine (simulates_block index).bind fun oldp hold => ?_
      subst hold
      refine (simulates_callRealloc hsize (h.mem hindex)).bind fun ⟨newp, d₁⟩ ⟨htrace, hout⟩ => ?_
      refine .ite (fun _ => gives_up (d₁.complain tracenum i "mm_realloc failed.")) fun hp => ?_
      refine (simulates_callAddRange (d := d₁.callRemoveRange _) newp size tracenum i).bind fun ⟨v, d₂⟩ h₂ =>
        .ite (fun _ => gives_up d₂) fun _ => ?_
      refine (simulates_blockSize index).bind fun oldsize _ => .ite (fun _ => ?_) fun _ => gives_up _
      have hcall : SameHold d₁ d₂ := ⟨h₂.blocks, h₂.ops, h₂.out⟩
      refine (simulates_setBlock (d := d₂.fill newp index size) index newp).bind fun d₃ h₃ => ?_
      refine (simulates_setBlockSize index size).bind fun d₄ h₄ => goes_on ?_
      exact h.realloc hindex hp htrace hout (.between hcall.fill h₃ h₄)
  | free =>
      refine (simulates_block index).bind fun p hp => ?_
      subst hp
      refine (simulates_callFree (d := d.callRemoveRange _) (h.mem hop)).bind fun d₁ ⟨htrace, hout⟩ => goes_on ?_
      exact h.free hop htrace hout

/-- The session and the totals, without the list of the guard. -/
def unguardFst (st : Session (σ × List Nat) × Totals) : Session σ × Totals := (st.1.unguard, st.2)

theorem simulates_utilStep (t : Totals) (h : Holds d live) (hop : OpOk live op) :
    Simulates unguardFst (fun st => HoldsAfter d live op st.1) (utilStep (guarded e A) op (d, t))
      (utilStep A op (d.unguard, t)) := by
  obtain ⟨type, index, size⟩ := op
  cases type with
  | alloc =>
      obtain ⟨hindex, hsize⟩ := hop
      refine (simulates_callMalloc hsize).bind fun ⟨p, d₁⟩ ⟨htrace, hout⟩ => .ite (fun _ => .error _) fun hp => ?_
      refine (simulates_setBlock index p).bind fun d₂ h₂ => (simulates_setBlockSize index size).bind fun d₃ h₃ => ?_
      exact .ok (f := unguardFst) (h.alloc hindex hp htrace hout (.between ⟨rfl, rfl, rfl⟩ h₂ h₃))
  | realloc =>
      obtain ⟨hindex, hsize⟩ := hop
      refine (simulates_blockSize index).bind fun oldsize _ => (simulates_block index).bind fun oldp hold => ?_
      subst hold
      refine (simulates_callRealloc hsize (h.mem hindex)).bind fun ⟨p, d₁⟩ ⟨htrace, hout⟩ =>
        .ite (fun _ => .error _) fun hp => ?_
      refine (simulates_setBlock index p).bind fun d₂ h₂ => (simulates_setBlockSize index size).bind fun d₃ h₃ => ?_
      exact .ok (f := unguardFst) (h.realloc hindex hp htrace hout (.between ⟨rfl, rfl, rfl⟩ h₂ h₃))
  | free =>
      refine (simulates_blockSize index).bind fun oldsize _ => (simulates_block index).bind fun p hp => ?_
      subst hp
      refine (simulates_callFree (h.mem hop)).bind fun d₁ ⟨htrace, hout⟩ => ?_
      exact .ok (f := unguardFst) (h.free hop htrace hout)

theorem simulates_libcStep (mallocFailed reallocFailed : Int → String) (i : Int) (h : Holds d live) (hop : OpOk live op) :
    Simulates unguard (HoldsAfter d live op) (libcStep (guarded e A) mallocFailed reallocFailed i op d)
      (libcStep A mallocFailed reallocFailed i op d.unguard) := by
  obtain ⟨type, index, size⟩ := op
  cases type with
  | alloc =>
      obtain ⟨hindex, hsize⟩ := hop
      refine (simulates_callMalloc hsize).bind fun ⟨p, d₁⟩ ⟨htrace, hout⟩ => .ite (fun _ => .error _) fun hp => ?_
      exact (simulates_setBlock index p).mono fun d₂ h₂ => h.alloc hindex hp htrace hout h₂
  | realloc =>
      obtain ⟨hindex, hsize⟩ := hop
      refine (simulates_block index).bind fun oldp hold => ?_
      subst hold
      refine (simulates_callRealloc hsize (h.mem hindex)).bind fun ⟨p, d₁⟩ ⟨htrace, hout⟩ =>
        .ite (fun _ => .error _) fun hp => ?_
      exact (simulates_setBlock index p).mono fun d₂ h₂ => h.realloc hindex hp htrace hout h₂
  | free =>
      refine (simulates_block index).bind fun p hp => ?_
      subst hp
      exact (simulates_callFree (h.mem hop)).mono fun d₁ ⟨htrace, hout⟩ => h.free hop htrace hout

end Step

/-! ### Whole runs -/

section Runs

variable {e : Abort} {A : Allocator σ} {d : Session (σ × List Nat)} {live : List Int} {ops : List TraceOp}

/-- Before the first request no id is live, whatever is out. -/
theorem Holds.nil (d : Session (σ × List Nat)) : Holds d [] := ⟨List.nodup_nil, List.nil_subperm⟩

theorem simulates_validLoop (tracenum i : Int) (h : Holds d live) (hops : WellFormedFrom live ops) :
    Simulates unguardSnd (fun r => r.1 ≠ 0 → r.2.trace.ops = d.trace.ops)
      (validLoop (guarded e A) tracenum i ops d) (validLoop A tracenum i ops d.unguard) := by
  induction ops generalizing d live i with
  | nil => exact .ok (f := unguardSnd) (s := ((1 : Int), d)) fun _ => rfl
  | cons op ops ih =>
      refine (simulates_validStep tracenum i h hops.1).bind fun ⟨continues, d₁⟩ h₁ => .ite (fun hc => ?_) fun _ => ?_
      · obtain ⟨hsame, hnext⟩ := h₁ hc
        exact (ih (i + 1) hnext hops.2).mono fun r hr hvalid => (hr hvalid).trans hsame
      · exact .ok (f := unguardSnd) (s := ((0 : Int), d₁)) fun hvalid => absurd rfl hvalid

theorem simulates_utilLoop (t : Totals) (h : Holds d live) (hops : WellFormedFrom live ops) :
    Simulates unguardFst (fun st => st.1.trace.ops = d.trace.ops) (utilLoop (guarded e A) ops (d, t))
      (utilLoop A ops (d.unguard, t)) := by
  induction ops generalizing d live t with
  | nil => exact .ok (f := unguardFst) (s := (d, t)) rfl
  | cons op ops ih =>
      refine (simulates_utilStep t h hops.1).bind fun ⟨d₁, t₁⟩ ⟨hsame, hnext⟩ => ?_
      exact (ih t₁ hnext hops.2).mono fun st hst => hst.trans hsame

theorem simulates_libcLoop (mallocFailed reallocFailed : Int → String) (i : Int) (h : Holds d live)
    (hops : WellFormedFrom live ops) :
    Simulates unguard (fun d' => d'.trace.ops = d.trace.ops)
      (libcLoop (guarded e A) mallocFailed reallocFailed i ops d)
      (libcLoop A mallocFailed reallocFailed i ops d.unguard) := by
  induction ops generalizing d live i with
  | nil => exact .ok rfl
  | cons op ops ih =>
      refine (simulates_libcStep mallocFailed reallocFailed i h hops.1).bind fun d₁ ⟨hsame, hnext⟩ => ?_
      exact (ih (i + 1) hnext hops.2).mono fun d' hd' => hd'.trans hsame

theorem speedLoop_eq_libcLoop (B : Allocator σ) (i : Int) (ops : List TraceOp) (d : Session σ) :
    speedLoop B ops d = libcLoop B (fun _ => "mm_malloc error in eval_mm_speed")
      (fun _ => "mm_realloc error in eval_mm_speed") i ops d := by
  induction ops generalizing d i with
  | nil => rfl
  | cons op ops ih =>
      rw [speedLoop, libcLoop, speedStep_eq i]
      apply bind_congr
      intro d₁
      exact ih (i + 1) d₁

theorem simulates_speedLoop (h : Holds d live) (hops : WellFormedFrom live ops) :
    Simulates unguard (fun d' => d'.trace.ops = d.trace.ops) (speedLoop (guarded e A) ops d)
      (speedLoop A ops d.unguard) := by
  rw [speedLoop_eq_libcLoop _ 0, speedLoop_eq_libcLoop _ 0]
  exact simulates_libcLoop _ _ 0 h hops

theorem simulates_speedRuns (n : Nat) (hops : WellFormedFrom [] d.trace.ops) :
    Simulates unguard (fun _ => True) (speedRuns (guarded e A) n d) (speedRuns A n d.unguard) := by
  induction n generalizing d with
  | zero => exact .ok trivial
  | succ n ih =>
      refine Simulates.bind (f := unguard) (P := fun d' => d'.trace.ops = d.trace.ops) ?_ fun d₁ h₁ => ih (h₁ ▸ hops)
      refine (simulates_callInit (d := d.rewind)).bind fun ⟨r, d₀⟩ h₀ => .ite (fun _ => .error _) fun _ => ?_
      have hsame : d₀.trace.ops = d.trace.ops := congrArg Trace.ops h₀
      exact (simulates_speedLoop (Holds.nil d₀) (hsame ▸ hops)).mono fun d' hd' => hd'.trans hsame

theorem simulates_libcSpeedRuns (n : Nat) (hops : WellFormedFrom [] d.trace.ops) :
    Simulates unguard (fun _ => True) (libcSpeedRuns (guarded e A) n d) (libcSpeedRuns A n d.unguard) := by
  induction n generalizing d with
  | zero => exact .ok trivial
  | succ n ih => exact (simulates_libcLoop _ _ 0 (Holds.nil d) hops).bind fun d₁ h₁ => ih (h₁ ▸ hops)

theorem simulates_evalMmValid (tracenum : Int) (hops : WellFormedFrom [] d.trace.ops) :
    Simulates unguardSnd (fun r => r.1 ≠ 0 → r.2.trace.ops = d.trace.ops) (evalMmValid (guarded e A) tracenum d)
      (evalMmValid A tracenum d.unguard) := by
  unfold evalMmValid
  refine (simulates_callInit (d := d.restart)).bind fun ⟨r, d₀⟩ h₀ => .ite (fun _ => ?_) fun _ => ?_
  · exact .ok (f := unguardSnd) (s := ((0 : Int), d₀.complain tracenum 0 "mm_init failed.")) fun h => absurd rfl h
  · have hsame : d₀.trace.ops = d.trace.ops := congrArg Trace.ops h₀
    exact (simulates_validLoop tracenum 0 (Holds.nil d₀) (hsame ▸ hops)).mono fun r hr hvalid => (hr hvalid).trans hsame

theorem simulates_evalMmUtil (hops : WellFormedFrom [] d.trace.ops) :
    Simulates unguardSnd (fun r => r.2.trace.ops = d.trace.ops) (evalMmUtil (guarded e A) d)
      (evalMmUtil A d.unguard) := by
  unfold evalMmUtil
  refine (simulates_callInit (d := d.rewind)).bind fun ⟨r, d₀⟩ h₀ => .ite (fun _ => .error _) fun _ => ?_
  have hsame : d₀.trace.ops = d.trace.ops := congrArg Trace.ops h₀
  refine (simulates_utilLoop _ (Holds.nil d₀) (hsame ▸ hops)).bind fun ⟨d', t⟩ hd' => ?_
  exact .ok (f := unguardSnd) (s := (_, d')) (hd'.trans hsame)

/-- The requests of the job's file are in order. -/
def Job.InOrder (job : Job) : Prop := Ensures job.read fun t => WellFormedFrom [] t.ops

theorem simulates_evalMmTrace (tracenum : Int) {job : Job} (hjob : job.InOrder) (d : Session (σ × List Nat)) :
    Simulates unguardSnd (fun _ => True) (evalMmTrace (guarded e A) tracenum job d)
      (evalMmTrace A tracenum job d.unguard) := by
  refine Simulates.bind (.refl hjob) fun t ht => ?_
  refine (simulates_evalMmValid (d := { d with trace := t }) tracenum ht).bind fun ⟨valid, d₁⟩ h₁ => ?_
  refine .ite (fun _ => .ok (f := unguardSnd) (s := (_, d₁)) trivial) fun hvalid => ?_
  have hops : d₁.trace.ops = t.ops := h₁ hvalid
  refine (simulates_evalMmUtil (hops ▸ ht)).bind fun ⟨util, d₂⟩ h₂ => ?_
  refine (simulates_speedRuns job.runs ((h₂.trans hops).symm ▸ ht)).bind fun d₃ _ => ?_
  exact .ok (f := unguardSnd) (s := (_, d₃)) trivial

theorem simulates_evalLibcTrace (tracenum : Int) {job : Job} (hjob : job.InOrder) (d : Session (σ × List Nat)) :
    Simulates unguardSnd (fun _ => True) (evalLibcTrace (guarded e A) tracenum job d)
      (evalLibcTrace A tracenum job d.unguard) := by
  refine Simulates.bind (.refl hjob) fun t ht => ?_
  refine Simulates.bind (f := unguardSnd) (P := fun r => r.2.trace.ops = t.ops) ?_ fun ⟨valid, d₁⟩ h₁ => ?_
  · refine (simulates_libcLoop _ _ 0 (Holds.nil { d with trace := t }) ht).bind fun d₁ h₁ => ?_
    exact .ok (f := unguardSnd) (s := ((1 : Int), d₁)) h₁
  refine .ite (fun _ => .ok (f := unguardSnd) (s := (_, d₁)) trivial) fun _ => ?_
  refine (simulates_libcSpeedRuns job.runs (h₁ ▸ ht)).bind fun d₂ _ => ?_
  exact .ok (f := unguardSnd) (s := (_, d₂)) trivial

theorem simulates_evalTraces {run : Int → Job → Session (σ × List Nat) → Except Abort (Stats × Session (σ × List Nat))}
    {run' : Int → Job → Session σ → Except Abort (Stats × Session σ)} {jobs : List Job}
    (hrun : ∀ tracenum, ∀ job ∈ jobs, ∀ d,
      Simulates unguardSnd (fun _ => True) (run tracenum job d) (run' tracenum job d.unguard))
    (tracenum : Int) (d : Session (σ × List Nat)) :
    Simulates unguardSnd (fun _ => True) (evalTraces run tracenum jobs d) (evalTraces run' tracenum jobs d.unguard) := by
  induction jobs generalizing tracenum d with
  | nil => exact .ok (f := unguardSnd) (s := ([], d)) trivial
  | cons job jobs ih =>
      refine (hrun tracenum job List.mem_cons_self d).bind fun ⟨stats, d₁⟩ _ => ?_
      refine (ih (fun k j hj => hrun k j (List.mem_cons_of_mem job hj)) (tracenum + 1) d₁).bind fun ⟨rest, d₂⟩ _ => ?_
      exact .ok (f := unguardSnd) (s := (stats :: rest, d₂)) trivial

/-- **The driver is a legal client.** Whatever the allocator answers and however often the timer runs a trace: if the
requests of all files are in order, both loops of `main` do under the guard what they do without it. They ask for
sizes in `1 .. INT_MAX` alone and pass to `realloc` and `free` pointers that are out and no others, also where a trace is
given up or runs on what an earlier one has left. -/
theorem driver_legal_client (e : Abort) (A : Allocator σ) {jobs : List Job} (hjobs : ∀ job ∈ jobs, job.InOrder)
    (tracenum : Int) (d : Session (σ × List Nat)) :
    (evalMmTraces (guarded e A) tracenum jobs d).map unguardSnd = evalMmTraces A tracenum jobs d.unguard ∧
      (evalLibcTraces (guarded e A) tracenum jobs d).map unguardSnd = evalLibcTraces A tracenum jobs d.unguard :=
  ⟨(simulates_evalTraces (fun k job hjob d => simulates_evalMmTrace k (hjobs job hjob) d) tracenum d).map_eq,
    (simulates_evalTraces (fun k job hjob d => simulates_evalLibcTrace k (hjobs job hjob) d) tracenum d).map_eq⟩

end Runs

/-- A session of the guarded naive allocator on an empty heap, with one pointer out that no id holds. -/
def guardedSession : Session (Unit × List Nat) :=
  ⟨exampleSession.lib, ((), [64]), exampleSession.trace, [], ⟨0, []⟩, []⟩

theorem driver_legal_client_naive :
    (evalMmTraces (guarded .diverges naive) 0 exampleJobs guardedSession).map unguardSnd =
      evalMmTraces naive 0 exampleJobs guardedSession.unguard :=
  (driver_legal_client .diverges naive (fun job hjob t ht => by
    have haccepted := List.all_eq_true.mp (show exampleJobs.all Job.accepted = true by decide +kernel) job hjob
    obtain ⟨t', ht', hwf, -⟩ := Job.of_accepted haccepted
    rw [ht] at ht'
    cases ht'
    exact hwf.requests) 0 guardedSession).1

end CsoLabs.Driver
