import CsoLabs.DriverEval

/-! The interpreters of `mdriver.c` for the C library's allocator, and the accesses of all five interpreters
to the arrays `blocks` and `block_sizes`. A request is looked up at its own index, and no interpreter changes
the length of the arrays, so that indices in range are all it takes to stay inside them. -/

namespace CsoLabs.Driver
open CLang Malloc Session

variable {σ : Type}

/-! ### `eval_libc_valid` and `eval_libc_speed` -/

section Libc

-- `malloc`, `realloc` and `free` of the C library take the place of the allocator under test
variable (A : Allocator σ)

/-- What the two do with a request; the two messages are their own. -/
def libcStep (mallocFailed reallocFailed : Int → String) (i : Int) (op : TraceOp) (d : Session σ) :
    Except Abort (Session σ) :=
  match op.type with
  | .alloc => do
      let (p, d) ← d.callMalloc A op.size
      if p = null then throw (.exit (mallocFailed i)) else d.setBlock op.index p
  | .realloc => do
      let oldp ← d.block op.index
      let (newp, d) ← d.callRealloc A oldp op.size
      if newp = null then throw (.exit (reallocFailed i)) else d.setBlock op.index newp
  | .free => do
      let block ← d.block op.index
      d.callFree A block

def libcLoop (mallocFailed reallocFailed : Int → String) :
    Int → List TraceOp → Session σ → Except Abort (Session σ)
  | _, [], d => .ok d
  | i, op :: ops, d => do
      let d ← libcStep A mallocFailed reallocFailed i op d
      libcLoop mallocFailed reallocFailed (i + 1) ops d

/-- The line `malloc_error` prints and the message of `unix_error` behind it. -/
def libcMessage (tracenum i : Int) (msg : String) : String :=
  String.join (mallocError tracenum i msg ⟨0, []⟩).output ++ "System message"

def evalLibcValid (tracenum : Int) (d : Session σ) : Except Abort (Int × Session σ) := do
  let d ← libcLoop A (fun i => libcMessage tracenum i "libc malloc failed")
    (fun i => libcMessage tracenum i "libc realloc failed") 0 d.trace.ops d
  return (1, d)

def evalLibcSpeed (d : Session σ) : Except Abort (Session σ) :=
  libcLoop A (fun _ => "malloc failed in eval_libc_speed") (fun _ => "realloc failed in eval_libc_speed\n") 0
    d.trace.ops d

end Libc

/-! ### Single accesses and calls -/

/-- The functions of the allocator do not themselves leave an array. -/
structure Allocator.StaysInside (A : Allocator σ) : Prop where
  init : ∀ priv lib, A.mmInit priv lib ≠ .error .outOfBounds
  malloc : ∀ size priv lib, A.mmMalloc size priv lib ≠ .error .outOfBounds
  realloc : ∀ ptr size priv lib, A.mmRealloc ptr size priv lib ≠ .error .outOfBounds
  free : ∀ ptr priv lib, A.mmFree ptr priv lib ≠ .error .outOfBounds

theorem avoids_of_ne {α : Type} {x : Except Abort α} (h : x ≠ .error .outOfBounds) :
    Avoids .outOfBounds x fun _ => True := ⟨h, fun _ _ => trivial⟩

theorem avoids_assertC (b : Bool) (expr : String) : Avoids .outOfBounds (assertC b expr) fun _ => True := by
  cases b with
  | true => exact .pure trivial
  | false => exact .throw Abort.noConfusion

theorem avoids_mallocChunk (n : Int) (lib : Memlib) : Avoids .outOfBounds (mallocChunk n lib) fun _ => True := by
  unfold mallocChunk
  rcases lib.memSbrk n with ⟨_ | h, lib⟩
  · exact .pure trivial
  · refine (avoids_assertC _ _).bind fun _ _ => (avoids_assertC _ _).bind fun _ _ => ?_
    exact (avoids_assertC _ _).bind fun _ _ => .pure trivial

theorem avoids_mmMalloc (size : SizeT) (lib : Memlib) : Avoids .outOfBounds (mmMalloc size lib) fun _ => True := by
  unfold mmMalloc
  exact avoids_mallocChunk _ lib

theorem avoids_mmFree (ptr : Nat) (lib : Memlib) : Avoids .outOfBounds (mmFree ptr lib) fun _ => True := by
  unfold mmFree
  exact (avoids_assertC _ _).bind fun _ _ => (avoids_assertC _ _).bind fun _ _ => .pure trivial

theorem avoids_mmRealloc (ptr : Nat) (size : SizeT) (lib : Memlib) :
    Avoids .outOfBounds (mmRealloc ptr size lib) fun _ => True := by
  unfold mmRealloc
  refine .ite (fun _ => ?_) fun _ => .ite (fun _ => .pure trivial) fun _ => ?_
  · refine (avoids_mmMalloc size lib).bind fun ⟨newptr, lib⟩ _ => .ite (fun _ => .pure trivial) fun _ => ?_
    refine .ite (fun _ => .pure trivial) fun _ => ?_
    exact (avoids_mmFree ptr _).bind fun _ _ => .pure trivial
  · exact (avoids_mmFree ptr lib).bind fun _ _ => .pure trivial

/-- A result that is handed on in another form. -/
theorem avoids_return {α β : Type} {x : Except Abort α} (h : Avoids .outOfBounds x fun _ => True) (g : α → β) :
    Avoids .outOfBounds (x >>= fun a => pure (g a)) fun _ => True := h.bind fun _ _ => .pure trivial

/-- The naive allocator stops at its assertions only. -/
theorem naive_staysInside : naive.StaysInside := by
  constructor
  · intro priv lib h
    cases h
  · intro size priv lib
    exact (avoids_return (avoids_mmMalloc size lib) fun r => (r.1, (), r.2)).ne_error
  · intro ptr size priv lib
    exact (avoids_return (avoids_mmRealloc ptr size lib) fun r => (r.1, (), r.2)).ne_error
  · intro ptr priv lib
    exact (avoids_return (avoids_mmFree ptr lib) fun lib => ((), lib)).ne_error

/-- The index of an entry of arrays of length `n`. -/
def ValidIndex (n index : Int) : Prop := 0 ≤ index ∧ index < n

section

variable {A : Allocator σ} {n index : Int} {d : Session σ}

theorem avoids_throw {α : Type} {P : α → Prop} (message : String) :
    Avoids .outOfBounds (throw (.exit message) : Except Abort α) P := .throw Abort.noConfusion

theorem avoids_checkIndex (hd : d.trace.numIds = n) (hindex : ValidIndex n index) :
    Avoids .outOfBounds (d.checkIndex index) fun _ => True := by
  have hok : d.checkIndex index = .ok () := if_pos (by rw [hd]; exact hindex)
  rw [hok]
  exact .pure trivial

theorem avoids_block (hd : d.trace.numIds = n) (hindex : ValidIndex n index) :
    Avoids .outOfBounds (d.block index) fun _ => True :=
  (avoids_checkIndex hd hindex).bind fun _ _ => .pure trivial

theorem avoids_blockSize (hd : d.trace.numIds = n) (hindex : ValidIndex n index) :
    Avoids .outOfBounds (d.blockSize index) fun _ => True :=
  (avoids_checkIndex hd hindex).bind fun _ _ => .pure trivial

theorem avoids_setBlock (hd : d.trace.numIds = n) (hindex : ValidIndex n index) (p : Nat) :
    Avoids .outOfBounds (d.setBlock index p) fun d => d.trace.numIds = n :=
  (avoids_checkIndex hd hindex).bind fun _ _ => .pure hd

theorem avoids_setBlockSize (hd : d.trace.numIds = n) (hindex : ValidIndex n index) (size : Int) :
    Avoids .outOfBounds (d.setBlockSize index size) fun d => d.trace.numIds = n :=
  (avoids_checkIndex hd hindex).bind fun _ _ => .pure hd

theorem avoids_callInit (hA : A.StaysInside) (d : Session σ) :
    Avoids .outOfBounds (d.callInit A) fun r => r.2.trace = d.trace := by
  unfold callInit
  exact (avoids_of_ne (hA.init _ _)).bind fun _ _ => .pure rfl

theorem avoids_callMalloc (hA : A.StaysInside) (hd : d.trace.numIds = n) (size : Int) :
    Avoids .outOfBounds (d.callMalloc A size) fun r => r.2.trace.numIds = n := by
  unfold callMalloc
  exact (avoids_of_ne (hA.malloc _ _ _)).bind fun _ _ => .pure hd

theorem avoids_callRealloc (hA : A.StaysInside) (hd : d.trace.numIds = n) (ptr : Nat) (size : Int) :
    Avoids .outOfBounds (d.callRealloc A ptr size) fun r => r.2.trace.numIds = n := by
  unfold callRealloc
  exact (avoids_of_ne (hA.realloc _ _ _ _)).bind fun _ _ => .pure hd

theorem avoids_callFree (hA : A.StaysInside) (hd : d.trace.numIds = n) (ptr : Nat) :
    Avoids .outOfBounds (d.callFree A ptr) fun d => d.trace.numIds = n := by
  unfold callFree
  exact (avoids_of_ne (hA.free _ _ _)).bind fun _ _ => .pure hd

/-- `add_range` stops at its assertion at most. -/
theorem avoids_addRange (lib : Memlib) (ranges : List Range) (lo : Nat) (size tracenum opnum : Int) (r : Report) :
    Avoids .outOfBounds (addRange lib ranges lo size tracenum opnum r) fun _ => True := by
  unfold addRange
  refine (avoids_assertC _ _).bind fun _ _ => .ite (fun _ => .pure trivial) fun _ => ?_
  refine .ite (fun _ => .pure trivial) fun _ => ?_
  split
  · exact .pure trivial
  · exact .pure trivial

theorem avoids_callAddRange (hd : d.trace.numIds = n) (lo : Nat) (size tracenum opnum : Int) :
    Avoids .outOfBounds (d.callAddRange lo size tracenum opnum) fun r => r.2.trace.numIds = n := by
  unfold callAddRange
  exact (avoids_addRange _ _ _ _ _ _ _).bind fun _ _ => .pure hd

/-! ### One request -/

variable {tracenum i : Int} {op : TraceOp}

theorem avoids_validStep (hA : A.StaysInside) (hd : d.trace.numIds = n) (hop : ValidIndex n op.index) :
    Avoids .outOfBounds (validStep A tracenum i op d) fun r => r.2.trace.numIds = n := by
  unfold validStep
  cases op.type with
  | alloc =>
      refine (avoids_callMalloc hA hd _).bind fun ⟨p, d₁⟩ hd₁ => .ite (fun _ => .pure hd₁) fun _ => ?_
      refine (avoids_callAddRange hd₁ _ _ _ _).bind fun ⟨v, d₂⟩ hd₂ => .ite (fun _ => .pure hd₂) fun _ => ?_
      refine (avoids_setBlock (d := d₂.fill p op.index op.size) hd₂ hop p).bind fun d₃ hd₃ => ?_
      exact (avoids_setBlockSize hd₃ hop _).bind fun d₄ hd₄ => .pure hd₄
  | realloc =>
      refine (avoids_block hd hop).bind fun oldp _ => ?_
      refine (avoids_callRealloc hA hd _ _).bind fun ⟨newp, d₁⟩ hd₁ => .ite (fun _ => .pure hd₁) fun _ => ?_
      refine (avoids_callAddRange (d := d₁.callRemoveRange oldp) hd₁ _ _ _ _).bind fun ⟨v, d₂⟩ hd₂ =>
        .ite (fun _ => .pure hd₂) fun _ => ?_
      refine (avoids_blockSize hd₂ hop).bind fun oldsize _ => .ite (fun _ => ?_) fun _ => .pure hd₂
      refine (avoids_setBlock (d := d₂.fill newp op.index op.size) hd₂ hop newp).bind fun d₃ hd₃ => ?_
      exact (avoids_setBlockSize hd₃ hop _).bind fun d₄ hd₄ => .pure hd₄
  | free =>
      refine (avoids_block hd hop).bind fun p _ => ?_
      exact (avoids_callFree (d := d.callRemoveRange p) hA hd p).bind fun d₁ hd₁ => .pure hd₁

theorem avoids_utilStep (hA : A.StaysInside) (hd : d.trace.numIds = n) (hop : ValidIndex n op.index) (t : Totals) :
    Avoids .outOfBounds (utilStep A op (d, t)) fun st => st.1.trace.numIds = n := by
  unfold utilStep
  cases op.type with
  | alloc =>
      refine (avoids_callMalloc hA hd _).bind fun ⟨p, d₁⟩ hd₁ => .ite (fun _ => avoids_throw _) fun _ => ?_
      refine (avoids_setBlock hd₁ hop p).bind fun d₂ hd₂ => ?_
      exact (avoids_setBlockSize hd₂ hop _).bind fun d₃ hd₃ => .pure hd₃
  | realloc =>
      refine (avoids_blockSize hd hop).bind fun oldsize _ => (avoids_block hd hop).bind fun oldp _ => ?_
      refine (avoids_callRealloc hA hd _ _).bind fun ⟨newp, d₁⟩ hd₁ => .ite (fun _ => avoids_throw _) fun _ => ?_
      refine (avoids_setBlock hd₁ hop newp).bind fun d₂ hd₂ => ?_
      exact (avoids_setBlockSize hd₂ hop _).bind fun d₃ hd₃ => .pure hd₃
  | free =>
      refine (avoids_blockSize hd hop).bind fun size _ => (avoids_block hd hop).bind fun p _ => ?_
      exact (avoids_callFree hA hd p).bind fun d₁ hd₁ => .pure hd₁

theorem avoids_libcStep (hA : A.StaysInside) (hd : d.trace.numIds = n) (hop : ValidIndex n op.index)
    (mallocFailed reallocFailed : Int → String) :
    Avoids .outOfBounds (libcStep A mallocFailed reallocFailed i op d) fun d => d.trace.numIds = n := by
  unfold libcStep
  cases op.type with
  | alloc =>
      refine (avoids_callMalloc hA hd _).bind fun ⟨p, d₁⟩ hd₁ => .ite (fun _ => avoids_throw _) fun _ => ?_
      exact avoids_setBlock hd₁ hop p
  | realloc =>
      refine (avoids_block hd hop).bind fun oldp _ => ?_
      refine (avoids_callRealloc hA hd _ _).bind fun ⟨newp, d₁⟩ hd₁ => .ite (fun _ => avoids_throw _) fun _ => ?_
      exact avoids_setBlock hd₁ hop newp
  | free => exact (avoids_block hd hop).bind fun p _ => avoids_callFree hA hd p

/-- `eval_mm_speed` makes the calls of the library's interpreters. -/
theorem speedStep_eq (i : Int) (op : TraceOp) (d : Session σ) :
    speedStep A op d = libcStep A (fun _ => "mm_malloc error in eval_mm_speed")
      (fun _ => "mm_realloc error in eval_mm_speed") i op d := rfl

/-! ### Whole runs -/

variable {ops : List TraceOp}

theorem avoids_validLoop (hA : A.StaysInside) (hd : d.trace.numIds = n) (hops : ∀ op ∈ ops, ValidIndex n op.index) :
    Avoids .outOfBounds (validLoop A tracenum i ops d) fun _ => True := by
  induction ops generalizing i d with
  | nil => exact .pure trivial
  | cons op ops ih =>
      obtain ⟨hop, hrest⟩ := List.forall_mem_cons.mp hops
      exact (avoids_validStep hA hd hop).bind fun r hr => .ite (fun _ => ih hr hrest) fun _ => .pure trivial

theorem avoids_utilLoop (hA : A.StaysInside) (hd : d.trace.numIds = n) (hops : ∀ op ∈ ops, ValidIndex n op.index)
    (t : Totals) : Avoids .outOfBounds (utilLoop A ops (d, t)) fun _ => True := by
  induction ops generalizing d t with
  | nil => exact .pure trivial
  | cons op ops ih =>
      obtain ⟨hop, hrest⟩ := List.forall_mem_cons.mp hops
      exact (avoids_utilStep hA hd hop t).bind fun st hst => ih hst hrest st.2

theorem avoids_speedLoop (hA : A.StaysInside) (hd : d.trace.numIds = n)
    (hops : ∀ op ∈ ops, ValidIndex n op.index) : Avoids .outOfBounds (speedLoop A ops d) fun _ => True := by
  induction ops generalizing d with
  | nil => exact .pure trivial
  | cons op ops ih =>
      obtain ⟨hop, hrest⟩ := List.forall_mem_cons.mp hops
      rw [speedLoop, speedStep_eq 0]
      exact (avoids_libcStep hA hd hop _ _).bind fun d₁ hd₁ => ih hd₁ hrest

theorem avoids_libcLoop (hA : A.StaysInside) (hd : d.trace.numIds = n) (hops : ∀ op ∈ ops, ValidIndex n op.index)
    (mallocFailed reallocFailed : Int → String) :
    Avoids .outOfBounds (libcLoop A mallocFailed reallocFailed i ops d) fun _ => True := by
  induction ops generalizing i d with
  | nil => exact .pure trivial
  | cons op ops ih =>
      obtain ⟨hop, hrest⟩ := List.forall_mem_cons.mp hops
      exact (avoids_libcStep hA hd hop _ _).bind fun d₁ hd₁ => ih hd₁ hrest

end

/-- Every request names an existing id. -/
def Trace.IdsExist (t : Trace) : Prop := ∀ op ∈ t.ops, ValidIndex t.numIds op.index

/-- Whatever the allocator answers, none of the five interpreters leaves an array. -/
def Trace.AccessesInside (t : Trace) : Prop :=
  ∀ (σ : Type) (A : Allocator σ) (tracenum : Int) (d : Session σ), A.StaysInside → d.trace = t →
    evalMmValid A tracenum d ≠ .error .outOfBounds ∧ evalMmUtil A d ≠ .error .outOfBounds ∧
      evalMmSpeed A d ≠ .error .outOfBounds ∧ evalLibcValid A tracenum d ≠ .error .outOfBounds ∧
      evalLibcSpeed A d ≠ .error .outOfBounds

/-- What follows a call of `mm_init` meets the same trace. -/
theorem callInit_bind_ne_outOfBounds {A : Allocator σ} (hA : A.StaysInside) {α : Type} {d : Session σ}
    {f : Int × Session σ → Except Abort α}
    (hf : ∀ r : Int × Session σ, r.2.trace = d.trace → Avoids .outOfBounds (f r) fun _ => True) :
    d.callInit A >>= f ≠ .error .outOfBounds :=
  ((avoids_callInit hA d).bind hf).ne_error

theorem Trace.IdsExist.accessesInside {t : Trace} (h : t.IdsExist) : t.AccessesInside := by
  intro σ A tracenum d hA hd
  subst hd
  have hops : ∀ {d₁ : Session σ}, d₁.trace = d.trace → ∀ op ∈ d₁.trace.ops, ValidIndex d.trace.numIds op.index := by
    intro d₁ hd₁
    rw [hd₁]
    exact h
  refine ⟨?_, ?_, ?_, ?_, ?_⟩
  · refine callInit_bind_ne_outOfBounds (d := d.restart) hA fun r hr => .ite (fun _ => .pure trivial) fun _ => ?_
    exact avoids_validLoop hA (congrArg Trace.numIds hr) (hops hr)
  · refine callInit_bind_ne_outOfBounds (d := d.rewind) hA fun r hr => .ite (fun _ => avoids_throw _) fun _ => ?_
    exact (avoids_utilLoop hA (congrArg Trace.numIds hr) (hops hr) _).bind fun _ _ => .pure trivial
  · refine callInit_bind_ne_outOfBounds (d := d.rewind) hA fun r hr => .ite (fun _ => avoids_throw _) fun _ => ?_
    exact avoids_speedLoop hA (congrArg Trace.numIds hr) (hops hr)
  · unfold evalLibcValid
    apply Avoids.ne_error (P := fun _ => True)
    exact (avoids_libcLoop hA rfl h _ _).bind fun _ _ => .pure trivial
  · exact (avoids_libcLoop hA rfl h _ _).ne_error

end CsoLabs.Driver
