import CsoLabs.MallocNaive

/-! Updates of one header word. `set_chunk_size_status` builds the word from fresh values, `set_chunk_status`
applies a mask to the word that is there. The mask can only clear the status bit, so a header that was
marked free stays free until its size is set again. -/

namespace CsoLabs.Malloc
open CLang ByteMemory

/-- A call of one of the two setters. -/
inductive HeaderCall where
  | sizeStatus (size : SizeT) (status : Bool)
  | status (status : Bool)
  deriving DecidableEq

def HeaderCall.apply (hdr : Nat) (m : Mem) : HeaderCall → Mem
  | .sizeStatus size st => setChunkSizeStatus m hdr size st
  | .status st => setChunkStatus m hdr st

/-- The size and the status that were passed last. -/
structure Passed where
  size : SizeT
  status : Bool

def Passed.after (p : Passed) : HeaderCall → Passed
  | .sizeStatus size st => ⟨size, st⟩
  | .status st => ⟨p.size, st⟩

/-- The memory after the calls. -/
def applyAll (hdr : Nat) (m : Mem) (calls : List HeaderCall) : Mem := calls.foldl (HeaderCall.apply hdr) m

def Passed.afterAll (p : Passed) (calls : List HeaderCall) : Passed := calls.foldl Passed.after p

/-- The two getters return what was passed last. -/
def ReadsBack (hdr : Nat) (m : Mem) (p : Passed) : Prop :=
  getChunkSize m hdr = p.size ∧ getChunkStatus m hdr = p.status

/-- The sizes the allocator works with. -/
def HeaderCall.Aligned : HeaderCall → Prop
  | .sizeStatus size _ => 16 ∣ size.toNat
  | .status _ => True

theorem readsBack_setChunkSizeStatus (m : Mem) (hdr : Nat) {size : SizeT} (hsize : 16 ∣ size.toNat) (status : Bool) :
    ReadsBack hdr (setChunkSizeStatus m hdr size status) ⟨size, status⟩ := by
  have heven : size.toNat % 2 = 0 := by omega
  obtain ⟨hread, hstatus⟩ := setChunkSizeStatus_headerAt m hdr heven status
  exact ⟨BitVec.eq_of_toNat_eq hread, hstatus⟩

/-- The mask of `set_chunk_status(hdr, true)` has no zero bit. -/
theorem load64_setChunkStatus_true (m : Mem) (hdr : Nat) : load64 (setChunkStatus m hdr true) hdr = load64 m hdr := by
  have hmask : ~~~(1#64 - statusWord true) = BitVec.allOnes 64 := rfl
  rw [setChunkStatus, load64_store64, hmask, BitVec.and_allOnes]

/-- One call: the word can be read back unless the call should have set a clear status bit. -/
theorem readsBack_apply_iff {m : Mem} {hdr : Nat} {p : Passed} (h : ReadsBack hdr m p) {call : HeaderCall}
    (hcall : call.Aligned) :
    ReadsBack hdr (call.apply hdr m) (p.after call) ↔ (call = .status true → p.status = true) := by
  cases call with
  | sizeStatus size status =>
      refine iff_of_true (readsBack_setChunkSizeStatus m hdr hcall status) fun heq => ?_
      cases heq
  | status status =>
      cases status with
      | false =>
          have hheader : HeaderAt m hdr p.size.toNat p.status := ⟨congrArg BitVec.toNat h.1, h.2⟩
          obtain ⟨hread, hstatus⟩ := setChunkStatus_headerAt hheader
          refine iff_of_true ⟨BitVec.eq_of_toNat_eq hread, hstatus⟩ fun heq => ?_
          cases heq
      | true =>
          have hload := load64_setChunkStatus_true m hdr
          have hsame : ReadsBack hdr (setChunkStatus m hdr true) p := by
            unfold ReadsBack getChunkSize getChunkStatus
            rw [hload]
            exact h
          constructor
          · intro hread _
            exact hsame.2.symm.trans hread.2
          · intro hstatus
            exact ⟨hsame.1, hsame.2.trans (hstatus rfl)⟩

theorem forall_isPrefix_cons {α : Type} {P : List α → Prop} {a : α} {as : List α} :
    (∀ pre, pre <+: a :: as → P pre) ↔ P [] ∧ ∀ pre, pre <+: as → P (a :: pre) := by
  constructor
  · intro h
    exact ⟨h [] (List.nil_prefix), fun pre hpre => h (a :: pre) (List.prefix_cons_inj a |>.mpr hpre)⟩
  · rintro ⟨hnil, hcons⟩ pre hpre
    rcases List.prefix_cons_iff.mp hpre with rfl | ⟨pre', rfl, hpre'⟩
    · exact hnil
    · exact hcons pre' hpre'

/-- No call of `set_chunk_status` asks for a status bit that is clear. -/
def NeverRaises (p : Passed) (calls : List HeaderCall) : Prop :=
  ∀ pre post, calls = pre ++ .status true :: post → (p.afterAll pre).status = true

theorem neverRaises_nil (p : Passed) : NeverRaises p [] := by
  intro pre post heq
  cases pre <;> cases heq

theorem neverRaises_cons {p : Passed} {call : HeaderCall} {calls : List HeaderCall} :
    NeverRaises p (call :: calls) ↔ (call = .status true → p.status = true) ∧ NeverRaises (p.after call) calls := by
  constructor
  · intro h
    refine ⟨fun hcall => h [] calls (by rw [hcall]; rfl), fun pre post heq => ?_⟩
    exact h (call :: pre) post (by rw [heq]; rfl)
  · rintro ⟨hfirst, hrest⟩ pre post heq
    cases pre with
    | nil => exact hfirst (List.cons.inj heq).1
    | cons call' pre =>
        obtain ⟨rfl, hcalls⟩ := List.cons.inj heq
        exact hrest pre post hcalls

theorem readsBack_run_iff {m : Mem} {hdr : Nat} {p : Passed} (h : ReadsBack hdr m p) {calls : List HeaderCall}
    (hcalls : ∀ call ∈ calls, call.Aligned) :
    (∀ pre, pre <+: calls → ReadsBack hdr (applyAll hdr m pre) (p.afterAll pre)) ↔ NeverRaises p calls := by
  induction calls generalizing m p with
  | nil =>
      refine iff_of_true (fun pre hpre => ?_) (neverRaises_nil p)
      rw [List.prefix_nil.mp hpre]
      exact h
  | cons call calls ih =>
      obtain ⟨hcall, hrest⟩ := List.forall_mem_cons.mp hcalls
      rw [forall_isPrefix_cons, neverRaises_cons, ← readsBack_apply_iff h hcall]
      constructor
      · rintro ⟨-, hcons⟩
        have hnext := hcons [] List.nil_prefix
        exact ⟨hnext, (ih hnext hrest).mp hcons⟩
      · rintro ⟨hnext, hnever⟩
        exact ⟨h, (ih hnext hrest).mpr hnever⟩

/-- **When header updates can be read back.** After a first `set_chunk_size_status`, every further call can be
read back at once exactly when no `set_chunk_status(hdr, true)` follows a call that passed false. -/
theorem header_readsBack_iff (m : Mem) (hdr : Nat) {size : SizeT} (hsize : 16 ∣ size.toNat) (status : Bool)
    {calls : List HeaderCall} (hcalls : ∀ call ∈ calls, call.Aligned) :
    (∀ pre, pre <+: calls →
      ReadsBack hdr (applyAll hdr (setChunkSizeStatus m hdr size status) pre) (Passed.afterAll ⟨size, status⟩ pre)) ↔
      NeverRaises ⟨size, status⟩ calls :=
  readsBack_run_iff (readsBack_setChunkSizeStatus m hdr hsize status) hcalls

/-- A chunk that is allocated, freed, and made anew. -/
theorem header_readsBack_example :
    ReadsBack 64
      (applyAll 64 (setChunkSizeStatus (fun _ => 0) 64 16 true) [.status true, .status false, .sizeStatus 32 true])
      (Passed.afterAll ⟨16, true⟩ [.status true, .status false, .sizeStatus 32 true]) := by
  have hcalls : ∀ call ∈ [HeaderCall.status true, .status false, .sizeStatus 32 true], call.Aligned := by
    simp [HeaderCall.Aligned]
  have hnever : NeverRaises ⟨16, true⟩ [.status true, .status false, .sizeStatus 32 true] := by
    simp only [neverRaises_cons, neverRaises_nil]
    decide
  exact (header_readsBack_iff (fun _ => 0) 64 (by decide) true hcalls).mpr hnever _ List.prefix_rfl

/-- A free chunk is not marked as allocated: the status read back is false. -/
theorem status_not_raised :
    getChunkStatus (applyAll 64 (setChunkSizeStatus (fun _ => 0) 64 16 false) [.status true]) 64 = false ∧
      ¬ ReadsBack 64 (applyAll 64 (setChunkSizeStatus (fun _ => 0) 64 16 false) [.status true])
        (Passed.afterAll ⟨16, false⟩ [.status true]) := by
  have hread : getChunkStatus (applyAll 64 (setChunkSizeStatus (fun _ => 0) 64 16 false) [.status true]) 64 = false := by
    decide +kernel
  refine ⟨hread, fun h => ?_⟩
  exact Bool.false_ne_true (hread.symm.trans h.2)

end CsoLabs.Malloc
