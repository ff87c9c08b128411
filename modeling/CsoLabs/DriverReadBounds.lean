import CsoLabs.DriverIndices
import CsoLabs.DriverMirror
import CsoLabs.DriverRead

/-! What `read_trace` guarantees about a file it accepts, and what it does not. The ids of ALLOC and REALLOC
requests go through the running maximum, which is compared with the header; those of FREE requests do not.
The number of requests is compared with the header when all of them have been stored. -/

namespace CsoLabs.Driver
open CLang CScan Malloc

/-! ### The arrays -/

theorem allocate_eq_ok {env : Environment} {call : Nat} {n : SizeT} {message : String} {u : Unit}
    (h : allocate env call n message = .ok u) : n.toNat < 2 ^ 63 := by
  unfold allocate at h
  split_ifs at h with hn
  exact hn.1

/-- An `int` times `sizeof` an entry, as `malloc` gets it. -/
theorem toNat_product (x : BitVec 32) (n : SizeT) :
    (x.signExtend 64 * n).toNat = ((x.toInt * n.toNat) % 2 ^ 64).toNat := by
  have hproduct : x.signExtend 64 * n = BitVec.ofInt 64 (x.toInt * n.toNat) := by
    rw [BitVec.signExtend, BitVec.ofInt_mul, BitVec.ofInt_natCast, BitVec.ofNat_toNat, BitVec.setWidth_eq]
  rw [hproduct, BitVec.toNat_ofInt]
  rfl

/-- A negative number of entries asks for more bytes than any object has. -/
theorem nonneg_of_product_lt {x : BitVec 32} {n : SizeT} (hn : 0 < n.toNat) (hn' : n.toNat ≤ 12)
    (h : (x.signExtend 64 * n).toNat < 2 ^ 63) : 0 ≤ x.toInt := by
  have hlo := x.le_toInt
  by_contra hneg
  have hlow : -(12 * 2 ^ 31) ≤ x.toInt * n.toNat :=
    calc -(12 * 2 ^ 31 : Int) ≤ -2 ^ 31 * n.toNat := by omega
      _ ≤ x.toInt * n.toNat := Int.mul_le_mul_of_nonneg_right hlo (by omega)
  have hhigh : x.toInt * n.toNat < 0 := Int.mul_neg_of_neg_of_pos (not_le.mp hneg) (by exact_mod_cast hn)
  rw [toNat_product] at h
  omega

theorem nonneg_of_allocateArrays {env : Environment} {header : Header} {u : Unit}
    (h : allocateArrays env header = .ok u) : 0 ≤ header.numOps.toInt ∧ 0 ≤ header.numIds.toInt := by
  obtain ⟨_, hops, h⟩ := bind_eq_ok h
  obtain ⟨_, hids, -⟩ := bind_eq_ok h
  exact ⟨nonneg_of_product_lt (by decide) (by decide) (allocate_eq_ok hops),
    nonneg_of_product_lt (by decide) (by decide) (allocate_eq_ok hids)⟩

/-- The calls of `malloc` for the record and its arrays succeed. -/
def AllocationsSucceed (env : Environment) (text : List Char) : Prop :=
  allocate env 1 sizeofTrace "malloc 1 failed in read_trance" = .ok () ∧
    allocateArrays env (scanHeader env text) = .ok ()

theorem allocate_array {env : Environment} (hgrants : ∀ call n, env.grants call n = true) {x : BitVec 32}
    (hx : 0 ≤ x.toInt) {n : SizeT} (hn : n.toNat ≤ 12) (call : Nat) (message : String) :
    allocate env call (x.signExtend 64 * n) message = .ok () := by
  have hhigh : x.toInt * n.toNat ≤ 2 ^ 31 * 12 :=
    calc x.toInt * n.toNat ≤ 2 ^ 31 * n.toNat := Int.mul_le_mul_of_nonneg_right x.toInt_lt.le (by omega)
      _ ≤ 2 ^ 31 * 12 := by omega
  have hlow : 0 ≤ x.toInt * n.toNat := Int.mul_nonneg hx (by omega)
  have hsize := toNat_product x n
  exact if_pos ⟨by omega, hgrants call _⟩

/-- They do when nothing is refused and the header numbers are not negative. -/
theorem allocationsSucceed_of_grants {env : Environment} (hgrants : ∀ call n, env.grants call n = true)
    {text : List Char} (hops : 0 ≤ (scanHeader env text).numOps.toInt)
    (hids : 0 ≤ (scanHeader env text).numIds.toInt) : AllocationsSucceed env text := by
  refine ⟨if_pos ⟨by decide, hgrants 1 _⟩, ?_⟩
  unfold allocateArrays
  rw [allocate_array hgrants hops (by decide), ok_bind, allocate_array hgrants hids (by decide), ok_bind,
    allocate_array hgrants hids (by decide)]

/-- The end of `read_trace`: the two assertions and the result. -/
def checkCounts (env : Environment) (header : Header) (r : Reader) : Except Abort Trace := do
  assertC (r.maxIndex == header.numIds - 1) "max_index == trace->num_ids - 1"
  assertC (header.numOps == r.opIndex) "trace->num_ops == op_index"
  return ⟨header.numIds.toInt, r.ops, env.blocks, env.blockSizes⟩

/-- `read_trace` stores the requests of the file, stops as they end, and compares the counts. -/
theorem readTrace_eq {env : Environment} {text : List Char} (h : AllocationsSucceed env text) (path : String) :
    readTrace env path (some text) =
      storeAll env (scanHeader env text).numOps (requests env text).1 ⟨0, 0, []⟩ >>= fun r =>
        finish path r (requests env text).2 >>= checkCounts env (scanHeader env text) := by
  rw [readTrace, h.1, ok_bind]
  dsimp only
  rw [h.2, ok_bind, readLoop_eq, bind_assoc]
  rfl

theorem allocationsSucceed_of_readTrace {env : Environment} {path : String} {text : List Char} {t : Trace}
    (h : readTrace env path (some text) = .ok t) : AllocationsSucceed env text := by
  obtain ⟨_, hrecord, h⟩ := bind_eq_ok h
  obtain ⟨_, harrays, -⟩ := bind_eq_ok h
  exact ⟨hrecord, harrays⟩

theorem requests_finished (env : Environment) (text : List Char) : (requests env text).2 ≠ .unfinished :=
  requestsFrom_finished (Nat.lt_succ_self _)

/-! ### The number of requests -/

/-- A number below 2^31 is the same as an `int`. -/
theorem toInt_ofNat_of_lt {n : Nat} (h : n < 2 ^ 31) : (BitVec.ofNat 32 n).toInt = n := by
  have hsame : (BitVec.ofNat 32 n).toNat = n := by
    rw [BitVec.toNat_ofNat]
    omega
  rw [BitVec.toInt_eq_toNat_of_lt (by omega), hsame]

/-- Stopped by `exit` or by an assertion. -/
def Rejected (x : Except Abort Trace) : Prop :=
  (∃ message, x = .error (.exit message)) ∨ ∃ expr, x = .error (.assertion expr)

/-- Nothing is stored outside an array, and a file with another number of requests than its header says is
rejected. -/
def StaysInside (x : Except Abort Trace) (numRequests : Nat) (numOps : BitVec 32) : Prop :=
  x ≠ .error .outOfBounds ∧ ((numRequests : Int) ≠ numOps.toInt → Rejected x)

theorem rejected_checkCounts {env : Environment} {header : Header} {r : Reader} (h : header.numOps ≠ r.opIndex) :
    Rejected (checkCounts env header r) := by
  have hneq : (header.numOps == r.opIndex) = false := beq_eq_false_iff_ne.mpr h
  unfold checkCounts
  cases r.maxIndex == header.numIds - 1 with
  | false => exact .inr ⟨_, rfl⟩
  | true =>
      rw [hneq]
      exact .inr ⟨_, rfl⟩

theorem checkCounts_ok {header : Header} {r : Reader} (hmax : r.maxIndex = header.numIds - 1)
    (hops : header.numOps = r.opIndex) (env : Environment) :
    checkCounts env header r = .ok ⟨header.numIds.toInt, r.ops, env.blocks, env.blockSizes⟩ := by
  unfold checkCounts
  rw [beq_iff_eq.mpr hmax, beq_iff_eq.mpr hops, assertC_true, assertC_true]
  rfl

theorem checkCounts_ne_outOfBounds (env : Environment) (header : Header) (r : Reader) :
    checkCounts env header r ≠ .error .outOfBounds := by
  unfold checkCounts
  cases r.maxIndex == header.numIds - 1 with
  | false => exact fun h => by cases h
  | true =>
      cases header.numOps == r.opIndex with
      | false => exact fun h => by cases h
      | true => exact fun h => by cases h

/-- **When parsing stays inside the arrays.** For every text whose header gives a number of requests from 0
on, `read_trace` stores inside its arrays and rejects a wrong number of requests exactly when the file has
at most that many requests and no word of `MAXLINE` characters is read as a request. -/
theorem readTrace_staysInside_iff (env : Environment) (path : String) (text : List Char)
    (hops : 0 ≤ (scanHeader env text).numOps.toInt) (hallocs : AllocationsSucceed env text) :
    StaysInside (readTrace env path (some text)) (requests env text).1.length (scanHeader env text).numOps ↔
      ((requests env text).1.length : Int) ≤ (scanHeader env text).numOps.toInt ∧
        (requests env text).2 ≠ .longWord := by
  rw [readTrace_eq hallocs]
  generalize scanHeader env text = header at *
  have hfinished := requests_finished env text
  generalize requests env text = reqs at *
  obtain ⟨qs, ending⟩ := reqs
  by_cases hroom : (qs.length : Int) ≤ header.numOps.toInt
  · rw [storeAll_start hroom, ok_bind]
    cases ending with
    | eof =>
        refine iff_of_true ⟨checkCounts_ne_outOfBounds _ _ _, fun hne => rejected_checkCounts fun heq => hne ?_⟩
          ⟨hroom, Ending.noConfusion⟩
        have hlt := header.numOps.toInt_lt
        rw [heq, toInt_ofNat_of_lt (by omega)]
    | bogus c => exact iff_of_true ⟨fun h => (by cases h), fun _ => .inl ⟨_, rfl⟩⟩ ⟨hroom, Ending.noConfusion⟩
    | longWord => exact iff_of_false (fun h => h.1 rfl) fun h => h.2 rfl
    | unfinished => exact absurd rfl hfinished
  · refine iff_of_false (fun h => h.1 ?_) fun h => hroom h.1
    rw [storeAll_start_overrun hops (not_le.mp hroom), error_bind]

/-- Every call of `malloc` succeeds, and what is not set is zero. -/
def exampleEnvironment : Environment where
  wide _ := 0
  grants _ _ := true
  numIds := 0
  numOps := 0
  size := 0
  opSizes _ := 0
  blocks _ := 0
  blockSizes _ := 0

/-- One id, which is allocated and freed. -/
def shortText : List Char := "20 1 2 1\na 0 8\nf 0\n".toList

theorem readTrace_staysInside_short :
    StaysInside (readTrace exampleEnvironment "./short.rep" (some shortText))
      (requests exampleEnvironment shortText).1.length (scanHeader exampleEnvironment shortText).numOps :=
  (readTrace_staysInside_iff exampleEnvironment "./short.rep" shortText (by decide +kernel)
    ⟨rfl, by decide +kernel⟩).mpr ⟨by decide +kernel, by decide +kernel⟩

/-- The same requests under a header that promises one. -/
def overrunText : List Char := "20 1 1 1\na 0 8\nf 0\n".toList

/-- The second request is stored behind the end of the array. -/
theorem readTrace_overrun :
    (scanHeader exampleEnvironment overrunText).numOps.toInt = 1 ∧
      (requests exampleEnvironment overrunText).1.length = 2 ∧ AllocationsSucceed exampleEnvironment overrunText ∧
      readTrace exampleEnvironment "./overrun.rep" (some overrunText) = .error .outOfBounds ∧
      ¬ StaysInside (readTrace exampleEnvironment "./overrun.rep" (some overrunText))
        (requests exampleEnvironment overrunText).1.length (scanHeader exampleEnvironment overrunText).numOps := by
  have hallocs : AllocationsSucceed exampleEnvironment overrunText := ⟨rfl, by decide +kernel⟩
  have hrun : readTrace exampleEnvironment "./overrun.rep" (some overrunText) = .error .outOfBounds := by
    rw [readTrace_eq hallocs, storeAll_start_overrun (by decide +kernel) (by decide +kernel), error_bind]
  exact ⟨by decide +kernel, by decide +kernel, hallocs, hrun, fun h => h.1 hrun⟩

/-! ### Accepted files -/

theorem finish_eq_ok {path : String} {r r' : Reader} {ending : Ending} (h : finish path r ending = .ok r') :
    r' = r := by
  cases ending with
  | eof =>
      cases h
      rfl
  | bogus c => cases h
  | longWord => cases h
  | unfinished => cases h

theorem checkCounts_eq_ok {env : Environment} {header : Header} {r : Reader} {t : Trace}
    (h : checkCounts env header r = .ok t) :
    r.maxIndex = header.numIds - 1 ∧ t = ⟨header.numIds.toInt, r.ops, env.blocks, env.blockSizes⟩ := by
  obtain ⟨_, hmax, h⟩ := bind_eq_ok h
  obtain ⟨_, -, h⟩ := bind_eq_ok h
  cases h
  exact ⟨beq_iff_eq.mp (assertC_eq_ok hmax), rfl⟩

/-- A file that is accepted has the largest id its header asks for, and its requests are the entries. -/
theorem of_readTrace {env : Environment} {path : String} {text : List Char} {t : Trace}
    (h : readTrace env path (some text) = .ok t) :
    maxOver (requests env text).1 0 = (scanHeader env text).numIds - 1 ∧
      t = ⟨(scanHeader env text).numIds.toInt, entries env 0 (requests env text).1, env.blocks, env.blockSizes⟩ := by
  have hallocs := allocationsSucceed_of_readTrace h
  have hops := (nonneg_of_allocateArrays hallocs.2).1
  rw [readTrace_eq hallocs] at h
  clear hallocs
  generalize scanHeader env text = header at *
  generalize requests env text = reqs at *
  by_cases hroom : (reqs.1.length : Int) ≤ header.numOps.toInt
  · rw [storeAll_start hroom, ok_bind] at h
    obtain ⟨r, hfinish, hcheck⟩ := bind_eq_ok h
    rw [finish_eq_ok hfinish] at hcheck
    exact checkCounts_eq_ok hcheck
  · rw [storeAll_start_overrun hops (not_le.mp hroom), error_bind] at h
    cases h

theorem map_index_entries (env : Environment) (i : Nat) (qs : List FileRequest) :
    (entries env i qs).map TraceOp.index = qs.map fun q => q.index.toInt := by
  induction qs generalizing i with
  | nil => rfl
  | cons q qs ih =>
      have hindex : (q.op env (BitVec.ofNat 32 i)).index = q.index.toInt := by
        unfold FileRequest.op
        cases q.type with
        | alloc => rfl
        | realloc => rfl
        | free => rfl
      rw [entries, List.map_cons, List.map_cons, hindex, ih]

/-- What is asked of the entries is asked of the requests. -/
theorem forall_index_entries {env : Environment} {i : Nat} {qs : List FileRequest} {P : Int → Prop} :
    (∀ op ∈ entries env i qs, P op.index) ↔ ∀ q ∈ qs, P q.index.toInt := by
  have hmap := map_index_entries env i qs
  rw [← List.forall_mem_map (f := TraceOp.index), hmap, List.forall_mem_map]

/-! ### The largest id -/

theorem newMax_eq_max {q : FileRequest} (hq : q.type ≠ .free) (m : BitVec 32) :
    q.newMax m = if q.index > m then q.index else m := by
  unfold FileRequest.newMax
  cases htype : q.type with
  | alloc => rfl
  | realloc => rfl
  | free => exact absurd htype hq

theorem newMax_free {q : FileRequest} (hq : q.type = .free) (m : BitVec 32) : q.newMax m = m := by
  unfold FileRequest.newMax
  rw [hq]

theorem le_newMax (q : FileRequest) (m : BitVec 32) : m ≤ q.newMax m := by
  by_cases hq : q.type = .free
  · rw [newMax_free hq]
    exact BitVec.le_refl m
  · rw [newMax_eq_max hq]
    split_ifs with hlt
    · exact BitVec.le_of_lt hlt
    · exact BitVec.le_refl m

theorem le_maxOver (qs : List FileRequest) (m : BitVec 32) : m ≤ maxOver qs m := by
  induction qs generalizing m with
  | nil => exact BitVec.le_refl m
  | cons q qs ih => exact BitVec.le_trans (le_newMax q m) (ih (q.newMax m))

/-- The ids of ALLOC and REALLOC requests are at most the maximum. -/
theorem index_le_maxOver {qs : List FileRequest} {q : FileRequest} (hq : q ∈ qs) (htype : q.type ≠ .free)
    (m : BitVec 32) : q.index ≤ maxOver qs m := by
  induction qs generalizing m with
  | nil => cases hq
  | cons q' qs ih =>
      rcases List.mem_cons.mp hq with rfl | hq
      · have hnew : q.index ≤ q.newMax m := by
          rw [newMax_eq_max htype]
          split_ifs with hlt
          · exact BitVec.le_refl _
          · exact BitVec.not_lt.mp hlt
        exact BitVec.le_trans hnew (le_maxOver qs _)
      · exact ih hq (q'.newMax m)

/-- The maximum is where it began, or one of these ids. -/
theorem maxOver_mem (qs : List FileRequest) (m : BitVec 32) :
    maxOver qs m = m ∨ ∃ q ∈ qs, q.type ≠ .free ∧ q.index = maxOver qs m := by
  induction qs generalizing m with
  | nil => exact .inl rfl
  | cons q qs ih =>
      rcases ih (q.newMax m) with hsame | ⟨q', hq', htype, hindex⟩
      · have hfold : maxOver (q :: qs) m = q.newMax m := hsame
        by_cases hq : q.type = .free
        · rw [hfold, newMax_free hq]
          exact .inl rfl
        · rw [hfold, newMax_eq_max hq]
          split_ifs with hlt
          · exact .inr ⟨q, List.mem_cons_self, hq, rfl⟩
          · exact .inl rfl
      · exact .inr ⟨q', List.mem_cons_of_mem q hq', htype, hindex⟩

/-- An unsigned id that is converted to `int` names an entry if it is small enough. -/
theorem validIndex_toInt_iff {x : BitVec 32} {n : Int} (hn : n < 2 ^ 31) :
    ValidIndex n x.toInt ↔ (x.toNat : Int) < n := by
  have hlt := x.isLt
  rw [ValidIndex, BitVec.toInt_eq_toNat_cond]
  split_ifs with hsmall
  · omega
  · omega

/-- `num_ids - 1`, converted to `unsigned`. -/
theorem toNat_sub_one {x : BitVec 32} (h : 1 ≤ x.toInt) : ((x - 1).toNat : Int) = x.toInt - 1 := by
  have hlt := x.isLt
  rw [BitVec.toInt_eq_toNat_cond] at h ⊢
  have hsub : (x - 1).toNat = (2 ^ 32 - 1 + x.toNat) % 2 ^ 32 := BitVec.toNat_sub x 1
  split_ifs at h ⊢ with hsmall
  · omega
  · omega

/-- **Which accepted files name existing ids only.** The assertion on the maximum makes ALLOC and REALLOC
requests safe, unless the header has no ids at all: then the maximum can only be the id -1. FREE requests
are not looked at. -/
theorem idsExist_iff_of_readTrace {env : Environment} {path : String} {text : List Char} {t : Trace}
    (h : readTrace env path (some text) = .ok t) :
    (t.IdsExist ∧ t.AccessesInside) ↔ 1 ≤ (scanHeader env text).numIds.toInt ∧
      ∀ q ∈ (requests env text).1, q.type = .free → (q.index.toNat : Int) < (scanHeader env text).numIds.toInt := by
  obtain ⟨hmax, rfl⟩ := of_readTrace h
  have hnonneg := (nonneg_of_allocateArrays (allocationsSucceed_of_readTrace h).2).2
  clear h
  generalize scanHeader env text = header at *
  generalize (requests env text).1 = qs at *
  have hlt := header.numIds.toInt_lt
  rw [and_iff_left_of_imp Trace.IdsExist.accessesInside, Trace.IdsExist, forall_index_entries]
  simp only [validIndex_toInt_iff hlt]
  constructor
  · intro hids
    refine ⟨?_, fun q hq _ => hids q hq⟩
    by_contra hnone
    have hzero : header.numIds = 0 := BitVec.eq_of_toInt_eq (by simp; omega)
    rw [hzero] at hmax
    rcases maxOver_mem qs 0 with hstart | ⟨q, hq, -, hindex⟩
    · rw [hstart] at hmax
      exact absurd hmax (by decide)
    · have hlast := hids q hq
      rw [hindex, hmax] at hlast
      omega
  · rintro ⟨hone, hfrees⟩ q hq
    by_cases htype : q.type = .free
    · exact hfrees q hq htype
    · have hle := BitVec.le_def.mp (index_le_maxOver hq htype 0)
      have hlast := toNat_sub_one hone
      rw [hmax] at hle
      omega

theorem idsExist_short :
    ∃ t, readTrace exampleEnvironment "./short.rep" (some shortText) = .ok t ∧ t.IdsExist ∧
      evalMmValid naive 0 { exampleSession with trace := t } ≠ .error .outOfBounds := by
  have hrun : (readTrace exampleEnvironment "./short.rep" (some shortText)).map Trace.numIds = .ok 1 := by
    decide +kernel
  obtain ⟨t, hread, -⟩ := exists_eq_ok_of_map hrun
  obtain ⟨hids, hinside⟩ := (idsExist_iff_of_readTrace hread).mpr ⟨by decide +kernel, by decide +kernel⟩
  exact ⟨t, hread, hids, (hinside Unit naive 0 { exampleSession with trace := t } naive_staysInside rfl).1⟩

/-- A FREE request with an id that does not exist. -/
def strayText : List Char := "20 1 2 1\na 0 8\nf 5\n".toList

/-- The file is accepted, and `eval_mm_valid` reads `blocks[5]` in an array of one entry. -/
theorem stray_free_accepted :
    ∃ t, readTrace exampleEnvironment "./stray.rep" (some strayText) = .ok t ∧ t.numIds = 1 ∧
      t.ops = [⟨.alloc, 0, 8⟩, ⟨.free, 5, 0⟩] ∧ ¬ (t.IdsExist ∧ t.AccessesInside) ∧
      evalMmValid naive 0 { exampleSession with trace := t } = .error .outOfBounds := by
  have hrun : (readTrace exampleEnvironment "./stray.rep" (some strayText)).map Trace.numIds = .ok 1 := by
    decide +kernel
  obtain ⟨t, hread, -⟩ := exists_eq_ok_of_map hrun
  obtain ⟨-, rfl⟩ := of_readTrace hread
  have hops : entries exampleEnvironment 0 (requests exampleEnvironment strayText).1 =
      [⟨.alloc, 0, 8⟩, ⟨.free, 5, 0⟩] := by decide +kernel
  have hids : (scanHeader exampleEnvironment strayText).numIds.toInt = 1 := by decide +kernel
  refine ⟨_, hread, hids, hops, fun h => ?_, ?_⟩
  · have hfree := h.1 ⟨.free, 5, 0⟩ (by rw [hops]; decide)
    rw [hids] at hfree
    exact absurd hfree.2 (by decide)
  · rw [hops, hids]
    have hstop : (evalMmValid naive 0 { exampleSession with
        trace := ⟨1, [⟨.alloc, 0, 8⟩, ⟨.free, 5, 0⟩], fun _ => 0, fun _ => 0⟩ }).map Prod.fst =
        .error .outOfBounds := by decide +kernel
    exact eq_error_of_map hstop

end CsoLabs.Driver
