import CsoLabs.CScan
import CsoLabs.DriverEval

/-! `read_trace`: the header, the arrays and the loop over the requests of a trace file. The loop reads a
word, looks at its first letter and lets `fscanf` fill `index` and `size`, whose old values stay where a
conversion fails. What was read goes to the next entry of `ops`, an array whose length the header gave.
A character of the text stands for one byte of the file, so the length of a word is the number of its bytes.

The requests of a file do not depend on that array: `requests` reads them alone, and the loop is shown to
store these, one after the other, as far as it gets. -/

namespace CsoLabs.Driver
open CLang CScan

/-- `MAXLINE` -/
def maxline : Nat := 1024

/-- `sizeof(trace_t)` -/
def sizeofTrace : SizeT := 40

/-- `sizeof(traceop_t)` -/
def sizeofTraceop : SizeT := 12

/-- `sizeof(char *)` and `sizeof(size_t)` -/
def sizeofWord : SizeT := 8

/-- What `read_trace` finds and does not set: the values of conversions out of range, which calls of `malloc`
succeed, and the contents of the memory it leaves as it was. -/
structure Environment where
  wide : Int → BitVec 32
  grants : Nat → SizeT → Bool
  numIds : BitVec 32
  numOps : BitVec 32
  size : BitVec 32
  opSizes : Nat → BitVec 32
  blocks : Int → Nat
  blockSizes : Int → SizeT

/-- The `call`-th call of `malloc`. No object is larger than `PTRDIFF_MAX`. -/
def allocate (env : Environment) (call : Nat) (n : SizeT) (message : String) : Except Abort Unit :=
  if n.toNat < 2 ^ 63 ∧ env.grants call n = true then .ok () else .error (.exit message)

/-- The two header numbers that are used, and the text behind the header. -/
structure Header where
  numIds : BitVec 32
  numOps : BitVec 32
  rest : List Char

/-- Four times `fscanf(tracefile, "%d", ...)`. -/
def scanHeader (env : Environment) (text : List Char) : Header :=
  let heapsize := scanD env.wide text
  let numIds := scanD env.wide heapsize.2
  let numOps := scanD env.wide numIds.2
  let weight := scanD env.wide numOps.2
  ⟨numIds.1.getD env.numIds, numOps.1.getD env.numOps, weight.2⟩

def allocateArrays (env : Environment) (header : Header) : Except Abort Unit := do
  allocate env 2 (header.numOps.signExtend 64 * sizeofTraceop) "malloc 2 failed in read_trace"
  allocate env 3 (header.numIds.signExtend 64 * sizeofWord) "malloc 3 failed in read_trace"
  allocate env 4 (header.numIds.signExtend 64 * sizeofWord) "malloc 4 failed in read_trace"

/-- A request of the file, with the values `index` and `size` have when it has been read. -/
structure FileRequest where
  type : OpType
  index : BitVec 32
  size : BitVec 32
  deriving DecidableEq

/-- `fscanf(tracefile, "%u %u", &index, &size)` -/
def scanIndexSize (wide : Int → BitVec 32) (index size : BitVec 32) (s : List Char) :
    BitVec 32 × BitVec 32 × List Char :=
  match scanU wide s with
  | (none, s) => (index, size, s)
  | (some index, s) =>
      match scanU wide (skipSpace s) with
      | (none, s) => (index, size, s)
      | (some size, s) => (index, size, s)

/-- `fscanf(tracefile, "%ud", &index)`, which also asks for the letter d -/
def scanIndex (wide : Int → BitVec 32) (index : BitVec 32) (s : List Char) : BitVec 32 × List Char :=
  match scanU wide s with
  | (none, s) => (index, s)
  | (some index, s) => (index, skipLiteral 'd' s)

/-- What the `switch` on `type[0]` reads; `none` is the default case. -/
def scanRequest (wide : Int → BitVec 32) (c : Char) (index size : BitVec 32) (s : List Char) :
    Option (FileRequest × List Char) :=
  match c with
  | 'a' =>
      let (index, size, s) := scanIndexSize wide index size s
      some (⟨.alloc, index, size⟩, s)
  | 'r' =>
      let (index, size, s) := scanIndexSize wide index size s
      some (⟨.realloc, index, size⟩, s)
  | 'f' =>
      let (index, s) := scanIndex wide index s
      some (⟨.free, index, size⟩, s)
  | _ => none

/-- `max_index`, `op_index` and the entries of `ops` stored so far. -/
structure Reader where
  maxIndex : BitVec 32
  opIndex : BitVec 32
  ops : List TraceOp

/-- The entry a request is stored in. The case FREE leaves the size alone. -/
def FileRequest.op (env : Environment) (q : FileRequest) (opIndex : BitVec 32) : TraceOp :=
  match q.type with
  | .alloc => ⟨.alloc, q.index.toInt, q.size.toInt⟩
  | .realloc => ⟨.realloc, q.index.toInt, q.size.toInt⟩
  | .free => ⟨.free, q.index.toInt, (env.opSizes opIndex.toNat).toInt⟩

/-- The case FREE leaves the maximum alone too. -/
def FileRequest.newMax (q : FileRequest) (maxIndex : BitVec 32) : BitVec 32 :=
  match q.type with
  | .alloc => if q.index > maxIndex then q.index else maxIndex
  | .realloc => if q.index > maxIndex then q.index else maxIndex
  | .free => maxIndex

/-- The assignments to `trace->ops[op_index]`, an array of `num_ops` entries. -/
def Reader.store (env : Environment) (numOps : BitVec 32) (r : Reader) (q : FileRequest) : Except Abort Reader :=
  if (r.opIndex.toNat : Int) < numOps.toInt then
    .ok ⟨q.newMax r.maxIndex, r.opIndex + 1, r.ops ++ [q.op env r.opIndex]⟩
  else .error .outOfBounds

def bogusMessage (c : Char) (path : String) : String :=
  "Bogus type character (" ++ String.singleton c ++ ") in tracefile " ++ path ++ "\n"

/-- The loop. A word of `MAXLINE` or more characters does not fit in `type` with its terminating zero. -/
def readLoop (env : Environment) (path : String) (numOps : BitVec 32) :
    Nat → BitVec 32 → BitVec 32 → List Char → Reader → Except Abort Reader
  | 0, _, _, _, _ => .error .diverges
  | fuel + 1, index, size, s, r =>
      match scanS s with
      | none => .ok r
      | some (word, s) =>
          if maxline ≤ word.length then .error .outOfBounds
          else
            match scanRequest env.wide (word.headD '\x00') index size s with
            | none => .error (.exit (bogusMessage (word.headD '\x00') path))
            | some (q, s) => do
                let r ← r.store env numOps q
                readLoop env path numOps fuel q.index q.size s r

/-- `none` is a failed `fopen`. The number of words is at most that of the characters. -/
def readTrace (env : Environment) (path : String) (file : Option (List Char)) : Except Abort Trace := do
  allocate env 1 sizeofTrace "malloc 1 failed in read_trance"
  match file with
  | none => .error (.exit ("Could not open " ++ path ++ " in read_trace"))
  | some text =>
      let header := scanHeader env text
      allocateArrays env header
      let r ← readLoop env path header.numOps (header.rest.length + 1) 0 env.size header.rest ⟨0, 0, []⟩
      assertC (r.maxIndex == header.numIds - 1) "max_index == trace->num_ids - 1"
      assertC (header.numOps == r.opIndex) "trace->num_ops == op_index"
      return ⟨header.numIds.toInt, r.ops, env.blocks, env.blockSizes⟩

/-! ### The requests of a file -/

/-- How the requests of a file end: with the file, at a letter that is no request, or at a word that does
not fit in `type`. The last case stands for a search that was cut short. -/
inductive Ending where
  | eof
  | bogus (c : Char)
  | longWord
  | unfinished
  deriving DecidableEq

def requestsFrom (wide : Int → BitVec 32) : Nat → BitVec 32 → BitVec 32 → List Char → List FileRequest × Ending
  | 0, _, _, _ => ([], .unfinished)
  | fuel + 1, index, size, s =>
      match scanS s with
      | none => ([], .eof)
      | some (word, s) =>
          if maxline ≤ word.length then ([], .longWord)
          else
            match scanRequest wide (word.headD '\x00') index size s with
            | none => ([], .bogus (word.headD '\x00'))
            | some (q, s) =>
                let (qs, ending) := requestsFrom wide fuel q.index q.size s
                (q :: qs, ending)

/-- The requests of a file and how they end. -/
def requests (env : Environment) (text : List Char) : List FileRequest × Ending :=
  requestsFrom env.wide ((scanHeader env text).rest.length + 1) 0 env.size (scanHeader env text).rest

def storeAll (env : Environment) (numOps : BitVec 32) : List FileRequest → Reader → Except Abort Reader
  | [], r => .ok r
  | q :: qs, r => do
      let r ← r.store env numOps q
      storeAll env numOps qs r

/-- What becomes of the loop when the requests are stored. -/
def finish (path : String) (r : Reader) : Ending → Except Abort Reader
  | .eof => .ok r
  | .bogus c => .error (.exit (bogusMessage c path))
  | .longWord => .error .outOfBounds
  | .unfinished => .error .diverges

/-- The loop stores the requests of the text. -/
theorem readLoop_eq (env : Environment) (path : String) (numOps : BitVec 32) (fuel : Nat) (index size : BitVec 32)
    (s : List Char) (r : Reader) :
    readLoop env path numOps fuel index size s r =
      storeAll env numOps (requestsFrom env.wide fuel index size s).1 r >>= fun r =>
        finish path r (requestsFrom env.wide fuel index size s).2 := by
  induction fuel generalizing index size s r with
  | zero => rfl
  | succ fuel ih =>
      rw [readLoop, requestsFrom]
      cases hword : scanS s with
      | none => rfl
      | some wr =>
          obtain ⟨word, rest⟩ := wr
          dsimp only
          by_cases hlong : maxline ≤ word.length
          · rw [if_pos hlong, if_pos hlong]
            rfl
          rw [if_neg hlong, if_neg hlong]
          cases hreq : scanRequest env.wide (word.headD '\x00') index size rest with
          | none => rfl
          | some qs =>
              obtain ⟨q, rest'⟩ := qs
              dsimp only [storeAll]
              cases hstore : r.store env numOps q with
              | error e => rfl
              | ok r' => exact ih q.index q.size rest' r'

theorem length_scanIndexSize_le (wide : Int → BitVec 32) (index size : BitVec 32) (s : List Char) :
    (scanIndexSize wide index size s).2.2.length ≤ s.length := by
  have hfirst := length_scanU_le wide s
  unfold scanIndexSize
  rcases hu : scanU wide s with ⟨_ | index', s'⟩
  · rw [hu] at hfirst
    exact hfirst
  · rw [hu] at hfirst
    have hspace := length_skipSpace_le s'
    have hsecond := length_scanU_le wide (skipSpace s')
    dsimp only
    rcases hu' : scanU wide (skipSpace s') with ⟨_ | size', s''⟩
    all_goals
      rw [hu'] at hsecond
      exact hsecond.trans (hspace.trans hfirst)

theorem length_scanIndex_le (wide : Int → BitVec 32) (index : BitVec 32) (s : List Char) :
    (scanIndex wide index s).2.length ≤ s.length := by
  have hfirst := length_scanU_le wide s
  unfold scanIndex
  rcases hu : scanU wide s with ⟨_ | index', s'⟩
  · rw [hu] at hfirst
    exact hfirst
  · rw [hu] at hfirst
    exact (length_skipLiteral_le 'd' s').trans hfirst

theorem length_scanRequest_le {wide : Int → BitVec 32} {c : Char} {index size : BitVec 32} {s rest : List Char}
    {q : FileRequest} (h : scanRequest wide c index size s = some (q, rest)) : rest.length ≤ s.length := by
  unfold scanRequest at h
  split at h
  · cases h
    exact length_scanIndexSize_le wide index size s
  · cases h
    exact length_scanIndexSize_le wide index size s
  · cases h
    exact length_scanIndex_le wide index s
  · cases h

/-- Every word makes the text shorter, so the requests come to an end. -/
theorem requestsFrom_finished {wide : Int → BitVec 32} {fuel : Nat} {index size : BitVec 32} {s : List Char}
    (h : s.length < fuel) : (requestsFrom wide fuel index size s).2 ≠ .unfinished := by
  induction fuel generalizing index size s with
  | zero => omega
  | succ fuel ih =>
      rw [requestsFrom]
      cases hword : scanS s with
      | none => exact Ending.noConfusion
      | some wr =>
          obtain ⟨word, rest⟩ := wr
          have hrest := length_scanS_lt hword
          dsimp only
          split
          · exact Ending.noConfusion
          cases hreq : scanRequest wide (word.headD '\x00') index size rest with
          | none => exact Ending.noConfusion
          | some qs =>
              obtain ⟨q, rest'⟩ := qs
              have hrest' := length_scanRequest_le hreq
              exact ih (by omega)

/-! ### Storing them -/

/-- The entries of `ops` from number `i` on. -/
def entries (env : Environment) : Nat → List FileRequest → List TraceOp
  | _, [] => []
  | i, q :: qs => q.op env (BitVec.ofNat 32 i) :: entries env (i + 1) qs

/-- `max_index` after the requests. -/
def maxOver (qs : List FileRequest) (maxIndex : BitVec 32) : BitVec 32 := qs.foldl (fun m q => q.newMax m) maxIndex

theorem length_entries (env : Environment) (i : Nat) (qs : List FileRequest) :
    (entries env i qs).length = qs.length := by
  induction qs generalizing i with
  | nil => rfl
  | cons q qs ih => rw [entries, List.length_cons, List.length_cons, ih]

section

variable {env : Environment} {numOps : BitVec 32} {qs : List FileRequest} {r : Reader}

/-- An `int` number of entries is below 2^31, so `op_index` does not wrap. -/
theorem toNat_opIndex (hr : r.opIndex = BitVec.ofNat 32 r.ops.length) (hroom : (r.ops.length : Int) ≤ numOps.toInt) :
    r.opIndex.toNat = r.ops.length := by
  have hlt := numOps.toInt_lt
  rw [hr, BitVec.toNat_ofNat]
  omega

/-- One more entry, if there is one. -/
theorem store_ok (hr : r.opIndex = BitVec.ofNat 32 r.ops.length) (hlt : (r.ops.length : Int) < numOps.toInt)
    (q : FileRequest) :
    r.store env numOps q = .ok ⟨q.newMax r.maxIndex, BitVec.ofNat 32 (r.ops ++ [q.op env r.opIndex]).length,
      r.ops ++ [q.op env r.opIndex]⟩ := by
  have hindex := toNat_opIndex hr hlt.le
  have hnext : r.opIndex + 1 = BitVec.ofNat 32 (r.ops ++ [q.op env r.opIndex]).length := by
    rw [hr, List.length_append, List.length_singleton, BitVec.ofNat_add]
    rfl
  rw [← hnext]
  exact if_pos (by rw [hindex]; exact hlt)

theorem storeAll_ok (hr : r.opIndex = BitVec.ofNat 32 r.ops.length)
    (hroom : ((r.ops.length + qs.length : Nat) : Int) ≤ numOps.toInt) :
    storeAll env numOps qs r = .ok ⟨maxOver qs r.maxIndex, BitVec.ofNat 32 (r.ops.length + qs.length),
      r.ops ++ entries env r.ops.length qs⟩ := by
  induction qs generalizing r with
  | nil =>
      rw [storeAll, entries, List.append_nil, List.length_nil, Nat.add_zero, ← hr]
      rfl
  | cons q qs ih =>
      rw [List.length_cons] at hroom
      have hlen : (r.ops ++ [q.op env r.opIndex]).length = r.ops.length + 1 := List.length_append
      rw [storeAll, store_ok hr (by omega), ok_bind, ih rfl (by rw [hlen]; omega), hlen, entries, List.length_cons,
        ← hr, List.append_assoc, List.singleton_append, Nat.add_right_comm, Nat.add_assoc]
      rfl

theorem storeAll_overrun (hr : r.opIndex = BitVec.ofNat 32 r.ops.length)
    (hle : (r.ops.length : Int) ≤ numOps.toInt) (hroom : numOps.toInt < ((r.ops.length + qs.length : Nat) : Int)) :
    storeAll env numOps qs r = .error .outOfBounds := by
  induction qs generalizing r with
  | nil =>
      rw [List.length_nil] at hroom
      omega
  | cons q qs ih =>
      rw [List.length_cons] at hroom
      by_cases hlt : (r.ops.length : Int) < numOps.toInt
      · have hlen : (r.ops ++ [q.op env r.opIndex]).length = r.ops.length + 1 := List.length_append
        rw [storeAll, store_ok hr hlt, ok_bind]
        exact ih rfl (by rw [hlen]; omega) (by rw [hlen]; omega)
      · have hstore : r.store env numOps q = .error .outOfBounds :=
          if_neg (by rw [toNat_opIndex hr hle]; exact hlt)
        rw [storeAll, hstore, error_bind]

/-- From the start of the array. -/
theorem storeAll_start (hroom : (qs.length : Int) ≤ numOps.toInt) :
    storeAll env numOps qs ⟨0, 0, []⟩ = .ok ⟨maxOver qs 0, BitVec.ofNat 32 qs.length, entries env 0 qs⟩ := by
  have hroom' : ((([] : List TraceOp).length + qs.length : Nat) : Int) ≤ numOps.toInt := by simpa using hroom
  have hindex : (⟨0, 0, []⟩ : Reader).opIndex = BitVec.ofNat 32 0 := rfl
  have hstored : storeAll env numOps qs ⟨0, 0, []⟩ = _ := storeAll_ok hindex hroom'
  simpa using hstored

theorem storeAll_start_overrun (hops : 0 ≤ numOps.toInt) (hroom : numOps.toInt < qs.length) :
    storeAll env numOps qs ⟨0, 0, []⟩ = .error .outOfBounds := by
  apply storeAll_overrun
  · rfl
  · exact hops
  · simpa using hroom

end

end CsoLabs.Driver
