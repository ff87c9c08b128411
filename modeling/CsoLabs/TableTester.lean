import CsoLabs.Interleaving
import CsoLabs.TableDestroy

/-! The tester of the hash table, `testhash.c`. Every thread inserts its share of the test keys and, after
each, inserts or looks up another one. The calls of the threads take effect one at a time, in an order the
scheduler picks; `htable.c` has no locks yet, and what two calls do that run into each other is not modelled. -/

namespace CsoLabs.Table
open CLang Interleaving

/-- `TESTSZ` -/
def testSz : Nat := 1000000

/-- `STRLEN` -/
def strLen : Nat := 50

/-- `op_type` -/
inductive OpType where
  | insert
  | mix

/-- The string `set_random_str` writes, when the next call of `rand` is the one numbered `pos`. -/
def setRandomStr (rand : Nat → Nat) (pos len : Nat) : List (BitVec 8) :=
  (List.range (len - 1)).map (fun i => BitVec.ofNat 8 (rand (pos + i) % 26 + 65)) ++ [0]

/-- `testkeys` -/
def testKeys (rand : Nat → Nat) (i : Nat) : CString := .ofBuffer (setRandomStr rand (i * (strLen - 1)) strLen)

/-- `test_fatal` -/
def testFatal (testname errmsg : String) : Abort := .exit ("--- " ++ testname ++ " FAILED: " ++ errmsg ++ "\n")

/-- The calls of a thread: `htable_insert` of `testkeys[i]` and `&testvals[i]`, and `htable_lookup` of
`testkeys[r]`. -/
inductive Call where
  | insert (i : Nat)
  | probe (r : Nat)

def Call.index : Call → Nat
  | .insert i => i
  | .probe r => r

/-- The second call of a round. -/
def OpType.call (mode : OpType) (r : Nat) : Call :=
  match mode with
  | .insert => .insert r
  | .mix => .probe r

/-- What `test_htable_run` calls in the thread `threadIdx` of `numThreads`. -/
def testHtableRun (mode : OpType) (numThreads : Nat) (threadIdx : Fin numThreads) : List Call :=
  let share := testSz / numThreads
  let stop := if threadIdx.val = numThreads - 1 then testSz else (threadIdx + 1) * share
  (List.range' (threadIdx * share) (stop - threadIdx * share)).flatMap fun i =>
    let r := ((threadIdx * i) % 256 * bigPrime.toNat) % testSz
    [.insert i, mode.call r]

section Test

variable (keys : Nat → CString) (pointer : Nat → String) (allowResize : Int)

/-- A `%s` of a test key. -/
def keyText (i : Nat) : String := String.ofList ((keys i).bytes.map fun b => Char.ofNat b.toNat)

/-- One call and the test that follows a lookup. A pointer into `testvals` is its index there. -/
def execCall (ht : Htable Nat) : Call → Except Abort (Htable Nat)
  | .insert i => do
      let (_, ht) ← htableInsert ht (keys i) (some i)
      return ht
  | .probe r => do
      let v ← htableLookup ht (keys r)
      match v with
      | none => return ht
      | some p =>
          if p = r then return ht
          else throw (testFatal (if allowResize ≠ 0 then "RESIZE" else "HTABLE")
            "Concurrent lookup found that the existing tuple val does not match inserted.")

def runCalls : List Call → Htable Nat → Except Abort (Htable Nat)
  | [], ht => .ok ht
  | c :: calls, ht => do
      let ht ← execCall keys allowResize ht c
      runCalls calls ht

/-- `htestname` of `test_htable` -/
def htestname : String := if allowResize ≠ 0 then "RESIZE TEST" else "HTABLE TEST"

/-- The message for the key `i`, with whose lookup `p` came back. `pointer` prints `&testvals[i]`. -/
def wrongValue (p i : Nat) : String :=
  "htable has wrong value (" ++ pointer p ++ ") for key " ++ keyText keys i ++ " value " ++ pointer i ++ " tuple"

def missing (i : Nat) : String :=
  "htable " ++ toString i ++ " is missing key " ++ keyText keys i ++ ", value " ++ pointer i

/-- The loop that validates the table once all threads have inserted. -/
def validate (ht : Htable Nat) : List Nat → Except Abort Unit
  | [] => .ok ()
  | i :: is => do
      let p ← htableLookup ht (keys i)
      match p with
      | some p =>
          if p = i then validate ht is
          else throw (testFatal (htestname allowResize) (wrongValue keys pointer p i))
      | none => throw (testFatal (htestname allowResize) (missing keys pointer i))

end Test

/-- `test_htable`, whose threads make their calls in the order `first` and then, on a new table, `second`.
It returns the final size of the table. -/
def testHtable (rand : Nat → Nat) (pointer : Nat → String) (allowResize : Int) (first second : List Call) :
    Except Abort Int := do
  let keys := testKeys rand
  let ht ← htableInit (testSz / 100 : Nat) allowResize
  let ht ← runCalls keys allowResize first ht
  validate keys pointer allowResize ht (List.range testSz)
  let _ ← htableDestroy ht
  let ht ← htableInit (testSz / 100 : Nat) allowResize
  let ht ← runCalls keys allowResize second ht
  let sz := ht.size
  let _ ← htableDestroy ht
  return sz

/-! ### Keys and shares -/

theorem testKeys_isAscii (rand : Nat → Nat) (i : Nat) : (testKeys rand i).IsAscii := by
  intro b hb
  have hb := (List.takeWhile_sublist _).subset hb
  rcases List.mem_append.mp hb with hb | hb
  · obtain ⟨k, -, rfl⟩ := List.mem_map.mp hb
    have hmod := Nat.mod_lt (rand (i * (strLen - 1) + k)) (show 0 < 26 by decide)
    rw [BitVec.toNat_ofNat]
    omega
  · rw [List.mem_singleton.mp hb]
    decide

theorem testKeys_hashes (rand : Nat → Nat) (i : Nat) : (testKeys rand i).Hashes := by
  refine (testKeys_isAscii rand i).hashes ?_
  have hle := (List.takeWhile_sublist (· ≠ (0 : BitVec 8)) (l := setRandomStr rand (i * (strLen - 1)) strLen)).length_le
  have hlen : (setRandomStr rand (i * (strLen - 1)) strLen).length = strLen := by
    rw [setRandomStr, List.length_append, List.length_map, List.length_range]
    rfl
  rw [hlen] at hle
  calc ((testKeys rand i).bytes.length : Int) ≤ strLen := by exact_mod_cast hle
    _ ≤ intMax := by decide

/-- The shares of the threads cover the test keys, and nothing beyond. -/
theorem exists_share {n : Nat} (hn : 1 ≤ n) {i : Nat} (hi : i < testSz) :
    ∃ t : Fin n, t * (testSz / n) ≤ i ∧ i < if t.val = n - 1 then testSz else (t + 1) * (testSz / n) := by
  by_cases hlast : (n - 1) * (testSz / n) ≤ i
  · refine ⟨⟨n - 1, by omega⟩, hlast, ?_⟩
    rwa [if_pos rfl]
  · have hshare : 0 < testSz / n := by
      by_contra hzero
      rw [Nat.eq_zero_of_not_pos hzero, Nat.mul_zero] at hlast
      omega
    have hlt : i / (testSz / n) < n - 1 := (Nat.div_lt_iff_lt_mul hshare).mpr (by omega)
    refine ⟨⟨i / (testSz / n), by omega⟩, Nat.div_mul_le_self i _, ?_⟩
    rw [if_neg (by simp only; omega)]
    have := Nat.lt_div_mul_add hshare (a := i)
    simp only [Nat.add_mul, Nat.one_mul]
    exact this

theorem share_le {n : Nat} (t : Fin n) :
    (if t.val = n - 1 then testSz else (t + 1) * (testSz / n)) ≤ testSz := by
  split_ifs
  · exact le_rfl
  · calc (t + 1) * (testSz / n) ≤ n * (testSz / n) := Nat.mul_le_mul_right _ t.isLt
      _ ≤ testSz := Nat.mul_div_le testSz n

theorem insert_mem_testHtableRun (mode : OpType) {n : Nat} (hn : 1 ≤ n) {i : Nat} (hi : i < testSz) :
    ∃ t, Call.insert i ∈ testHtableRun mode n t := by
  obtain ⟨t, hge, hlt⟩ := exists_share hn hi
  refine ⟨t, List.mem_flatMap.mpr ⟨i, ?_, List.mem_cons_self⟩⟩
  rw [List.mem_range'_1]
  omega

theorem OpType.call_index (mode : OpType) (r : Nat) : (mode.call r).index = r := by
  cases mode <;> rfl

theorem index_lt_of_mem {mode : OpType} {n : Nat} {t : Fin n} {c : Call} (hc : c ∈ testHtableRun mode n t) :
    c.index < testSz := by
  obtain ⟨i, hi, hc⟩ := List.mem_flatMap.mp hc
  have hle := share_le t
  rw [List.mem_range'_1] at hi
  rcases List.mem_cons.mp hc with rfl | hc
  · rw [Call.index]
    omega
  · rw [List.mem_singleton.mp hc, OpType.call_index]
    exact Nat.mod_lt _ (by decide)

theorem probe_notMem {n : Nat} {t : Fin n} {r : Nat} : Call.probe r ∉ testHtableRun .insert n t := by
  intro hc
  obtain ⟨i, -, hc⟩ := List.mem_flatMap.mp hc
  rcases List.mem_cons.mp hc with hc | hc
  · cases hc
  · cases List.mem_singleton.mp hc

/-! ### What the table holds while the threads run -/

/-- The call as one of the table. -/
def Call.op (keys : Nat → CString) : Call → Op Nat
  | .insert i => .insert (keys i) (some i)
  | .probe r => .lookup (keys r)

/-- The first test value inserted under the key. -/
def firstInserted (keys : Nat → CString) : List Call → CString → Option Nat
  | [], _ => none
  | .insert i :: pre, key => if keys i = key then some i else firstInserted keys pre key
  | .probe _ :: pre, key => firstInserted keys pre key

section Loaded

variable {keys : Nat → CString} {allowResize : Int} {ht : Htable Nat} {pre : List Call}

theorem of_firstInserted {key : CString} {p : Nat} (h : firstInserted keys pre key = some p) :
    Call.insert p ∈ pre ∧ keys p = key := by
  induction pre with
  | nil => cases h
  | cons c pre ih =>
      cases c with
      | insert i =>
          rw [firstInserted] at h
          split_ifs at h with hkey
          · cases h
            exact ⟨List.mem_cons_self, hkey⟩
          · exact (ih h).imp_left (List.mem_cons_of_mem _)
      | probe r => exact (ih h).imp_left (List.mem_cons_of_mem _)

theorem exists_firstInserted (keys : Nat → CString) {i : Nat} (h : Call.insert i ∈ pre) :
    ∃ p, firstInserted keys pre (keys i) = some p := by
  induction pre with
  | nil => cases h
  | cons c pre ih =>
      cases c with
      | insert j =>
          rw [firstInserted]
          split_ifs with hkey
          · exact ⟨j, rfl⟩
          · refine ih ((List.mem_cons.mp h).resolve_left ?_)
            rintro ⟨⟩
            exact hkey rfl
      | probe r =>
          refine ih ((List.mem_cons.mp h).resolve_left ?_)
          rintro ⟨⟩

theorem lookup_inserts (pre : List Call) (key : CString) :
    ((inserts (pre.map (Call.op keys))).lookup key).join = firstInserted keys pre key := by
  induction pre with
  | nil => rfl
  | cons c pre ih =>
      cases c with
      | insert i =>
          change (List.lookup key ((keys i, some i) :: inserts (pre.map (Call.op keys)))).join = _
          rw [List.lookup_cons, firstInserted]
          by_cases hkey : keys i = key
          · rw [if_pos hkey, hkey, BEq.rfl]
            rfl
          · rw [if_neg hkey, beq_false_of_ne (Ne.symm hkey)]
            exact ih
      | probe r => exact ih

/-- The dictionary keeps its mode, and overflows only where it may grow. -/
theorem Dict.insert_allowResize (d : Dict Nat) (key : CString) (val : Option Nat) :
    match d.insert key val with
    | .ok (_, d') => d'.allowResize = d.allowResize
    | .error _ => d.allowResize ≠ 0 := by
  rw [Dict.insert, Dict.grow]
  split_ifs with hmem hcrowd hsize
  · rfl
  · rfl
  · exact hcrowd.1
  · rfl

/-- The calls `pre` have been made on a table of the given mode. -/
structure Loaded (keys : Nat → CString) (allowResize : Int) (ht : Htable Nat) (pre : List Call) : Prop where
  inv : ∃ chains, TableInv ht chains
  mode : ht.allowResize = allowResize
  remembers : ht.abs.Remembers (pre.map (Call.op keys))
  indices : ∀ c ∈ pre, c.index < testSz

theorem Loaded.lookup (h : Loaded keys allowResize ht pre) {key : CString} (hkey : key.Hashes) :
    htableLookup ht key = .ok (firstInserted keys pre key) := by
  obtain ⟨chains, hinv⟩ := h.inv
  rw [htableLookup_eq hinv hkey, Dict.lookup, h.remembers key, lookup_inserts]

/-- The keys of the table are test keys. -/
theorem Loaded.card_keys_le (h : Loaded keys allowResize ht pre) : ht.abs.keys.toFinset.card ≤ testSz := by
  have hsub : ht.abs.keys.toFinset ⊆ (Finset.range testSz).image keys := by
    intro key hkey
    rw [List.mem_toFinset, Dict.keys, mem_keys_iff, h.remembers key, ← mem_keys_iff] at hkey
    obtain ⟨e, he, rfl⟩ := List.mem_map.mp hkey
    obtain ⟨op, hop, hsome⟩ := List.mem_filterMap.mp he
    obtain ⟨c, hc, rfl⟩ := List.mem_map.mp hop
    cases c with
    | insert i =>
        cases hsome
        exact Finset.mem_image_of_mem keys (Finset.mem_range.mpr (h.indices _ hc))
    | probe r => cases hsome
  calc ht.abs.keys.toFinset.card ≤ ((Finset.range testSz).image keys).card := Finset.card_le_card hsub
    _ ≤ (Finset.range testSz).card := Finset.card_image_le
    _ = testSz := Finset.card_range testSz

theorem Loaded.insert (h : Loaded keys allowResize ht pre) {i : Nat} (hkey : (keys i).Hashes) (hi : i < testSz) :
    (allowResize ≠ 0 ∧ htableInsert ht (keys i) (some i) = .error .intOverflow) ∨
      ∃ r ht', htableInsert ht (keys i) (some i) = .ok (r, ht') ∧
        Loaded keys allowResize ht' (pre ++ [.insert i]) := by
  obtain ⟨chains, hinv⟩ := h.inv
  have hroom : ((ht.abs.keys.toFinset ∪ {keys i}).card : Int) ≤ intMax + 1 := by
    have hsmall : (testSz : Int) ≤ intMax := by decide
    have hkeys := h.card_keys_le
    have hunion := Finset.card_union_le ht.abs.keys.toFinset {keys i}
    rw [Finset.card_singleton] at hunion
    omega
  have href := htableInsert_refines hinv hkey hroom (some i)
  have hmode := Dict.insert_allowResize ht.abs (keys i) (some i)
  cases hdict : ht.abs.insert (keys i) (some i) with
  | error e =>
      rw [hdict] at href hmode
      rw [Dict.insert_error hdict] at href
      exact .inl ⟨h.mode ▸ hmode, href⟩
  | ok rd =>
      obtain ⟨r, d⟩ := rd
      rw [hdict] at href hmode
      obtain ⟨ht', chains', hok, hinv', rfl⟩ := href
      have hexec : ht.abs.exec (Call.op keys (.insert i)) = .ok (.status r, ht'.abs) := by
        rw [Call.op, Dict.exec, hdict]
        rfl
      refine .inr ⟨r, ht', hok, ⟨chains', hinv'⟩, hmode.trans h.mode, ?_, ?_⟩
      · rw [List.map_append]
        exact (h.remembers.exec hexec).2
      · exact List.forall_mem_append.mpr ⟨h.indices, List.forall_mem_singleton.mpr hi⟩

/-- Two test keys are the same string, the first of them inserted. -/
def Collides (keys : Nat → CString) (calls : List Call) (p r : Nat) : Prop :=
  p ≠ r ∧ keys p = keys r ∧ Call.insert p ∈ calls

theorem execCall_cases (h : Loaded keys allowResize ht pre) (hkeys : ∀ i, (keys i).Hashes) {c : Call}
    (hc : c.index < testSz) :
    (allowResize ≠ 0 ∧ execCall keys allowResize ht c = .error .intOverflow) ∨
      (∃ ht', execCall keys allowResize ht c = .ok ht' ∧ Loaded keys allowResize ht' (pre ++ [c])) ∨
      ∃ r p, c = .probe r ∧ Collides keys pre p r := by
  cases c with
  | insert i =>
      rcases h.insert (hkeys i) hc with ⟨hallow, hover⟩ | ⟨r, ht', hok, hloaded⟩
      · refine .inl ⟨hallow, ?_⟩
        rw [execCall, hover, error_bind]
      · refine .inr (.inl ⟨ht', ?_, hloaded⟩)
        rw [execCall, hok, ok_bind]
        rfl
  | probe r =>
      have hstay : Loaded keys allowResize ht (pre ++ [.probe r]) := by
        refine ⟨h.inv, h.mode, fun key => ?_, ?_⟩
        · rw [h.remembers key, List.map_append, inserts_append]
          exact congrArg _ (List.append_nil _).symm
        · exact List.forall_mem_append.mpr ⟨h.indices, List.forall_mem_singleton.mpr hc⟩
      right
      cases hfirst : firstInserted keys pre (keys r) with
      | none =>
          refine .inl ⟨ht, ?_, hstay⟩
          rw [execCall, h.lookup (hkeys r), ok_bind, hfirst]
          rfl
      | some p =>
          obtain ⟨hmem, hkey⟩ := of_firstInserted hfirst
          by_cases hpr : p = r
          · refine .inl ⟨ht, ?_, hstay⟩
            rw [execCall, h.lookup (hkeys r), ok_bind, hfirst]
            exact if_pos hpr
          · exact .inr ⟨r, p, rfl, hpr, hkey, hmem⟩

theorem runCalls_cases (h : Loaded keys allowResize ht pre) (hkeys : ∀ i, (keys i).Hashes) {calls : List Call}
    (hcalls : ∀ c ∈ calls, c.index < testSz) :
    (allowResize ≠ 0 ∧ runCalls keys allowResize calls ht = .error .intOverflow) ∨
      (∃ ht', runCalls keys allowResize calls ht = .ok ht' ∧ Loaded keys allowResize ht' (pre ++ calls)) ∨
      ∃ r p, .probe r ∈ calls ∧ Collides keys (pre ++ calls) p r := by
  induction calls generalizing ht pre with
  | nil => exact .inr (.inl ⟨ht, rfl, (List.append_nil pre).symm ▸ h⟩)
  | cons c calls ih =>
      obtain ⟨hc, hcalls⟩ := List.forall_mem_cons.mp hcalls
      rw [runCalls, List.append_cons]
      rcases execCall_cases h hkeys hc with ⟨hallow, hover⟩ | ⟨ht₁, hok, hloaded⟩ | ⟨r, p, rfl, hne, hkey, hmem⟩
      · refine .inl ⟨hallow, ?_⟩
        rw [hover, error_bind]
      · rw [hok, ok_bind]
        refine (ih hloaded hcalls).imp_right (Or.imp_right ?_)
        rintro ⟨r, p, hr, hcol⟩
        exact ⟨r, p, List.mem_cons_of_mem c hr, hcol⟩
      · refine .inr (.inr ⟨r, p, List.mem_cons_self, hne, hkey, ?_⟩)
        exact List.mem_append_left _ (List.mem_append_left _ hmem)

/-- The validation passes when every key still leads to its own value, and stops at the first that does not. -/
theorem validate_cases (pointer : Nat → String) (h : Loaded keys allowResize ht pre) (hkeys : ∀ i, (keys i).Hashes)
    {is : List Nat} (his : ∀ i ∈ is, Call.insert i ∈ pre) :
    (validate keys pointer allowResize ht is = .ok () ∧ ∀ i ∈ is, firstInserted keys pre (keys i) = some i) ∨
      ∃ i ∈ is, ∃ p, Collides keys pre p i ∧
        validate keys pointer allowResize ht is =
          .error (testFatal (htestname allowResize) (wrongValue keys pointer p i)) := by
  induction is with
  | nil => exact .inl ⟨rfl, fun _ hi => absurd hi List.not_mem_nil⟩
  | cons i is ih =>
      obtain ⟨hi, hrest⟩ := List.forall_mem_cons.mp his
      obtain ⟨p, hfirst⟩ := exists_firstInserted keys hi
      obtain ⟨hmem, hkey⟩ := of_firstInserted hfirst
      rw [validate, h.lookup (hkeys i), ok_bind, hfirst]
      by_cases hpi : p = i
      · subst hpi
        dsimp only
        rw [if_pos rfl]
        rcases ih hrest with ⟨hok, hall⟩ | ⟨j, hj, q, hcol, hfail⟩
        · exact .inl ⟨hok, List.forall_mem_cons.mpr ⟨hfirst, hall⟩⟩
        · exact .inr ⟨j, List.mem_cons_of_mem p hj, q, hcol, hfail⟩
      · exact .inr ⟨i, List.mem_cons_self, p, ⟨hpi, hkey, hmem⟩, if_neg hpi⟩

end Loaded

/-! ### The whole test -/

/-- No two test keys are the same string. -/
def KeysDistinct (keys : Nat → CString) : Prop := ∀ i < testSz, ∀ j < testSz, keys i = keys j → i = j

theorem htableInit_loaded (keys : Nat → CString) (allowResize : Int) :
    ∃ ht, htableInit (testSz / 100 : Nat) allowResize = .ok ht ∧ Loaded keys allowResize ht [] := by
  obtain ⟨ht, hinit, hinv, hnodes, hallow, -⟩ := @htableInit_ok Nat (testSz / 100 : Nat)
    (by norm_num [testSz]) (by norm_num [testSz, intMax]) allowResize
  refine ⟨ht, hinit, ⟨_, hinv⟩, hallow, fun key => ?_, fun _ hc => absurd hc List.not_mem_nil⟩
  rw [Htable.abs, hnodes]
  rfl

theorem Loaded.destroy {keys : Nat → CString} {allowResize : Int} {ht : Htable Nat} {pre : List Call}
    (h : Loaded keys allowResize ht pre) : ∃ m, htableDestroy ht = .ok m := by
  obtain ⟨chains, hinv⟩ := h.inv
  obtain ⟨freed, hdestroy, -⟩ := hinv.destroy
  exact ⟨_, hdestroy⟩

theorem index_lt_of_schedule {mode : OpType} {n : Nat} {order : List Call}
    (h : Schedule (testHtableRun mode n) order) {c : Call} (hc : c ∈ order) : c.index < testSz := by
  obtain ⟨t, ht⟩ := h.mem_iff.mp hc
  exact index_lt_of_mem ht

/-- **What the tester finds out.** Whatever `rand` returns, with any number of threads and in every order of
their calls, the test passes when the test keys are pairwise distinct strings, and otherwise stops at a key
that is the same string as another one, with the value of which its lookup has come back. The one other way
out is a resize whose doubled size is no `int`. -/
theorem testHtable_verdict (rand : Nat → Nat) (pointer : Nat → String) {n : Nat} (hn : 1 ≤ n) (allowResize : Int)
    {first second : List Call} (hfirst : Schedule (testHtableRun .insert n) first)
    (hsecond : Schedule (testHtableRun .mix n) second) :
    (allowResize ≠ 0 ∧ testHtable rand pointer allowResize first second = .error .intOverflow) ∨
      (KeysDistinct (testKeys rand) ∧ ∃ sz, testHtable rand pointer allowResize first second = .ok sz) ∨
      ∃ i < testSz, ∃ p < testSz, p ≠ i ∧ testKeys rand p = testKeys rand i ∧
        testHtable rand pointer allowResize first second =
          .error (testFatal (htestname allowResize) (wrongValue (testKeys rand) pointer p i)) := by
  have hkeys := testKeys_hashes rand
  obtain ⟨ht, hinit, hloaded⟩ := htableInit_loaded (testKeys rand) allowResize
  simp only [testHtable, hinit, ok_bind]
  rcases runCalls_cases hloaded hkeys (fun _ => index_lt_of_schedule hfirst) with
    ⟨hallow, hover⟩ | ⟨ht₁, hok, hloaded₁⟩ | ⟨r, p, hr, -⟩
  · refine .inl ⟨hallow, ?_⟩
    rw [hover, error_bind]
  · have hall : ∀ i ∈ List.range testSz, Call.insert i ∈ first := fun i hi =>
      hfirst.mem_iff.mpr (insert_mem_testHtableRun .insert hn (List.mem_range.mp hi))
    simp only [hok, ok_bind]
    rcases validate_cases pointer hloaded₁ hkeys hall with
      ⟨hvalid, hown⟩ | ⟨i, hi, p, ⟨hne, hkey, hmem⟩, hfail⟩
    · have hdistinct : KeysDistinct (testKeys rand) := by
        intro i hi j hj hkey
        have hi' := hown i (List.mem_range.mpr hi)
        rw [hkey, hown j (List.mem_range.mpr hj)] at hi'
        exact (Option.some.inj hi').symm
      obtain ⟨m₁, hdestroy₁⟩ := hloaded₁.destroy
      simp only [hvalid, hdestroy₁, ok_bind]
      -- the threads start again on a new table, and now they look up what others may have inserted
      rcases runCalls_cases hloaded hkeys (fun _ => index_lt_of_schedule hsecond) with
        ⟨hallow, hover⟩ | ⟨ht₂, hok₂, hloaded₂⟩ | ⟨r, p, hr, hne, hkey, hmem⟩
      · refine .inl ⟨hallow, ?_⟩
        rw [hover, error_bind]
      · obtain ⟨m₂, hdestroy₂⟩ := hloaded₂.destroy
        refine .inr (.inl ⟨hdistinct, ht₂.size, ?_⟩)
        simp only [hok₂, hdestroy₂, ok_bind, pure_eq_ok]
      · have hp := index_lt_of_schedule hsecond hmem
        exact absurd (hdistinct p hp r (index_lt_of_schedule hsecond hr) hkey) hne
    · refine .inr (.inr ⟨i, List.mem_range.mp hi, p, index_lt_of_schedule hfirst hmem, hne, hkey, ?_⟩)
      rw [hfail, error_bind]
  · obtain ⟨t, ht⟩ := hfirst.mem_iff.mp hr
    exact absurd ht probe_notMem

/-- Four threads, and a `rand` that always returns 0, which makes all keys the same string. -/
theorem testHtable_verdict_constant : ∃ first second,
    Schedule (testHtableRun .insert 4) first ∧ Schedule (testHtableRun .mix 4) second ∧
      ∃ i < testSz, ∃ p < testSz, p ≠ i ∧ testKeys (fun _ => 0) p = testKeys (fun _ => 0) i ∧
        testHtable (fun _ => 0) toString 0 first second =
          .error (testFatal (htestname 0) (wrongValue (testKeys fun _ => 0) toString p i)) := by
  obtain ⟨first, hfirst⟩ := Schedule.exists_of_finite (testHtableRun .insert 4)
  obtain ⟨second, hsecond⟩ := Schedule.exists_of_finite (testHtableRun .mix 4)
  refine ⟨first, second, hfirst, hsecond, ?_⟩
  rcases testHtable_verdict (fun _ => 0) toString (by decide) 0 hfirst hsecond with ⟨hne, -⟩ | ⟨hdistinct, -⟩ | hfail
  · exact absurd rfl hne
  · exact absurd (hdistinct 0 (by decide) 1 (by decide) rfl) (by decide)
  · exact hfail

end CsoLabs.Table
