import CsoLabs.TableRuns

/-! Where the counters of the table overflow. The index of `hashcode` is an `int`, and so is `collision` of
`htable_insert`: a string of more than `INT_MAX` bytes stops the first, and a new key whose chain has more than
`INT_MAX` nodes the second. Keys with one hash code are all in one chain, and there are enough of these even among
short strings: two words of three bytes both take the hash code `BIG_PRIME` to itself, so that it is the hash code
of every sequence of the two. -/

namespace CsoLabs.Table
open CLang

variable {α : Type}

/-! ### Runs that stop -/

theorem Htable.run_concat_error {ht ht' : Htable α} {ops : List (Op α)} {as : List (Answer α)} {op : Op α} {e : Abort}
    (hrun : ht.run ops = .ok (as, ht')) (hexec : ht'.exec op = .error e) : ht.run (ops ++ [op]) = .error e := by
  induction ops generalizing ht as with
  | nil =>
      cases hrun
      rw [List.nil_append, Htable.run, hexec, error_bind]
  | cons first ops ih =>
      obtain ⟨⟨a, ht₁⟩, hfirst, hrest⟩ := bind_eq_ok hrun
      obtain ⟨⟨as', ht₂⟩, hops, hret⟩ := bind_eq_ok hrest
      cases hret
      rw [List.cons_append, Htable.run, hfirst, ok_bind]
      dsimp only
      rw [ih hops, error_bind]

theorem runFrom_concat_error {sz allowResize : Int} {ht : Htable α} {ops : List (Op α)} {as : List (Answer α)}
    {op : Op α} {e : Abort} (hrun : runFrom sz allowResize ops = .ok (as, ht)) (hexec : ht.exec op = .error e) :
    runFrom sz allowResize (ops ++ [op]) = .error e := by
  obtain ⟨ht₀, hinit, hrun⟩ := bind_eq_ok hrun
  rw [runFrom, hinit, ok_bind]
  exact Htable.run_concat_error hrun hexec

/-- A long key stops both calls. -/
theorem exec_longKey {ht : Htable α} {op : Op α} (hlong : intMax < op.key.bytes.length) :
    ht.exec op = .error .intOverflow := by
  cases op with
  | insert key val => rw [Htable.exec, htableInsert, hashcode_overflow (show intMax < key.bytes.length from hlong)]; rfl
  | lookup key => rw [Htable.exec, htableLookup, hashcode_overflow (show intMax < key.bytes.length from hlong)]; rfl

/-- So a run that completes has seen none. -/
theorem Htable.run_short {ht ht' : Htable α} {ops : List (Op α)} {as : List (Answer α)}
    (hrun : ht.run ops = .ok (as, ht')) : ∀ op ∈ ops, (op.key.bytes.length : Int) ≤ intMax := by
  induction ops generalizing ht as with
  | nil => exact fun _ hop => absurd hop List.not_mem_nil
  | cons op ops ih =>
      obtain ⟨⟨a, ht₁⟩, hexec, hrest⟩ := bind_eq_ok hrun
      obtain ⟨⟨as', ht₂⟩, hops, hret⟩ := bind_eq_ok hrest
      cases hret
      refine List.forall_mem_cons.mpr ⟨le_of_not_gt fun hlong => ?_, ih hops⟩
      rw [exec_longKey hlong] at hexec
      cases hexec

/-- A new key stops the insertion where its chain is too long to be counted. -/
theorem htableInsert_overflow {ht : Htable α} {chains : Nat → List Nat} (h : TableInv ht chains) {key : CString}
    (hkey : key.Hashes) (hnew : key ∉ ht.abs.keys) (hlong : intMax < ht.abs.crowd key) (val : Option α) :
    htableInsert ht key val = .error .intOverflow := by
  rcases htableInsert_cases h hkey val with ⟨-, hmem | hroom⟩ | ⟨-, -, hover⟩
  · exact absurd hmem hnew
  · omega
  · exact hover

/-- The byte 1, `n` times. -/
def onesKey (n : Nat) : CString where
  bytes := List.replicate n 1
  nonzero := by
    intro b hb
    rw [List.eq_of_mem_replicate hb]
    decide

theorem onesKey_isAscii (n : Nat) : (onesKey n).IsAscii := by
  intro b hb
  rw [List.eq_of_mem_replicate hb]
  decide

theorem length_onesKey (n : Nat) : (onesKey n).bytes.length = n := List.length_replicate

theorem runFrom_onesKey {sz : Int} (h1 : 1 ≤ sz) (hsz : sz < intMax) (allowResize : Int) (val : Option α)
    (ops : List (Op α)) : runFrom sz allowResize (.insert (onesKey (2 ^ 31)) val :: ops) = .error .intOverflow := by
  obtain ⟨ht, hinit, -⟩ := htableInit_ok (α := α) h1 hsz allowResize
  have hlong : intMax < (Op.insert (onesKey (2 ^ 31)) val).key.bytes.length := by
    change intMax < ((onesKey (2 ^ 31)).bytes.length : Int)
    rw [length_onesKey]
    decide
  rw [runFrom, hinit, ok_bind, Htable.run, exec_longKey hlong, error_bind]

/-! ### Many keys with one hash code -/

/-- The two words. -/
def word (bit : Bool) : List (BitVec 8) := if bit then [71, 105, 85] else [95, 55, 28]

theorem word_bytes : ∀ bit, (word bit).length = 3 ∧ ∀ b ∈ word bit, b ≠ 0 ∧ b.toNat < 128 := by decide

theorem foldl_word : ∀ bit, (word bit).foldl stepValue bigPrime = bigPrime := by decide

theorem word_injective : Function.Injective word := by decide

/-- A sequence of words, the first of which takes the hash code from 0 to `BIG_PRIME`. -/
def wordsKey (bits : List Bool) : CString where
  bytes := word false ++ bits.flatMap word
  nonzero := by
    intro b hb
    rcases List.mem_append.mp hb with hb | hb
    · exact ((word_bytes false).2 b hb).1
    · obtain ⟨bit, -, hb⟩ := List.mem_flatMap.mp hb
      exact ((word_bytes bit).2 b hb).1

theorem wordsKey_isAscii (bits : List Bool) : (wordsKey bits).IsAscii := by
  intro b hb
  rcases List.mem_append.mp hb with hb | hb
  · exact ((word_bytes false).2 b hb).2
  · obtain ⟨bit, -, hb⟩ := List.mem_flatMap.mp hb
    exact ((word_bytes bit).2 b hb).2

theorem length_wordsKey (bits : List Bool) : (wordsKey bits).bytes.length = 3 + 3 * bits.length := by
  have hbits : (bits.flatMap word).length = 3 * bits.length := by
    induction bits with
    | nil => rfl
    | cons bit bits ih =>
        rw [List.flatMap_cons, List.length_append, (word_bytes bit).1, ih, List.length_cons]
        omega
  rw [wordsKey, List.length_append, (word_bytes false).1, hbits]

theorem hashValue_wordsKey (bits : List Bool) : hashValue (wordsKey bits) = bigPrime := by
  have hfirst : (word false).foldl stepValue 0 = bigPrime := by decide
  have hrest : (bits.flatMap word).foldl stepValue bigPrime = bigPrime := by
    induction bits with
    | nil => rfl
    | cons bit bits ih => rw [List.flatMap_cons, List.foldl_append, foldl_word, ih]
  rw [hashValue, wordsKey, List.foldl_append, hfirst, hrest]

theorem flatMap_word_injective : Function.Injective fun bits : List Bool => bits.flatMap word := by
  intro bits bits' heq
  dsimp only at heq
  induction bits generalizing bits' with
  | nil =>
      cases bits' with
      | nil => rfl
      | cons bit' bits' =>
          have hlen := congrArg List.length heq
          rw [List.flatMap_cons, List.length_append, (word_bytes bit').1, List.flatMap_nil, List.length_nil] at hlen
          omega
  | cons bit bits ih =>
      cases bits' with
      | nil =>
          have hlen := congrArg List.length heq
          rw [List.flatMap_cons, List.length_append, (word_bytes bit).1, List.flatMap_nil, List.length_nil] at hlen
          omega
      | cons bit' bits' =>
          rw [List.flatMap_cons, List.flatMap_cons] at heq
          obtain ⟨hword, hrest⟩ := List.append_inj heq ((word_bytes bit).1.trans (word_bytes bit').1.symm)
          rw [word_injective hword, ih hrest]

/-- The key number `i`: its binary digits as words. -/
def numberKey (i : Nat) : CString := wordsKey ((List.range 32).map i.testBit)

theorem length_numberKey (i : Nat) : (numberKey i).bytes.length = 99 := by
  rw [numberKey, length_wordsKey, List.length_map, List.length_range]

theorem numberKey_hashes (i : Nat) : (numberKey i).Hashes := by
  refine (wordsKey_isAscii _).hashes ?_
  change ((numberKey i).bytes.length : Int) ≤ intMax
  rw [length_numberKey]
  decide

theorem numberKey_injOn {i j : Nat} (hi : i < 2 ^ 32) (hj : j < 2 ^ 32) (h : numberKey i = numberKey j) : i = j := by
  have hbits : (List.range 32).map i.testBit = (List.range 32).map j.testBit :=
    flatMap_word_injective (List.append_cancel_left (congrArg CString.bytes h))
  refine Nat.eq_of_testBit_eq fun k => ?_
  by_cases hk : k < 32
  · exact List.map_inj_left.mp hbits k (List.mem_range.mpr hk)
  · have hle : 2 ^ 32 ≤ 2 ^ k := Nat.pow_le_pow_right (by decide) (Nat.le_of_not_lt hk)
    rw [Nat.testBit_lt_two_pow (hi.trans_le hle), Nat.testBit_lt_two_pow (hj.trans_le hle)]

/-- An entry for each of the first `n` keys. -/
def numberEntries (n : Nat) : List (CString × Option α) := (List.range n).map fun i => (numberKey i, none)

theorem numberEntries_keys (n : Nat) : (numberEntries n : List (CString × Option α)).map Prod.fst =
    (List.range n).map numberKey := by
  rw [numberEntries, List.map_map]
  rfl

theorem numberEntries_nodup {n : Nat} (hn : n ≤ 2 ^ 32) : ((List.range n).map numberKey).Nodup :=
  List.Nodup.map_on (fun _ hi _ hj heq => numberKey_injOn ((List.mem_range.mp hi).trans_le hn)
    ((List.mem_range.mp hj).trans_le hn) heq) List.nodup_range

theorem length_numberEntries (n : Nat) : (numberEntries n : List (CString × Option α)).length = n := by
  rw [numberEntries, List.length_map, List.length_range]

theorem insertAll_numberEntries_keys (n : Nat) :
    ∀ op ∈ insertAll (numberEntries n : List (CString × Option α)), op.key.IsAscii ∧ op.key.bytes.length = 99 := by
  intro op hop
  obtain ⟨e, he, rfl⟩ := List.mem_map.mp hop
  obtain ⟨i, -, rfl⟩ := List.mem_map.mp he
  exact ⟨wordsKey_isAscii _, length_numberKey i⟩

/-- A dictionary that does not grow takes any new entries. -/
theorem Dict.run_insertAll {d : Dict α} (hallow : d.allowResize = 0) {entries : List (CString × Option α)}
    (hnodup : (d.keys ++ entries.map Prod.fst).Nodup) :
    ∃ as, d.run (insertAll entries) = .ok (as, { d with entries := d.entries ++ entries }) := by
  induction entries generalizing d with
  | nil => exact ⟨[], by rw [List.append_nil]; rfl⟩
  | cons e entries ih =>
      obtain ⟨key, val⟩ := e
      have hkey : key ∉ d.keys := fun hmem => (List.nodup_append.mp hnodup).2.2 key hmem key List.mem_cons_self rfl
      have hinsert : d.insert key val = .ok (0, d.add key val) := by
        rw [Dict.insert, if_neg hkey, if_neg fun h => h.1 hallow]
      have hkeys : (d.add key val).keys = d.keys ++ [key] := List.map_append
      rw [List.map_cons, List.append_cons, ← hkeys] at hnodup
      obtain ⟨as, hrun⟩ := ih (d := d.add key val) hallow hnodup
      refine ⟨.status 0 :: as, ?_⟩
      rw [insertAll, List.map_cons, Dict.run, Dict.exec, hinsert, ← insertAll]
      simp only [ok_bind, pure_eq_ok, hrun]
      rw [Dict.add, List.append_assoc]
      rfl

/-- A table that does not grow has no room for more such keys than `collision` can count. -/
theorem runFrom_numberEntries {sz : Int} (h1 : 1 ≤ sz) (hsz : sz < intMax) {n : Nat} (hn : (n : Int) = intMax + 1) :
    runFrom sz 0 (insertAll (numberEntries (n + 1) : List (CString × Option α))) = .error .intOverflow := by
  have hsmall : n + 1 ≤ 2 ^ 32 := by
    simp only [intMax] at hn
    omega
  have hnodup := numberEntries_nodup (show n ≤ 2 ^ 32 by omega)
  have hkeys : ∀ op ∈ insertAll (numberEntries n : List (CString × Option α)), op.key.Hashes := by
    intro op hop
    obtain ⟨hascii, hlen⟩ := insertAll_numberEntries_keys n op hop
    refine hascii.hashes ?_
    rw [hlen]
    decide
  have hcount : ((insertedKeys (insertAll (numberEntries n : List (CString × Option α)))).card : Int) ≤ intMax + 1 := by
    have hle := card_insertedKeys_insertAll (numberEntries n : List (CString × Option α))
    rw [length_numberEntries] at hle
    omega
  have hdistinct : ((Dict.new sz 0 : Dict α).keys ++
      (numberEntries n : List (CString × Option α)).map Prod.fst).Nodup := by
    rw [numberEntries_keys]
    exact hnodup
  obtain ⟨as, hdict⟩ := Dict.run_insertAll rfl hdistinct
  rcases runFrom_cases h1 hsz 0 hkeys hcount with ⟨as', ht, chains, hok, hinv, hrun⟩ | ⟨-, herror⟩
  swap
  · rw [hdict] at herror
    cases herror
  obtain ⟨-, habs⟩ := Prod.mk.inj (Except.ok.inj (hrun.symm.trans hdict))
  have hentries : ht.abs.entries = numberEntries n := congrArg Dict.entries habs
  have hkeysEq : ht.abs.keys = (List.range n).map numberKey := by
    rw [Dict.keys, hentries, numberEntries_keys]
  have hnew : numberKey n ∉ ht.abs.keys := by
    rw [hkeysEq]
    intro hmem
    obtain ⟨i, hi, heq⟩ := List.mem_map.mp hmem
    have hlt := List.mem_range.mp hi
    have := numberKey_injOn (by omega) (by omega) heq
    omega
  have hcrowd : ht.abs.crowd (numberKey n) = n := by
    rw [Dict.crowd, List.countP_eq_length.mpr, hkeysEq, List.length_map, List.length_range]
    intro k hk
    rw [hkeysEq] at hk
    obtain ⟨i, -, rfl⟩ := List.mem_map.mp hk
    rw [decide_eq_true_eq, numberKey, hashValue_wordsKey, numberKey, hashValue_wordsKey]
  have hover := htableInsert_overflow hinv (numberKey_hashes n) hnew (by omega) (none : Option α)
  have hlast : insertAll (numberEntries (n + 1) : List (CString × Option α)) =
      insertAll (numberEntries n) ++ [.insert (numberKey n) none] := by
    rw [numberEntries, List.range_succ, List.map_append, insertAll, List.map_append]
    rfl
  rw [hlast]
  refine runFrom_concat_error hok ?_
  rw [Htable.exec, hover]
  rfl

end CsoLabs.Table
