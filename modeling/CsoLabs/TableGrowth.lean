import CsoLabs.TableBounds

/-! How often the tester's table can grow. It grows when a key meets ten others in its slot, so the keys
alone decide which of them make it grow, and with them its sizes: from 10007 on, each size is the least
prime that is at least twice the one before. Seventeen such steps stay below `INT_MAX`; one more
does not. Keys with one hash code meet in every slot of every size, and there are enough of these. -/

namespace CsoLabs.Table
open CLang

variable {α : Type}

/-- The size of the table made by `htable_init(10000, 1)` after it has grown `t` times. -/
def tableSize : Nat → Nat
  | 0 => nextPrime 10001
  | t + 1 => nextPrime (2 * tableSize t)

/-- At size `s` the key meets at least ten of the keys `earlier` in its slot. -/
def Crowded (s : Nat) (earlier : List CString) (key : CString) : Prop :=
  10 ≤ earlier.countP fun k => hashValue k % s = hashValue key % s

instance decidableCrowded (s : Nat) (earlier : List CString) (key : CString) : Decidable (Crowded s earlier key) :=
  inferInstanceAs (Decidable (_ ≤ _))

/-- How many of the keys were crowded when they came, counted on from `t`: each key is looked at with the size
the table has after so many crowded keys. -/
def crowdedFrom : List CString → Nat → List CString → Nat
  | _, t, [] => t
  | earlier, t, key :: keys =>
      crowdedFrom (earlier ++ [key]) (if Crowded (tableSize t) earlier key then t + 1 else t) keys

def crowdedKeys (keys : List CString) : Nat := crowdedFrom [] 0 keys

/-! ### The sizes -/

theorem tableSize_mono {t u : Nat} (h : t ≤ u) : tableSize t ≤ tableSize u := by
  induction h with
  | refl => exact le_rfl
  | @step u _ ih =>
      have hle := le_nextPrime (2 * tableSize u)
      rw [tableSize]
      omega

theorem le_tableSize (t : Nat) : 10001 * 2 ^ t ≤ tableSize t := by
  induction t with
  | zero => exact le_nextPrime 10001
  | succ t ih =>
      calc 10001 * 2 ^ (t + 1) = 2 * (10001 * 2 ^ t) := by rw [pow_succ]; omega
        _ ≤ 2 * tableSize t := by omega
        _ ≤ tableSize (t + 1) := le_nextPrime _

theorem tableSize_le_step {t q r : Nat} (h : tableSize t ≤ q) (hqr : 2 * q ≤ r) (hr : r.Prime) :
    tableSize (t + 1) ≤ r :=
  nextPrime_le hr (by omega)

/-- A number is prime if `a` has the largest possible order modulo it. The order is tested for the prime
factors 2, 3, 5 and 7 of `p - 1`, which must have no others. -/
theorem prime_of_smooth {p : Nat} (a : ZMod p) (hsmooth : p - 1 ∣ 210 ^ 30) (hone : a ^ (p - 1) = 1)
    (hne : ∀ q ∈ [2, 3, 5, 7], q ∣ p - 1 → a ^ ((p - 1) / q) ≠ 1) : p.Prime := by
  refine lucas_primality p a hone fun q hq hdvd => hne q ?_ hdvd
  have h210 : q ∣ 2 * 3 * 5 * 7 := hq.dvd_of_dvd_pow (hdvd.trans hsmooth)
  simp only [hq.dvd_mul, Nat.prime_dvd_prime_iff_eq hq Nat.prime_two, Nat.prime_dvd_prime_iff_eq hq Nat.prime_three,
    Nat.prime_dvd_prime_iff_eq hq Nat.prime_five, Nat.prime_dvd_prime_iff_eq hq Nat.prime_seven] at h210
  simp only [List.mem_cons, List.not_mem_nil, or_false]
  tauto

theorem prime_403536071 : Nat.Prime 403536071 := by
  refine prime_of_smooth 11 (by norm_num) ?_ ?_
  · norm_num
    reduce_mod_char
  · simp only [List.mem_cons, List.not_mem_nil, or_false, forall_eq_or_imp, forall_eq]
    norm_num
    reduce_mod_char
    decide

theorem prime_820312501 : Nat.Prime 820312501 := by
  refine prime_of_smooth 2 (by norm_num) ?_ ?_
  · norm_num
    reduce_mod_char
  · simp only [List.mem_cons, List.not_mem_nil, or_false, forall_eq_or_imp, forall_eq]
    norm_num
    reduce_mod_char
    decide

/-- Sixteen doublings, each bounded by a prime just above twice the bound before. -/
theorem tableSize_sixteen_le : tableSize 16 ≤ 820312501 := by
  have h0 : tableSize 0 ≤ 10007 := nextPrime_le (by norm_num) (by norm_num)
  have h1 : tableSize 1 ≤ 20161 := tableSize_le_step h0 (by norm_num) (by norm_num)
  have h2 : tableSize 2 ≤ 40961 := tableSize_le_step h1 (by norm_num) (by norm_num)
  have h3 : tableSize 3 ≤ 84673 := tableSize_le_step h2 (by norm_num) (by norm_num)
  have h4 : tableSize 4 ≤ 170101 := tableSize_le_step h3 (by norm_num) (by norm_num)
  have h5 : tableSize 5 ≤ 345601 := tableSize_le_step h4 (by norm_num) (by norm_num)
  have h6 : tableSize 6 ≤ 691489 := tableSize_le_step h5 (by norm_num) (by norm_num)
  have h7 : tableSize 7 ≤ 1411789 := tableSize_le_step h6 (by norm_num) (by norm_num)
  have h8 : tableSize 8 ≤ 2903041 := tableSize_le_step h7 (by norm_num) (by norm_num)
  have h9 : tableSize 9 ≤ 5834431 := tableSize_le_step h8 (by norm_num) (by norm_num)
  have h10 : tableSize 10 ≤ 12042241 := tableSize_le_step h9 (by norm_num) (by norm_num)
  have h11 : tableSize 11 ≤ 24504607 := tableSize_le_step h10 (by norm_num) (by norm_num)
  have h12 : tableSize 12 ≤ 49152001 := tableSize_le_step h11 (by norm_num) (by norm_num)
  have h13 : tableSize 13 ≤ 98784001 := tableSize_le_step h12 (by norm_num) (by norm_num)
  have h14 : tableSize 14 ≤ 201600001 := tableSize_le_step h13 (by norm_num) (by norm_num)
  have h15 : tableSize 15 ≤ 403536071 := tableSize_le_step h14 (by norm_num) prime_403536071
  exact tableSize_le_step h15 (by norm_num) prime_820312501

/-- The table can grow as long as it has not grown seventeen times. -/
theorem two_mul_tableSize_le_iff (t : Nat) : 2 * (tableSize t : Int) ≤ intMax ↔ t < 17 := by
  have hsixteen := tableSize_sixteen_le
  have hseventeen := le_tableSize 17
  rw [intMax]
  constructor
  · intro hle
    by_contra hge
    have hmono := tableSize_mono (Nat.le_of_not_lt hge)
    omega
  · intro hlt
    have hmono := tableSize_mono (Nat.le_of_lt_succ hlt)
    omega

/-! ### Colliding keys -/

/-- Keys with one hash code are all crowded, from the eleventh on, at every size. -/
theorem crowdedFrom_of_hashValue_eq {h : Int} {earlier keys : List CString} (t : Nat)
    (hall : ∀ k ∈ earlier ++ keys, hashValue k = h) :
    crowdedFrom earlier t keys = t + (keys.length - (10 - earlier.length)) := by
  induction keys generalizing earlier t with
  | nil => rw [crowdedFrom, List.length_nil, Nat.zero_sub, Nat.add_zero]
  | cons key keys ih =>
      have hcrowded : Crowded (tableSize t) earlier key ↔ 10 ≤ earlier.length := by
        rw [Crowded, List.countP_eq_length.mpr]
        intro k hk
        rw [decide_eq_true_eq, hall k (List.mem_append_left _ hk),
          hall key (List.mem_append_right _ (List.mem_cons_self ..))]
      rw [List.append_cons] at hall
      rw [crowdedFrom, ih _ hall, List.length_append, List.length_singleton, List.length_cons]
      split_ifs with h
      · rw [hcrowded] at h
        omega
      · rw [hcrowded] at h
        omega

/-- Words of capital letters, as the tester uses, with the hash code of `AAAAAA`. -/
def collidingKeys : List CString :=
  ["AAAAAA", "AAHRXU", "ADWVKX", "AFCPKE", "AHRXUA", "AOCCJK", "AQRKTG", "ATERTO", "AWTVGR", "BCAQFJ", "BEPYPF",
    "BLADEP", "BNPLOL", "BQCSOT", "BTRWBW", "BZCFNZ", "CBNZKK", "CELBWF", "CKNMJQ", "CNATJY", "CUKZGE", "DBJCRK",
    "DEYGEN", "DHLNEV", "DOVTBB", "DUGCNE", "DWVKXA", "DXVGAH"].map
    fun word => .ofBuffer (word.toList.map fun c => BitVec.ofNat 8 c.toNat)

theorem collidingKeys_isAscii : ∀ k ∈ collidingKeys, k.IsAscii := by decide +kernel

theorem collidingKeys_short : ∀ k ∈ collidingKeys, (k.bytes.length : Int) ≤ intMax := by decide +kernel

theorem collidingKeys_nodup : collidingKeys.Nodup := by decide +kernel

theorem length_collidingKeys : collidingKeys.length = 28 := by decide +kernel

theorem collidingKeys_hashValue : ∀ k ∈ collidingKeys, hashValue k = 1368213 := by
  have hvalue : ∀ k ∈ collidingKeys, signedValue k.bytes % bigPrime = 1368213 := by decide +kernel
  intro k hk
  rw [(collidingKeys_isAscii k hk).hashValue_eq (by rw [hvalue k hk]; decide), hvalue k hk]

theorem crowdedKeys_of_subset {keys : List CString} (h : keys ⊆ collidingKeys) :
    crowdedKeys keys = keys.length - 10 := by
  rw [crowdedKeys, crowdedFrom_of_hashValue_eq 0 fun k hk => collidingKeys_hashValue k (h hk), List.length_nil]
  omega

theorem map_fst_entries (keys : List CString) (val : Option α) : (keys.map fun k => (k, val)).map Prod.fst = keys := by
  rw [List.map_map]
  exact List.map_id keys

/-! ### The runs -/

theorem le_crowdedFrom (earlier : List CString) (t : Nat) (keys : List CString) : t ≤ crowdedFrom earlier t keys := by
  induction keys generalizing earlier t with
  | nil => exact le_rfl
  | cons key keys ih =>
      rw [crowdedFrom]
      refine le_trans ?_ (ih _ _)
      split_ifs
      · exact Nat.le_succ t
      · exact le_rfl

/-- The table's test for a resize is the test for a crowded key. -/
theorem crowd_eq {d : Dict α} {t : Nat} (hsize : d.size = tableSize t) (hcodes : ∀ k ∈ d.keys, 0 ≤ hashValue k)
    {key : CString} (hcode : 0 ≤ hashValue key) :
    d.crowd key = d.keys.countP fun k => hashValue k % tableSize t = hashValue key % tableSize t := by
  refine List.countP_congr fun k hk => ?_
  have hpos : (tableSize t : Int) ≠ 0 := by
    have := le_tableSize t
    have := Nat.two_pow_pos t
    omega
  have hslot : ∀ h : Int, 0 ≤ h → (slotOf d.size h : Int) = h % tableSize t := by
    intro h hh
    rw [slotOf, hsize, Int.tmod_eq_emod_of_nonneg hh, Int.toNat_of_nonneg (Int.emod_nonneg h hpos)]
  rw [decide_eq_true_eq, decide_eq_true_eq, ← hslot _ (hcodes k hk), ← hslot _ hcode, Int.ofNat_inj]

theorem insert_eq {d : Dict α} {t : Nat} (hallow : d.allowResize ≠ 0) (hsize : d.size = tableSize t) {key : CString}
    (hkey : key ∉ d.keys) (hcodes : ∀ k ∈ d.keys, 0 ≤ hashValue k) (hcode : 0 ≤ hashValue key) (val : Option α) :
    d.insert key val =
      if Crowded (tableSize t) d.keys key then
        if t < 17 then .ok (0, { d.add key val with size := tableSize (t + 1) }) else .error .intOverflow
      else .ok (0, d.add key val) := by
  have hcrowd : (d.allowResize ≠ 0 ∧ 10 ≤ d.crowd key) ↔ Crowded (tableSize t) d.keys key := by
    rw [crowd_eq hsize hcodes hcode, Crowded]
    exact and_iff_right hallow
  have hgrow : 2 * d.size ≤ intMax ↔ t < 17 := by
    rw [hsize]
    exact two_mul_tableSize_le_iff t
  have hnext : nextPrime (2 * d.size.toNat) = tableSize (t + 1) := by rw [hsize, Int.toNat_natCast, tableSize]
  rw [Dict.insert, if_neg hkey, Dict.grow]
  simp only [hcrowd, Dict.add, hgrow, hnext]
  split_ifs
  · rfl
  · rfl
  · rfl

theorem run_insert_ok_iff {d d₁ : Dict α} {key : CString} {val : Option α} {r : Int}
    (hinsert : d.insert key val = .ok (r, d₁)) (ops : List (Op α)) :
    (∃ x, d.run (.insert key val :: ops) = .ok x) ↔ ∃ x, d₁.run ops = .ok x := by
  simp only [Dict.run, Dict.exec, hinsert, ok_bind, pure_eq_ok]
  cases d₁.run ops with
  | error e =>
      refine iff_of_false ?_ ?_
      · rintro ⟨x, hx⟩
        cases hx
      · rintro ⟨x, hx⟩
        cases hx
  | ok x => exact iff_of_true ⟨_, rfl⟩ ⟨x, rfl⟩

/-- The run completes exactly if at most seventeen keys are crowded. -/
theorem dict_run_ok_iff {d : Dict α} {t : Nat} {entries : List (CString × Option α)} (hallow : d.allowResize ≠ 0)
    (hsize : d.size = tableSize t) (ht : t ≤ 17) (hnodup : (d.keys ++ entries.map Prod.fst).Nodup)
    (hcodes : ∀ k ∈ d.keys ++ entries.map Prod.fst, 0 ≤ hashValue k) :
    (∃ x, d.run (insertAll entries) = .ok x) ↔ crowdedFrom d.keys t (entries.map Prod.fst) ≤ 17 := by
  induction entries generalizing d t with
  | nil => exact iff_of_true ⟨_, rfl⟩ ht
  | cons e entries ih =>
      obtain ⟨key, val⟩ := e
      rw [List.map_cons] at hnodup hcodes ⊢
      have hkey : key ∉ d.keys := fun hmem =>
        (List.nodup_append.mp hnodup).2.2 key hmem key (List.mem_cons_self ..) rfl
      have hinsert := insert_eq hallow hsize hkey (fun k hk => hcodes k (List.mem_append_left _ hk))
        (hcodes key (List.mem_append_right _ (List.mem_cons_self ..))) val
      have hkeys : (d.add key val).keys = d.keys ++ [key] := List.map_append
      rw [List.append_cons, ← hkeys] at hnodup hcodes
      rw [crowdedFrom, insertAll, List.map_cons, ← insertAll, ← hkeys]
      by_cases hcrowd : Crowded (tableSize t) d.keys key
      · rw [if_pos hcrowd] at hinsert ⊢
        by_cases hroom : t < 17
        · rw [if_pos hroom] at hinsert
          rw [run_insert_ok_iff hinsert]
          exact ih (d := { d.add key val with size := tableSize (t + 1) }) hallow rfl hroom hnodup hcodes
        · rw [if_neg hroom] at hinsert
          have hle := le_crowdedFrom (d.add key val).keys (t + 1) (entries.map Prod.fst)
          refine iff_of_false ?_ (by omega)
          rintro ⟨x, hrun⟩
          rw [Dict.run, Dict.exec, hinsert, error_bind, error_bind] at hrun
          cases hrun
      · rw [if_neg hcrowd] at hinsert ⊢
        rw [run_insert_ok_iff hinsert]
        exact ih hallow hsize ht hnodup hcodes

/-- What becomes of the insertions of distinct short keys into the tester's table. -/
theorem tester_run {entries : List (CString × Option α)} (hcount : (entries.length : Int) ≤ intMax + 1)
    (hascii : ∀ e ∈ entries, e.1.IsAscii) (hshort : ∀ e ∈ entries, (e.1.bytes.length : Int) ≤ intMax)
    (hnodup : (entries.map Prod.fst).Nodup) :
    (crowdedKeys (entries.map Prod.fst) ≤ 17 ∧
        ∃ as ht, runFrom 10000 1 (insertAll entries) = .ok (as, ht) ∧ 0 < ht.size) ∨
      (17 < crowdedKeys (entries.map Prod.fst) ∧ runFrom 10000 1 (insertAll entries) = .error .intOverflow) := by
  have hcodes : ∀ k ∈ entries.map Prod.fst, 0 ≤ hashValue k := by
    intro k hk
    obtain ⟨e, he, rfl⟩ := List.mem_map.mp hk
    exact (hascii e he).hashValue_nonneg
  have hops : ∀ op ∈ insertAll entries, op.key.Hashes := by
    intro op hop
    obtain ⟨e, he, rfl⟩ := List.mem_map.mp hop
    exact (hascii e he).hashes (hshort e he)
  have hiff : (∃ x, (Dict.new 10000 1 : Dict α).run (insertAll entries) = .ok x) ↔
      crowdedKeys (entries.map Prod.fst) ≤ 17 :=
    dict_run_ok_iff (t := 0) one_ne_zero rfl (by omega) hnodup hcodes
  have hkeyCount := card_insertedKeys_insertAll entries
  rcases runFrom_cases (show (1 : Int) ≤ 10000 by decide) (by decide) 1 hops (by omega) with
    ⟨as, ht, chains, hok, hinv, hdict⟩ | ⟨herror, hdict⟩
  · exact .inl ⟨hiff.mp ⟨_, hdict⟩, as, ht, hok, hinv.size_pos⟩
  · have hmany : ¬ crowdedKeys (entries.map Prod.fst) ≤ 17 := by
      rw [← hiff, hdict]
      rintro ⟨x, hx⟩
      cases hx
    exact .inr ⟨by omega, herror⟩

/-- **Growth within `int`.** Insertions of distinct keys of bytes `1 .. 127` into the table made by
`htable_init(10000, 1)` complete, without a size doubled beyond `INT_MAX`, and leave a positive size, exactly if no key
has more than `INT_MAX` bytes and at most seventeen of them are crowded when they come. -/
theorem growth_inRange_iff (entries : List (CString × Option α)) (hcount : (entries.length : Int) ≤ intMax + 1)
    (hascii : ∀ e ∈ entries, e.1.IsAscii) (hnodup : (entries.map Prod.fst).Nodup) :
    (∃ as ht, runFrom 10000 1 (insertAll entries) = .ok (as, ht) ∧ 0 < ht.size) ↔
      (∀ e ∈ entries, (e.1.bytes.length : Int) ≤ intMax) ∧ crowdedKeys (entries.map Prod.fst) ≤ 17 := by
  constructor
  · rintro ⟨as, ht, hok, hsize⟩
    obtain ⟨ht₀, -, hrun⟩ := bind_eq_ok hok
    have hshort : ∀ e ∈ entries, (e.1.bytes.length : Int) ≤ intMax := fun e he =>
      Htable.run_short hrun (.insert e.1 e.2) (List.mem_map.mpr ⟨e, he, rfl⟩)
    rcases tester_run hcount hascii hshort hnodup with ⟨hfew, -⟩ | ⟨-, herror⟩
    · exact ⟨hshort, hfew⟩
    · rw [herror] at hok
      cases hok
  · rintro ⟨hshort, hfew⟩
    rcases tester_run hcount hascii hshort hnodup with ⟨-, hok⟩ | ⟨hmany, -⟩
    · exact hok
    · omega

/-- Without the last of the colliding keys the table grows seventeen times and the run completes. -/
theorem growth_inRange_iff_collidingKeys :
    crowdedKeys (collidingKeys.take 27) = 17 ∧
      ∃ as ht, runFrom 10000 1 (insertAll ((collidingKeys.take 27).map fun k => (k, some 0))) = .ok (as, ht) ∧
        0 < ht.size := by
  have hsub := (List.take_sublist 27 collidingKeys).subset
  have hlen : (collidingKeys.take 27).length = 27 := by rw [List.length_take, length_collidingKeys]; rfl
  have hcrowded : crowdedKeys (collidingKeys.take 27) = 17 := by rw [crowdedKeys_of_subset hsub, hlen]
  refine ⟨hcrowded, (growth_inRange_iff _ ?_ ?_ ?_).mpr ⟨?_, ?_⟩⟩
  · rw [List.length_map, hlen]
    decide
  · exact List.forall_mem_map.mpr fun k hk => collidingKeys_isAscii k (hsub hk)
  · rw [map_fst_entries]
    exact collidingKeys_nodup.sublist (List.take_sublist 27 collidingKeys)
  · exact List.forall_mem_map.mpr fun k hk => collidingKeys_short k (hsub hk)
  · rw [map_fst_entries, hcrowded]

theorem growth_overflow_collidingKeys :
    collidingKeys.length ≤ 1000000 ∧ (∀ k ∈ collidingKeys, k.IsAscii) ∧ collidingKeys.Nodup ∧
      runFrom 10000 1 (insertAll (collidingKeys.map fun k => (k, some 0))) = .error .intOverflow := by
  have hcrowded : crowdedKeys collidingKeys = 18 := by
    rw [crowdedKeys_of_subset (List.Subset.refl _), length_collidingKeys]
  have hcount : ((collidingKeys.map fun k => (k, some 0)).length : Int) ≤ intMax + 1 := by
    rw [List.length_map, length_collidingKeys]
    decide
  refine ⟨by rw [length_collidingKeys]; decide, collidingKeys_isAscii, collidingKeys_nodup, ?_⟩
  have hnodup : ((collidingKeys.map fun k => (k, some 0)).map Prod.fst).Nodup := by
    rw [map_fst_entries]
    exact collidingKeys_nodup
  rcases tester_run hcount (List.forall_mem_map.mpr collidingKeys_isAscii)
    (List.forall_mem_map.mpr collidingKeys_short) hnodup with ⟨hfew, -⟩ | ⟨-, herror⟩
  · rw [map_fst_entries, hcrowded] at hfew
    omega
  · exact herror

end CsoLabs.Table
