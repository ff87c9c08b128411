import CsoLabs.TableLimits

/-! Whole histories of a hash table. The answers of a sequence of calls are a function of the calls alone,
whatever the table's size was and however often it has grown in between. -/

namespace CsoLabs.Table
open CLang LinkedChain

variable {α : Type}

/-! ### The answers -/

/-- What a call must answer after the calls `pre`. -/
def answer (pre : List (Op α)) : Op α → Answer α
  | .insert key _ => .status (if key ∈ (inserts pre).map Prod.fst then 1 else 0)
  | .lookup key => .value ((inserts pre).lookup key).join

def answersFrom : List (Op α) → List (Op α) → List (Answer α)
  | _, [] => []
  | pre, op :: ops => answer pre op :: answersFrom (pre ++ [op]) ops

/-- The dictionary gives every key the value of its first insertion in `pre`. -/
def Dict.Remembers (d : Dict α) (pre : List (Op α)) : Prop := ∀ key, d.entries.lookup key = (inserts pre).lookup key

theorem mem_keys_iff {entries : List (CString × Option α)} {key : CString} :
    key ∈ entries.map Prod.fst ↔ entries.lookup key ≠ none := by
  rw [ne_eq, List.lookup_eq_none_iff, List.mem_map]
  constructor
  · rintro ⟨e, he, rfl⟩ hall
    exact absurd rfl (bne_iff_ne.mp (hall e he))
  · intro hnot
    by_contra hnone
    exact hnot fun e he => bne_iff_ne.mpr fun heq => hnone ⟨e, he, heq.symm⟩

namespace Dict

theorem Remembers.exec {d d' : Dict α} {pre : List (Op α)} (h : d.Remembers pre) {op : Op α} {a : Answer α}
    (hexec : d.exec op = .ok (a, d')) : a = answer pre op ∧ d'.Remembers (pre ++ [op]) := by
  cases op with
  | insert key val =>
      obtain ⟨⟨r, d₁⟩, hinsert, hret⟩ := bind_eq_ok hexec
      cases hret
      have hkeys : key ∈ d.keys ↔ key ∈ (inserts pre).map Prod.fst := by
        rw [keys, mem_keys_iff, mem_keys_iff, h key]
      rcases insert_cases hinsert with ⟨hmem, rfl, rfl⟩ | ⟨hmem, rfl, hentries, -⟩
      · refine ⟨by rw [answer, if_pos (hkeys.mp hmem)], fun k => ?_⟩
        -- a second insertion of the key adds nothing to what a lookup finds
        rw [h k, inserts_append, List.lookup_append]
        cases hk : (inserts pre).lookup k with
        | some v => rfl
        | none =>
            have hne : k ≠ key := by
              rintro rfl
              exact mem_keys_iff.mp (hkeys.mp hmem) hk
            change none = List.lookup k [(key, val)]
            rw [List.lookup_cons, beq_false_of_ne hne]
            rfl
      · refine ⟨by rw [answer, if_neg (mt hkeys.mpr hmem)], fun k => ?_⟩
        rw [hentries, inserts_append, List.lookup_append, List.lookup_append, h k]
        rfl
  | lookup key =>
      cases hexec
      refine ⟨by rw [answer, Dict.lookup, h key], fun k => ?_⟩
      rw [h k, inserts_append, show inserts [Op.lookup key] = ([] : List (CString × Option α)) from rfl,
        List.append_nil]

theorem Remembers.run {d d' : Dict α} {pre ops : List (Op α)} (h : d.Remembers pre) {as : List (Answer α)}
    (hrun : d.run ops = .ok (as, d')) : as = answersFrom pre ops := by
  induction ops generalizing d pre as with
  | nil =>
      cases hrun
      rfl
  | cons op ops ih =>
      obtain ⟨⟨a, d₁⟩, hexec, hrun⟩ := bind_eq_ok hrun
      obtain ⟨⟨as', d₂⟩, hrest, hret⟩ := bind_eq_ok hrun
      cases hret
      obtain ⟨rfl, h₁⟩ := h.exec hexec
      rw [answersFrom, ih h₁ hrest]

end Dict

/-- **The hash table refines a finite map.** On every table made by `htable_init`, every sequence of calls with keys
of at most `INT_MAX` bytes `1 .. 127`, at most `2 ^ 31` different ones inserted, that does not stop because a size to
be doubled exceeds `INT_MAX` completes, and each call answers by the calls before it: an insertion 1 if an earlier one
had the same key and 0 otherwise, a lookup the value of the first insertion of the key, or `NULL`. -/
theorem htable_refines_map {sz : Int} (h1 : 1 ≤ sz) (hsz : sz < intMax) (allowResize : Int) (ops : List (Op α))
    (hkeys : ∀ op ∈ ops, op.key.IsAscii ∧ (op.key.bytes.length : Int) ≤ intMax)
    (hcount : ((insertedKeys ops).card : Int) ≤ intMax + 1) (hrun : runFrom sz allowResize ops ≠ .error .intOverflow) :
    ∃ ht, runFrom sz allowResize ops = .ok (answersFrom [] ops, ht) := by
  obtain ⟨as, ht, chains, hok, -, hdict⟩ := runFrom_ok h1 hsz allowResize hkeys hcount hrun
  have hempty : (Dict.new sz allowResize : Dict α).Remembers [] := fun _ => rfl
  exact ⟨ht, hempty.run hdict ▸ hok⟩

/-- Eleven keys with even hash codes, which meet in one slot of a table of size 2 and make it grow, one of
them again, and two lookups. -/
def exampleOps : List (Op Nat) :=
  (List.range 11).map (fun i => .insert (.ofBuffer [BitVec.ofNat 8 (2 * i + 2)]) (some i)) ++
    [.insert (.ofBuffer [2]) (some 99), .lookup (.ofBuffer [2]), .lookup (.ofBuffer [1])]

theorem exampleOps_keys : ∀ op ∈ exampleOps, op.key.IsAscii ∧ (op.key.bytes.length : Int) ≤ intMax := by
  decide +kernel

theorem card_insertedKeys_exampleOps : ((insertedKeys exampleOps).card : Int) ≤ intMax + 1 := by decide +kernel

theorem runFrom_exampleOps : runFrom 1 1 exampleOps ≠ .error .intOverflow := by
  have hanswers : (runFrom 1 1 exampleOps).map Prod.fst =
      .ok ((List.replicate 11 (.status 0)) ++ [.status 1, .value (some 0), .value none]) := by
    decide +kernel
  intro herror
  rw [herror] at hanswers
  cases hanswers

theorem htable_refines_map_exampleOps : ∃ ht, runFrom 1 1 exampleOps = .ok (answersFrom [] exampleOps, ht) :=
  htable_refines_map (by decide) (by decide) 1 exampleOps exampleOps_keys card_insertedKeys_exampleOps
    runFrom_exampleOps

/-- A key of `2 ^ 31` bytes stops the first call, and in a table that does not grow the insertion number
`2 ^ 31 + 1` of keys with one hash code stops as well. There is no resize in either run. -/
theorem answers_overflow :
    ((onesKey (2 ^ 31)).IsAscii ∧
      runFrom 10 0 [.insert (onesKey (2 ^ 31)) (some 0), .lookup (onesKey (2 ^ 31))] = .error .intOverflow) ∧
    ((∀ op ∈ insertAll (numberEntries (2 ^ 31 + 1) : List (CString × Option Nat)),
        op.key.IsAscii ∧ op.key.bytes.length = 99) ∧
      runFrom 10 0 (insertAll (numberEntries (2 ^ 31 + 1) : List (CString × Option Nat))) = .error .intOverflow) :=
  ⟨⟨onesKey_isAscii _, runFrom_onesKey (by decide) (by decide) 0 (some 0) _⟩,
    insertAll_numberEntries_keys _, runFrom_numberEntries (by decide) (by decide) (by decide)⟩

/-! ### The representation -/

/-- The insertion made a new entry. -/
def Answer.isNew : Answer α → Bool
  | .status r => r == 0
  | .value _ => false

/-- What the table looks like, with `chains` the addresses of the nodes in the chain of each slot. -/
structure Representation (sz : Int) (ht : Htable α) (chains : Nat → List Nat) : Prop where
  size_prime : ht.size.toNat.Prime
  size_gt : sz < ht.size
  linked : ∀ i head, ht.store.heads[i]? = some head → Chain Node.next ht.nodes head (chains i)
  placed : ∀ i < ht.store.heads.length, ∀ id ∈ chains i, ∃ n, ht.nodes[id]? = some n ∧
    hashcode n.key = .ok n.hashcode ∧ n.hashcode.tmod ht.size = i
  each_once : ((List.range ht.store.heads.length).flatMap chains).Perm (List.range ht.nodes.length)
  keys_distinct : (ht.nodes.map Node.key).Nodup

theorem TableInv.representation {ht : Htable α} {chains : Nat → List Nat} (h : TableInv ht chains) {sz : Int}
    (hprime : ht.size.toNat.Prime) (hgt : sz < ht.size) : Representation sz ht chains where
  size_prime := hprime
  size_gt := hgt
  linked := h.buckets.linked
  placed := by
    intro i hi id hid
    obtain ⟨hlt, hhome⟩ := (h.buckets.mem_iff i hi id).mp hid
    have hget := List.getElem?_eq_getElem hlt
    have hhash := h.hash (List.getElem_mem hlt)
    have hmod := tmod_bounds h.size_pos hhash.2
    rw [home_eq hget, slotOf] at hhome
    exact ⟨_, hget, hhash.1, by omega⟩
  each_once := h.buckets.flatMap_perm fun _ hid => h.home_lt hid
  keys_distinct := ht.abs_keys ▸ h.keys_nodup

namespace Dict

theorem new_size_prime (sz allowResize : Int) : (new sz allowResize : Dict α).size.toNat.Prime := by
  rw [new, Int.toNat_natCast]
  exact nextPrime_prime (sz.toNat + 1)

theorem lt_new_size (sz allowResize : Int) : sz < (new sz allowResize : Dict α).size := by
  have hle := le_nextPrime (sz.toNat + 1)
  change sz < (nextPrime (sz.toNat + 1) : Int)
  omega

/-- The size stays a prime above `sz`, and the answers count the new entries. -/
theorem run_size {sz : Int} {d d' : Dict α} {ops : List (Op α)} {as : List (Answer α)}
    (hprime : d.size.toNat.Prime) (hgt : sz < d.size) (hrun : d.run ops = .ok (as, d')) :
    d'.size.toNat.Prime ∧ sz < d'.size ∧ d'.entries.length = d.entries.length + as.countP Answer.isNew := by
  induction ops generalizing d as with
  | nil =>
      cases hrun
      exact ⟨hprime, hgt, rfl⟩
  | cons op ops ih =>
      obtain ⟨⟨a, d₁⟩, hexec, hrun⟩ := bind_eq_ok hrun
      obtain ⟨⟨as', d₂⟩, hrest, hret⟩ := bind_eq_ok hrun
      cases hret
      have hstep : d₁.size.toNat.Prime ∧ sz < d₁.size ∧
          d₁.entries.length = d.entries.length + if a.isNew then 1 else 0 := by
        cases op with
        | insert key val =>
            obtain ⟨⟨r, d₁'⟩, hinsert, hret⟩ := bind_eq_ok hexec
            cases hret
            rcases insert_cases hinsert with ⟨-, rfl, rfl⟩ | ⟨-, rfl, hentries, hsize | hsize⟩
            · exact ⟨hprime, hgt, rfl⟩
            · rw [hsize, hentries, List.length_append]
              exact ⟨hprime, hgt, rfl⟩
            · have hle := le_nextPrime (2 * d.size.toNat)
              rw [hsize, hentries, List.length_append, Int.toNat_natCast]
              exact ⟨nextPrime_prime _, by omega, rfl⟩
        | lookup key =>
            cases hexec
            exact ⟨hprime, hgt, rfl⟩
      obtain ⟨hprime₁, hgt₁, hlen₁⟩ := hstep
      obtain ⟨hprime₂, hgt₂, hlen₂⟩ := ih hprime₁ hgt₁ hrest
      refine ⟨hprime₂, hgt₂, ?_⟩
      rw [hlen₂, hlen₁, List.countP_cons]
      omega

end Dict

theorem Htable.size_of_run {sz allowResize : Int} {ops : List (Op α)} {as : List (Answer α)} {ht : Htable α}
    (hdict : (Dict.new sz allowResize).run ops = .ok (as, ht.abs)) :
    ht.size.toNat.Prime ∧ sz < ht.size ∧ ht.nodes.length = as.countP Answer.isNew := by
  obtain ⟨hprime, hgt, hlen⟩ :=
    Dict.run_size (Dict.new_size_prime sz allowResize) (Dict.lt_new_size sz allowResize) hdict
  rw [abs, List.length_map, Dict.new, List.length_nil, Nat.zero_add] at hlen
  exact ⟨hprime, hgt, hlen⟩

/-- **The representation invariant.** After every sequence of calls with keys of at most `INT_MAX` bytes `1 .. 127`, at
most `2 ^ 31` different ones inserted, the size is a prime above `sz`, every node is in the chain of its hash code,
which is that of its key, and in no other place, no two nodes have the same key, and there are as many nodes as
insertions that returned 0. -/
theorem htable_representation {sz : Int} (h1 : 1 ≤ sz) (hsz : sz < intMax) (allowResize : Int) (ops : List (Op α))
    (hkeys : ∀ op ∈ ops, op.key.IsAscii ∧ (op.key.bytes.length : Int) ≤ intMax)
    (hcount : ((insertedKeys ops).card : Int) ≤ intMax + 1) (hrun : runFrom sz allowResize ops ≠ .error .intOverflow) :
    ∃ as ht chains, runFrom sz allowResize ops = .ok (as, ht) ∧ Representation sz ht chains ∧
      ht.nodes.length = as.countP Answer.isNew := by
  obtain ⟨as, ht, chains, hok, hinv, hdict⟩ := runFrom_ok h1 hsz allowResize hkeys hcount hrun
  obtain ⟨hprime, hgt, hlen⟩ := Htable.size_of_run hdict
  exact ⟨as, ht, chains, hok, hinv.representation hprime hgt, hlen⟩

theorem htable_representation_exampleOps :
    ∃ as ht chains, runFrom 1 1 exampleOps = .ok (as, ht) ∧ Representation 1 ht chains ∧
      ht.nodes.length = as.countP Answer.isNew :=
  htable_representation (by decide) (by decide) 1 exampleOps exampleOps_keys card_insertedKeys_exampleOps
    runFrom_exampleOps

/-- The same two runs reach no table. -/
theorem representation_overflow :
    ((onesKey (2 ^ 31)).IsAscii ∧
      runFrom 10 0 [.insert (onesKey (2 ^ 31)) (some 0)] = .error .intOverflow) ∧
    ((∀ op ∈ insertAll (numberEntries (2 ^ 31 + 1) : List (CString × Option Nat)),
        op.key.IsAscii ∧ op.key.bytes.length = 99) ∧
      runFrom 10 0 (insertAll (numberEntries (2 ^ 31 + 1) : List (CString × Option Nat))) = .error .intOverflow) :=
  ⟨⟨onesKey_isAscii _, runFrom_onesKey (by decide) (by decide) 0 (some 0) _⟩,
    insertAll_numberEntries_keys _, runFrom_numberEntries (by decide) (by decide) (by decide)⟩

end CsoLabs.Table
