import CsoLabs.TableRefine

/-! Sequences of calls on a hash table. A run on the table is a run on the dictionary it stands for, as long as
every key has a hash code that is not negative and no more different keys are inserted than `collision` can count. -/

namespace CsoLabs.Table
open CLang LinkedChain

variable {α : Type}

inductive Op (α : Type) where
  | insert (key : CString) (val : Option α)
  | lookup (key : CString)

/-- What a call returns: the `int` of `htable_insert`, or the pointer of `htable_lookup`. -/
inductive Answer (α : Type) where
  | status (r : Int)
  | value (val : Option α)
  deriving DecidableEq

def Op.key : Op α → CString
  | .insert key _ => key
  | .lookup key => key

def Htable.exec (ht : Htable α) : Op α → Except Abort (Answer α × Htable α)
  | .insert key val => do
      let (r, ht) ← htableInsert ht key val
      return (.status r, ht)
  | .lookup key => do
      let val ← htableLookup ht key
      return (.value val, ht)

def Htable.run (ht : Htable α) : List (Op α) → Except Abort (List (Answer α) × Htable α)
  | [] => .ok ([], ht)
  | op :: ops => do
      let (a, ht) ← ht.exec op
      let (as, ht) ← ht.run ops
      return (a :: as, ht)

/-- The calls `ops` on a table made by `htable_init`. -/
def runFrom (sz allowResize : Int) (ops : List (Op α)) : Except Abort (List (Answer α) × Htable α) := do
  let ht ← htableInit sz allowResize
  ht.run ops

/-- The insertions among the calls, in order. -/
def inserts (ops : List (Op α)) : List (CString × Option α) :=
  ops.filterMap fun
    | .insert key val => some (key, val)
    | .lookup _ => none

/-- The insertions of the entries, in order. -/
def insertAll (entries : List (CString × Option α)) : List (Op α) := entries.map fun e => .insert e.1 e.2

/-- The different keys that the calls insert. -/
def insertedKeys (ops : List (Op α)) : Finset CString := ((inserts ops).map Prod.fst).toFinset

theorem inserts_append (ops ops' : List (Op α)) : inserts (ops ++ ops') = inserts ops ++ inserts ops' :=
  List.filterMap_append

theorem inserts_insertAll (entries : List (CString × Option α)) : inserts (insertAll entries) = entries := by
  rw [inserts, insertAll, List.filterMap_map]
  exact List.filterMap_some

theorem card_insertedKeys_insertAll (entries : List (CString × Option α)) :
    (insertedKeys (insertAll entries)).card ≤ entries.length := by
  rw [insertedKeys, inserts_insertAll, ← List.length_map Prod.fst]
  exact List.toFinset_card_le _

theorem insertedKeys_cons (op : Op α) (ops : List (Op α)) :
    insertedKeys (op :: ops) = insertedKeys [op] ∪ insertedKeys ops := by
  rw [insertedKeys, ← List.singleton_append, inserts_append, List.map_append, List.toFinset_append]
  rfl

namespace Dict

def exec (d : Dict α) : Op α → Except Abort (Answer α × Dict α)
  | .insert key val => do
      let (r, d) ← d.insert key val
      return (.status r, d)
  | .lookup key => .ok (.value (d.lookup key), d)

def run (d : Dict α) : List (Op α) → Except Abort (List (Answer α) × Dict α)
  | [] => .ok ([], d)
  | op :: ops => do
      let (a, d) ← d.exec op
      let (as, d) ← d.run ops
      return (a :: as, d)

/-- The dictionary of a new table. -/
def new (sz allowResize : Int) : Dict α := ⟨allowResize, (nextPrime (sz.toNat + 1) : Nat), []⟩

end Dict

/-! ### What a dictionary can do -/

namespace Dict

/-- Everything an insertion can do. -/
theorem insert_cases {d d' : Dict α} {key : CString} {val : Option α} {r : Int} (h : d.insert key val = .ok (r, d')) :
    (key ∈ d.keys ∧ r = 1 ∧ d' = d) ∨
      (key ∉ d.keys ∧ r = 0 ∧ d'.entries = d.entries ++ [(key, val)] ∧
        (d'.size = d.size ∨ d'.size = (nextPrime (2 * d.size.toNat) : Nat))) := by
  rw [insert] at h
  split_ifs at h with hmem hcrowd
  · cases h
    exact .inl ⟨hmem, rfl, rfl⟩
  · obtain ⟨d₁, hgrow, hret⟩ := bind_eq_ok h
    cases hret
    rw [grow] at hgrow
    split_ifs at hgrow
    cases hgrow
    exact .inr ⟨hmem, rfl, rfl, .inr rfl⟩
  · cases h
    exact .inr ⟨hmem, rfl, rfl, .inl rfl⟩

theorem insert_error {d : Dict α} {key : CString} {val : Option α} {e : Abort} (h : d.insert key val = .error e) :
    e = .intOverflow := by
  rw [insert, grow] at h
  split_ifs at h
  · cases h
  · cases h
    rfl

theorem exec_error {d : Dict α} {op : Op α} {e : Abort} (h : d.exec op = .error e) : e = .intOverflow := by
  cases op with
  | insert key val =>
      rcases bind_eq_error h with hinsert | ⟨_, -, hret⟩
      · exact insert_error hinsert
      · cases hret
  | lookup key => cases h

/-- A call adds at most the key it inserts. -/
theorem exec_keys_subset {d d' : Dict α} {op : Op α} {a : Answer α} (h : d.exec op = .ok (a, d')) :
    d'.keys.toFinset ⊆ d.keys.toFinset ∪ insertedKeys [op] := by
  cases op with
  | insert key val =>
      obtain ⟨⟨r, d₁⟩, hinsert, hret⟩ := bind_eq_ok h
      cases hret
      rcases insert_cases hinsert with ⟨-, -, rfl⟩ | ⟨-, -, hentries, -⟩
      · exact Finset.subset_union_left
      · rw [keys, hentries, List.map_append, List.toFinset_append]
        exact le_rfl
  | lookup key =>
      cases h
      exact Finset.subset_union_left

theorem run_error {d : Dict α} {ops : List (Op α)} {e : Abort} (h : d.run ops = .error e) : e = .intOverflow := by
  induction ops generalizing d with
  | nil => cases h
  | cons op ops ih =>
      rcases bind_eq_error h with hexec | ⟨⟨a, d₁⟩, -, hrest⟩
      · exact exec_error hexec
      rcases bind_eq_error hrest with hrun | ⟨_, -, hret⟩
      · exact ih hrun
      · cases hret

end Dict

/-! ### Runs refine runs -/

theorem Refines.bind {β γ : Type} {x : Except Abort (β × Htable α)} {y : Except Abort (β × Dict α)}
    {f : β × Htable α → Except Abort (γ × Htable α)} {g : β × Dict α → Except Abort (γ × Dict α)} (h : Refines x y)
    (hfg : ∀ r ht chains, TableInv ht chains → y = .ok (r, ht.abs) → Refines (f (r, ht)) (g (r, ht.abs))) :
    Refines (x >>= f) (y >>= g) := by
  cases y with
  | error e =>
      have hx : x = .error e := h
      rw [hx, error_bind, error_bind]
      rfl
  | ok rd =>
      obtain ⟨r, d⟩ := rd
      obtain ⟨ht, chains, hx, hinv, habs⟩ := h
      rw [hx, ok_bind, ok_bind, ← habs]
      exact hfg r ht chains hinv (by rw [habs])

theorem Refines.ok {β : Type} {ht : Htable α} {chains : Nat → List Nat} (h : TableInv ht chains) (r : β) :
    Refines (.ok (r, ht)) (.ok (r, ht.abs)) :=
  ⟨ht, chains, rfl, h, rfl⟩

theorem exec_refines {ht : Htable α} {chains : Nat → List Nat} (h : TableInv ht chains) {op : Op α}
    (hkey : op.key.Hashes) (hroom : ((ht.abs.keys.toFinset ∪ insertedKeys [op]).card : Int) ≤ intMax + 1) :
    Refines (ht.exec op) (ht.abs.exec op) := by
  cases op with
  | insert key val =>
      exact (htableInsert_refines h hkey hroom val).bind fun r _ _ hinv _ => Refines.ok hinv (Answer.status r)
  | lookup key =>
      have hlookup := htableLookup_eq h (show key.Hashes from hkey)
      rw [Htable.exec, hlookup, ok_bind]
      exact Refines.ok h _

theorem run_refines {ht : Htable α} {chains : Nat → List Nat} (h : TableInv ht chains) {ops : List (Op α)}
    (hkeys : ∀ op ∈ ops, op.key.Hashes)
    (hroom : ((ht.abs.keys.toFinset ∪ insertedKeys ops).card : Int) ≤ intMax + 1) :
    Refines (ht.run ops) (ht.abs.run ops) := by
  induction ops generalizing ht chains with
  | nil => exact Refines.ok h []
  | cons op ops ih =>
      obtain ⟨hkey, hkeys⟩ := List.forall_mem_cons.mp hkeys
      rw [insertedKeys_cons, ← Finset.union_assoc] at hroom
      have hfirst : (ht.abs.keys.toFinset ∪ insertedKeys [op]).card ≤
          (ht.abs.keys.toFinset ∪ insertedKeys [op] ∪ insertedKeys ops).card :=
        Finset.card_le_card Finset.subset_union_left
      refine (exec_refines h hkey (by omega)).bind fun a ht₁ _ hinv₁ hexec => ?_
      have hrest := Finset.card_le_card
        (Finset.union_subset_union_left (t := insertedKeys ops) (Dict.exec_keys_subset hexec))
      exact (ih hinv₁ hkeys (by omega)).bind fun as _ _ hinv₂ _ => Refines.ok hinv₂ (a :: as)

theorem runFrom_refines {sz : Int} (h1 : 1 ≤ sz) (h : sz < intMax) (allowResize : Int) {ops : List (Op α)}
    (hkeys : ∀ op ∈ ops, op.key.Hashes) (hcount : ((insertedKeys ops).card : Int) ≤ intMax + 1) :
    Refines (runFrom sz allowResize ops) ((Dict.new sz allowResize).run ops) := by
  obtain ⟨ht, hinit, hinv, hnodes, hallow, hsize⟩ := htableInit_ok (α := α) h1 h allowResize
  have habs : ht.abs = Dict.new sz allowResize := by
    rw [Htable.abs, hnodes, hallow, hsize]
    rfl
  have hempty : ht.abs.keys.toFinset = ∅ := by
    rw [habs]
    rfl
  rw [runFrom, hinit, ok_bind, ← habs]
  refine run_refines hinv hkeys ?_
  rwa [hempty, Finset.empty_union]

/-- A run answers as the dictionary does, or stops with it at a resize whose doubled size is no `int`. -/
theorem runFrom_cases {sz : Int} (h1 : 1 ≤ sz) (h : sz < intMax) (allowResize : Int) {ops : List (Op α)}
    (hkeys : ∀ op ∈ ops, op.key.Hashes) (hcount : ((insertedKeys ops).card : Int) ≤ intMax + 1) :
    (∃ as ht chains, runFrom sz allowResize ops = .ok (as, ht) ∧ TableInv ht chains ∧
        (Dict.new sz allowResize).run ops = .ok (as, ht.abs)) ∨
      (runFrom sz allowResize ops = .error .intOverflow ∧
        (Dict.new sz allowResize : Dict α).run ops = .error .intOverflow) := by
  have href := runFrom_refines h1 h allowResize hkeys hcount
  cases hdict : (Dict.new sz allowResize : Dict α).run ops with
  | error e =>
      rw [hdict] at href
      obtain rfl := Dict.run_error hdict
      exact .inr ⟨href, rfl⟩
  | ok r =>
      obtain ⟨as, d⟩ := r
      rw [hdict] at href
      obtain ⟨ht, chains, hok, hinv, rfl⟩ := href
      exact .inl ⟨as, ht, chains, hok, hinv, rfl⟩

/-- A run that no resize stops completes. -/
theorem runFrom_ok {sz : Int} (h1 : 1 ≤ sz) (h : sz < intMax) (allowResize : Int) {ops : List (Op α)}
    (hkeys : ∀ op ∈ ops, op.key.IsAscii ∧ (op.key.bytes.length : Int) ≤ intMax)
    (hcount : ((insertedKeys ops).card : Int) ≤ intMax + 1) (hrun : runFrom sz allowResize ops ≠ .error .intOverflow) :
    ∃ as ht chains, runFrom sz allowResize ops = .ok (as, ht) ∧ TableInv ht chains ∧
      (Dict.new sz allowResize).run ops = .ok (as, ht.abs) := by
  have hhashes : ∀ op ∈ ops, op.key.Hashes := fun op hop => (hkeys op hop).1.hashes (hkeys op hop).2
  exact (runFrom_cases h1 h allowResize hhashes hcount).resolve_right fun herror => hrun herror.1

end CsoLabs.Table
