import CsoLabs.TableInvariant

/-! The hash table refines a dictionary. The dictionary keeps the entries in the order in which they were
inserted and nothing else, besides the size of the table, which decides when the table grows: it has no
slots, no chains and no nodes. -/

namespace CsoLabs.Table
open CLang LinkedChain

variable {α : Type}

/-- The abstract table. -/
structure Dict (α : Type) where
  allowResize : Int
  size : Int
  entries : List (CString × Option α)

namespace Dict

def keys (d : Dict α) : List CString := d.entries.map Prod.fst

/-- How many keys share the slot of `key`. -/
def crowd (d : Dict α) (key : CString) : Nat :=
  d.keys.countP fun k => slotOf d.size (hashValue k) = slotOf d.size (hashValue key)

def add (d : Dict α) (key : CString) (val : Option α) : Dict α := { d with entries := d.entries ++ [(key, val)] }

def grow (d : Dict α) : Except Abort (Dict α) :=
  if 2 * d.size ≤ intMax then .ok { d with size := (nextPrime (2 * d.size.toNat) : Nat) } else .error .intOverflow

def insert (d : Dict α) (key : CString) (val : Option α) : Except Abort (Int × Dict α) :=
  if key ∈ d.keys then .ok (1, d)
  else if d.allowResize ≠ 0 ∧ 10 ≤ d.crowd key then do
    let d ← (d.add key val).grow
    return (0, d)
  else .ok (0, d.add key val)

/-- `NULL` for a key that is not there. -/
def lookup (d : Dict α) (key : CString) : Option α := (d.entries.lookup key).join

end Dict

/-- What a table stands for. -/
def Htable.abs (ht : Htable α) : Dict α := ⟨ht.allowResize, ht.size, ht.nodes.map fun n => (n.key, n.val)⟩

theorem Htable.abs_keys (ht : Htable α) : ht.abs.keys = ht.nodes.map Node.key := by
  rw [Dict.keys, Htable.abs, List.map_map]
  rfl

theorem Htable.abs_eq (ht : Htable α) : ht.abs = ⟨ht.allowResize, ht.size, (ht.nodes.map Node.data).map Prod.snd⟩ := by
  rw [Htable.abs, List.map_map]
  rfl

/-! ### The two search loops -/

section Loops

variable {nodes : List (Node α)} {hcode : Int} {key : CString}

/-- Some node among `ids` passes the test of the loops. -/
def found (nodes : List (Node α)) (hcode : Int) (key : CString) (ids : List Nat) : Bool :=
  ids.any fun id => (nodes[id]?).any (isMatch hcode key)

/-- The loop ends as the chain says, unless the chain is so long that `collision` overflows on the way. -/
theorem insertLoop_cases {curr : Option Nat} {ids : List Nat} (h : Chain Node.next nodes curr ids) {fuel : Nat}
    (hfuel : ids.length ≤ fuel) (prev : Option Nat) {collision : Int} (h0 : 0 ≤ collision)
    (hmax : collision ≤ intMax) :
    (insertLoop nodes hcode key fuel prev curr collision =
        .ok (if found nodes hcode key ids then none else some (ids.getLast?.or prev, collision + ids.length)) ∧
        (found nodes hcode key ids = true ∨ collision + ids.length ≤ intMax)) ∨
      (intMax < collision + ids.length ∧ (found nodes hcode key ids = true → intMax + 1 < collision + ids.length) ∧
        insertLoop nodes hcode key fuel prev curr collision = .error .intOverflow) := by
  induction ids generalizing curr fuel prev collision with
  | nil =>
      obtain rfl : curr = none := h
      rw [insertLoop]
      left
      simpa [found] using hmax
  | cons id ids ih =>
      obtain ⟨rfl, n, hn, hrest⟩ := h
      obtain ⟨fuel, rfl⟩ : ∃ k, fuel = k + 1 := ⟨fuel - 1, by simp only [List.length_cons] at hfuel; omega⟩
      rw [insertLoop, deref_eq hn, ok_bind]
      have hfound : found nodes hcode key (id :: ids) = (isMatch hcode key n || found nodes hcode key ids) := by
        rw [found, List.any_cons, hn, Option.any_some]
        rfl
      rw [hfound]
      by_cases hmatch : isMatch hcode key n = true
      · rw [if_pos hmatch, hmatch]
        exact .inl ⟨rfl, .inl rfl⟩
      · have hlast : (id :: ids).getLast?.or prev = ids.getLast?.or (some id) := by
          rw [List.getLast?_cons]
          cases ids.getLast? <;> rfl
        have hlen : collision + ((id :: ids).length : Int) = collision + 1 + ids.length := by
          rw [List.length_cons]
          omega
        rw [if_neg hmatch, Bool.eq_false_iff.mpr hmatch, Bool.false_or, hlast, hlen]
        by_cases hroom : collision + 1 ≤ intMax
        · rw [checkInt_of_le (by omega) hroom, ok_bind]
          exact ih hrest (by simpa using hfuel) (some id) (by omega) hroom
        · rw [checkInt_of_lt (by omega)]
          refine .inr ⟨by omega, fun hlater => ?_, rfl⟩
          have hpos : 0 < ids.length := by
            obtain ⟨id', hid', -⟩ := List.any_eq_true.mp hlater
            exact List.length_pos_of_mem hid'
          omega

/-- The value of the first node among `ids` that passes the test. -/
def foundVal (nodes : List (Node α)) (hcode : Int) (key : CString) (ids : List Nat) : Option (Option α) :=
  ids.findSome? fun id => (nodes[id]?).bind fun n => if isMatch hcode key n then some n.val else none

theorem lookupLoop_eq {curr : Option Nat} {ids : List Nat} (h : Chain Node.next nodes curr ids) {fuel : Nat}
    (hfuel : ids.length ≤ fuel) :
    lookupLoop nodes hcode key fuel curr = .ok (foundVal nodes hcode key ids).join := by
  induction ids generalizing curr fuel with
  | nil =>
      obtain rfl : curr = none := h
      rw [lookupLoop]
      rfl
  | cons id ids ih =>
      obtain ⟨rfl, n, hn, hrest⟩ := h
      obtain ⟨fuel, rfl⟩ : ∃ k, fuel = k + 1 := ⟨fuel - 1, by simp only [List.length_cons] at hfuel; omega⟩
      rw [lookupLoop, deref_eq hn, ok_bind, foundVal, List.findSome?_cons, hn, Option.bind_some]
      by_cases hmatch : isMatch hcode key n = true
      · rw [if_pos hmatch, if_pos hmatch]
        rfl
      · rw [if_neg hmatch, if_neg hmatch, ih hrest (by simpa using hfuel)]
        rfl

theorem isMatch_iff {n : Node α} : isMatch hcode key n = true ↔ n.hashcode = hcode ∧ n.key = key := by
  rw [isMatch, Bool.and_eq_true, beq_iff_eq, beq_iff_eq]

end Loops

namespace TableInv

variable {ht : Htable α} {chains : Nat → List Nat} {key : CString}

theorem slot_bounds (h : TableInv ht chains) (hcode : 0 ≤ hashValue key) :
    slotOf ht.size (hashValue key) < ht.store.heads.length := by
  have hlt := slotOf_lt h.size_pos hcode
  have hlen := ht.store.length_eq
  omega

/-- A node is in the chain of its key. -/
theorem mem_chain (h : TableInv ht chains) {id : Nat} {n : Node α} (hn : ht.nodes[id]? = some n) :
    id ∈ chains (slotOf ht.size (hashValue n.key)) := by
  obtain ⟨hid, -⟩ := List.getElem?_eq_some_iff.mp hn
  have hmem := List.mem_of_getElem? hn
  have hhome : home ht.size ht.nodes id = slotOf ht.size n.hashcode := home_eq hn
  rw [h.hash_eq hmem] at hhome
  rw [h.buckets.mem_iff _ (h.slot_bounds (h.hash_eq hmem ▸ (h.hash hmem).2))]
  exact ⟨hid, hhome⟩

/-- The search of one chain decides whether the key is in the table. -/
theorem found_iff (h : TableInv ht chains) :
    found ht.nodes (hashValue key) key (chains (slotOf ht.size (hashValue key))) = true ↔ key ∈ ht.abs.keys := by
  rw [Htable.abs_keys, found, List.any_eq_true, List.mem_map]
  constructor
  · rintro ⟨id, -, hmatch⟩
    obtain ⟨n, hn, hmatch⟩ := (Option.any_eq_true _ _).mp hmatch
    exact ⟨n, List.mem_of_getElem? hn, (isMatch_iff.mp hmatch).2⟩
  · rintro ⟨n, hn, rfl⟩
    obtain ⟨id, hid⟩ := List.mem_iff_getElem?.mp hn
    refine ⟨id, h.mem_chain hid, ?_⟩
    rw [hid, Option.any_some]
    exact isMatch_iff.mpr ⟨h.hash_eq hn, rfl⟩

theorem keys_nodup (h : TableInv ht chains) : ht.abs.keys.Nodup := by
  have hkeys : ht.abs.keys = (ht.nodes.map Node.data).map (·.2.1) := by
    rw [Htable.abs_keys, List.map_map]
    rfl
  rw [hkeys]
  exact h.data.keys_nodup

theorem lookup_of_mem {entries : List (CString × Option α)} (hnodup : (entries.map Prod.fst).Nodup) {val : Option α}
    (hmem : (key, val) ∈ entries) : entries.lookup key = some val := by
  induction entries with
  | nil => cases hmem
  | cons e entries ih =>
      obtain ⟨k, v⟩ := e
      rw [List.map_cons, List.nodup_cons] at hnodup
      rcases List.mem_cons.mp hmem with heq | hrest
      · cases heq
        exact List.lookup_cons_self
      · have hne : key ≠ k := fun heq => hnodup.1 (heq ▸ List.mem_map.mpr ⟨_, hrest, rfl⟩)
        rw [List.lookup_cons, beq_false_of_ne hne]
        exact ih hnodup.2 hrest

/-- The search of one chain finds the value of the key, wherever it was inserted. -/
theorem foundVal_eq (h : TableInv ht chains) :
    foundVal ht.nodes (hashValue key) key (chains (slotOf ht.size (hashValue key))) = ht.abs.entries.lookup key := by
  cases hval : foundVal ht.nodes (hashValue key) key (chains (slotOf ht.size (hashValue key))) with
  | some val =>
      obtain ⟨id, -, hid⟩ := List.exists_of_findSome?_eq_some hval
      obtain ⟨n, hn, hif⟩ := Option.bind_eq_some_iff.mp hid
      split_ifs at hif with hmatch
      obtain ⟨-, hkey⟩ := isMatch_iff.mp hmatch
      refine (lookup_of_mem h.keys_nodup (List.mem_map.mpr ⟨n, List.mem_of_getElem? hn, ?_⟩)).symm
      rw [hkey, Option.some.inj hif]
  | none =>
      symm
      rw [List.lookup_eq_none_iff]
      rintro ⟨k, v⟩ hmem
      obtain ⟨n, hn, heq⟩ := List.mem_map.mp hmem
      cases heq
      refine bne_iff_ne.mpr ?_
      rintro rfl
      obtain ⟨id, hid⟩ := List.mem_iff_getElem?.mp hn
      have hnone := List.findSome?_eq_none_iff.mp hval id (h.mem_chain hid)
      rw [hid, Option.bind_some, if_pos (isMatch_iff.mpr ⟨h.hash_eq hn, rfl⟩)] at hnone
      cases hnone

/-- The length of a chain is the number of keys that share its slot. -/
theorem length_chain (h : TableInv ht chains) (hcode : 0 ≤ hashValue key) :
    (chains (slotOf ht.size (hashValue key))).length = ht.abs.crowd key := by
  have hcount : ∀ slots : List Nat, (List.range slots.length).countP (slots.getD · 0 = slotOf ht.size (hashValue key)) =
      slots.countP (· = slotOf ht.size (hashValue key)) := by
    intro slots
    have hself : (List.range slots.length).map (slots.getD · 0) = slots := by
      refine List.ext_getElem (by simp) fun i hi hi' => ?_
      rw [List.getElem_map, List.getElem_range, List.getD_eq_getElem _ _ hi']
    conv_rhs => rw [← hself, List.countP_map]
    rfl
  have hslots := hcount (ht.nodes.map (slotOf ht.size ·.hashcode))
  rw [List.length_map] at hslots
  rw [h.buckets.length_eq (h.slot_bounds hcode), Dict.crowd, Htable.abs_keys, List.countP_map]
  refine hslots.trans ?_
  rw [List.countP_map]
  refine List.countP_congr fun n hn => ?_
  simp only [Function.comp_apply, decide_eq_true_eq, h.hash_eq hn]
  rfl

/-! ### `htable_insert` -/

theorem dataOk_append {data : List (Int × CString × Option α)} (hdata : DataOk data) (hcode : key.Hashes)
    (hkey : key ∉ data.map (·.2.1)) (val : Option α) : DataOk (data ++ [(hashValue key, key, val)]) := by
  refine ⟨fun x hx => ?_, ?_⟩
  · rcases List.mem_append.mp hx with hx | hx
    · exact hdata.hash x hx
    · rw [List.mem_singleton.mp hx]
      exact ⟨hcode.hashcode_eq, hcode.nonneg⟩
  · rw [List.map_append, List.map_singleton, ← List.concat_eq_append, List.nodup_concat]
    exact ⟨hkey, hdata.keys_nodup⟩

/-- The chains with a node just allocated, before it is linked. -/
theorem allocated (h : TableInv ht chains) (n : Node α) :
    Buckets Node.next (ht.nodes ++ [n]) ht.store.heads (· < ht.nodes.length) (home ht.size (ht.nodes ++ [n])) chains :=
  h.buckets.congr (fun _ hid => List.getElem?_append_left hid) (fun _ => Iff.rfl) fun _ hid => home_append n hid

theorem home_new (size : Int) (nodes : List (Node α)) (n : Node α) :
    home size (nodes ++ [n]) nodes.length = slotOf size n.hashcode :=
  home_eq List.getElem?_concat_length

/-- A table whose new node `n` is linked. -/
theorem of_linked (h : TableInv ht chains) (hcode : key.Hashes) (hkey : key ∉ ht.abs.keys) {n : Node α}
    (hdata : n.data = (hashValue key, key, n.val)) {nodes' : List (Node α)}
    (hnodes : nodes'.map Node.data = (ht.nodes ++ [n]).map Node.data) {store : Slots ht.size}
    {chains' : Nat → List Nat} (hb : Buckets Node.next nodes' store.heads
      (fun id => id = ht.nodes.length ∨ id < ht.nodes.length) (home ht.size (ht.nodes ++ [n])) chains') :
    TableInv ⟨ht.allowResize, ht.size, store, nodes'⟩ chains' ∧
      Htable.abs ⟨ht.allowResize, ht.size, store, nodes'⟩ = ht.abs.add key n.val := by
  have happend : (ht.nodes ++ [n]).map Node.data = ht.nodes.map Node.data ++ [(hashValue key, key, n.val)] := by
    rw [List.map_append, List.map_singleton, hdata]
  have hlen : nodes'.length = ht.nodes.length + 1 := by simpa using congrArg List.length hnodes
  refine ⟨⟨h.size_pos, ?_, ?_⟩, ?_⟩
  · refine hb.congr (fun _ _ => rfl) (fun id => ?_) fun id _ => by rw [home_congr hnodes]
    rw [hlen]
    omega
  · change DataOk (nodes'.map Node.data)
    rw [hnodes, happend]
    refine dataOk_append h.data hcode ?_ n.val
    rwa [Htable.abs_keys, show ht.nodes.map Node.key = (ht.nodes.map Node.data).map (·.2.1) by
      rw [List.map_map]; rfl] at hkey
  · rw [Htable.abs_eq, hnodes, happend, List.map_append, Htable.abs_eq]
    rfl

/-- Linking a new node at the end of its chain. -/
theorem linkNode (h : TableInv ht chains) (hcode : key.Hashes) (hkey : key ∉ ht.abs.keys) (val : Option α) :
    ∃ (ht' : Htable α) (chains' : Nat → List Nat),
      Table.linkNode ht ((hashValue key).tmod ht.size) (chains (slotOf ht.size (hashValue key))).getLast?
        ⟨hashValue key, key, val, none⟩ = .ok ht' ∧
      TableInv ht' chains' ∧ ht'.abs = ht.abs.add key val := by
  have hb := h.allocated ⟨hashValue key, key, val, none⟩
  have hnew := home_new ht.size ht.nodes ⟨hashValue key, key, val, none⟩
  rcases List.eq_nil_or_concat' (chains (slotOf ht.size (hashValue key))) with hnil | ⟨ids, p, hids⟩
  · obtain ⟨store, hset, hheads⟩ := ht.store.set_eq (tmod_bounds h.size_pos hcode.nonneg) (some ht.nodes.length)
    have hperm : [ht.nodes.length].Perm (ht.nodes.length :: chains (slotOf ht.size (hashValue key))) := by rw [hnil]
    have hb' := hb.update hnew (lt_irrefl _) hperm (Chain.cons List.getElem?_concat_length Chain.nil) fun _ _ _ => rfl
    obtain ⟨hinv, habs⟩ := h.of_linked hcode hkey rfl rfl (hheads.symm ▸ hb')
    refine ⟨_, _, ?_, hinv, habs⟩
    rw [hnil, List.getLast?_nil, Table.linkNode, hset, ok_bind]
    rfl
  · have hslot := h.slot_bounds hcode.nonneg
    have hmem : p ∈ chains (slotOf ht.size (hashValue key)) :=
      hids ▸ List.mem_append_right _ (List.mem_singleton_self p)
    have hp : p < ht.nodes.length := ((h.buckets.mem_iff _ hslot p).mp hmem).1
    have hq := List.getElem?_eq_getElem hp
    have hqNew : (ht.nodes ++ [⟨hashValue key, key, val, none⟩])[p]? = some ht.nodes[p] :=
      (List.getElem?_append_left hp).trans hq
    have hother : ∀ j, j ≠ p → ((ht.nodes ++ [(⟨hashValue key, key, val, none⟩ : Node α)]).set p
        { ht.nodes[p] with next := some ht.nodes.length })[j]? = _ := fun j hj => List.getElem?_set_ne (Ne.symm hj)
    have hb' := hb.snoc hnew (lt_irrefl _) hslot hids hother
      (List.getElem?_set_self (List.getElem?_eq_some_iff.mp hqNew).1) rfl
      ((hother _ hp.ne').trans List.getElem?_concat_length) rfl
    obtain ⟨hinv, habs⟩ := h.of_linked hcode hkey rfl (map_data_set hqNew _) hb'
    refine ⟨_, _, ?_, hinv, habs⟩
    rw [hids, List.getLast?_concat, Table.linkNode, deref_eq hq, ok_bind, List.set_append_left _ _ hp]
    rfl

/-- `htable_resize` is `Dict.grow`. -/
theorem resize_abs (h : TableInv ht chains) {d : Dict α} (hgrow : ht.abs.grow = .ok d) :
    ∃ (ht' : Htable α) (chains' : Nat → List Nat), htableResize ht = .ok ht' ∧ TableInv ht' chains' ∧ ht'.abs = d := by
  rw [Dict.grow] at hgrow
  split_ifs at hgrow with hsize
  cases hgrow
  obtain ⟨ht', chains', hrun, hinv, hdata, hallow, hnew⟩ := h.resize hsize
  refine ⟨ht', chains', hrun, hinv, ?_⟩
  rw [Htable.abs_eq, hdata, hallow, hnew, Htable.abs_eq]

end TableInv

/-! ### Refinement -/

/-- The concrete outcome `x` is the abstract outcome `y`: the same error, or the same answer and a table
that stands for the dictionary. -/
def Refines {β : Type} (x : Except Abort (β × Htable α)) (y : Except Abort (β × Dict α)) : Prop :=
  match y with
  | .error e => x = .error e
  | .ok (r, d) => ∃ ht chains, x = .ok (r, ht) ∧ TableInv ht chains ∧ ht.abs = d

/-- **`htable_insert` refines the insertion into a dictionary**, for a key with a hash code that is not negative. It
stops instead where the chain of a new key has more nodes than an `int` can count. -/
theorem htableInsert_cases {ht : Htable α} {chains : Nat → List Nat} (h : TableInv ht chains) {key : CString}
    (hcode : key.Hashes) (val : Option α) :
    (Refines (htableInsert ht key val) (ht.abs.insert key val) ∧
        (key ∈ ht.abs.keys ∨ (ht.abs.crowd key : Int) ≤ intMax)) ∨
      (intMax < ht.abs.crowd key ∧ (key ∈ ht.abs.keys → intMax + 1 < ht.abs.crowd key) ∧
        htableInsert ht key val = .error .intOverflow) := by
  obtain ⟨head, hget, hhead⟩ := ht.store.get_eq (tmod_bounds h.size_pos hcode.nonneg)
  have hchain : Chain Node.next ht.nodes head (chains (slotOf ht.size (hashValue key))) :=
    h.buckets.linked _ _ hhead
  have hfuel := hchain.length_le (h.buckets.nodup _ (h.slot_bounds hcode.nonneg))
  have hloop := @insertLoop_cases α ht.nodes (hashValue key) key head _ hchain _ hfuel none 0 le_rfl (by decide)
  rw [Option.or_none, zero_add, h.length_chain hcode.nonneg] at hloop
  rcases hloop with ⟨hloop, hroom⟩ | ⟨hlong, hlonger, hloop⟩
  swap
  · refine .inr ⟨hlong, fun hmem => hlonger (h.found_iff.mpr hmem), ?_⟩
    simp only [htableInsert, hcode.hashcode_eq, hget, ok_bind, hloop, error_bind]
  refine .inl ⟨?_, hroom.imp_left h.found_iff.mp⟩
  by_cases hmem : key ∈ ht.abs.keys
  · rw [if_pos (h.found_iff.mpr hmem)] at hloop
    rw [Dict.insert, if_pos hmem]
    refine ⟨ht, chains, ?_, h, rfl⟩
    simp only [htableInsert, hcode.hashcode_eq, hget, ok_bind, hloop, pure_eq_ok]
  · rw [if_neg (mt h.found_iff.mp hmem)] at hloop
    obtain ⟨ht₁, chains₁, hlink, hinv₁, habs₁⟩ := h.linkNode hcode hmem val
    have hallow : ht₁.allowResize = ht.abs.allowResize := congrArg Dict.allowResize habs₁
    have hcond : (ht₁.allowResize ≠ 0 ∧ (ht.abs.crowd key : Int) ≥ maxCollision) ↔
        (ht.abs.allowResize ≠ 0 ∧ 10 ≤ ht.abs.crowd key) := by
      rw [hallow, maxCollision]
      exact and_congr_right fun _ => by omega
    simp only [htableInsert, hcode.hashcode_eq, hget, ok_bind, hloop, hlink, pure_eq_ok, Dict.insert, if_neg hmem,
      hcond]
    by_cases hcrowd : ht.abs.allowResize ≠ 0 ∧ 10 ≤ ht.abs.crowd key
    · rw [if_pos hcrowd, if_pos hcrowd, ← habs₁]
      cases hgrow : ht₁.abs.grow with
      | ok d =>
          obtain ⟨ht₂, chains₂, hresize, hinv₂, habs₂⟩ := hinv₁.resize_abs hgrow
          exact ⟨ht₂, chains₂, by rw [hresize, ok_bind], hinv₂, habs₂⟩
      | error e =>
          rw [Dict.grow] at hgrow
          split_ifs at hgrow with hsize
          cases hgrow
          rw [TableInv.resize_overflow (lt_of_not_ge hsize), error_bind]
          rfl
    · rw [if_neg hcrowd, if_neg hcrowd]
      exact ⟨ht₁, chains₁, rfl, hinv₁, habs₁⟩

theorem Dict.crowd_le (d : Dict α) (key : CString) : d.crowd key ≤ d.keys.length :=
  List.countP_le_length

/-- With no more keys than `collision` can count there is no other way out. -/
theorem htableInsert_refines {ht : Htable α} {chains : Nat → List Nat} (h : TableInv ht chains) {key : CString}
    (hcode : key.Hashes) (hroom : ((ht.abs.keys.toFinset ∪ {key}).card : Int) ≤ intMax + 1) (val : Option α) :
    Refines (htableInsert ht key val) (ht.abs.insert key val) := by
  rcases htableInsert_cases h hcode val with ⟨hrefines, -⟩ | ⟨hlong, hlonger, -⟩
  · exact hrefines
  · have hcrowd := ht.abs.crowd_le key
    rw [← List.toFinset_card_of_nodup h.keys_nodup] at hcrowd
    by_cases hmem : key ∈ ht.abs.keys
    · have := hlonger hmem
      rw [Finset.union_eq_left.mpr (Finset.singleton_subset_iff.mpr (List.mem_toFinset.mpr hmem))] at hroom
      omega
    · rw [Finset.union_comm, ← Finset.insert_eq, Finset.card_insert_of_notMem (mt List.mem_toFinset.mp hmem)] at hroom
      omega

theorem htableLookup_eq {ht : Htable α} {chains : Nat → List Nat} (h : TableInv ht chains) {key : CString}
    (hcode : key.Hashes) : htableLookup ht key = .ok (ht.abs.lookup key) := by
  obtain ⟨head, hget, hhead⟩ := ht.store.get_eq (tmod_bounds h.size_pos hcode.nonneg)
  have hchain := h.buckets.linked _ _ hhead
  have hfuel := hchain.length_le (h.buckets.nodup _ (h.slot_bounds hcode.nonneg))
  have hloop : lookupLoop ht.nodes (hashValue key) key ht.nodes.length head =
      .ok (foundVal ht.nodes (hashValue key) key (chains (slotOf ht.size (hashValue key)))).join :=
    lookupLoop_eq hchain hfuel
  rw [h.foundVal_eq] at hloop
  simp only [htableLookup, hcode.hashcode_eq, hget, ok_bind, hloop]
  rfl

end CsoLabs.Table
