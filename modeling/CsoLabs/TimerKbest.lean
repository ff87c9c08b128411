import CsoLabs.CLang
import CsoLabs.KSmallest

/-! The K-best scheme of `fcyc.c`. A sampler keeps an array of `kbest` measurements, and `add_sample` puts a new one
in its place by the inner loop of insertion sort, which starts at the end of what is filled, at the last element
when the new measurement is below it, and at `0`, where it does nothing, when the measurement is not kept.

A measurement is a value of any linear order, and so not a NaN. What `f` takes, run after run, is a stream. -/

namespace CsoLabs.Timer
open CLang KSmallest

variable {α : Type}

/-- `values` and `samplecount`. -/
structure Sampler (α : Type) where
  values : List α
  samplecount : Nat
  deriving DecidableEq, Repr

/-- The parameters of the measurement routines. `within` stands for the comparison of `has_converged`, of `values[0]`
times `1 + epsilon` with `values[kbest-1]`, which is one of `double`s. -/
structure Params (α : Type) where
  kbest : Nat
  maxsamples : Int
  within : α → α → Bool

/-- `values[i]` -/
def load (values : List α) (i : Nat) : Except Abort α :=
  match values[i]? with
  | none => .error .outOfBounds
  | some v => .ok v

/-- `values[i] = v` -/
def store (values : List α) (i : Nat) (v : α) : Except Abort (List α) :=
  if i < values.length then .ok (values.set i v) else .error .outOfBounds

/-- `calloc` fills the array with zeros. -/
def initSampler [Zero α] (kbest : Nat) : Sampler α := { values := List.replicate kbest 0, samplecount := 0 }

/-- The insertion loop, down from `pos`. -/
def insertLoop [LT α] [DecidableLT α] : Nat → List α → Except Abort (List α)
  | 0, values => .ok values
  | pos + 1, values => do
      let left ← load values pos
      let right ← load values (pos + 1)
      if left > right then
        let values ← store values pos right
        let values ← store values (pos + 1) left
        insertLoop pos values
      else return values

/-- Where the insertion loop starts, and the array it starts with. -/
def place [LT α] [DecidableLT α] (kbest : Nat) (s : Sampler α) (val : α) : Except Abort (Nat × List α) :=
  if s.samplecount < kbest then do
    let values ← store s.values s.samplecount val
    return (s.samplecount, values)
  else do
    let worst ← load s.values (kbest - 1)
    if val < worst then
      let values ← store s.values (kbest - 1) val
      return (kbest - 1, values)
    else return (0, s.values)

def addSample [LT α] [DecidableLT α] (kbest : Nat) (s : Sampler α) (val : α) : Except Abort (Sampler α) := do
  let (pos, values) ← place kbest s val
  let _ ← checkInt (s.samplecount + 1)
  let values ← insertLoop pos values
  return { values := values, samplecount := s.samplecount + 1 }

/-- One `add_sample` for each measurement, in order. -/
def addSamples [LT α] [DecidableLT α] (kbest : Nat) : List α → Sampler α → Except Abort (Sampler α)
  | [], s => .ok s
  | x :: xs, s => do
      let s ← addSample kbest s x
      addSamples kbest xs s

def hasConverged (p : Params α) (s : Sampler α) : Except Abort Bool :=
  if s.samplecount ≥ p.kbest then do
    let best ← load s.values 0
    let worst ← load s.values (p.kbest - 1)
    return p.within best worst
  else .ok false

/-- The loop of `fcyc` from measurement `i` on, and the number of measurements made. The two loops of the source
differ in the counter that makes the measurement. -/
def sampleLoop [LT α] [DecidableLT α] (p : Params α) (cyc : Nat → α) :
    Nat → Nat → Sampler α → Except Abort (Sampler α × Nat)
  | 0, _, _ => .error .diverges
  | fuel + 1, i, s => do
      let s ← addSample p.kbest s (cyc i)
      let converged ← hasConverged p s
      if converged = false ∧ (s.samplecount : Int) < p.maxsamples then sampleLoop p cyc fuel (i + 1) s
      else return (s, i + 1)

/-- What `fcyc` returns, and the number of measurements made. -/
def fcyc [LT α] [DecidableLT α] [Zero α] (p : Params α) (cyc : Nat → α) (fuel : Nat) : Except Abort (α × Nat) := do
  let (s, n) ← sampleLoop p cyc fuel 0 (initSampler p.kbest)
  let result ← load s.values 0
  return (result, n)

/-- The first `n` measurements. -/
def drawn (cyc : Nat → α) (n : Nat) : List α := (List.range n).map cyc

theorem drawn_succ (cyc : Nat → α) (n : Nat) : drawn cyc (n + 1) = drawn cyc n ++ [cyc n] := by
  rw [drawn, drawn, List.range_succ, List.map_append, List.map_singleton]

theorem length_drawn (cyc : Nat → α) (n : Nat) : (drawn cyc n).length = n := by
  rw [drawn, List.length_map, List.length_range]

theorem mem_drawn (cyc : Nat → α) (n : Nat) (x : α) : x ∈ drawn cyc n ↔ ∃ i < n, cyc i = x := by
  rw [drawn, List.mem_map]
  exact exists_congr fun i => by rw [List.mem_range]

/-! ### The insertion loop -/

theorem load_append (left right : List α) (a : α) : load (left ++ a :: right) left.length = .ok a := by
  rw [load, List.getElem?_append_right le_rfl, Nat.sub_self, List.getElem?_cons_zero]

theorem store_append (left right : List α) (a b : α) :
    store (left ++ a :: right) left.length b = .ok (left ++ b :: right) := by
  rw [store, if_pos (by rw [List.length_append, List.length_cons]; omega), List.set_append_right _ _ le_rfl,
    Nat.sub_self, List.set_cons_zero]

section Order
variable [LinearOrder α]

/-- One turn of the loop, at two neighbours. -/
theorem insertLoop_succ (left right : List α) (a b : α) :
    insertLoop (left.length + 1) (left ++ a :: b :: right) =
      if b < a then insertLoop left.length (left ++ b :: a :: right) else .ok (left ++ a :: b :: right) := by
  have hsplit : ∀ c d : α, left ++ c :: d :: right = (left ++ [c]) ++ d :: right := by
    intro c d
    rw [List.append_assoc, List.singleton_append]
  have hlen : ∀ c : α, left.length + 1 = (left ++ [c]).length := by
    intro c
    rw [List.length_append, List.length_singleton]
  have hright : load (left ++ a :: b :: right) (left.length + 1) = .ok b := by
    rw [hsplit, hlen a, load_append]
  have hstore : store (left ++ b :: b :: right) (left.length + 1) a = .ok (left ++ b :: a :: right) := by
    rw [hsplit, hlen b, store_append, ← hsplit]
  rw [insertLoop, load_append, ok_bind, hright, ok_bind]
  by_cases hlt : b < a
  · rw [if_pos hlt, if_pos hlt, store_append, ok_bind, hstore, ok_bind]
  · rw [if_neg hlt, if_neg hlt, pure_eq_ok]

/-- The loop moves the element at `pos` to its place among the sorted ones before it. -/
theorem insertLoop_spec (kept rest : List α) (v : α) (hsorted : kept.Pairwise (· ≤ ·)) :
    ∃ kept' : List α, insertLoop kept.length (kept ++ v :: rest) = .ok (kept' ++ rest) ∧
      kept'.Pairwise (· ≤ ·) ∧ kept'.Perm (v :: kept) := by
  -- from the end of the sorted part to its beginning; what is passed joins the rest
  induction kept using List.reverseRecOn generalizing rest with
  | nil => exact ⟨[v], rfl, List.pairwise_singleton _ v, List.Perm.refl _⟩
  | append_singleton kept a ih =>
      obtain ⟨hkept, -, hlast⟩ := List.pairwise_append.mp hsorted
      have hle : ∀ b ∈ kept, b ≤ a := fun b hb => hlast b hb a (List.mem_singleton_self a)
      rw [List.length_append, List.length_singleton, List.append_assoc, List.singleton_append, insertLoop_succ]
      by_cases hlt : v < a
      · obtain ⟨kept', hrun, hsorted', hperm⟩ := ih (a :: rest) hkept
        refine ⟨kept' ++ [a], ?_, ?_, ?_⟩
        · rw [if_pos hlt, hrun, List.append_assoc, List.singleton_append]
        · refine List.pairwise_append.mpr ⟨hsorted', List.pairwise_singleton _ a, ?_⟩
          intro b hb c hc
          obtain rfl := List.mem_singleton.mp hc
          rcases List.mem_cons.mp (hperm.mem_iff.mp hb) with rfl | hb
          · exact hlt.le
          · exact hle b hb
        · rw [← List.cons_append]
          exact hperm.append_right [a]
      · refine ⟨(kept ++ [a]) ++ [v], ?_, ?_, List.perm_append_singleton v (kept ++ [a])⟩
        · rw [if_neg hlt, List.append_assoc, List.append_assoc, List.singleton_append, List.singleton_append]
        · refine List.pairwise_append.mpr ⟨hsorted, List.pairwise_singleton _ v, ?_⟩
          intro b hb c hc
          obtain rfl := List.mem_singleton.mp hc
          rcases List.mem_append.mp hb with hb | hb
          · exact (hle b hb).trans (not_lt.mp hlt)
          · exact (List.mem_singleton.mp hb).le.trans (not_lt.mp hlt)

/-! ### What a sampler keeps -/

/-- The sampler after the measurements `xs`: the part of the array that is filled holds the smallest ones. -/
structure Keeps (k : Nat) (s : Sampler α) (xs : List α) : Prop where
  count_eq : s.samplecount = xs.length
  length_eq : s.values.length = k
  exists_kept : ∃ kept unused, s.values = kept ++ unused ∧ IsSmallest k kept xs

theorem keeps_initSampler [Zero α] (k : Nat) : Keeps k (initSampler k : Sampler α) [] :=
  ⟨rfl, List.length_replicate, [], List.replicate k 0, rfl, isSmallest_nil k⟩

theorem Keeps.take_eq {k : Nat} {s : Sampler α} {xs : List α} (h : Keeps k s xs) :
    s.values.take (min xs.length k) = (xs.insertionSort (· ≤ ·)).take (min xs.length k) := by
  obtain ⟨kept, unused, hvalues, hkept⟩ := h.exists_kept
  rw [hvalues, ← hkept.length_eq, List.take_left, hkept.length_eq]
  exact hkept.eq_take

/-- A full array, at its last element. -/
theorem Keeps.exists_last {k : Nat} {s : Sampler α} {xs : List α} (h : Keeps k s xs) (hk : 1 ≤ k)
    (hfull : k ≤ xs.length) :
    ∃ kept w, s.values = kept ++ [w] ∧ kept.length = k - 1 ∧ IsSmallest k (kept ++ [w]) xs := by
  obtain ⟨kept, unused, hvalues, hkept⟩ := h.exists_kept
  have hlen := h.length_eq
  have hkeptLen := hkept.length_eq
  rw [hvalues, List.length_append] at hlen
  obtain rfl : unused = [] := List.length_eq_zero_iff.mp (by omega)
  rw [List.append_nil] at hvalues
  rcases List.eq_nil_or_concat kept with rfl | ⟨kept, w, rfl⟩
  · rw [List.length_nil] at hkeptLen
    omega
  · rw [List.concat_eq_append] at hvalues hkept hkeptLen
    rw [List.length_append, List.length_singleton] at hkeptLen
    exact ⟨kept, w, hvalues, by omega, hkept⟩

/-- The new measurement stands at `pos` behind a sorted part, all of which is kept together with it. -/
def Inserts (k : Nat) (xs : List α) (v : α) (pos : Nat) (values : List α) : Prop :=
  ∃ kept rest : List α, pos = kept.length ∧ values = kept ++ v :: rest ∧ values.length = k ∧ kept.Pairwise (· ≤ ·) ∧
    ∀ kept', kept'.Pairwise (· ≤ ·) → kept'.Perm (v :: kept) → IsSmallest k kept' (xs ++ [v])

theorem Keeps.place_of_room {k : Nat} {s : Sampler α} {xs : List α} (h : Keeps k s xs) (v : α)
    (hroom : xs.length < k) : ∃ pos values, place k s v = .ok (pos, values) ∧ Inserts k xs v pos values := by
  obtain ⟨kept, unused, hvalues, hkept⟩ := h.exists_kept
  have hlen := h.length_eq
  have hkeptLen : kept.length = xs.length := by
    rw [hkept.length_eq]
    omega
  rw [hvalues, List.length_append] at hlen
  cases unused with
  | nil =>
      rw [List.length_nil] at hlen
      omega
  | cons z rest =>
      refine ⟨_, _, ?_, kept, rest, rfl, rfl, ?_, hkept.sorted, fun kept' => hkept.add hroom⟩
      · rw [place, h.count_eq, if_pos hroom, hvalues, ← hkeptLen, store_append, ok_bind, pure_eq_ok]
      · rw [List.length_append, List.length_cons]
        rw [List.length_cons] at hlen
        exact hlen

/-- A full array: the last measurement kept is replaced, or the new one is dropped. -/
theorem Keeps.place_of_full {k : Nat} {s : Sampler α} {xs : List α} (h : Keeps k s xs) (hk : 1 ≤ k) (v : α)
    (hfull : k ≤ xs.length) :
    (∃ pos values, place k s v = .ok (pos, values) ∧ Inserts k xs v pos values) ∨
      (place k s v = .ok (0, s.values) ∧ Keeps k { s with samplecount := s.samplecount + 1 } (xs ++ [v])) := by
  obtain ⟨kept, w, hvalues, hlen, hkept⟩ := h.exists_last hk hfull
  have hload : load s.values (k - 1) = .ok w := by
    rw [hvalues, ← hlen, load_append]
  rw [place, h.count_eq, if_neg (not_lt.mpr hfull), hload, ok_bind]
  by_cases hlt : v < w
  · left
    refine ⟨_, _, ?_, kept, [], rfl, rfl, ?_, (List.pairwise_append.mp hkept.sorted).1,
      fun kept' => hkept.replace hfull hlt⟩
    · rw [if_pos hlt, hvalues, ← hlen, store_append, ok_bind, pure_eq_ok]
    · rw [List.length_append, List.length_singleton]
      omega
  · right
    refine ⟨if_neg hlt, ?_, h.length_eq, kept ++ [w], [], ?_, hkept.discard hfull (not_lt.mp hlt)⟩
    · rw [List.length_append, List.length_singleton]
    · rw [List.append_nil, hvalues]

/-- The loop ends with the new measurement in its place. -/
theorem Inserts.insertLoop {k pos : Nat} {xs values : List α} {v : α} (h : Inserts k xs v pos values) :
    ∃ values', insertLoop pos values = .ok values' ∧ Keeps k ⟨values', (xs ++ [v]).length⟩ (xs ++ [v]) := by
  obtain ⟨kept, rest, rfl, rfl, hlen, hsorted, hkeep⟩ := h
  obtain ⟨kept', hrun, hsorted', hperm⟩ := insertLoop_spec kept rest v hsorted
  refine ⟨kept' ++ rest, hrun, rfl, ?_, kept', rest, rfl, hkeep kept' hsorted' hperm⟩
  rw [List.length_append, hperm.length_eq, ← hlen, List.length_append, List.length_cons, List.length_cons]
  omega

/-- The array after `add_sample`, before the counter is looked at. -/
theorem Keeps.addSample_eq {k : Nat} {s : Sampler α} {xs : List α} (h : Keeps k s xs) (hk : 1 ≤ k) (v : α) :
    ∃ s', Keeps k s' (xs ++ [v]) ∧
      addSample k s v = (checkInt ((xs.length : Int) + 1) >>= fun _ => .ok s') := by
  have hcount : s.samplecount + 1 = (xs ++ [v]).length := by
    rw [h.count_eq, List.length_append, List.length_singleton]
  have hplace : (∃ pos values, place k s v = .ok (pos, values) ∧ Inserts k xs v pos values) ∨
      (place k s v = .ok (0, s.values) ∧ Keeps k { s with samplecount := s.samplecount + 1 } (xs ++ [v])) := by
    by_cases hroom : xs.length < k
    · exact .inl (h.place_of_room v hroom)
    · exact h.place_of_full hk v (not_lt.mp hroom)
  rcases hplace with ⟨pos, values, hplace, hinserts⟩ | ⟨hplace, hkeep⟩
  · obtain ⟨values', hrun, hkeep⟩ := hinserts.insertLoop
    refine ⟨_, hkeep, ?_⟩
    rw [addSample, hplace, ok_bind, ← hcount, h.count_eq]
    dsimp only
    rw [hrun]
    rfl
  · refine ⟨_, hkeep, ?_⟩
    rw [addSample, hplace, ok_bind, h.count_eq]
    rfl

/-- `add_sample` keeps the smallest measurements, up to `INT_MAX` of them. -/
theorem Keeps.addSample_ok {k : Nat} {s : Sampler α} {xs : List α} (h : Keeps k s xs) (hk : 1 ≤ k) (v : α)
    (hcount : (xs.length : Int) + 1 ≤ intMax) :
    ∃ s', addSample k s v = .ok s' ∧ Keeps k s' (xs ++ [v]) := by
  obtain ⟨s', hkeep, hrun⟩ := h.addSample_eq hk v
  rw [checkInt_of_le (by omega) hcount, ok_bind] at hrun
  exact ⟨s', hrun, hkeep⟩

theorem Keeps.addSamples_ok {k : Nat} (hk : 1 ≤ k) (ys : List α) {s : Sampler α} {xs : List α} (h : Keeps k s xs)
    (hcount : ((xs ++ ys).length : Int) ≤ intMax) :
    ∃ s', addSamples k ys s = .ok s' ∧ Keeps k s' (xs ++ ys) := by
  induction ys generalizing s xs with
  | nil => exact ⟨s, rfl, by rwa [List.append_nil]⟩
  | cons y ys ih =>
      have hlen : xs.length + 1 ≤ (xs ++ y :: ys).length := by
        rw [List.length_append, List.length_cons]
        omega
      obtain ⟨s₁, hrun, hkeep⟩ := h.addSample_ok hk y (by omega)
      rw [List.append_cons] at hcount
      obtain ⟨s₂, hrest, hkeep'⟩ := ih hkeep hcount
      refine ⟨s₂, ?_, ?_⟩
      · rw [addSamples, hrun, ok_bind, hrest]
      · rwa [List.append_cons]

/-- The next one overflows the counter. -/
theorem Keeps.addSamples_overflow {k : Nat} (hk : 1 ≤ k) (ys : List α) {s : Sampler α} {xs : List α}
    (h : Keeps k s xs) (hle : (xs.length : Int) ≤ intMax) (hcount : intMax < ((xs ++ ys).length : Int)) :
    addSamples k ys s = .error .intOverflow := by
  induction ys generalizing s xs with
  | nil =>
      rw [List.append_nil] at hcount
      omega
  | cons y ys ih =>
      rw [addSamples]
      by_cases hmore : (xs.length : Int) + 1 ≤ intMax
      · obtain ⟨s', hrun, hkeep⟩ := h.addSample_ok hk y hmore
        rw [hrun, ok_bind]
        refine ih hkeep ?_ ?_
        · rw [List.length_append, List.length_singleton]
          omega
        · rw [← List.append_cons]
          exact hcount
      · obtain ⟨s', -, hrun⟩ := h.addSample_eq hk y
        rw [hrun, checkInt_of_lt (not_le.mp hmore), error_bind, error_bind]

/-! ### The whole measurement -/

theorem Keeps.load_zero {k : Nat} {s : Sampler α} {xs : List α} (h : Keeps k s xs) (hk : 1 ≤ k) (hne : xs ≠ []) :
    ∃ v, load s.values 0 = .ok v ∧ IsLeast {x | x ∈ xs} v := by
  obtain ⟨kept, unused, hvalues, hkept⟩ := h.exists_kept
  cases kept with
  | nil =>
      have hlen := hkept.length_eq
      have := List.length_pos_iff.mpr hne
      rw [List.length_nil] at hlen
      omega
  | cons v kept =>
      refine ⟨v, ?_, hkept.isLeast_head⟩
      rw [hvalues]
      rfl

/-- The comparison is made on a full array only. -/
theorem Keeps.hasConverged_ok {p : Params α} {s : Sampler α} {xs : List α} (h : Keeps p.kbest s xs)
    (hk : 1 ≤ p.kbest) (hne : xs ≠ []) : ∃ b, hasConverged p s = .ok b := by
  unfold hasConverged
  by_cases hfull : s.samplecount ≥ p.kbest
  · obtain ⟨v, hbest, -⟩ := h.load_zero hk hne
    rw [h.count_eq] at hfull
    obtain ⟨kept, w, hvalues, hlen, -⟩ := h.exists_last hk hfull
    refine ⟨p.within v w, ?_⟩
    rw [h.count_eq, if_pos hfull, hbest, ok_bind, hvalues, ← hlen, load_append, ok_bind, pure_eq_ok]
  · exact ⟨false, if_neg hfull⟩

/-- The loop goes on while there are measurements left to make, and stops with the smallest of those made. -/
theorem sampleLoop_spec {p : Params α} (hk : 1 ≤ p.kbest) (hmax : p.maxsamples ≤ intMax) (cyc : Nat → α)
    (fuel i : Nat) (s : Sampler α) (h : Keeps p.kbest s (drawn cyc i)) (hi : (i : Int) < max 1 p.maxsamples)
    (hfuel : max 1 p.maxsamples ≤ i + fuel) :
    ∃ s' n, sampleLoop p cyc fuel i s = .ok (s', n) ∧ 1 ≤ n ∧ (n : Int) ≤ max 1 p.maxsamples ∧
      Keeps p.kbest s' (drawn cyc n) := by
  induction fuel generalizing i s with
  | zero => omega
  | succ fuel ih =>
      have hbound : ((drawn cyc i).length : Int) + 1 ≤ intMax := by
        rw [length_drawn]
        simp only [intMax] at hmax ⊢
        omega
      obtain ⟨s', hrun, hkeep⟩ := h.addSample_ok hk (cyc i) hbound
      rw [← drawn_succ] at hkeep
      have hne : drawn cyc (i + 1) ≠ [] := by
        apply List.ne_nil_of_length_pos
        rw [length_drawn]
        omega
      obtain ⟨converged, hconverged⟩ := hkeep.hasConverged_ok hk hne
      rw [sampleLoop, hrun, ok_bind, hconverged, ok_bind]
      have hcount : s'.samplecount = i + 1 := by rw [hkeep.count_eq, length_drawn]
      by_cases hmore : converged = false ∧ (s'.samplecount : Int) < p.maxsamples
      · rw [if_pos hmore]
        rw [hcount] at hmore
        exact ih (i + 1) s' hkeep (by omega) (by push_cast at hfuel ⊢; omega)
      · rw [if_neg hmore]
        exact ⟨s', i + 1, rfl, by omega, by omega, hkeep⟩

/-- Up to `INT_MAX` measurements, the first entries of the array are the smallest ones in ascending order. A
measured function takes at most `max(1, maxsamples)` measurements, and the least of them is the result. -/
theorem kbest_smallest [Zero α] (p : Params α) (hk : 1 ≤ p.kbest) :
    (∀ xs : List α, (xs.length : Int) ≤ intMax → ∃ s, addSamples p.kbest xs (initSampler p.kbest) = .ok s ∧
        s.values.take (min xs.length p.kbest) = (xs.insertionSort (· ≤ ·)).take (min xs.length p.kbest)) ∧
      (p.maxsamples ≤ intMax → ∀ (cyc : Nat → α) (fuel : Nat), max 1 p.maxsamples ≤ fuel →
        ∃ result n, fcyc p cyc fuel = .ok (result, n) ∧ 1 ≤ n ∧ (n : Int) ≤ max 1 p.maxsamples ∧
          IsLeast {x | ∃ i < n, cyc i = x} result) := by
  constructor
  · intro xs hcount
    have hinit : Keeps p.kbest (initSampler p.kbest : Sampler α) [] := keeps_initSampler p.kbest
    obtain ⟨s, hrun, hkeep⟩ := hinit.addSamples_ok hk xs hcount
    exact ⟨s, hrun, hkeep.take_eq⟩
  · intro hmax cyc fuel hfuel
    obtain ⟨s, n, hrun, hpos, hn, hkeep⟩ :=
      sampleLoop_spec hk hmax cyc fuel 0 (initSampler p.kbest) (keeps_initSampler p.kbest) (by omega) (by omega)
    obtain ⟨v, hload, hleast⟩ := hkeep.load_zero hk (List.ne_nil_of_length_pos (by rwa [length_drawn]))
    refine ⟨v, n, ?_, hpos, hn, ?_⟩
    · rw [fcyc, hrun, ok_bind]
      dsimp only
      rw [hload, ok_bind, pure_eq_ok]
    · have hset : {x | ∃ i < n, cyc i = x} = {x | x ∈ drawn cyc n} := by
        ext x
        exact (mem_drawn cyc n x).symm
      rwa [hset]

end Order

/-- Three measurements are kept of five, two of them equal. -/
theorem kbest_smallest_five :
    (∃ s, addSamples 3 [5, 1, 4, 1, 3] (initSampler 3) = .ok s ∧ s.values.take 3 = [1, 1, 3]) ∧
      ∃ result n, fcyc ⟨3, 5, fun best worst => decide (worst ≤ best)⟩ (fun i => 10 - i) 5 = .ok (result, n) ∧
        1 ≤ n ∧ (n : Int) ≤ 5 ∧ IsLeast {x : Nat | ∃ i < n, 10 - i = x} result := by
  have hboth := kbest_smallest (⟨3, 5, fun best worst : Nat => decide (worst ≤ best)⟩) (by decide)
  constructor
  · obtain ⟨s, hrun, htake⟩ := hboth.1 [5, 1, 4, 1, 3] (by decide)
    exact ⟨s, hrun, htake⟩
  · exact hboth.2 (by decide) (fun i => 10 - i) 5 (by decide)

/-- One measurement more than `INT_MAX`, and the counter overflows. -/
theorem samplecount_overflow :
    addSamples 1 (List.replicate (2 ^ 31) (0 : Nat)) (initSampler 1) = .error .intOverflow := by
  apply (keeps_initSampler 1).addSamples_overflow le_rfl
  · decide
  · rw [List.nil_append, List.length_replicate]
    decide

end CsoLabs.Timer
