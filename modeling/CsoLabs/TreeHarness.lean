import CsoLabs.GrepTester
import CsoLabs.SearchTree

/-! The tester of the sorted binary tree, `part7_harness.c`. The tree of `part7.c` is a parameter. Two tests insert
five strings and walk through the tree; the last one inserts a thousand random strings, of which many are equal, and
keeps account of them in its own ways. -/

namespace CsoLabs.Tree
open CLang Fallible
open Table (CString)
open Grep (panicCond panicCond_eq_ok_iff text)

/-- The functions of `part7.c`. A traversal returns a number and leaves strings in its array. -/
structure TreeLib (σ : Type) where
  initTree : σ
  insert : σ → CString → Int × σ
  preorder : σ → Int × (Nat → CString)
  inorder : σ → Int × (Nat → CString)

/-- `strcmp` of the characters before the terminating zeros. -/
def strcmpBytes : List (BitVec 8) → List (BitVec 8) → Int
  | [], [] => 0
  | [], b :: _ => -b.toNat
  | a :: _, [] => a.toNat
  | a :: as, b :: bs => if a = b then strcmpBytes as bs else a.toNat - b.toNat

def strcmp (s t : CString) : Int := strcmpBytes s.bytes t.bytes

/-- `qsort(strings, n, sizeof(char *), strcmp_for_qsort)` -/
def qsort (strings : List CString) : List CString := strings.mergeSort fun s t => decide (strcmp s t ≤ 0)

/-- `concat_strings`, from the index `len` of its array on. -/
def concatStrings : List CString → Nat → Except Abort String
  | [], _ => .ok ""
  | s :: ss, len => do
      let len := len + s.bytes.length + 1
      -- `sprintf` has written past the array before the assertion is reached
      if 10000 ≤ len then .error .outOfBounds
      else do
        let rest ← concatStrings ss len
        return text s ++ " " ++ rest

/-- `rand() % 9 + '1'` -/
def randDigit (r : Nat) : BitVec 8 := BitVec.ofNat 8 (r % 9 + 49)

theorem toNat_randDigit (r : Nat) : (randDigit r).toNat = r % 9 + 49 := by
  rw [randDigit, BitVec.toNat_ofNat]
  omega

/-- The string number `i` of `gen_rand_strings`. -/
def randString (rand : Nat → Nat) (nChars i : Nat) : CString where
  bytes := (List.range nChars).map fun j => randDigit (rand (i * nChars + j))
  nonzero := by
    intro b hb
    obtain ⟨j, -, rfl⟩ := List.mem_map.mp hb
    intro hzero
    have hval := toNat_randDigit (rand (i * nChars + j))
    rw [hzero, show (0 : BitVec 8).toNat = 0 from rfl] at hval
    omega

def genRandStrings (rand : Nat → Nat) (numStrings nChars : Nat) : List CString :=
  (List.range numStrings).map (randString rand nChars)

/-- `atoi` of a string of digits. -/
def atoi (s : CString) : Int := s.bytes.foldl (fun n b => 10 * n + ((b.toNat : Int) - 48)) 0

/-- `NUM_NODES` -/
def numNodes : Nat := 5

/-- A string of three equal digits. -/
def triple (digit : Nat) : CString := .ofBuffer (List.replicate 3 (BitVec.ofNat 8 (48 + digit)))

/-- `test` -/
def tests : List (List CString) :=
  [[0, 1, 2, 3, 4], [4, 3, 2, 1, 0], [2, 1, 3, 0, 4], [0, 1, 3, 2, 4], [2, 0, 4, 1, 3]].map (List.map triple)

/-- `preorder_results` -/
def preorderResults : List (List CString) :=
  [[0, 1, 2, 3, 4], [4, 3, 2, 1, 0], [2, 1, 0, 3, 4], [0, 1, 3, 2, 4], [2, 0, 1, 4, 3]].map (List.map triple)

section Harness

variable {σ : Type} (lib : TreeLib σ)

/-- The loop that inserts strings none of which is there yet, from number `j` on. -/
def insertFresh : List CString → Nat → σ → Except Abort σ
  | [], _, tree => .ok tree
  | s :: ss, j, tree => do
      let (ret, tree) := lib.insert tree s
      panicCond (ret = 0) ("insert " ++ toString j ++ "-th string " ++ text s ++ " failed")
      insertFresh ss (j + 1) tree

/-- The loop that compares an array with what is expected, from the index `j` on. -/
def compareResult (kind : String) (all : List CString) (result : Nat → CString) :
    List CString → Nat → Except Abort Unit
  | [], _ => .ok ()
  | s :: ss, j => do
      let expected ← concatStrings all 0
      let got ← concatStrings ((List.range numNodes).map result) 0
      panicCond (strcmp s (result j) = 0) (kind ++ " traversal: expected (" ++ expected ++ "), got (" ++ got ++ ")\n")
      compareResult kind all result ss (j + 1)

/-- One of the small trees; `walk` is a traversal. -/
def testTree (kind : String) (walk : σ → Int × (Nat → CString)) (inserted expected : List CString) :
    Except Abort Unit := do
  let tree ← insertFresh lib inserted 0 lib.initTree
  let (ret, result) := walk tree
  panicCond (ret = numNodes) ("Returned " ++ toString ret ++ " nodes, expected " ++ toString numNodes)
  compareResult kind expected result expected 0

def testTrees (kind : String) (walk : σ → Int × (Nat → CString)) :
    List (List CString × List CString) → Except Abort Unit
  | [] => .ok ()
  | (inserted, expected) :: rest => do
      testTree lib kind walk inserted expected
      testTrees kind walk rest

/-- The loop that inserts the random strings, from number `i` on; `n` is the size of the array `seen_before`. -/
def insertRandom (n : Nat) : List CString → Nat → (Int → Bool) → σ → Except Abort σ
  | [], _, _, tree => .ok tree
  | s :: ss, i, seen, tree => do
      let val := atoi s
      assertC (decide (0 < val ∧ val < n)) "val > 0 && val < num_nodes"
      let (ret, tree) := lib.insert tree s
      if seen val = false then do
        panicCond (ret = 0) ("insert " ++ toString i ++ "-th string (" ++ text s ++ ") failed\n")
        insertRandom n ss (i + 1) (Function.update seen val true) tree
      else do
        panicCond (ret = 1)
          ("insert " ++ toString i ++ "-th string (" ++ text s ++ ") should have returned 1 for duplicates\n")
        insertRandom n ss (i + 1) seen tree

/-- The loop that copies the sorted strings to the array `nodup`. -/
def nodupLoop : List CString → List CString → List CString
  | nodup, [] => nodup
  | nodup, s :: ss =>
      match nodup.getLast? with
      | none => nodupLoop (nodup ++ [s]) ss
      | some last => if strcmp s last ≠ 0 then nodupLoop (nodup ++ [s]) ss else nodupLoop nodup ss

/-- The loop that compares the traversal of the large tree, from the index `i` on. -/
def compareSorted (result : Nat → CString) : List CString → Nat → Except Abort Unit
  | [], _ => .ok ()
  | s :: ss, i => do
      panicCond (strcmp (result i) s = 0) ("inorder traversal ordering is wrong " ++ toString i ++
        "-th node should be " ++ text s ++ " not " ++ text (result i))
      compareSorted result ss (i + 1)

def testDuplicates (strings : List CString) : Except Abort Unit := do
  let tree ← insertRandom lib strings.length strings 0 (fun _ => false) lib.initTree
  let nodup := nodupLoop [] (qsort strings)
  let (ret, result) := lib.inorder tree
  panicCond (ret = nodup.length) ("Returned " ++ toString ret ++ " nodes, expected " ++ toString nodup.length)
  compareSorted result nodup 0

/-- `main` without options. -/
def harness (rand : Nat → Nat) : Except Abort Unit := do
  testTrees lib "preorder" lib.preorder (tests.zip preorderResults)
  testTrees lib "inorder" lib.inorder (tests.map fun inserted => (inserted, qsort (tests.headD [])))
  testDuplicates lib (genRandStrings rand 1000 3)

end Harness

/-! ### The order of strings -/

theorem eq_of_bytes {s t : CString} (h : s.bytes = t.bytes) : s = t := by
  cases s
  cases t
  cases h
  rfl

/-- The order of the characters as unsigned numbers. -/
instance linearOrderCString : LinearOrder CString :=
  LinearOrder.lift' (fun s => s.bytes.map BitVec.toNat) fun _ _ h =>
    eq_of_bytes (List.map_injective_iff.mpr (fun _ _ => BitVec.eq_of_toNat_eq) h)

theorem lt_iff (s t : CString) : s < t ↔ s.bytes.map BitVec.toNat < t.bytes.map BitVec.toNat := Iff.rfl

/-- The sign of `strcmp` tells the order. -/
theorem strcmpBytes_sign {as bs : List (BitVec 8)} (ha : ∀ a ∈ as, a ≠ 0) (hb : ∀ b ∈ bs, b ≠ 0) :
    (strcmpBytes as bs < 0 ↔ as.map BitVec.toNat < bs.map BitVec.toNat) ∧ (strcmpBytes as bs = 0 ↔ as = bs) := by
  induction as generalizing bs with
  | nil =>
      cases bs with
      | nil => exact ⟨iff_of_false (by decide) (lt_irrefl _), iff_of_true rfl rfl⟩
      | cons b bs =>
          have hpos : 0 < b.toNat := Nat.pos_of_ne_zero fun h => hb b List.mem_cons_self (BitVec.eq_of_toNat_eq h)
          rw [strcmpBytes]
          exact ⟨iff_of_true (by omega) (List.nil_lt_cons _ _), iff_of_false (by omega) (List.cons_ne_nil _ _).symm⟩
  | cons a as ih =>
      cases bs with
      | nil =>
          have hpos : 0 < a.toNat := Nat.pos_of_ne_zero fun h => ha a List.mem_cons_self (BitVec.eq_of_toNat_eq h)
          rw [strcmpBytes]
          exact ⟨iff_of_false (by omega) (List.not_lt_nil _), iff_of_false (by omega) (List.cons_ne_nil _ _)⟩
      | cons b bs =>
          obtain ⟨hlt, heq⟩ := ih (fun a h => ha a (List.mem_cons_of_mem _ h)) fun b h => hb b (List.mem_cons_of_mem _ h)
          rw [strcmpBytes, List.map_cons, List.map_cons, List.cons_lt_cons_iff]
          by_cases hab : a = b
          · subst hab
            rw [if_pos rfl, hlt, heq]
            simp
          · have hne : a.toNat ≠ b.toNat := fun h => hab (BitVec.eq_of_toNat_eq h)
            rw [if_neg hab]
            refine ⟨⟨fun h => .inl (by omega), fun h => ?_⟩, iff_of_false (by omega) fun h => hab (List.cons.inj h).1⟩
            rcases h with h | h
            · omega
            · exact absurd h.1 hne

theorem strcmp_eq_zero_iff {s t : CString} : strcmp s t = 0 ↔ s = t := by
  rw [strcmp, (strcmpBytes_sign s.nonzero t.nonzero).2]
  exact ⟨eq_of_bytes, congrArg CString.bytes⟩

theorem strcmp_le_zero_iff {s t : CString} : strcmp s t ≤ 0 ↔ s ≤ t := by
  rw [Int.le_iff_lt_or_eq, strcmp_eq_zero_iff, strcmp, (strcmpBytes_sign s.nonzero t.nonzero).1, ← lt_iff,
    ← le_iff_lt_or_eq]

/-! ### Sorting -/

theorem pairwise_qsort (strings : List CString) : (qsort strings).Pairwise (· ≤ ·) := by
  have hle : ∀ s t : CString, decide (strcmp s t ≤ 0) = true ↔ s ≤ t := fun s t => by
    rw [decide_eq_true_eq, strcmp_le_zero_iff]
  refine (List.pairwise_mergeSort ?_ ?_ strings).imp fun h => (hle _ _).mp h
  · intro r s t hrs hst
    exact (hle r t).mpr (((hle r s).mp hrs).trans ((hle s t).mp hst))
  · intro s t
    rw [Bool.or_eq_true, hle, hle]
    exact le_total s t

theorem mem_qsort {strings : List CString} {s : CString} : s ∈ qsort strings ↔ s ∈ strings := List.mem_mergeSort

/-- The loop keeps one of each run of equal strings. -/
theorem nodupLoop_spec {nodup rest : List CString} (hnodup : nodup.Pairwise (· < ·)) (hrest : rest.Pairwise (· ≤ ·))
    (hle : ∀ s ∈ nodup, ∀ t ∈ rest, s ≤ t) :
    (nodupLoop nodup rest).Pairwise (· < ·) ∧ ∀ s, s ∈ nodupLoop nodup rest ↔ s ∈ nodup ∨ s ∈ rest := by
  induction rest generalizing nodup with
  | nil =>
      rw [nodupLoop]
      exact ⟨hnodup, fun s => by simp⟩
  | cons t rest ih =>
      obtain ⟨ht, hrest⟩ := List.pairwise_cons.mp hrest
      -- a string that is larger than all of them is copied
      have hcopy : (∀ s ∈ nodup, s < t) → (nodupLoop (nodup ++ [t]) rest).Pairwise (· < ·) ∧
          ∀ s, s ∈ nodupLoop (nodup ++ [t]) rest ↔ s ∈ nodup ∨ s ∈ t :: rest := by
        intro hlt
        have hpair : (nodup ++ [t]).Pairwise (· < ·) := by
          refine List.pairwise_append.mpr ⟨hnodup, List.pairwise_singleton _ t, fun s hs u hu => ?_⟩
          rw [List.mem_singleton.mp hu]
          exact hlt s hs
        have hbelow : ∀ s ∈ nodup ++ [t], ∀ u ∈ rest, s ≤ u := by
          intro s hs u hu
          rcases List.mem_append.mp hs with hs | hs
          · exact hle s hs u (List.mem_cons_of_mem _ hu)
          · rw [List.mem_singleton.mp hs]
            exact ht u hu
        obtain ⟨hsorted, hmem⟩ := ih hpair hrest hbelow
        refine ⟨hsorted, fun s => ?_⟩
        rw [hmem, List.mem_append, List.mem_singleton, List.mem_cons, or_assoc]
      rw [nodupLoop]
      cases hlast : nodup.getLast? with
      | none =>
          rw [List.getLast?_eq_none_iff.mp hlast] at hcopy ⊢
          exact hcopy nofun
      | some last =>
          dsimp only
          obtain ⟨front, rfl⟩ := List.getLast?_eq_some_iff.mp hlast
          obtain ⟨-, -, hfront⟩ := List.pairwise_append.mp hnodup
          have hmem : last ∈ front ++ [last] := List.mem_append_right _ List.mem_cons_self
          by_cases heq : strcmp t last = 0
          · obtain rfl := strcmp_eq_zero_iff.mp heq
            rw [if_neg (not_not_intro heq)]
            obtain ⟨hsorted, hall⟩ := ih hnodup hrest fun s hs u hu => hle s hs u (List.mem_cons_of_mem _ hu)
            refine ⟨hsorted, fun s => ?_⟩
            rw [hall, List.mem_cons]
            constructor
            · exact fun h => h.imp_right .inr
            · rintro (h | rfl | h)
              · exact .inl h
              · exact .inl hmem
              · exact .inr h
          · rw [if_pos heq]
            have hlt : last < t := lt_of_le_of_ne (hle last hmem t List.mem_cons_self) fun h =>
              heq (strcmp_eq_zero_iff.mpr h.symm)
            apply hcopy
            intro s hs
            rcases List.mem_append.mp hs with hs | hs
            · exact (hfront s hs last List.mem_cons_self).trans hlt
            · rwa [List.mem_singleton.mp hs]

/-- What the harness sorts and rids of duplicates is what a search tree has in order. -/
theorem nodupLoop_qsort (strings : List CString) :
    nodupLoop [] (qsort strings) = (SearchTree.ofList strings).inorder := by
  obtain ⟨hsorted, hmem⟩ := nodupLoop_spec List.Pairwise.nil (pairwise_qsort strings) nofun
  apply SearchTree.eq_inorder_ofList hsorted
  intro s
  rw [hmem, mem_qsort]
  simp

/-! ### What the tree has to answer -/

section Answers

variable {σ : Type} (lib : TreeLib σ)

/-- The tree when these strings have been inserted. -/
def TreeLib.after (strings : List CString) : σ := strings.foldl (fun tree s => (lib.insert tree s).2) lib.initTree

/-- Behind the strings `pre`, each call of `insert` returns 1 for a string that is there and 0 for one that is not. -/
def ReturnsFrom : List CString → List CString → Prop
  | _, [] => True
  | pre, s :: ss => (lib.insert (lib.after pre) s).1 = (if s ∈ pre then 1 else 0) ∧ ReturnsFrom (pre ++ [s]) ss

/-- A traversal returns the number of the strings and leaves them in its array. -/
def Shows (answer : Int × (Nat → CString)) (strings : List CString) : Prop :=
  answer.1 = strings.length ∧ (List.range strings.length).map answer.2 = strings

end Answers

section

variable {σ : Type} {lib : TreeLib σ}

theorem after_concat (pre : List CString) (s : CString) :
    (lib.insert (lib.after pre) s).2 = lib.after (pre ++ [s]) := by
  unfold TreeLib.after
  rw [List.foldl_concat]

theorem insertFresh_eq_ok_iff {pre ss : List CString} (hnodup : (pre ++ ss).Nodup) {j : Nat} {tree : σ} :
    insertFresh lib ss j (lib.after pre) = .ok tree ↔ ReturnsFrom lib pre ss ∧ tree = lib.after (pre ++ ss) := by
  induction ss generalizing pre j with
  | nil =>
      rw [insertFresh, ReturnsFrom, Except.ok.injEq, List.append_nil, and_iff_right True.intro, eq_comm]
  | cons s ss ih =>
      have hfresh : s ∉ pre := fun hs => List.disjoint_of_nodup_append hnodup hs List.mem_cons_self
      rw [List.append_cons] at hnodup
      rw [insertFresh, ReturnsFrom, if_neg hfresh, List.append_cons pre s ss]
      dsimp only
      rw [unit_bind_eq_ok_iff, panicCond_eq_ok_iff, decide_eq_true_eq, after_concat, ih hnodup, and_assoc]

theorem map_range'_cons (result : Nat → CString) (s : CString) (ss : List CString) (j : Nat) :
    (List.range' j (s :: ss).length).map result = s :: ss ↔
      result j = s ∧ (List.range' (j + 1) ss.length).map result = ss := by
  rw [List.length_cons, List.range'_succ, List.map_cons, List.cons.injEq]

theorem compareSorted_eq_ok_iff {result : Nat → CString} {ss : List CString} {i : Nat} {u : Unit} :
    compareSorted result ss i = .ok u ↔ (List.range' i ss.length).map result = ss := by
  induction ss generalizing i with
  | nil => exact iff_of_true rfl rfl
  | cons s ss ih =>
      rw [compareSorted, unit_bind_eq_ok_iff, panicCond_eq_ok_iff, decide_eq_true_eq, strcmp_eq_zero_iff, ih,
        map_range'_cons]

/-- The text of the message is made before the test, from all strings of both arrays. -/
theorem compareResult_eq_ok_iff {kind : String} {all : List CString} {result : Nat → CString} {expected got : String}
    (hexpected : concatStrings all 0 = .ok expected) (hgot : concatStrings ((List.range numNodes).map result) 0 = .ok got)
    {ss : List CString} {j : Nat} {u : Unit} :
    compareResult kind all result ss j = .ok u ↔ (List.range' j ss.length).map result = ss := by
  induction ss generalizing j with
  | nil => exact iff_of_true rfl rfl
  | cons s ss ih =>
      rw [compareResult, hexpected, ok_bind, hgot, ok_bind, unit_bind_eq_ok_iff, panicCond_eq_ok_iff,
        decide_eq_true_eq, strcmp_eq_zero_iff, ih, map_range'_cons, eq_comm]

/-- The message for these strings fits into its array. -/
def Fits (strings : List CString) : Prop := strings.length = numNodes ∧ (concatStrings strings 0).isOk = true

instance decidableFits (strings : List CString) : Decidable (Fits strings) := inferInstanceAs (Decidable (_ ∧ _))

theorem compareResult_iff_of_fits {kind : String} {strings : List CString} (hfits : Fits strings)
    {result : Nat → CString} {u : Unit} :
    compareResult kind strings result strings 0 = .ok u ↔ (List.range strings.length).map result = strings := by
  obtain ⟨hlen, hok⟩ := hfits
  have hsome : ∀ {list : List CString}, (concatStrings list 0).isOk = true → ∃ s, concatStrings list 0 = .ok s := by
    intro list h
    cases hlist : concatStrings list 0 with
    | error e =>
        rw [hlist] at h
        cases h
    | ok s => exact ⟨s, rfl⟩
  obtain ⟨expected, hexpected⟩ := hsome hok
  rw [List.range_eq_range']
  cases hgot : concatStrings ((List.range numNodes).map result) 0 with
  | ok got => exact compareResult_eq_ok_iff hexpected hgot
  | error e =>
      -- the message about what was found does not fit, and so it is not what is expected
      have hne : (List.range' 0 strings.length).map result ≠ strings := by
        intro heq
        rw [← List.range_eq_range', hlen] at heq
        rw [heq, hexpected] at hgot
        cases hgot
      refine iff_of_false (fun hrun => ?_) hne
      obtain ⟨s, ss, hcons⟩ := List.exists_cons_of_length_pos (show 0 < strings.length by rw [hlen]; decide)
      rw [hcons, compareResult, ← hcons, hexpected, ok_bind, hgot, error_bind] at hrun
      cases hrun

theorem testTree_eq_ok_iff {kind : String} {walk : σ → Int × (Nat → CString)} {inserted expected : List CString}
    (hnodup : inserted.Nodup) (hfits : Fits expected) {u : Unit} :
    testTree lib kind walk inserted expected = .ok u ↔
      ReturnsFrom lib [] inserted ∧ Shows (walk (lib.after inserted)) expected := by
  have hinsert : ∀ {tree}, insertFresh lib inserted 0 lib.initTree = .ok tree ↔
      ReturnsFrom lib [] inserted ∧ tree = lib.after inserted :=
    @insertFresh_eq_ok_iff σ lib [] inserted hnodup 0
  rw [testTree, bind_eq_ok_iff_of hinsert]
  dsimp only
  rw [unit_bind_eq_ok_iff, panicCond_eq_ok_iff, decide_eq_true_eq, compareResult_iff_of_fits hfits, Shows,
    hfits.1]

theorem testTrees_eq_ok_iff {kind : String} {walk : σ → Int × (Nat → CString)}
    {trees : List (List CString × List CString)} (htrees : ∀ t ∈ trees, t.1.Nodup ∧ Fits t.2) {u : Unit} :
    testTrees lib kind walk trees = .ok u ↔
      ∀ t ∈ trees, ReturnsFrom lib [] t.1 ∧ Shows (walk (lib.after t.1)) t.2 := by
  induction trees with
  | nil => exact iff_of_true rfl nofun
  | cons t trees ih =>
      rw [List.forall_mem_cons] at htrees ⊢
      rw [testTrees, unit_bind_eq_ok_iff, testTree_eq_ok_iff htrees.1.1 htrees.1.2, ih htrees.2]

/-! ### Random strings -/

/-- Three digits from 1 to 9. -/
def IsRandom (s : CString) : Prop := ∃ r₁ r₂ r₃, s.bytes = [randDigit r₁, randDigit r₂, randDigit r₃]

theorem isRandom_of_mem {rand : Nat → Nat} {n : Nat} {s : CString} (h : s ∈ genRandStrings rand n 3) : IsRandom s := by
  obtain ⟨i, -, rfl⟩ := List.mem_map.mp h
  exact ⟨_, _, _, rfl⟩

theorem atoi_of_bytes {s : CString} {r₁ r₂ r₃ : Nat} (h : s.bytes = [randDigit r₁, randDigit r₂, randDigit r₃]) :
    atoi s = ((100 * (r₁ % 9 + 1) + 10 * (r₂ % 9 + 1) + (r₃ % 9 + 1) : Nat) : Int) := by
  rw [atoi, h]
  simp only [List.foldl_cons, List.foldl_nil, toNat_randDigit]
  omega

theorem IsRandom.atoi_bounds {s : CString} (h : IsRandom s) : 0 < atoi s ∧ atoi s < 1000 := by
  obtain ⟨r₁, r₂, r₃, hbytes⟩ := h
  rw [atoi_of_bytes hbytes]
  omega

/-- The number tells which string it was. -/
theorem IsRandom.atoi_injective {s t : CString} (hs : IsRandom s) (ht : IsRandom t) (h : atoi s = atoi t) : s = t := by
  obtain ⟨r₁, r₂, r₃, hs⟩ := hs
  obtain ⟨q₁, q₂, q₃, ht⟩ := ht
  rw [atoi_of_bytes hs, atoi_of_bytes ht] at h
  have h₁ : r₁ % 9 = q₁ % 9 := by omega
  have h₂ : r₂ % 9 = q₂ % 9 := by omega
  have h₃ : r₃ % 9 = q₃ % 9 := by omega
  have hbytes : s.bytes = t.bytes := by rw [hs, ht, randDigit, randDigit, randDigit, h₁, h₂, h₃]; rfl
  exact eq_of_bytes hbytes

/-- The array `seen_before` knows which strings have been inserted. -/
theorem insertRandom_eq_ok_iff {pre ss : List CString} (hpre : ∀ s ∈ pre, IsRandom s) (hss : ∀ s ∈ ss, IsRandom s)
    {seen : Int → Bool} (hseen : ∀ s, IsRandom s → (seen (atoi s) = true ↔ s ∈ pre)) {i : Nat} {tree : σ} :
    insertRandom lib 1000 ss i seen (lib.after pre) = .ok tree ↔
      ReturnsFrom lib pre ss ∧ tree = lib.after (pre ++ ss) := by
  induction ss generalizing pre seen i with
  | nil =>
      rw [insertRandom, ReturnsFrom, Except.ok.injEq, List.append_nil, and_iff_right True.intro, eq_comm]
  | cons s ss ih =>
      rw [List.forall_mem_cons] at hss
      obtain ⟨hs, hss⟩ := hss
      have hpre' : ∀ t ∈ pre ++ [s], IsRandom t := by
        intro t ht
        rcases List.mem_append.mp ht with ht | ht
        · exact hpre t ht
        · rwa [List.mem_singleton.mp ht]
      rw [insertRandom, ReturnsFrom, List.append_cons pre s ss]
      dsimp only
      rw [decide_eq_true (show 0 < atoi s ∧ atoi s < ((1000 : Nat) : Int) from hs.atoi_bounds), assertC_true, ok_bind,
        after_concat]
      by_cases hmem : s ∈ pre
      · have hknown : ∀ t, IsRandom t → (seen (atoi t) = true ↔ t ∈ pre ++ [s]) := by
          intro t ht
          rw [hseen t ht, List.mem_append, List.mem_singleton]
          exact (or_iff_left_of_imp fun heq => heq ▸ hmem).symm
        rw [if_neg (by rw [(hseen s hs).mpr hmem]; decide), if_pos hmem, unit_bind_eq_ok_iff,
          panicCond_eq_ok_iff, decide_eq_true_eq, ih hpre' hss hknown, and_assoc]
      · have hnew : seen (atoi s) = false := Bool.eq_false_iff.mpr (mt (hseen s hs).mp hmem)
        have hknown : ∀ t, IsRandom t → (Function.update seen (atoi s) true (atoi t) = true ↔ t ∈ pre ++ [s]) := by
          intro t ht
          rw [List.mem_append, List.mem_singleton]
          by_cases heq : atoi t = atoi s
          · rw [heq, Function.update_self]
            exact iff_of_true rfl (.inr (ht.atoi_injective hs heq))
          · rw [Function.update_of_ne heq, hseen t ht]
            exact (or_iff_left fun h => heq (congrArg atoi h)).symm
        rw [if_pos hnew, if_neg hmem, unit_bind_eq_ok_iff, panicCond_eq_ok_iff, decide_eq_true_eq,
          ih hpre' hss hknown, and_assoc]

end

/-! ### No assertion fails -/

section Assertions

variable {σ : Type} (lib : TreeLib σ) (expr : String)

theorem avoids_panicCond (cond : Bool) (message : String) :
    Avoids (.assertion expr) (panicCond cond message) fun _ => True :=
  Avoids.ite (fun _ => Avoids.pure True.intro) fun _ => Avoids.throw nofun

theorem avoids_concatStrings (strings : List CString) (len : Nat) :
    Avoids (.assertion expr) (concatStrings strings len) fun _ => True := by
  induction strings generalizing len with
  | nil => exact Avoids.pure True.intro
  | cons s ss ih =>
      exact Avoids.ite (fun _ => Avoids.throw nofun) fun _ => (ih _).bind fun _ _ => Avoids.pure True.intro

theorem avoids_insertFresh (strings : List CString) (j : Nat) (tree : σ) :
    Avoids (.assertion expr) (insertFresh lib strings j tree) fun _ => True := by
  induction strings generalizing j tree with
  | nil => exact Avoids.pure True.intro
  | cons s ss ih => exact (avoids_panicCond expr _ _).bind fun _ _ => ih _ _

theorem avoids_compareResult (kind : String) (all : List CString) (result : Nat → CString) (strings : List CString)
    (j : Nat) : Avoids (.assertion expr) (compareResult kind all result strings j) fun _ => True := by
  induction strings generalizing j with
  | nil => exact Avoids.pure True.intro
  | cons s ss ih =>
      refine (avoids_concatStrings expr _ _).bind fun _ _ => (avoids_concatStrings expr _ _).bind fun _ _ => ?_
      exact (avoids_panicCond expr _ _).bind fun _ _ => ih _

theorem avoids_testTrees (kind : String) (walk : σ → Int × (Nat → CString))
    (trees : List (List CString × List CString)) :
    Avoids (.assertion expr) (testTrees lib kind walk trees) fun _ => True := by
  induction trees with
  | nil => exact Avoids.pure True.intro
  | cons t trees ih =>
      have hone : Avoids (.assertion expr) (testTree lib kind walk t.1 t.2) fun _ => True := by
        refine (avoids_insertFresh lib expr _ _ _).bind fun _ _ => (avoids_panicCond expr _ _).bind fun _ _ => ?_
        exact avoids_compareResult expr _ _ _ _ _
      exact hone.bind fun _ _ => ih

theorem avoids_compareSorted (result : Nat → CString) (strings : List CString) (i : Nat) :
    Avoids (.assertion expr) (compareSorted result strings i) fun _ => True := by
  induction strings generalizing i with
  | nil => exact Avoids.pure True.intro
  | cons s ss ih => exact (avoids_panicCond expr _ _).bind fun _ _ => ih _

/-- The number of a random string is in the range that the assertion asks for. -/
theorem avoids_insertRandom {strings : List CString} (hstrings : ∀ s ∈ strings, IsRandom s) (i : Nat)
    (seen : Int → Bool) (tree : σ) :
    Avoids (.assertion expr) (insertRandom lib 1000 strings i seen tree) fun _ => True := by
  induction strings generalizing i seen tree with
  | nil => exact Avoids.pure True.intro
  | cons s ss ih =>
      obtain ⟨hs, hss⟩ := List.forall_mem_cons.mp hstrings
      rw [insertRandom]
      dsimp only
      rw [decide_eq_true (show 0 < atoi s ∧ atoi s < ((1000 : Nat) : Int) from hs.atoi_bounds), assertC_true, ok_bind]
      refine Avoids.ite (fun _ => ?_) fun _ => ?_
      · exact (avoids_panicCond expr _ _).bind fun _ _ => ih hss _ _ _
      · exact (avoids_panicCond expr _ _).bind fun _ _ => ih hss _ _ _

theorem avoids_harness (rand : Nat → Nat) : Avoids (.assertion expr) (harness lib rand) fun _ => True := by
  refine (avoids_testTrees lib expr _ _ _).bind fun _ _ => (avoids_testTrees lib expr _ _ _).bind fun _ _ => ?_
  have hlen : (genRandStrings rand 1000 3).length = 1000 := by
    rw [genRandStrings, List.length_map, List.length_range]
  rw [testDuplicates, hlen]
  refine (avoids_insertRandom lib expr (fun s => isRandom_of_mem) _ _ _).bind fun _ _ => ?_
  exact (avoids_panicCond expr _ _).bind fun _ _ => avoids_compareSorted expr _ _ _

end Assertions

/-! ### The verdict -/

theorem qsort_first : qsort (tests.headD []) = tests.headD [] := List.mergeSort_of_pairwise (by decide +kernel)

/-- The expected arrays are what the trees of the specification have. -/
theorem zip_preorderResults :
    tests.zip preorderResults = tests.map fun strings => (strings, (SearchTree.ofList strings).preorder) := by
  decide +kernel

theorem map_sorted : (tests.map fun strings => (strings, qsort (tests.headD []))) =
    tests.map fun strings => (strings, (SearchTree.ofList strings).inorder) := by
  rw [qsort_first]
  decide +kernel

theorem fits_tests : ∀ strings ∈ tests, strings.Nodup ∧ Fits (SearchTree.ofList strings).preorder ∧
    Fits (SearchTree.ofList strings).inorder := by
  decide +kernel

section

variable {σ : Type} (lib : TreeLib σ)

/-- On these strings the tree answers as the search tree of the specification. -/
structure Conforms (strings : List CString) : Prop where
  returns : ReturnsFrom lib [] strings
  inorder : Shows (lib.inorder (lib.after strings)) (SearchTree.ofList strings).inorder

theorem testDuplicates_eq_ok_iff {rand : Nat → Nat} {u : Unit} :
    testDuplicates lib (genRandStrings rand 1000 3) = .ok u ↔ Conforms lib (genRandStrings rand 1000 3) := by
  have hlen : (genRandStrings rand 1000 3).length = 1000 := by
    rw [genRandStrings, List.length_map, List.length_range]
  have hrandom : ∀ s ∈ genRandStrings rand 1000 3, IsRandom s := fun s => isRandom_of_mem
  generalize genRandStrings rand 1000 3 = strings at hlen hrandom
  have hinsert : ∀ {tree}, insertRandom lib 1000 strings 0 (fun _ => false) lib.initTree = .ok tree ↔
      ReturnsFrom lib [] strings ∧ tree = lib.after strings :=
    @insertRandom_eq_ok_iff σ lib [] strings nofun hrandom _ (fun s _ => by simp) 0
  rw [testDuplicates, hlen, bind_eq_ok_iff_of hinsert]
  dsimp only
  rw [unit_bind_eq_ok_iff, panicCond_eq_ok_iff, decide_eq_true_eq, compareSorted_eq_ok_iff, nodupLoop_qsort,
    ← List.range_eq_range']
  exact ⟨fun h => ⟨h.1, h.2⟩, fun h => ⟨h.returns, h.inorder⟩⟩

/-- **What the harness accepts.** For every sequence of random numbers, the harness comes to its end exactly when the
tree behaves as an unbalanced search tree on the five small inputs, in both traversals, and on the thousand random
strings: `insert` tells the strings that are there from the new ones, and the traversals return what is in the
tree, in order and once each. Whatever the tree does, the assertion on `atoi` does not fail. -/
theorem harness_eq_ok_iff {rand : Nat → Nat} {u : Unit} :
    (harness lib rand = .ok u ↔
      (∀ strings ∈ tests, Conforms lib strings ∧
        Shows (lib.preorder (lib.after strings)) (SearchTree.ofList strings).preorder) ∧
      Conforms lib (genRandStrings rand 1000 3)) ∧
      ∀ expr, harness lib rand ≠ .error (.assertion expr) := by
  refine ⟨?_, fun expr => (avoids_harness lib expr rand).ne_error⟩
  rw [harness, unit_bind_eq_ok_iff, unit_bind_eq_ok_iff, zip_preorderResults, map_sorted,
    testTrees_eq_ok_iff, testTrees_eq_ok_iff, testDuplicates_eq_ok_iff, List.forall_mem_map, List.forall_mem_map,
    ← and_assoc]
  · refine and_congr_left' ⟨fun h strings hs => ?_, fun h => ⟨fun strings hs => ?_, fun strings hs => ?_⟩⟩
    · exact ⟨⟨(h.2 strings hs).1, (h.2 strings hs).2⟩, (h.1 strings hs).2⟩
    · exact ⟨(h strings hs).1.returns, (h strings hs).2⟩
    · exact ⟨(h strings hs).1.returns, (h strings hs).1.inorder⟩
  · exact List.forall_mem_map.mpr fun strings hs => ⟨(fits_tests strings hs).1, (fits_tests strings hs).2.2⟩
  · exact List.forall_mem_map.mpr fun strings hs => ⟨(fits_tests strings hs).1, (fits_tests strings hs).2.1⟩

end

/-! ### A tree that is accepted -/

/-- The tree of the specification as a library. -/
def plainLib : TreeLib (SearchTree CString) where
  initTree := .leaf
  insert tree s := (if s ∈ tree.inorder then 1 else 0, tree.insert s)
  preorder tree := (tree.preorder.length, fun i => tree.preorder.getD i (triple 0))
  inorder tree := (tree.inorder.length, fun i => tree.inorder.getD i (triple 0))

theorem after_plainLib (strings : List CString) : plainLib.after strings = SearchTree.ofList strings := rfl

theorem returnsFrom_plainLib (pre ss : List CString) : ReturnsFrom plainLib pre ss := by
  induction ss generalizing pre with
  | nil => exact True.intro
  | cons s ss ih =>
      refine ⟨?_, ih _⟩
      rw [after_plainLib]
      exact if_congr SearchTree.mem_inorder_ofList rfl rfl

theorem shows_getD (strings : List CString) (d : CString) :
    Shows (strings.length, fun i => strings.getD i d) strings := by
  refine ⟨rfl, List.ext_getElem ?_ fun i hi hi' => ?_⟩
  · rw [List.length_map, List.length_range]
  · rw [List.getElem_map, List.getElem_range]
    exact List.getD_eq_getElem _ _ hi'

theorem harness_plainLib : ∀ rand, harness plainLib rand = .ok () := by
  intro rand
  have hconforms : ∀ strings, Conforms plainLib strings := fun strings =>
    ⟨returnsFrom_plainLib [] strings, shows_getD _ _⟩
  exact (harness_eq_ok_iff plainLib).1.mpr ⟨fun strings _ => ⟨hconforms strings, shows_getD _ _⟩, hconforms _⟩

end CsoLabs.Tree
