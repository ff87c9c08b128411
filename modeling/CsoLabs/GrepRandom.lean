import CsoLabs.GrepBloom
import CsoLabs.GrepTester

/-! The random documents of `rkgrep_test.c` and `test_rk_bloom`, which looks for pieces of such a document and for
words that are not in it. -/

namespace CsoLabs.Grep
open CLang Fallible
open Table (CString)

/-- `rk_create_doc_bloom`, of the lab or of the harness: a filter of the size that is asked for. -/
structure BloomMaker where
  create : Nat → CString → Int → Except Abort BloomFilter
  bsz_create : ∀ {m : Nat} {doc : CString} {size : Int} {bf : BloomFilter}, create m doc size = .ok bf → bf.bsz = size

/-- The loop that compares the filters bit by bit, from `i` on and with `n` turns left. -/
def compareLoop (bf bf1 : BloomFilter) : Nat → Nat → Except Abort Unit
  | 0, _ => .ok ()
  | n + 1, i => do
      let b ← bloomBitAtPos bf i
      let b1 ← bloomBitAtPos bf1 i
      panicCond (b = b1) ("Bloom filter pos " ++ toString i ++ " bit value is " ++ toString b.toNat ++ " != " ++
        toString b1.toNat ++ " (expected)\n")
      compareLoop bf bf1 n (i + 1)

def createAndCompare (lab harness : BloomMaker) (m : Nat) (doc : CString) (size : Int) : Except Abort BloomFilter := do
  let bf ← lab.create m doc size
  let bf1 ← harness.create m doc size
  compareLoop bf bf1 size.toNat 0
  return bf

/-- The rounds of `test_rk_bloom`, with `n` of them left. One in ten looks for a piece of the document. -/
def bloomLoop (rand : Nat → Nat) (mem : Memory) (matcher : Matcher) (patternLen documentLen : Nat) (doc : Doc) :
    Nat → Nat → Except Abort Nat
  | 0, k => .ok k
  | n + 1, k =>
      if 1 ≤ rand k % 10 then do
        let k ← testMatchAtPos rand mem matcher (k + 1) doc (-1) 0 patternLen
        bloomLoop rand mem matcher patternLen documentLen doc n k
      else do
        let pos ← randMod (rand (k + 1)) (documentLen - patternLen)
        let k ← testMatchAtPos rand mem matcher (k + 2) doc pos 1 patternLen
        bloomLoop rand mem matcher patternLen documentLen doc n k

/-- "123 456 789" -/
def digits : CString := .ofBuffer [0x31, 0x32, 0x33, 0x20, 0x34, 0x35, 0x36, 0x20, 0x37, 0x38, 0x39]

/-- "456" -/
def digits456 : CString := .ofBuffer [0x34, 0x35, 0x36]

/-- `test_rk_bloom`; `usingBloom bf` is `rk_substring_match_using_bloom` with that filter. -/
def testRkBloom (rand : Nat → Nat) (mem : Memory) (lab harness : BloomMaker) (usingBloom : BloomFilter → Matcher)
    (k patternLen documentLen : Nat) : Except Abort Nat := do
  let bf ← createAndCompare lab harness digits456.bytes.length digits 80
  let pos := (usingBloom bf digits456 digits).2
  panicCond (pos = 4) ("rk_substring_match_using_bloom returned " ++ toString pos ++ " != 4 (expected)\n")
  let (k, doc) ← generateRandomDocument rand mem k documentLen
  let bloomSize ← checkInt (documentLen * 10)
  let bf ← createAndCompare lab harness patternLen (← stringAt doc) bloomSize
  bloomLoop rand mem (usingBloom bf) patternLen documentLen doc 100 k

/-! ### Random words -/

/-- A lowercase letter. -/
def IsLetter (b : BitVec 8) : Prop := 97 ≤ b.toNat ∧ b.toNat ≤ 122

instance decidableIsLetter (b : BitVec 8) : Decidable (IsLetter b) := inferInstanceAs (Decidable (_ ∧ _))

theorem isLetter_letter (r : Nat) : IsLetter (letter r) := by
  have hmod := Nat.mod_lt r (show 0 < 26 by decide)
  unfold IsLetter letter
  rw [BitVec.toNat_ofNat]
  omega

theorem IsLetter.ne_zero {b : BitVec 8} (h : IsLetter b) : b ≠ 0 := by
  rintro rfl
  exact absurd h (by decide)

/-- The letters that the calls of `rand` from number `k` on give. -/
def letters (rand : Nat → Nat) (k n : Nat) : List (BitVec 8) := (List.range n).map fun j => letter (rand (k + j))

section

variable {rand : Nat → Nat} {k n : Nat}

@[simp] theorem length_letters : (letters rand k n).length = n := by
  rw [letters, List.length_map, List.length_range]

theorem isLetter_of_mem_letters {b : BitVec 8} (h : b ∈ letters rand k n) : IsLetter b := by
  obtain ⟨j, -, rfl⟩ := List.mem_map.mp h
  exact isLetter_letter _

theorem letters_succ : letters rand k (n + 1) = letter (rand k) :: letters rand (k + 1) n := by
  unfold letters
  rw [List.range_succ_eq_map, List.map_cons, List.map_map, Nat.add_zero]
  congr 1
  apply List.map_congr_left
  intro j _
  rw [Function.comp_apply, Nat.succ_eq_add_one, Nat.add_right_comm, Nat.add_assoc]

theorem assign_append (pre post : List (BitVec 8)) (b c : BitVec 8) :
    assign (some (pre ++ b :: post)) pre.length c = .ok (some (pre ++ c :: post)) := by
  unfold assign
  dsimp only
  rw [List.length_append, List.length_cons, if_pos (by omega), List.set_append_right _ _ le_rfl, Nat.sub_self,
    List.set_cons_zero]

/-- The loop writes its letters over what is there. -/
theorem wordLoop_eq {off i : Nat} {pre mid post : List (BitVec 8)} (hpre : pre.length = off + i)
    (hmid : mid.length = n) :
    wordLoop rand off n i k (some (pre ++ (mid ++ post))) = .ok (some (pre ++ (letters rand k n ++ post))) := by
  induction n generalizing i k pre mid with
  | zero =>
      rw [List.length_eq_zero_iff.mp hmid]
      rfl
  | succ n ih =>
      obtain ⟨b, mid, rfl⟩ := List.exists_cons_of_length_eq_add_one hmid
      rw [List.length_cons, Nat.add_right_cancel_iff] at hmid
      have hnext : ∀ tail, pre ++ letter (rand k) :: tail = (pre ++ [letter (rand k)]) ++ tail := fun tail =>
        List.append_cons _ _ _
      rw [wordLoop, List.cons_append, ← hpre, assign_append, ok_bind, hnext, ih _ hmid, ← hnext, letters_succ]
      · rfl
      · rw [List.length_append, hpre]
        rfl

theorem generateRandomWord_eq {pre mid post : List (BitVec 8)} (hmid : mid.length = n) (b : BitVec 8) :
    generateRandomWord rand k (some (pre ++ (mid ++ b :: post))) pre.length n =
      .ok (k + n, some (pre ++ (letters rand k n ++ 0 :: post))) := by
  have hoff : pre.length + n = (pre ++ letters rand k n).length := by rw [List.length_append, length_letters]
  rw [generateRandomWord, wordLoop_eq (Nat.add_zero _).symm hmid, ok_bind, ← List.append_assoc, hoff, assign_append,
    ok_bind, List.append_assoc]
  rfl

/-! ### Random documents -/

theorem wordLen_bounds (r : Nat) {left : Nat} (h : 1 ≤ left) : 1 ≤ wordLen r left ∧ wordLen r left ≤ left := by
  unfold wordLen
  dsimp only
  split_ifs <;> omega

/-- Each word starts where the space behind the word before it was written. -/
theorem documentLoop_eq {len fuel i : Nat} {pre rest : List (BitVec 8)} (hi : i ≤ len) (hpre : pre.length = i)
    (hletters : ∀ b ∈ pre, IsLetter b) (hrest : rest.length = len + 1 - i) (hfuel : len - i < fuel) :
    ∃ k' doc b, documentLoop rand len fuel k i (some (pre ++ rest)) = .ok (k', some (doc ++ [b])) ∧
      doc.length = len ∧ ∀ b ∈ doc, IsLetter b := by
  induction fuel generalizing k i pre rest with
  | zero => omega
  | succ fuel ih =>
      rw [documentLoop]
      by_cases hlt : i < len
      · obtain ⟨h1, hle⟩ := wordLen_bounds (rand k) (show 1 ≤ len - i by omega)
        generalize hn : wordLen (rand k) (len - i) = n at h1 hle
        have hmid : (rest.take n).length = n := by
          rw [List.length_take]
          omega
        obtain ⟨b, post, hpost⟩ := List.exists_cons_of_ne_nil (show rest.drop n ≠ [] by
          rw [← List.length_pos_iff_ne_nil, List.length_drop]
          omega)
        have hlen : post.length = len - i - n := by
          have hdrop := congrArg List.length hpost
          rw [List.length_drop, List.length_cons] at hdrop
          omega
        have hword := @generateRandomWord_eq rand (k + 1) n pre (rest.take n) post hmid b
        have hnext : ∀ b ∈ pre ++ letters rand (k + 1) n, IsLetter b := by
          intro b hb
          rcases List.mem_append.mp hb with hb | hb
          · exact hletters b hb
          · exact isLetter_of_mem_letters hb
        have hlenPre : (pre ++ letters rand (k + 1) n).length = i + n := by
          rw [List.length_append, length_letters, hpre]
        rw [← hpost, List.take_append_drop, hpre, ← List.append_assoc] at hword
        rw [if_pos hlt]
        dsimp only
        rw [hword, ok_bind]
        dsimp only
        by_cases hend : i + n = len
        · have hnil : post = [] := List.length_eq_zero_iff.mp (by omega)
          rw [if_pos hend, hnil]
          exact ⟨_, _, _, rfl, by omega, hnext⟩
        · have hspace := assign_append (pre ++ letters rand (k + 1) n) post 0 32
          rw [hlenPre] at hspace
          rw [if_neg hend, hspace, ok_bind]
          exact ih (by omega) hlenPre hnext (by rw [List.length_cons]; omega) (by omega)
      · obtain ⟨b, hb⟩ := List.length_eq_one_iff.mp (show rest.length = 1 by omega)
        rw [if_neg hlt, hb]
        exact ⟨_, _, _, rfl, by omega, hletters⟩

/-- A random document is one word: as long as it is asked for, and all lowercase letters. -/
theorem generateRandomDocument_eq {mem : Memory} (hmem : ∀ size, mem.grants size = true) {len : Nat}
    (hint : (len : Int) < intMax) :
    ∃ (k' : Nat) (doc : CString), generateRandomDocument rand mem k len = .ok (k', buffer doc) ∧
      doc.bytes.length = len ∧ ∀ b ∈ doc.bytes, IsLetter b := by
  have hfresh : ((List.range (len + 1)).map mem.fresh).length = len + 1 - 0 := by
    rw [List.length_map, List.length_range]
    rfl
  obtain ⟨k', doc, b, hloop, hlen, hletters⟩ := @documentLoop_eq rand k len (len + 1) 0 [] _ (Nat.zero_le _) rfl nofun
    hfresh (by omega)
  refine ⟨k', ⟨doc, fun b hb => (hletters b hb).ne_zero⟩, ?_, hlen, hletters⟩
  rw [generateRandomDocument, checkInt_succ hint, ok_bind, Int.toNat_natCast, Memory.malloc, if_pos (hmem _)]
  rw [List.nil_append] at hloop
  rw [hloop, ok_bind]
  dsimp only
  rw [← hlen, assign_append, ok_bind]
  rfl

end

/-! ### Comparing filters -/

/-- No byte of one filter can be told from the other's by reading its bits. -/
def SameView (bf bf1 : BloomFilter) : Prop := ∀ i < bf.buf.length, ¬ Separated (bf.buf.getD i 0) (bf1.buf.getD i 0)

/-- The filter of the lab, made with success and with the same view as that of the harness. -/
def MadeAlike (lab harness : BloomMaker) (m : Nat) (doc : CString) (size : Int) (bf : BloomFilter) : Prop :=
  lab.create m doc size = .ok bf ∧ ∃ bf1, harness.create m doc size = .ok bf1 ∧ SameView bf bf1

theorem compareLoop_eq_ok_iff {bf bf1 : BloomFilter} {n i : Nat} (h : ((i + n : Nat) : Int) ≤ bf.bsz)
    (h1 : ((i + n : Nat) : Int) ≤ bf1.bsz) {u : Unit} :
    compareLoop bf bf1 n i = .ok u ↔ ∀ j < n, bloomBitAtPos bf (i + j : Nat) = bloomBitAtPos bf1 (i + j : Nat) := by
  induction n generalizing i with
  | zero => exact iff_of_true rfl nofun
  | succ n ih =>
      have hshift : ∀ j, i + 1 + j = i + (j + 1) := by omega
      have hrest := ih (i := i + 1) (by omega) (by omega)
      simp only [hshift] at hrest
      rw [Nat.forall_lt_succ_left, ← hrest, Nat.add_zero i, compareLoop,
        bloomBitAtPos_eq bf (by omega) (by omega), ok_bind, bloomBitAtPos_eq bf1 (by omega) (by omega), ok_bind, unit_bind_eq_ok_iff, panicCond_eq_ok_iff,
        decide_eq_true_eq, Except.ok.injEq]

/-- The comparison finds the differences that reading the bits can show. -/
theorem createAndCompare_eq_ok_iff {lab harness : BloomMaker} {m : Nat} {doc : CString} {size : Int}
    {bf : BloomFilter} :
    createAndCompare lab harness m doc size = .ok bf ↔ MadeAlike lab harness m doc size bf := by
  have hcompare : ∀ {bf bf1}, lab.create m doc size = .ok bf → harness.create m doc size = .ok bf1 → ∀ {u},
      compareLoop bf bf1 size.toNat 0 = .ok u ↔ SameView bf bf1 := by
    intro bf bf1 hbf hbf1 u
    have hsize := lab.bsz_create hbf
    have hsize1 := harness.bsz_create hbf1
    have hnonneg := bf.bsz_nonneg
    rw [compareLoop_eq_ok_iff (by omega) (by omega), SameView, ← agree_iff bf bf1 (by omega)]
    constructor
    · intro hall pos h0 hpos
      have heq := hall pos.toNat (by omega)
      rwa [Nat.zero_add, Int.toNat_of_nonneg h0] at heq
    · intro hall j hj
      exact hall _ (by omega) (by omega)
  unfold createAndCompare
  constructor
  · intro hrun
    obtain ⟨bf', hbf, hrun⟩ := bind_eq_ok hrun
    obtain ⟨bf1, hbf1, hrun⟩ := bind_eq_ok hrun
    obtain ⟨u, hloop, hrun⟩ := bind_eq_ok hrun
    cases hrun
    exact ⟨hbf, bf1, hbf1, (hcompare hbf hbf1).mp hloop⟩
  · rintro ⟨hbf, bf1, hbf1, hsame⟩
    have hloop : compareLoop bf bf1 size.toNat 0 = .ok () := (hcompare hbf hbf1).mpr hsame
    rw [hbf, ok_bind, hbf1, ok_bind, hloop, ok_bind]
    rfl

/-! ### Trials on a random document -/

/-- What a round looks for, and where the test has cut it out of the document, if it has. -/
structure Trial where
  pattern : CString
  pos : Option Nat

/-- The answer that a round asks for. -/
def Trial.Passes (t : Trial) (answer : Int × Int) : Prop :=
  match t.pos with
  | none => answer.1 = 0
  | some pos => answer.1 = 1 ∧ answer.2 = pos

/-- The word of a round that looks for no piece of the document; its last character is `'!'`. -/
def absentWord (rand : Nat → Nat) (k n : Nat) : CString :=
  put ⟨letters rand k n, fun _ hb => (isLetter_of_mem_letters hb).ne_zero⟩ (n - 1) 33 (by decide)

/-- The trials of `n` rounds, when the next call of `rand` is the one numbered `k`. -/
def bloomTrials (rand : Nat → Nat) (doc : CString) (patternLen : Nat) : Nat → Nat → List Trial
  | 0, _ => []
  | n + 1, k =>
      if 1 ≤ rand k % 10 then
        ⟨absentWord rand (k + 1) patternLen, none⟩ :: bloomTrials rand doc patternLen n (k + 1 + patternLen)
      else
        let pos := rand (k + 1) % (doc.bytes.length - patternLen)
        ⟨piece doc pos patternLen, some pos⟩ :: bloomTrials rand doc patternLen n (k + 2)

section

variable {rand : Nat → Nat} {mem : Memory} {matcher : Matcher} {k n : Nat} {doc : CString}

theorem length_absentWord : (absentWord rand k n).bytes.length = n := by
  rw [absentWord, length_put, length_letters]

theorem not_occurs_absentWord (h1 : 1 ≤ n) (hdoc : ∀ b ∈ doc.bytes, IsLetter b) (pos : Nat) :
    ¬ Occurs (absentWord rand k n) doc pos := by
  intro hocc
  have hchar := hocc.getD_eq (i := n - 1) (by rw [length_absentWord]; omega)
  have hle := hocc.le (.inl (List.ne_nil_of_length_pos (by rw [length_absentWord]; exact h1)))
  rw [length_absentWord] at hle
  rw [absentWord, getD_put_self (by rw [length_letters]; omega), List.getD_eq_getElem _ _ (by omega)] at hchar
  have hletter := hdoc _ (List.getElem_mem (by omega : n - 1 + pos < doc.bytes.length))
  rw [hchar] at hletter
  exact absurd hletter (by decide)

theorem positions_absentWord (h1 : 1 ≤ n) (hdoc : ∀ b ∈ doc.bytes, IsLetter b) :
    positions (absentWord rand k n) doc = [] :=
  positions_eq_nil (List.ne_nil_of_length_pos (by rw [length_absentWord]; exact h1)) (not_occurs_absentWord h1 hdoc)

theorem trialPattern_absent (hmem : ∀ size, mem.grants size = true) (h1 : 1 ≤ n) (hint : (n : Int) < intMax)
    (doc : Doc) : trialPattern rand mem k doc (-1) n = .ok (k + n, buffer (absentWord rand k n)) := by
  have hword := @generateRandomWord_eq rand k n [] (List.replicate n 0) [] List.length_replicate 0
  have hzeros : ([] : List (BitVec 8)) ++ (List.replicate n 0 ++ [0]) = List.replicate (n + 1) 0 :=
    (List.replicate_succ' ..).symm
  have hindex : (n : Int) - 1 = ((n - 1 : Nat) : Int) := by omega
  rw [hzeros, List.length_nil, List.nil_append] at hword
  unfold trialPattern
  rw [checkInt_succ hint, ok_bind]
  dsimp only
  rw [if_neg (by decide), Int.toNat_natCast, Memory.calloc, if_pos (hmem _), hword, ok_bind]
  dsimp only
  have hstore := @store_buffer ⟨letters rand k n, fun _ hb => (isLetter_of_mem_letters hb).ne_zero⟩ (n - 1)
    (by rw [length_letters]; omega) 33 (by decide)
  unfold buffer at hstore
  rw [hindex, hstore, ok_bind]
  rfl

/-- The rounds read the document only, and pass when each trial does. -/
theorem bloomLoop_eq_ok_iff (hmem : ∀ size, mem.grants size = true) {patternLen : Nat} (h1 : 1 ≤ patternLen)
    (hlt : patternLen < doc.bytes.length) (hint : (doc.bytes.length : Int) < intMax) :
    (∃ k', bloomLoop rand mem matcher patternLen doc.bytes.length (buffer doc) n k = .ok k') ↔
      ∀ t ∈ bloomTrials rand doc patternLen n k, t.Passes (matcher t.pattern doc) := by
  induction n generalizing k with
  | zero => exact iff_of_true ⟨k, rfl⟩ nofun
  | succ n ih =>
      rw [bloomLoop, bloomTrials]
      by_cases habsent : 1 ≤ rand k % 10
      · have htrial : ∀ {k'}, testMatchAtPos rand mem matcher (k + 1) (buffer doc) (-1) 0 patternLen = .ok k' ↔
            (matcher (absentWord rand (k + 1) patternLen) doc).1 = 0 ∧ k' = k + 1 + patternLen := by
          intro k'
          rw [testMatchAtPos_of_pattern (trialPattern_absent hmem h1 (by omega) _), checkMatch_eq_ok_iff,
            imp_iff_right le_rfl, and_iff_left fun h => absurd rfl h]
        rw [if_pos habsent, if_pos habsent, List.forall_mem_cons, ← ih]
        simp only [bind_eq_ok_iff_of htrial, exists_and_left]
        rfl
      · have hpos := Nat.mod_lt (rand (k + 1)) (Nat.sub_pos_of_lt hlt)
        rw [if_neg habsent, if_neg habsent, randMod_eq hlt, ok_bind, List.forall_mem_cons, ← ih]
        generalize rand (k + 1) % (doc.bytes.length - patternLen) = pos at hpos
        have htrial : ∀ {k'}, testMatchAtPos rand mem matcher (k + 2) (buffer doc) pos 1 patternLen = .ok k' ↔
            ((matcher (piece doc pos patternLen) doc).1 = 1 ∧ (matcher (piece doc pos patternLen) doc).2 = pos) ∧
              k' = k + 2 := by
          intro k'
          rw [testMatchAtPos_of_pattern (trialPattern_piece hmem (by omega) (by omega)), checkMatch_eq_ok_iff,
            imp_iff_right (by decide), imp_iff_right (by decide)]
        simp only [bind_eq_ok_iff_of htrial, exists_and_left]
        rfl

/-- A right answer passes, unless the piece of the document is found at another place as well. -/
theorem passes_iff_of_rightAnswer {patternLen : Nat} (h1 : 1 ≤ patternLen) (hlt : patternLen < doc.bytes.length)
    (hdoc : ∀ b ∈ doc.bytes, IsLetter b) {t : Trial} (ht : t ∈ bloomTrials rand doc patternLen n k) {answer : Int × Int}
    (hanswer : RightAnswer t.pattern doc answer) : t.Passes answer ↔ (positions t.pattern doc).length ≤ 1 := by
  induction n generalizing k with
  | zero => cases ht
  | succ n ih =>
      rw [bloomTrials] at ht
      split_ifs at ht with habsent
      · rcases List.mem_cons.mp ht with rfl | ht
        · rw [RightAnswer, positions_absentWord h1 hdoc] at hanswer
          rw [positions_absentWord h1 hdoc]
          exact iff_of_true hanswer.1 (by decide)
        · exact ih ht
      · rcases List.mem_cons.mp ht with rfl | ht
        · have hpos := Nat.mod_lt (rand (k + 1)) (Nat.sub_pos_of_lt hlt)
          dsimp only at hanswer ⊢
          generalize rand (k + 1) % (doc.bytes.length - patternLen) = pos at hpos hanswer ⊢
          obtain ⟨hcount, hfirst⟩ := hanswer
          have hmem := (mem_positions (piece_ne_nil h1 (by omega))).mpr (occurs_piece doc pos patternLen)
          have hlength := List.length_pos_of_mem hmem
          unfold Trial.Passes
          dsimp only
          constructor
          · intro hpass
            omega
          · intro hle
            have hone : (positions (piece doc pos patternLen) doc).length = 1 := by omega
            obtain ⟨first, hsingle⟩ := List.length_eq_one_iff.mp hone
            rw [hsingle] at hmem hcount hfirst
            rw [List.mem_singleton.mp hmem]
            exact ⟨hcount, hfirst first rfl⟩
        · exact ih ht

/-- **What `test_rk_bloom` accepts.** For every sequence of random numbers, the random document is made of lowercase
letters only, without a space, and the test passes exactly when the filters cannot be told apart by reading
their bits, the short pattern is found where it is, and each of the hundred trials has the answer that is expected.
A right answer is the one expected exactly when the pattern of the trial is found at most once. -/
theorem testRkBloom_iff (hmem : ∀ size, mem.grants size = true) {patternLen documentLen : Nat} (h1 : 1 ≤ patternLen)
    (hlt : patternLen < documentLen) (hint : (documentLen * 10 : Int) ≤ intMax) (lab harness : BloomMaker)
    (usingBloom : BloomFilter → Matcher) :
    ∃ (k' : Nat) (doc : CString), generateRandomDocument rand mem k documentLen = .ok (k', buffer doc) ∧
      doc.bytes.length = documentLen ∧ (∀ b ∈ doc.bytes, IsLetter b) ∧
      ((∃ k'', testRkBloom rand mem lab harness usingBloom k patternLen documentLen = .ok k'') ↔
        (∃ bf, MadeAlike lab harness 3 digits 80 bf ∧ (usingBloom bf digits456 digits).2 = 4) ∧
          ∃ bf, MadeAlike lab harness patternLen doc (documentLen * 10) bf ∧
            ∀ t ∈ bloomTrials rand doc patternLen 100 k', t.Passes (usingBloom bf t.pattern doc)) ∧
      ∀ t ∈ bloomTrials rand doc patternLen 100 k', ∀ answer, RightAnswer t.pattern doc answer →
        (t.Passes answer ↔ (positions t.pattern doc).length ≤ 1) := by
  obtain ⟨k', doc, hgen, hlen, hletters⟩ := @generateRandomDocument_eq rand k mem hmem documentLen (by omega)
  refine ⟨k', doc, hgen, hlen, hletters, ?_, fun t ht answer hanswer =>
    passes_iff_of_rightAnswer h1 (by omega) hletters ht hanswer⟩
  subst hlen
  have hsize : checkInt ((doc.bytes.length : Int) * 10) = .ok ((doc.bytes.length : Int) * 10) :=
    checkInt_of_le (by omega) hint
  unfold testRkBloom
  constructor
  · rintro ⟨k'', hrun⟩
    obtain ⟨bf, hbf, hrun⟩ := bind_eq_ok hrun
    obtain ⟨hpos, hrun⟩ := unit_bind_eq_ok_iff.mp hrun
    rw [hgen, ok_bind] at hrun
    dsimp only at hrun
    rw [hsize, ok_bind, stringAt_buffer, ok_bind] at hrun
    obtain ⟨bf', hbf', hrun⟩ := bind_eq_ok hrun
    rw [panicCond_eq_ok_iff, decide_eq_true_eq] at hpos
    exact ⟨⟨bf, createAndCompare_eq_ok_iff.mp hbf, hpos⟩, bf', createAndCompare_eq_ok_iff.mp hbf',
      (bloomLoop_eq_ok_iff hmem h1 hlt (by omega)).mp ⟨k'', hrun⟩⟩
  · rintro ⟨⟨bf, hbf, hpos⟩, bf', hbf', htrials⟩
    obtain ⟨k'', hloop⟩ := (bloomLoop_eq_ok_iff hmem h1 hlt (by omega)).mpr htrials
    refine ⟨k'', ?_⟩
    rw [show digits456.bytes.length = 3 from rfl, createAndCompare_eq_ok_iff.mpr hbf, ok_bind]
    refine unit_bind_eq_ok_iff.mpr ⟨panicCond_eq_ok_iff.mpr (decide_eq_true hpos), ?_⟩
    rw [hgen, ok_bind]
    dsimp only
    rw [hsize, ok_bind, stringAt_buffer, ok_bind, createAndCompare_eq_ok_iff.mpr hbf', ok_bind]
    exact hloop

end

theorem buffer_injective {s s' : CString} (h : buffer s = buffer s') : s = s' := by
  rw [← ofBuffer_bytes s [], Option.some.inj h, ofBuffer_bytes]

/-- Filters in which nothing is set. -/
def emptyFilters : BloomMaker where
  create _ _ size := bloomInit (fun _ => true) size
  bsz_create := by
    intro m doc size bf hbf
    unfold bloomInit at hbf
    split_ifs at hbf
    cases hbf
    rfl

theorem madeAlike_emptyFilters {m : Nat} {doc : CString} {size : Int} (h0 : 0 ≤ size) (hdvd : 8 ∣ size) :
    ∃ bf, MadeAlike emptyFilters emptyFilters m doc size bf := by
  obtain ⟨bf, hbf, -⟩ := bloomInit_reads_clear (fun _ => rfl) h0 hdvd
  refine ⟨bf, hbf, bf, hbf, fun i _ => ?_⟩
  rw [← forall_extractBit_eq_iff]
  exact fun _ _ => rfl

/-- The answers of the definition pass when no piece of the document is looked for, and fail on a document of
one letter. -/
theorem testRkBloom_allPositions :
    (∃ k', testRkBloom (fun _ => 1) ⟨fun _ => true, fun _ => 0⟩ emptyFilters emptyFilters (fun _ => allPositions) 0 2 12 =
        .ok k') ∧
      ¬ ∃ k', testRkBloom (fun _ => 0) ⟨fun _ => true, fun _ => 0⟩ emptyFilters emptyFilters (fun _ => allPositions) 0 2
        12 = .ok k' := by
  have hverdict := fun r => @testRkBloom_iff (fun _ => r) ⟨fun _ => true, fun _ => 0⟩ 0 (fun _ => rfl) 2 12 (by decide)
    (by decide) (by decide) emptyFilters emptyFilters (fun _ => allPositions)
  constructor
  · obtain ⟨k', doc, -, -, hletters, hpass, htrials⟩ := hverdict 1
    obtain ⟨small, hsmall⟩ := @madeAlike_emptyFilters 3 digits 80 (by decide) (by decide)
    obtain ⟨large, hlarge⟩ := @madeAlike_emptyFilters 2 doc 120 (by decide) (by decide)
    refine hpass.mpr ⟨⟨small, hsmall, by decide⟩, large, hlarge, fun t ht => ?_⟩
    have hnone : ∀ n k, ∀ t ∈ bloomTrials (fun _ => 1) doc 2 n k, positions t.pattern doc = [] := by
      intro n
      induction n with
      | zero => exact fun k t ht => nomatch ht
      | succ n ih =>
          intro k t ht
          rcases List.mem_cons.mp ht with rfl | ht
          · exact positions_absentWord (by decide) hletters
          · exact ih _ t ht
    refine (htrials t ht _ (rightOn_allPositions [(t.pattern, doc)] _ List.mem_cons_self)).mpr ?_
    rw [hnone _ _ t ht]
    decide
  · obtain ⟨k', doc, hgen, hlen, -, hpass, htrials⟩ := hverdict 0
    rintro hrun
    obtain ⟨-, bf, -, hall⟩ := hpass.mp hrun
    have hfirst : (⟨piece doc 0 2, some 0⟩ : Trial) ∈ bloomTrials (fun _ => 0) doc 2 100 k' := by
      rw [bloomTrials, if_neg (by decide)]
      simp
    have hle := (htrials _ hfirst _ (rightOn_allPositions [(piece doc 0 2, doc)] _ List.mem_cons_self)).mp (hall _ hfirst)
    have hdoc : generateRandomDocument (fun _ => 0) ⟨fun _ => true, fun _ => 0⟩ 0 12 = .ok (15, buffer (lettersA 12)) := by
      decide
    rw [hdoc] at hgen
    have hbuffer := (Prod.mk.inj (Except.ok.inj hgen)).2
    rw [← buffer_injective hbuffer] at hle
    exact absurd hle (by decide)

end CsoLabs.Grep
