import CsoLabs.Fallible
import CsoLabs.GrepFile
import CsoLabs.GrepPrint

/-! The tester of the pattern matchers, `rkgrep_test.c`. The functions under test are parameters; what `rand`
returns is a sequence, of which the call numbered `k` comes next. -/

namespace CsoLabs.Grep
open CLang Fallible
open Table (CString)

/-- `panic_cond` -/
def panicCond (cond : Bool) (message : String) : Except Abort Unit :=
  if cond then .ok () else .error (.exit (message ++ "\n"))

/-- The sizes that there is memory for, and what fresh memory holds. -/
structure Memory where
  grants : Nat → Bool
  fresh : Nat → BitVec 8

def Memory.malloc (mem : Memory) (size : Nat) : Doc :=
  if mem.grants size then some ((List.range size).map mem.fresh) else none

def Memory.calloc (mem : Memory) (size : Nat) : Doc := if mem.grants size then some (List.replicate size 0) else none

/-- `doc[i] = b`, with an index that may be negative. -/
def store (doc : Doc) (i : Int) (b : BitVec 8) : Except Abort Doc :=
  if i < 0 then .error .outOfBounds else assign doc i.toNat b

/-- `memset(doc, b, n)` -/
def memset (doc : Doc) (b : BitVec 8) (n : Nat) : Except Abort Doc :=
  match doc with
  | none => .error .invalidPointer
  | some buf => if n ≤ buf.length then .ok (some (List.replicate n b ++ buf.drop n)) else .error .outOfBounds

/-- `strncpy(p, doc + pos, n)`: the string is cut off, or filled up with zeros. -/
def strncpy (p doc : Doc) (pos n : Nat) : Except Abort Doc :=
  match p, doc with
  | some dst, some buf =>
      let read := (buf.drop pos).take n
      let kept := read.takeWhile (· ≠ 0)
      if read.length < n ∧ 0 ∉ read ∨ dst.length < n then .error .outOfBounds
      else .ok (some (kept ++ List.replicate (n - kept.length) 0 ++ dst.drop n))
  | _, _ => .error .invalidPointer

/-- The string that a `char *` points to. -/
def stringAt (doc : Doc) : Except Abort CString :=
  match doc with
  | none => .error .invalidPointer
  | some buf => if 0 ∈ buf then .ok (.ofBuffer buf) else .error .outOfBounds

/-- `%s` -/
def text (s : CString) : String := String.ofList (s.bytes.map fun b => Char.ofNat b.toNat)

/-! ### Random words -/

/-- `'a' + r % 26` -/
def letter (r : Nat) : BitVec 8 := BitVec.ofNat 8 (97 + r % 26)

/-- The loop of `generate_random_word` on `buf + off`, from `i` on and with `n` turns left. -/
def wordLoop (rand : Nat → Nat) (off : Nat) : Nat → Nat → Nat → Doc → Except Abort Doc
  | 0, _, _, buf => .ok buf
  | n + 1, i, k, buf => do
      let buf ← assign buf (off + i) (letter (rand k))
      wordLoop rand off n (i + 1) (k + 1) buf

def generateRandomWord (rand : Nat → Nat) (k : Nat) (buf : Doc) (off len : Nat) : Except Abort (Nat × Doc) := do
  let buf ← wordLoop rand off len 0 k buf
  let buf ← assign buf (off + len) 0
  return (k + len, buf)

/-- `word_len`, when `left` characters are left. -/
def wordLen (r left : Nat) : Nat :=
  let len := r % 5 + 5
  if len > left then left
  else if len = left - 1 then len + 1
  else len

/-- The `while` loop of `generate_random_document`. The space is where the next word starts. -/
def documentLoop (rand : Nat → Nat) (len : Nat) : Nat → Nat → Nat → Doc → Except Abort (Nat × Doc)
  | 0, _, _, _ => .error .diverges
  | fuel + 1, k, i, buf =>
      if i < len then do
        let n := wordLen (rand k) (len - i)
        let (k, buf) ← generateRandomWord rand (k + 1) buf i n
        if i + n = len then return (k, buf)
        else do
          let buf ← assign buf (i + n) 32
          documentLoop rand len fuel k (i + n) buf
      else return (k, buf)

def generateRandomDocument (rand : Nat → Nat) (mem : Memory) (k len : Nat) : Except Abort (Nat × Doc) := do
  let size ← checkInt (len + 1)
  let (k, buf) ← documentLoop rand len (len + 1) k 0 (mem.malloc size.toNat)
  let buf ← assign buf len 0
  return (k, buf)

/-! ### One match -/

/-- A function that looks for a pattern in a document: what it returns, and what is in `*first_match_ind` then. -/
abbrev Matcher := CString → CString → Int × Int

/-- The pattern of `test_match_at_pos`: a piece of the document, or a word that ends in `'!'`. -/
def trialPattern (rand : Nat → Nat) (mem : Memory) (k : Nat) (doc : Doc) (pos : Int) (patternLen : Nat) :
    Except Abort (Nat × Doc) := do
  let size ← checkInt (patternLen + 1)
  let p := mem.calloc size.toNat
  if 0 ≤ pos then do
    let p ← strncpy p doc pos.toNat patternLen
    return (k, p)
  else do
    let (k, p) ← generateRandomWord rand k p 0 patternLen
    let p ← store p (patternLen - 1) 33
    return (k, p)

/-- The tests of `test_match_at_pos`. -/
def checkMatch (pattern doc : CString) (pos expected : Int) (answer : Int × Int) : Except Abort Unit := do
  if 0 ≤ expected then
    panicCond (answer.1 = expected)
      ("Number of matched positions is " ++ toString answer.1 ++ " (should be " ++ toString expected ++ ")")
  if expected ≠ 0 then
    panicCond (answer.2 = pos) ("Pattern (" ++ text pattern ++ ") found in doc (" ++ text doc ++ ") at position " ++
      toString answer.2 ++ " != " ++ toString pos ++ " (expected)\n")

def testMatchAtPos (rand : Nat → Nat) (mem : Memory) (matcher : Matcher) (k : Nat) (doc : Doc) (pos expected : Int)
    (patternLen : Nat) : Except Abort Nat := do
  let (k, p) ← trialPattern rand mem k doc pos patternLen
  let pattern ← stringAt p
  let doc ← stringAt doc
  checkMatch pattern doc pos expected (matcher pattern doc)
  return k

/-! ### `test_naive` and `test_rk` -/

/-- `rand() % m` -/
def randMod (r : Nat) (m : Int) : Except Abort Int :=
  -- there is no remainder by zero
  if m = 0 then .error .intOverflow else .ok ((r : Int).tmod m)

/-- The rounds of the "worse case": a `'b'` in a document of letters `'a'`, and a pattern that ends there. -/
def worstCaseLoop (rand : Nat → Nat) (mem : Memory) (matcher : Matcher) (patternLen documentLen : Nat) :
    Nat → Nat → Doc → Except Abort Nat
  | 0, k, _ => .ok k
  | n + 1, k, doc => do
      let pos ← randMod (rand k) (documentLen - patternLen)
      let stop ← checkInt (pos + patternLen)
      let doc ← store doc (stop - 1) 98
      let k ← testMatchAtPos rand mem matcher (k + 1) doc pos 1 patternLen
      let doc ← store doc (stop - 1) 97
      worstCaseLoop rand mem matcher patternLen documentLen n k doc

def testWorstCase (rand : Nat → Nat) (mem : Memory) (matcher : Matcher) (k patternLen documentLen : Nat) :
    Except Abort Nat := do
  let size ← checkInt (documentLen + 1)
  let doc ← memset (mem.malloc size.toNat) 97 documentLen
  let doc ← assign doc documentLen 0
  worstCaseLoop rand mem matcher patternLen documentLen 100 k doc

/-- "abracadabra" -/
def abracadabra : CString := .ofBuffer [0x61, 0x62, 0x72, 0x61, 0x63, 0x61, 0x64, 0x61, 0x62, 0x72, 0x61]

/-- "aaa" -/
def aaa : CString := .ofBuffer [0x61, 0x61, 0x61]

/-- The array of a string. -/
def buffer (s : CString) : Doc := some (s.bytes ++ [0])

/-- The pattern that is not in the document. -/
def testNonMatch (matcher : Matcher) : Except Abort Unit :=
  panicCond ((matcher aaa abracadabra).1 = 0)
    ("Pattern (" ++ text aaa ++ ") should not have been found in doc (" ++ text abracadabra ++ ")\n")

def testNaive (rand : Nat → Nat) (mem : Memory) (naive : Matcher) (k patternLen documentLen : Nat) :
    Except Abort Nat := do
  let k ← testMatchAtPos rand mem naive k (buffer abracadabra) 0 2 3
  let k ← testMatchAtPos rand mem naive k (buffer abracadabra) 6 1 3
  testNonMatch naive
  testWorstCase rand mem naive k patternLen documentLen

/-- `rkhash_init`, with what it leaves in `*h`, and `rkhash_next`. -/
structure RkHash where
  init : CString → Nat → Int × Int
  next : Int → Int → BitVec 8 → BitVec 8 → Int

/-- The loop of `test_rkhash`, with `n` turns left. -/
def rkhashLoop (lab reference : RkHash) (patternLen : Nat) (doc : CString) (h : Int) :
    Nat → Nat → Int → Int → Except Abort Unit
  | 0, _, _, _ => .ok ()
  | n + 1, i, hash, hash1 => do
      let leftmost ← charAt doc (i - patternLen)
      let rightmost ← charAt doc i
      let hash := lab.next hash h leftmost rightmost
      let hash1 := reference.next hash1 h leftmost rightmost
      panicCond (hash = hash1) ("test_rkhash_next i=" ++ toString i ++ " rkhash_next returns " ++ toString hash ++
        " != " ++ toString hash1 ++ " (expected)\n")
      rkhashLoop lab reference patternLen doc h n (i + 1) hash hash1

/-- Both functions are given the address of `h`, the second after the first. -/
def testRkhash (lab reference : RkHash) (patternLen : Nat) (doc : CString) : Except Abort Unit := do
  let (hash, _) := lab.init doc patternLen
  let (hash1, h) := reference.init doc patternLen
  panicCond (hash = hash1)
    ("rkhash_init returns " ++ toString hash ++ " != " ++ toString hash1 ++ " (expected)\n")
  rkhashLoop lab reference patternLen doc h (doc.bytes.length - patternLen) patternLen hash hash1

def testRk (rand : Nat → Nat) (mem : Memory) (lab reference : RkHash) (rk : Matcher) (k patternLen documentLen : Nat) :
    Except Abort Nat := do
  testRkhash lab reference 3 abracadabra
  testNonMatch rk
  testWorstCase rand mem rk k patternLen documentLen

/-! ### Occurrences -/

/-- The positions where a pattern is found. -/
def positions (pattern doc : CString) : List Nat := (List.range (doc.bytes.length + 1)).filter (Occurs pattern doc ·)

/-- The answer that the comments of `rkgrep.c` ask for: the number of the positions, and the first of them. -/
def RightAnswer (pattern doc : CString) (answer : Int × Int) : Prop :=
  answer.1 = (positions pattern doc).length ∧ ∀ pos ∈ (positions pattern doc).head?, answer.2 = pos

section

variable {pattern doc : CString}

theorem mem_positions (h : pattern.bytes ≠ []) {pos : Nat} :
    pos ∈ positions pattern doc ↔ Occurs pattern doc pos := by
  rw [positions, List.mem_filter, List.mem_range, decide_eq_true_eq]
  refine and_iff_right_of_imp fun hocc => ?_
  have hle := hocc.le (.inl h)
  omega

theorem positions_eq_nil (h : pattern.bytes ≠ []) (hnone : ∀ pos, ¬ Occurs pattern doc pos) :
    positions pattern doc = [] := by
  apply List.eq_nil_iff_forall_not_mem.mpr
  intro pos
  rw [mem_positions h]
  exact hnone pos

theorem positions_eq_singleton (h : pattern.bytes ≠ []) {pos : Nat} (hocc : Occurs pattern doc pos)
    (huniq : ∀ other, Occurs pattern doc other → other = pos) : positions pattern doc = [pos] := by
  apply List.perm_singleton.mp
  have hnodup : (positions pattern doc).Nodup := List.nodup_range.filter _
  apply (List.perm_ext_iff_of_nodup hnodup (List.nodup_singleton pos)).mpr
  intro other
  rw [mem_positions h, List.mem_singleton]
  exact ⟨huniq other, fun heq => heq ▸ hocc⟩

theorem panicCond_eq_ok_iff {cond : Bool} {message : String} {u : Unit} :
    panicCond cond message = .ok u ↔ cond = true := by
  cases cond with
  | true => exact iff_of_true rfl rfl
  | false => exact iff_of_false nofun nofun

theorem checkMatch_eq_ok_iff {pos expected : Int} {answer : Int × Int} {u : Unit} :
    checkMatch pattern doc pos expected answer = .ok u ↔
      (0 ≤ expected → answer.1 = expected) ∧ (expected ≠ 0 → answer.2 = pos) := by
  unfold checkMatch
  simp only [pure_eq_ok]
  by_cases h0 : 0 ≤ expected
  · rw [if_pos h0, unit_bind_eq_ok_iff, ite_ok_eq_ok_iff, panicCond_eq_ok_iff, panicCond_eq_ok_iff,
      decide_eq_true_eq, decide_eq_true_eq, imp_iff_right h0]
  · rw [if_neg h0, ite_ok_eq_ok_iff, panicCond_eq_ok_iff, decide_eq_true_eq, and_iff_right fun h => absurd h h0]

/-- Where a pattern is found, it is tested for the number of its positions and the first one. -/
theorem checkMatch_iff_rightAnswer {pos : Nat} {rest : List Nat} (h : positions pattern doc = pos :: rest)
    {answer : Int × Int} {u : Unit} :
    checkMatch pattern doc pos (positions pattern doc).length answer = .ok u ↔ RightAnswer pattern doc answer := by
  have hpos : ((positions pattern doc).length : Int) ≠ 0 := by
    rw [h, List.length_cons]
    omega
  rw [checkMatch_eq_ok_iff, imp_iff_right (by omega), imp_iff_right hpos, RightAnswer, h, List.head?_cons]
  simp

end

/-! ### Strings in their arrays -/

theorem ofBuffer_bytes (s : CString) (rest : List (BitVec 8)) : CString.ofBuffer (s.bytes ++ 0 :: rest) = s := by
  obtain ⟨bytes, hnonzero⟩ := s
  unfold CString.ofBuffer
  rw [CString.mk.injEq, List.takeWhile_append_of_pos (fun b hb => decide_eq_true (hnonzero b hb)),
    List.takeWhile_cons_of_neg (by simp), List.append_nil]

theorem stringAt_buffer (s : CString) : stringAt (buffer s) = .ok s := by
  unfold stringAt buffer
  dsimp only
  rw [if_pos (List.mem_append_right _ List.mem_cons_self), ofBuffer_bytes]

/-- `n` characters of a string. -/
def piece (doc : CString) (pos n : Nat) : CString :=
  ⟨(doc.bytes.drop pos).take n, fun b hb => doc.nonzero b (List.mem_of_mem_drop (List.mem_of_mem_take hb))⟩

section

variable {doc : CString} {pos n : Nat}

theorem length_piece (h : pos + n ≤ doc.bytes.length) : (piece doc pos n).bytes.length = n := by
  rw [piece, List.length_take, List.length_drop]
  omega

theorem piece_ne_nil (hn : 1 ≤ n) (h : pos + n ≤ doc.bytes.length) : (piece doc pos n).bytes ≠ [] := by
  apply List.ne_nil_of_length_pos
  rw [length_piece h]
  exact hn

theorem occurs_piece (doc : CString) (pos n : Nat) : Occurs (piece doc pos n) doc pos := List.take_prefix n _

theorem strncpy_buffer (h : pos + n ≤ doc.bytes.length) :
    strncpy (some (List.replicate (n + 1) 0)) (buffer doc) pos n = .ok (buffer (piece doc pos n)) := by
  have hread : ((doc.bytes ++ [0]).drop pos).take n = (piece doc pos n).bytes := by
    rw [List.drop_append_of_le_length (by omega), List.take_append_of_le_length (by rw [List.length_drop]; omega)]
    rfl
  have hkept : (piece doc pos n).bytes.takeWhile (· ≠ 0) = (piece doc pos n).bytes :=
    List.takeWhile_eq_self_iff.mpr fun b hb => decide_eq_true ((piece doc pos n).nonzero b hb)
  unfold strncpy buffer
  dsimp only
  rw [hread, hkept, length_piece h, List.length_replicate, if_neg (by omega), Nat.sub_self, List.replicate_zero,
    List.append_nil, List.drop_replicate, Nat.add_sub_cancel_left]
  rfl

end

/-- The string with another character at an index. -/
def put (s : CString) (i : Nat) (b : BitVec 8) (hb : b ≠ 0) : CString :=
  ⟨s.bytes.set i b, fun c hc => (List.mem_or_eq_of_mem_set hc).elim (s.nonzero c) fun heq => heq ▸ hb⟩

theorem store_buffer {s : CString} {i : Nat} (h : i < s.bytes.length) {b : BitVec 8} (hb : b ≠ 0) :
    store (buffer s) i b = .ok (buffer (put s i b hb)) := by
  unfold store assign buffer
  rw [if_neg (by omega)]
  dsimp only
  rw [Int.toNat_natCast, List.length_append, if_pos (by omega), List.set_append_left _ _ h]
  rfl

/-! ### Whole tests -/

theorem checkInt_succ {n : Nat} (h : (n : Int) < intMax) : checkInt ((n : Int) + 1) = .ok ((n + 1 : Nat) : Int) := by
  rw [Nat.cast_add]
  exact checkInt_of_le (by omega) (by omega)

/-- A document of `n` letters `'a'`. -/
def lettersA (n : Nat) : CString := ⟨List.replicate n 97, fun b hb => by rw [List.eq_of_mem_replicate hb]; decide⟩

section

variable {s : CString} {i j : Nat} {b : BitVec 8} {hb : b ≠ 0}

@[simp] theorem length_put : (put s i b hb).bytes.length = s.bytes.length := List.length_set

theorem getD_put_self (h : i < s.bytes.length) : (put s i b hb).bytes.getD i 0 = b := by
  rw [List.getD_eq_getElem _ _ (by rw [length_put]; exact h)]
  exact List.getElem_set_self _

theorem getD_put_of_ne (h : j ≠ i) : (put s i b hb).bytes.getD j 0 = s.bytes.getD j 0 := by
  rw [List.getD_eq_getElem?_getD, put, List.getElem?_set_ne h.symm, ← List.getD_eq_getElem?_getD]

@[simp] theorem length_lettersA (n : Nat) : (lettersA n).bytes.length = n := List.length_replicate

theorem getD_lettersA_ne (n i : Nat) : (lettersA n).bytes.getD i 0 ≠ 98 := by
  by_cases hi : i < n
  · rw [lettersA, List.getD_replicate _ hi]
    decide
  · rw [List.getD_eq_default _ _ (by rw [length_lettersA]; omega)]
    decide

/-- Writing the letter back restores the document. -/
theorem put_lettersA (n : Nat) : put (put (lettersA n) i b hb) i 97 (by decide) = lettersA n := by
  unfold put lettersA
  rw [CString.mk.injEq, List.set_set]
  exact List.set_replicate_self

end

/-- The pattern and the document of a round of the "worse case". -/
def worstTrial (r patternLen documentLen : Nat) : CString × CString :=
  let pos := r % (documentLen - patternLen)
  let doc := put (lettersA documentLen) (pos + patternLen - 1) 98 (by decide)
  (piece doc pos patternLen, doc)

section

variable {rand : Nat → Nat} {mem : Memory} {matcher : Matcher} {k n : Nat}

theorem trialPattern_piece (hmem : ∀ size, mem.grants size = true) {doc : CString} {pos : Nat}
    (hint : (n : Int) < intMax) (h : pos + n ≤ doc.bytes.length) :
    trialPattern rand mem k (buffer doc) pos n = .ok (k, buffer (piece doc pos n)) := by
  unfold trialPattern
  rw [checkInt_succ hint, ok_bind]
  dsimp only
  rw [if_pos (by omega), Int.toNat_natCast, Int.toNat_natCast, Memory.calloc, if_pos (hmem _), strncpy_buffer h,
    ok_bind]
  rfl

theorem testMatchAtPos_of_pattern {doc pattern : CString} {pos expected : Int} {k₁ : Nat}
    (hpattern : trialPattern rand mem k (buffer doc) pos n = .ok (k₁, buffer pattern)) {k' : Nat} :
    testMatchAtPos rand mem matcher k (buffer doc) pos expected n = .ok k' ↔
      checkMatch pattern doc pos expected (matcher pattern doc) = .ok () ∧ k' = k₁ := by
  unfold testMatchAtPos
  rw [hpattern, ok_bind]
  dsimp only
  rw [stringAt_buffer, ok_bind, stringAt_buffer, ok_bind, unit_bind_eq_ok_iff, pure_eq_ok, Except.ok.injEq,
    eq_comm (a := k₁)]

/-- A trial passes when the answer is right, provided that the test expects what is true. -/
theorem testMatchAtPos_eq_ok_iff (hmem : ∀ size, mem.grants size = true) {doc : CString} {pos : Nat}
    (hint : (n : Int) < intMax) (h : pos + n ≤ doc.bytes.length) {rest : List Nat}
    (hpositions : positions (piece doc pos n) doc = pos :: rest) {expected : Int}
    (hexpected : expected = (positions (piece doc pos n) doc).length) {k' : Nat} :
    testMatchAtPos rand mem matcher k (buffer doc) pos expected n = .ok k' ↔
      RightAnswer (piece doc pos n) doc (matcher (piece doc pos n) doc) ∧ k' = k := by
  rw [testMatchAtPos_of_pattern (trialPattern_piece hmem hint h), hexpected, checkMatch_iff_rightAnswer hpositions]

/-- The pattern of a round ends in the only `'b'` of the document, and so it is found once. -/
theorem positions_worstTrial {patternLen documentLen : Nat} (h1 : 1 ≤ patternLen) (hlt : patternLen < documentLen)
    (r : Nat) :
    positions (worstTrial r patternLen documentLen).1 (worstTrial r patternLen documentLen).2 =
      [r % (documentLen - patternLen)] := by
  have hpos := Nat.mod_lt r (Nat.sub_pos_of_lt hlt)
  unfold worstTrial
  generalize r % (documentLen - patternLen) = pos at hpos
  dsimp only
  generalize hdoc : put (lettersA documentLen) (pos + patternLen - 1) 98 (by decide) = doc
  have hlen : doc.bytes.length = documentLen := by rw [← hdoc, length_put, length_lettersA]
  have hpiece : (piece doc pos patternLen).bytes.length = patternLen := length_piece (by omega)
  have hlast : (piece doc pos patternLen).bytes.getD (patternLen - 1) 0 = 98 := by
    have hindex : patternLen - 1 + pos = pos + patternLen - 1 := by omega
    rw [← (occurs_piece doc pos patternLen).getD_eq (by omega), hindex, ← hdoc, getD_put_self]
    rw [length_lettersA]
    omega
  apply positions_eq_singleton (piece_ne_nil h1 (by omega)) (occurs_piece doc pos patternLen)
  intro other hocc
  by_contra hne
  have hchar := hocc.getD_eq (i := patternLen - 1) (by omega)
  rw [hlast, ← hdoc, getD_put_of_ne (by omega)] at hchar
  exact getD_lettersA_ne documentLen _ hchar

theorem randMod_eq {r m n : Nat} (h : m < n) : randMod r ((n : Int) - m) = .ok ((r % (n - m) : Nat) : Int) := by
  unfold randMod
  rw [if_neg (by omega), ← Nat.cast_sub h.le, Int.tmod_eq_emod_of_nonneg (by omega), Int.natCast_mod]

/-- The rounds leave the document as it was, and all pass when all answers are right. -/
theorem worstCaseLoop_eq_ok_iff (hmem : ∀ size, mem.grants size = true) {patternLen documentLen : Nat}
    (h1 : 1 ≤ patternLen) (hlt : patternLen < documentLen) (hint : (documentLen : Int) < intMax) {k' : Nat} :
    worstCaseLoop rand mem matcher patternLen documentLen n k (buffer (lettersA documentLen)) = .ok k' ↔
      (∀ r < n, let trial := worstTrial (rand (k + r)) patternLen documentLen
        RightAnswer trial.1 trial.2 (matcher trial.1 trial.2)) ∧ k' = k + n := by
  induction n generalizing k with
  | zero =>
      rw [worstCaseLoop, Except.ok.injEq, and_iff_right nofun, Nat.add_zero]
      exact eq_comm
  | succ n ih =>
      have hpos := Nat.mod_lt (rand k) (Nat.sub_pos_of_lt hlt)
      have hpositions := positions_worstTrial h1 hlt (rand k)
      unfold worstTrial at hpositions ⊢
      rw [Nat.forall_lt_succ_left, worstCaseLoop, randMod_eq hlt, ok_bind, Nat.add_zero]
      generalize rand k % (documentLen - patternLen) = pos at hpos hpositions
      have hstop : checkInt ((pos : Int) + patternLen) = .ok ((pos + patternLen : Nat) : Int) := by
        rw [Nat.cast_add]
        exact checkInt_of_le (by omega) (by omega)
      have hindex : ((pos + patternLen : Nat) : Int) - 1 = ((pos + patternLen - 1 : Nat) : Int) := by omega
      rw [hstop, ok_bind, hindex, store_buffer (by rw [length_lettersA]; omega) (by decide), ok_bind]
      dsimp only at hpositions ⊢
      have hback : store (buffer (put (lettersA documentLen) (pos + patternLen - 1) 98 (by decide)))
          ((pos + patternLen - 1 : Nat) : Int) 97 = .ok (buffer (lettersA documentLen)) := by
        rw [store_buffer (by rw [length_put, length_lettersA]; omega) (by decide), put_lettersA]
      generalize hdoc : put (lettersA documentLen) (pos + patternLen - 1) 98 (by decide) = doc at hpositions hback ⊢
      have hlen : doc.bytes.length = documentLen := by rw [← hdoc, length_put, length_lettersA]
      have htrial : ∀ {k''}, testMatchAtPos rand mem matcher (k + 1) (buffer doc) pos 1 patternLen = .ok k'' ↔
          RightAnswer (piece doc pos patternLen) doc (matcher (piece doc pos patternLen) doc) ∧ k'' = k + 1 :=
        testMatchAtPos_eq_ok_iff hmem (by omega) (by omega) hpositions (by rw [hpositions]; rfl)
      have hrand : ∀ r, k + 1 + r = k + (r + 1) := by omega
      rw [bind_eq_ok_iff_of htrial, hback, ok_bind, ih, and_assoc]
      simp only [hrand]
      exact Iff.rfl

theorem testWorstCase_eq_ok_iff (hmem : ∀ size, mem.grants size = true) {patternLen documentLen : Nat}
    (h1 : 1 ≤ patternLen) (hlt : patternLen < documentLen) (hint : (documentLen : Int) < intMax) {k' : Nat} :
    testWorstCase rand mem matcher k patternLen documentLen = .ok k' ↔
      (∀ r < 100, let trial := worstTrial (rand (k + r)) patternLen documentLen
        RightAnswer trial.1 trial.2 (matcher trial.1 trial.2)) ∧ k' = k + 100 := by
  rw [← worstCaseLoop_eq_ok_iff hmem h1 hlt hint]
  have hmemset : memset (mem.malloc (documentLen + 1)) 97 documentLen =
      .ok (some (List.replicate documentLen 97 ++ [mem.fresh documentLen])) := by
    unfold Memory.malloc memset
    rw [if_pos (hmem _)]
    dsimp only
    rw [List.length_map, List.length_range, if_pos (by omega), List.range_succ, List.map_append,
      List.drop_left' (by rw [List.length_map, List.length_range])]
    rfl
  have hassign : assign (some (List.replicate documentLen 97 ++ [mem.fresh documentLen])) documentLen 0 =
      .ok (buffer (lettersA documentLen)) := by
    unfold assign
    dsimp only
    rw [List.length_append, List.length_replicate, if_pos (by rw [List.length_singleton]; omega),
      List.set_append_right _ _ (by rw [List.length_replicate]), List.length_replicate, Nat.sub_self]
    rfl
  rw [testWorstCase, checkInt_succ hint, ok_bind, Int.toNat_natCast, hmemset, ok_bind, hassign, ok_bind]

end

/-! ### The verdicts -/

/-- The answers are right for all patterns and documents of the list. -/
def RightOn (matcher : Matcher) (trials : List (CString × CString)) : Prop :=
  ∀ trial ∈ trials, RightAnswer trial.1 trial.2 (matcher trial.1 trial.2)

/-- What `test_rk` has its matcher look for, when the next call of `rand` is the one numbered `k`. -/
def rkTrials (rand : Nat → Nat) (k patternLen documentLen : Nat) : List (CString × CString) :=
  (aaa, abracadabra) :: (List.range 100).map fun r => worstTrial (rand (k + r)) patternLen documentLen

/-- What `test_naive` has its matcher look for. -/
def naiveTrials (rand : Nat → Nat) (k patternLen documentLen : Nat) : List (CString × CString) :=
  (piece abracadabra 0 3, abracadabra) :: (piece abracadabra 6 3, abracadabra) :: rkTrials rand k patternLen documentLen

/-- The hash after `n` steps of `rkhash_next`, all with the same `h`. -/
def RkHash.chain (f : RkHash) (patternLen : Nat) (doc : CString) (h : Int) : Nat → Int
  | 0 => (f.init doc patternLen).1
  | n + 1 => f.next (f.chain patternLen doc h n) h (doc.bytes.getD n 0) (doc.bytes.getD (n + patternLen) 0)

theorem testNonMatch_eq_ok_iff {matcher : Matcher} {u : Unit} :
    testNonMatch matcher = .ok u ↔ RightAnswer aaa abracadabra (matcher aaa abracadabra) := by
  have hpositions : positions aaa abracadabra = [] := by decide
  rw [testNonMatch, panicCond_eq_ok_iff, decide_eq_true_eq, RightAnswer, hpositions]
  simp

theorem rkhashLoop_eq_ok_iff {lab reference : RkHash} {patternLen : Nat} {doc : CString} {h : Int} {n j : Nat}
    (hle : patternLen + j + n ≤ doc.bytes.length) {u : Unit} :
    rkhashLoop lab reference patternLen doc h n (patternLen + j) (lab.chain patternLen doc h j)
        (reference.chain patternLen doc h j) = .ok u ↔
      ∀ r < n, lab.chain patternLen doc h (j + 1 + r) = reference.chain patternLen doc h (j + 1 + r) := by
  induction n generalizing j with
  | zero => exact iff_of_true rfl nofun
  | succ n ih =>
      have hleft : ((patternLen + j : Nat) : Int) - patternLen = (j : Nat) := by omega
      have hshift : ∀ r, j + 1 + 1 + r = j + 1 + (r + 1) := by omega
      have hnext := ih (j := j + 1) (by omega)
      simp only [hshift] at hnext
      rw [rkhashLoop, hleft, charAt_of_lt (by omega), ok_bind, charAt_of_lt (by omega), ok_bind,
        Nat.forall_lt_succ_left, Nat.add_comm patternLen j]
      dsimp only
      rw [unit_bind_eq_ok_iff, panicCond_eq_ok_iff, decide_eq_true_eq, ← hnext, Nat.add_comm patternLen (j + 1),
        Nat.add_right_comm]
      rfl

/-- The two hash functions are compared along the document, with the `h` of the reference. -/
theorem testRkhash_eq_ok_iff {lab reference : RkHash} {patternLen : Nat} {doc : CString}
    (hle : patternLen ≤ doc.bytes.length) {u : Unit} :
    testRkhash lab reference patternLen doc = .ok u ↔
      ∀ r ≤ doc.bytes.length - patternLen, lab.chain patternLen doc (reference.init doc patternLen).2 r =
        reference.chain patternLen doc (reference.init doc patternLen).2 r := by
  have hloop := @rkhashLoop_eq_ok_iff lab reference patternLen doc (reference.init doc patternLen).2
    (doc.bytes.length - patternLen) 0 (by omega) u
  have hsucc : ∀ r, r ≤ doc.bytes.length - patternLen ↔ r < doc.bytes.length - patternLen + 1 := by omega
  simp only [hsucc, Nat.forall_lt_succ_left]
  unfold testRkhash
  dsimp only
  rw [unit_bind_eq_ok_iff, panicCond_eq_ok_iff, decide_eq_true_eq]
  refine and_congr Iff.rfl (hloop.trans (forall₂_congr fun r _ => ?_))
  rw [Nat.zero_add, Nat.add_comm]

/-- The part of the two tests that is the same. -/
theorem trials_iff {rand : Nat → Nat} {mem : Memory} (hmem : ∀ size, mem.grants size = true)
    {k patternLen documentLen : Nat} (h1 : 1 ≤ patternLen) (hlt : patternLen < documentLen)
    (hint : (documentLen : Int) < intMax) {matcher : Matcher} {k' : Nat} :
    (testNonMatch matcher >>= fun _ => testWorstCase rand mem matcher k patternLen documentLen) = .ok k' ↔
      RightOn matcher (rkTrials rand k patternLen documentLen) ∧ k' = k + 100 := by
  rw [unit_bind_eq_ok_iff, testNonMatch_eq_ok_iff, testWorstCase_eq_ok_iff hmem h1 hlt hint, RightOn, rkTrials,
    List.forall_mem_cons, List.forall_mem_map, and_assoc]
  simp only [List.mem_range]

/-- **What `test_naive` and `test_rk` accept.** For every sequence of random numbers, a matcher passes exactly when
its answers are right on all that it is asked; and the rolling hash exactly when it agrees with the reference on
the document of the test, computed with the `h` of the reference. The pattern of a worst case occurs exactly once. -/
theorem tests_pass_iff {rand : Nat → Nat} {mem : Memory} (hmem : ∀ size, mem.grants size = true)
    {k patternLen documentLen : Nat} (h1 : 1 ≤ patternLen) (hlt : patternLen < documentLen)
    (hint : (documentLen : Int) < intMax) (lab reference : RkHash) (naive rk : Matcher) :
    ((∃ k', testNaive rand mem naive k patternLen documentLen = .ok k') ↔
        RightOn naive (naiveTrials rand k patternLen documentLen)) ∧
      ((∃ k', testRk rand mem lab reference rk k patternLen documentLen = .ok k') ↔
        (∀ r ≤ 8, lab.chain 3 abracadabra (reference.init abracadabra 3).2 r =
            reference.chain 3 abracadabra (reference.init abracadabra 3).2 r) ∧
          RightOn rk (rkTrials rand k patternLen documentLen)) ∧
      ∀ r, positions (worstTrial r patternLen documentLen).1 (worstTrial r patternLen documentLen).2 =
        [r % (documentLen - patternLen)] := by
  have hfirst : ∀ {k'}, testMatchAtPos rand mem naive k (buffer abracadabra) 0 2 3 = .ok k' ↔
      RightAnswer (piece abracadabra 0 3) abracadabra (naive (piece abracadabra 0 3) abracadabra) ∧ k' = k := by
    have hpositions : positions (piece abracadabra 0 3) abracadabra = [0, 7] := by decide
    exact @testMatchAtPos_eq_ok_iff rand mem naive k 3 hmem abracadabra 0 (by decide) (by decide) [7] hpositions 2
      (by rw [hpositions]; rfl)
  have hsecond : ∀ {k'}, testMatchAtPos rand mem naive k (buffer abracadabra) 6 1 3 = .ok k' ↔
      RightAnswer (piece abracadabra 6 3) abracadabra (naive (piece abracadabra 6 3) abracadabra) ∧ k' = k := by
    have hpositions : positions (piece abracadabra 6 3) abracadabra = [6] := by decide
    exact @testMatchAtPos_eq_ok_iff rand mem naive k 3 hmem abracadabra 6 (by decide) (by decide) [] hpositions 1
      (by rw [hpositions]; rfl)
  refine ⟨?_, ?_, positions_worstTrial h1 hlt⟩
  · unfold testNaive
    simp only [bind_eq_ok_iff_of hfirst, bind_eq_ok_iff_of hsecond, trials_iff hmem h1 hlt hint, exists_and_left,
      exists_eq, and_true]
    unfold naiveTrials
    rw [RightOn, RightOn, List.forall_mem_cons, List.forall_mem_cons]
  · have hlen : abracadabra.bytes.length - 3 = 8 := rfl
    unfold testRk
    simp only [unit_bind_eq_ok_iff (f := fun _ => testNonMatch rk >>= _),
      testRkhash_eq_ok_iff (show 3 ≤ abracadabra.bytes.length by decide), hlen, trials_iff hmem h1 hlt hint,
      exists_and_left, exists_eq, and_true]

/-- The answers of the definition. -/
def allPositions : Matcher := fun pattern doc => ((positions pattern doc).length, (positions pattern doc).headD 0)

theorem rightOn_allPositions (trials : List (CString × CString)) : RightOn allPositions trials := by
  intro trial _
  refine ⟨rfl, fun pos hpos => ?_⟩
  unfold allPositions
  rw [List.headD_eq_head?_getD, Option.mem_def.mp hpos, Option.getD_some]

/-- A matcher that gives up at its first match is found out by the first pattern of `test_naive`. -/
theorem tests_pass_allPositions :
    (∃ k', testNaive id ⟨fun _ => true, fun _ => 0⟩ allPositions 0 2 5 = .ok k') ∧
      ¬ ∃ k', testNaive id ⟨fun _ => true, fun _ => 0⟩ (fun _ _ => (1, 0)) 0 2 5 = .ok k' := by
  have hpass := fun matcher => (@tests_pass_iff id ⟨fun _ => true, fun _ => 0⟩ (fun _ => rfl) 0 2 5 (by decide)
    (by decide) (by decide) ⟨fun _ _ => (0, 0), fun _ _ _ _ => 0⟩ ⟨fun _ _ => (0, 0), fun _ _ _ _ => 0⟩
    matcher matcher).1
  refine ⟨(hpass _).mpr (rightOn_allPositions _), fun hrun => ?_⟩
  have hright := (hpass _).mp hrun _ List.mem_cons_self
  exact absurd hright.1 (by decide)

end CsoLabs.Grep
