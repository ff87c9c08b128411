import CsoLabs.TableHash

/-! `print_matched_sentence` of `rkgrep_main.c`: the line of a match, with the match in red. The loop that prints
the match compares the two strings up to the first difference. Behind the pattern that is its terminating zero,
unless the document ends there too. -/

namespace CsoLabs.Grep
open CLang
open Table (CString)

/-- The character at an index; the terminating zero is the last one. -/
def charAt (s : CString) (i : Int) : Except Abort (BitVec 8) :=
  if i < 0 ∨ (s.bytes.length : Int) < i then .error .outOfBounds else .ok (s.bytes.getD i.toNat 0)

def newline : BitVec 8 := 10

/-- `REDCOLOR` -/
def redcolor : List (BitVec 8) := [0x1b, 0x5b, 0x33, 0x31, 0x6d]

/-- `NORMALCOLOR` -/
def normalcolor : List (BitVec 8) := [0x1b, 0x5b, 0x30, 0x6d]

/-- `start_sentence`, searched for from `start` on backwards -/
def startSentence (doc : CString) : Nat → Except Abort Nat
  | 0 => .ok 0
  | start + 1 => do
      let c ← charAt doc start
      if c ≠ newline then startSentence doc start else return start + 1

/-- The `for` loop, with `n` turns left. -/
def printChars (doc : CString) : Nat → Nat → Except Abort (List (BitVec 8))
  | 0, _ => .ok []
  | n + 1, j => do
      let c ← charAt doc j
      let out ← printChars doc n (j + 1)
      return c :: out

/-- The `while` loop over the match: the index where it ends, and what it prints. -/
def matchLoop (pos : Int) (pattern doc : CString) : Nat → Int → Except Abort (Int × List (BitVec 8))
  | 0, _ => .error .diverges
  | fuel + 1, i => do
      let c ← charAt doc (← checkInt (i + pos))
      let p ← charAt pattern i
      if c = p then
        let (last, out) ← matchLoop pos pattern doc fuel (← checkInt (i + 1))
        return (last, c :: out)
      else return (i, [])

/-- The `while` loop over the rest of the line. -/
def restLoop (pos : Int) (doc : CString) : Nat → Int → Except Abort (List (BitVec 8))
  | 0, _ => .error .diverges
  | fuel + 1, i => do
      let c ← charAt doc (← checkInt (i + pos))
      if c ≠ newline ∧ c ≠ 0 then
        let out ← restLoop pos doc fuel (← checkInt (i + 1))
        return c :: out
      else return []

/-- What is printed. No loop takes more turns than the document has characters and two. -/
def printMatchedSentence (pos : Int) (pattern doc : CString) : Except Abort (List (BitVec 8)) :=
  if pos < 0 then .ok []
  else do
    let start ← startSentence doc pos.toNat
    let front ← printChars doc (pos.toNat - start) start
    let (i, matched) ← matchLoop pos pattern doc (doc.bytes.length + 2) 0
    let rest ← restLoop pos doc (doc.bytes.length + 2) i
    return front ++ redcolor ++ matched ++ normalcolor ++ rest ++ [newline]

/-! ### The characters of a string -/

theorem charAt_of_lt {s : CString} {n : Nat} (h : n < s.bytes.length) : charAt s n = .ok (s.bytes.getD n 0) :=
  if_neg (by omega)

theorem charAt_length (s : CString) : charAt s s.bytes.length = .ok 0 := by
  rw [charAt, if_neg (by omega), Int.toNat_natCast, List.getD_eq_default _ _ le_rfl]

theorem charAt_of_gt {s : CString} {n : Nat} (h : s.bytes.length < n) : charAt s n = .error .outOfBounds :=
  if_pos (by omega)

theorem getD_ne_zero {s : CString} {n : Nat} (h : n < s.bytes.length) : s.bytes.getD n 0 ≠ 0 := by
  rw [List.getD_eq_getElem _ _ h]
  exact s.nonzero _ (List.getElem_mem h)

/-! ### The front of the line -/

/-- The characters of the line in front of a position. -/
def lineFront (doc : CString) (pos : Nat) : List (BitVec 8) := (doc.bytes.take pos).rtakeWhile (· ≠ newline)

theorem lineFront_succ {doc : CString} {n : Nat} (h : n < doc.bytes.length) :
    lineFront doc (n + 1) = if doc.bytes.getD n 0 ≠ newline then lineFront doc n ++ [doc.bytes.getD n 0] else [] := by
  unfold lineFront
  rw [List.take_succ_eq_append_getElem h, List.getD_eq_getElem _ _ h]
  split_ifs with hc
  · rw [List.rtakeWhile_concat_pos _ _ _ (by simpa using hc)]
  · rw [List.rtakeWhile_concat_neg _ _ _ (by simpa using hc)]

/-- The search stops behind the newline, and the line goes on from there. -/
theorem startSentence_eq {doc : CString} {n : Nat} (h : n ≤ doc.bytes.length) :
    ∃ start, startSentence doc n = .ok start ∧ start ≤ n ∧ lineFront doc n = (doc.bytes.take n).drop start := by
  induction n with
  | zero => exact ⟨0, rfl, le_rfl, rfl⟩
  | succ n ih =>
      obtain ⟨start, hstart, hle, hfront⟩ := ih (by omega)
      have hchar := charAt_of_lt (show n < doc.bytes.length from h)
      rw [startSentence, hchar, ok_bind, lineFront_succ h]
      by_cases hc : doc.bytes.getD n 0 ≠ newline
      · rw [if_pos hc, if_pos hc]
        refine ⟨start, hstart, by omega, ?_⟩
        rw [hfront, List.take_succ_eq_append_getElem h, List.getD_eq_getElem _ _ h, List.drop_append_of_le_length]
        rw [List.length_take]
        omega
      · rw [if_neg hc, if_neg hc]
        refine ⟨n + 1, rfl, le_rfl, ?_⟩
        rw [List.drop_eq_nil_of_le]
        rw [List.length_take]
        omega

theorem printChars_eq {doc : CString} {n j : Nat} (h : j + n ≤ doc.bytes.length) :
    printChars doc n j = .ok ((doc.bytes.take (j + n)).drop j) := by
  induction n generalizing j with
  | zero =>
      rw [printChars, List.drop_eq_nil_of_le (by rw [List.length_take]; omega)]
  | succ n ih =>
      have hj : j < doc.bytes.length := by omega
      have hj' : j < (doc.bytes.take (j + (n + 1))).length := by
        rw [List.length_take]
        omega
      rw [printChars, charAt_of_lt hj, ok_bind, ih (by omega), ok_bind, List.drop_eq_getElem_cons hj',
        List.getElem_take, List.getD_eq_getElem _ _ hj, show j + 1 + n = j + (n + 1) by omega]
      rfl

/-! ### The match -/

/-- The pattern is found in the document at `pos`. -/
def Occurs (pattern doc : CString) (pos : Nat) : Prop := pattern.bytes <+: doc.bytes.drop pos

instance decidableOccurs (pattern doc : CString) (pos : Nat) : Decidable (Occurs pattern doc pos) :=
  inferInstanceAs (Decidable (_ <+: _))

theorem checkInt_eq_ok {z v : Int} (h : checkInt z = .ok v) : v = z ∧ z ≤ intMax := by
  unfold checkInt at h
  split_ifs at h with hz
  exact ⟨(Except.ok.inj h).symm, hz.2⟩

theorem charAt_eq_ok {s : CString} {n : Nat} {c : BitVec 8} (h : charAt s n = .ok c) :
    n ≤ s.bytes.length ∧ c = s.bytes.getD n 0 := by
  unfold charAt at h
  split_ifs at h with hn
  exact ⟨by omega, (Except.ok.inj h).symm⟩

section

variable {pattern doc : CString} {pos : Nat}

theorem Occurs.le (h : Occurs pattern doc pos) (hpattern : pattern.bytes ≠ [] ∨ pos ≤ doc.bytes.length) :
    pos + pattern.bytes.length ≤ doc.bytes.length := by
  have hlen := h.length_le
  rw [List.length_drop] at hlen
  rcases hpattern with hne | hle
  · have hpos := List.length_pos_of_ne_nil hne
    omega
  · omega

theorem Occurs.getD_eq (h : Occurs pattern doc pos) {i : Nat} (hi : i < pattern.bytes.length) :
    doc.bytes.getD (i + pos) 0 = pattern.bytes.getD i 0 := by
  obtain ⟨rest, hrest⟩ := h
  have hdrop : (doc.bytes.drop pos)[i]? = doc.bytes[i + pos]? := by
    rw [List.getElem?_drop, Nat.add_comm]
  rw [List.getD_eq_getElem?_getD, List.getD_eq_getElem?_getD, ← hdrop, ← hrest, List.getElem?_append_left hi]

/-- Where the document goes on behind the match, the loop prints the pattern and stops. -/
theorem matchLoop_eq (h : Occurs pattern doc pos) (hend : pos + pattern.bytes.length < doc.bytes.length)
    (hint : ((pos + pattern.bytes.length : Nat) : Int) ≤ intMax) {fuel i : Nat} (hi : i ≤ pattern.bytes.length)
    (hfuel : pattern.bytes.length - i < fuel) :
    matchLoop pos pattern doc fuel i = .ok ((pattern.bytes.length : Int), pattern.bytes.drop i) := by
  induction fuel generalizing i with
  | zero => omega
  | succ fuel ih =>
      have hdoc : i + pos < doc.bytes.length := by omega
      have hindex : checkInt ((i : Int) + pos) = .ok ((i + pos : Nat) : Int) := by
        rw [Nat.cast_add]
        exact checkInt_of_le (by omega) (by omega)
      rw [matchLoop, hindex, ok_bind, charAt_of_lt hdoc, ok_bind]
      by_cases hlast : i = pattern.bytes.length
      · subst hlast
        rw [charAt_length, ok_bind, if_neg (getD_ne_zero hdoc), List.drop_length]
        rfl
      · have hlt : i < pattern.bytes.length := by omega
        have hnext : checkInt ((i : Int) + 1) = .ok ((i + 1 : Nat) : Int) := by
          rw [Nat.cast_add]
          exact checkInt_of_le (by omega) (by omega)
        rw [charAt_of_lt hlt, ok_bind, if_pos (h.getD_eq hlt), hnext, ok_bind, ih (by omega) (by omega), ok_bind,
          h.getD_eq hlt, List.drop_eq_getElem_cons hlt, List.getD_eq_getElem _ _ hlt]
        rfl

/-- Past both terminating zeros there is nothing to compare. -/
theorem matchLoop_past_end {fuel i : Nat} (hi : doc.bytes.length < i + pos) {r : Int × List (BitVec 8)} :
    matchLoop pos pattern doc fuel i ≠ .ok r := by
  intro hrun
  cases fuel with
  | zero => cases hrun
  | succ fuel =>
      obtain ⟨k, hk, hrun⟩ := bind_eq_ok hrun
      obtain ⟨c, hc, -⟩ := bind_eq_ok hrun
      obtain ⟨rfl, -⟩ := checkInt_eq_ok hk
      rw [← Nat.cast_add, charAt_of_gt hi] at hc
      cases hc

/-- The loop does not come back from a match at the end of the document. -/
theorem of_matchLoop (h : Occurs pattern doc pos) {fuel i : Nat} (hi : i ≤ pattern.bytes.length)
    {r : Int × List (BitVec 8)} (hrun : matchLoop pos pattern doc fuel i = .ok r) :
    pos + pattern.bytes.length < doc.bytes.length ∧ ((pos + pattern.bytes.length : Nat) : Int) ≤ intMax := by
  induction fuel generalizing i r with
  | zero => cases hrun
  | succ fuel ih =>
      obtain ⟨k, hk, hrun⟩ := bind_eq_ok hrun
      obtain ⟨c, hc, hrun⟩ := bind_eq_ok hrun
      obtain ⟨p, hp, hrun⟩ := bind_eq_ok hrun
      obtain ⟨rfl, hint⟩ := checkInt_eq_ok hk
      rw [← Nat.cast_add] at hc
      obtain ⟨hle, rfl⟩ := charAt_eq_ok hc
      obtain ⟨-, rfl⟩ := charAt_eq_ok hp
      by_cases hlast : i = pattern.bytes.length
      · subst hlast
        refine ⟨?_, by omega⟩
        by_contra hend
        have hzero : doc.bytes.getD (pattern.bytes.length + pos) 0 = pattern.bytes.getD pattern.bytes.length 0 := by
          rw [List.getD_eq_default _ _ (by omega), List.getD_eq_default _ _ le_rfl]
        rw [if_pos hzero] at hrun
        obtain ⟨i', hi', hrun⟩ := bind_eq_ok hrun
        obtain ⟨r', hrun', -⟩ := bind_eq_ok hrun
        obtain ⟨rfl, -⟩ := checkInt_eq_ok hi'
        exact matchLoop_past_end (i := pattern.bytes.length + 1) (by omega) hrun'
      · rw [if_pos (h.getD_eq (by omega))] at hrun
        obtain ⟨i', hi', hrun⟩ := bind_eq_ok hrun
        obtain ⟨r', hrun', -⟩ := bind_eq_ok hrun
        obtain ⟨rfl, -⟩ := checkInt_eq_ok hi'
        exact ih (i := i + 1) (by omega) hrun'

end

/-! ### The rest of the line -/

/-- The characters of the line from a position on. -/
def lineRest (doc : CString) (pos : Nat) : List (BitVec 8) := (doc.bytes.drop pos).takeWhile (· ≠ newline)

theorem lineRest_eq {doc : CString} {n : Nat} (h : n < doc.bytes.length) :
    lineRest doc n = if doc.bytes.getD n 0 ≠ newline then doc.bytes.getD n 0 :: lineRest doc (n + 1) else [] := by
  unfold lineRest
  rw [List.drop_eq_getElem_cons h, List.getD_eq_getElem _ _ h]
  split_ifs with hc
  · rw [List.takeWhile_cons_of_pos (by simpa using hc)]
  · rw [List.takeWhile_cons_of_neg (by simpa using hc)]

theorem lineRest_length (doc : CString) : lineRest doc doc.bytes.length = [] := by
  rw [lineRest, List.drop_length, List.takeWhile_nil]

/-- The loop prints the rest of the line, as far as `int` can index it. -/
theorem restLoop_eq {doc : CString} {pos fuel i : Nat} (hi : i + pos ≤ doc.bytes.length)
    (hfuel : doc.bytes.length - (i + pos) < fuel) :
    restLoop pos doc fuel i =
      if ((i + pos + (lineRest doc (i + pos)).length : Nat) : Int) ≤ intMax then .ok (lineRest doc (i + pos))
      else .error .intOverflow := by
  induction fuel generalizing i with
  | zero => omega
  | succ fuel ih =>
      rw [restLoop]
      by_cases hindex : ((i + pos : Nat) : Int) ≤ intMax
      swap
      · rw [← Nat.cast_add, checkInt_of_lt (by omega), error_bind, if_neg (by omega)]
      rw [← Nat.cast_add, checkInt_of_le (by omega) hindex, ok_bind]
      by_cases hlast : i + pos = doc.bytes.length
      · rw [hlast, charAt_length, ok_bind, if_neg (by decide), lineRest_length, List.length_nil, if_pos (by omega)]
        rfl
      have hlt : i + pos < doc.bytes.length := by omega
      rw [charAt_of_lt hlt, ok_bind, lineRest_eq hlt]
      by_cases hc : doc.bytes.getD (i + pos) 0 ≠ newline
      swap
      · rw [if_neg fun h => hc h.1, if_neg hc, List.length_nil, if_pos (by omega)]
        rfl
      rw [if_pos ⟨hc, getD_ne_zero hlt⟩, if_pos hc, List.length_cons]
      have hcons := ih (i := i + 1) (by omega) (by omega)
      rw [show i + 1 + pos = i + pos + 1 by omega] at hcons
      by_cases hnext : ((i + 1 : Nat) : Int) ≤ intMax
      · have hcheck : checkInt ((i : Int) + 1) = .ok ((i + 1 : Nat) : Int) := checkInt_of_le (by omega) hnext
        rw [hcheck, ok_bind, hcons]
        by_cases hend : ((i + pos + 1 + (lineRest doc (i + pos + 1)).length : Nat) : Int) ≤ intMax
        · rw [if_pos hend, if_pos (by omega), ok_bind]
          rfl
        · rw [if_neg hend, if_neg (by omega), error_bind]
      · rw [checkInt_of_lt (by omega), error_bind, if_neg (by omega)]

/-! ### The whole line -/

/-- The line of the match, with the match in red. -/
def matchedLine (pos : Nat) (pattern doc : CString) : List (BitVec 8) :=
  lineFront doc pos ++ redcolor ++ pattern.bytes ++ normalcolor ++ lineRest doc (pos + pattern.bytes.length) ++ [newline]

/-- The index of the newline or the zero that ends the line of the match. -/
def lineEnd (pos : Nat) (pattern doc : CString) : Nat :=
  pos + pattern.bytes.length + (lineRest doc (pos + pattern.bytes.length)).length

theorem print_front {doc : CString} {pos : Nat} (h : pos ≤ doc.bytes.length) :
    ∃ start, startSentence doc pos = .ok start ∧ printChars doc (pos - start) start = .ok (lineFront doc pos) := by
  obtain ⟨start, hstart, hle, hfront⟩ := startSentence_eq h
  refine ⟨start, hstart, ?_⟩
  rw [printChars_eq (by omega), hfront, Nat.add_sub_cancel' hle]

/-- **When a match is printed as it should be.** For every occurrence of a pattern, the function stays inside the
two strings and prints the line of the match exactly when the document goes on behind the match and the line ends
where an `int` can point. -/
theorem printMatchedSentence_iff {pattern doc : CString} (hpattern : pattern.bytes ≠ []) {pos : Nat}
    (h : Occurs pattern doc pos) :
    printMatchedSentence pos pattern doc = .ok (matchedLine pos pattern doc) ↔
      pos + pattern.bytes.length < doc.bytes.length ∧ (lineEnd pos pattern doc : Int) ≤ intMax := by
  have hle := h.le (.inl hpattern)
  obtain ⟨start, hstart, hfront⟩ := print_front (show pos ≤ doc.bytes.length by omega)
  unfold printMatchedSentence
  rw [if_neg (by omega), Int.toNat_natCast, hstart, ok_bind, hfront, ok_bind]
  constructor
  · intro hrun
    obtain ⟨⟨i, matched⟩, hmatch, hrun⟩ := bind_eq_ok hrun
    obtain ⟨hend, hint⟩ := of_matchLoop h (Nat.zero_le _) hmatch
    refine ⟨hend, ?_⟩
    have hloop := matchLoop_eq h hend hint (Nat.zero_le _) (show _ < doc.bytes.length + 2 by omega)
    rw [Nat.cast_zero, hmatch] at hloop
    cases hloop
    obtain ⟨rest, hrest, -⟩ := bind_eq_ok hrun
    rw [restLoop_eq (by omega) (by omega)] at hrest
    split_ifs at hrest with hline
    rw [lineEnd, Nat.add_comm pos]
    exact hline
  · rintro ⟨hend, hline⟩
    have hint : ((pos + pattern.bytes.length : Nat) : Int) ≤ intMax := by
      rw [lineEnd] at hline
      omega
    have hloop := matchLoop_eq h hend hint (Nat.zero_le _) (show _ < doc.bytes.length + 2 by omega)
    rw [Nat.cast_zero, List.drop_zero] at hloop
    rw [lineEnd, Nat.add_comm pos] at hline
    rw [hloop, ok_bind]
    dsimp only
    rw [restLoop_eq (by omega) (by omega), if_pos hline, ok_bind, matchedLine, Nat.add_comm pos]
    rfl

/-- "a cat\nit sat" -/
def catDoc : CString := .ofBuffer [0x61, 0x20, 0x63, 0x61, 0x74, 0x0a, 0x69, 0x74, 0x20, 0x73, 0x61, 0x74]

/-- "cat" -/
def catPattern : CString := .ofBuffer [0x63, 0x61, 0x74]

theorem printMatchedSentence_cat :
    printMatchedSentence 2 catPattern catDoc =
      .ok ([0x61, 0x20] ++ redcolor ++ [0x63, 0x61, 0x74] ++ normalcolor ++ [] ++ [newline]) :=
  (printMatchedSentence_iff (by decide) (by decide)).mpr (by decide)

/-- "sat" -/
def satPattern : CString := .ofBuffer [0x73, 0x61, 0x74]

/-- The last word of the document: both strings end together, and the loop reads on. -/
theorem printMatchedSentence_at_end :
    Occurs satPattern catDoc 9 ∧ printMatchedSentence 9 satPattern catDoc = .error .outOfBounds := by
  decide

end CsoLabs.Grep
