import Mathlib

/-! The conversions of `scanf` on a text, as the C standard describes them: `%d`, `%u`, `%s`, white space and
literal characters. A text is the list of its bytes, each written as the character with its number. A
conversion takes the characters it matches from the front of the text and leaves the rest to the next one.
A number that the object cannot hold makes the conversion undefined; what is stored then is a parameter.

The second part is about texts made of words between white space, on which the conversions read one word
each. -/

namespace CScan

/-- `isspace`, in the "C" locale -/
def isSpace (c : Char) : Bool :=
  c == ' ' || c == '\t' || c == '\n' || c == '\x0b' || c == '\x0c' || c == '\r'

/-- A white-space directive, and the first thing `%d`, `%u` and `%s` do. -/
def skipSpace (s : List Char) : List Char := s.dropWhile isSpace

/-- A directive that is an ordinary character: it is skipped if it comes next. -/
def skipLiteral (c : Char) (s : List Char) : List Char := if s.head? = some c then s.tail else s

def digitsValue (ds : List Char) : Nat := ds.foldl (fun v c => 10 * v + (c.toNat - '0'.toNat)) 0

/-- The sign, if there is one, and the text behind it. -/
def splitSign : List Char → Bool × List Char
  | '-' :: s => (true, s)
  | '+' :: s => (false, s)
  | s => (false, s)

/-- The optionally signed decimal number at the front of the text. A sign without a digit is used up, and
nothing is read. -/
def scanNumber (s : List Char) : Option Int × List Char :=
  let signed := splitSign (skipSpace s)
  let digits := signed.2.takeWhile Char.isDigit
  let rest := signed.2.dropWhile Char.isDigit
  if digits = [] then (none, rest)
  else (some (if signed.1 then -(digitsValue digits : Int) else digitsValue digits), rest)

/-- The number as a 32-bit object holds it, from `lo` to `hi`. -/
def stored (lo hi : Int) (wide : Int → BitVec 32) (z : Int) : BitVec 32 :=
  if lo ≤ z ∧ z ≤ hi then BitVec.ofInt 32 z else wide z

/-- `%d`; `none` if nothing is assigned. -/
def scanD (wide : Int → BitVec 32) (s : List Char) : Option (BitVec 32) × List Char :=
  ((scanNumber s).1.map (stored (-2 ^ 31) (2 ^ 31 - 1) wide), (scanNumber s).2)

/-- `%u`. A number with a minus sign is negated in the unsigned type. -/
def scanU (wide : Int → BitVec 32) (s : List Char) : Option (BitVec 32) × List Char :=
  ((scanNumber s).1.map (stored (-(2 ^ 32 - 1)) (2 ^ 32 - 1) wide), (scanNumber s).2)

/-- `%s`: the next word; `none` is `EOF`. -/
def scanS (s : List Char) : Option (List Char × List Char) :=
  if skipSpace s = [] then none
  else some ((skipSpace s).takeWhile fun c => !isSpace c, (skipSpace s).dropWhile fun c => !isSpace c)

/-! ### What is left of the text -/

theorem length_skipSpace_le (s : List Char) : (skipSpace s).length ≤ s.length := List.length_dropWhile_le _ s

theorem length_skipLiteral_le (c : Char) (s : List Char) : (skipLiteral c s).length ≤ s.length := by
  unfold skipLiteral
  split_ifs
  · rw [List.length_tail]
    omega
  · exact le_rfl

theorem length_splitSign_le (s : List Char) : (splitSign s).2.length ≤ s.length := by
  unfold splitSign
  split
  · exact Nat.le_succ _
  · exact Nat.le_succ _
  · exact le_rfl

theorem length_scanNumber_le (s : List Char) : (scanNumber s).2.length ≤ s.length := by
  have hspace := length_skipSpace_le s
  have hsign := length_splitSign_le (skipSpace s)
  have hdigits := List.length_dropWhile_le Char.isDigit (splitSign (skipSpace s)).2
  simp only [scanNumber]
  split
  · exact hdigits.trans (hsign.trans hspace)
  · exact hdigits.trans (hsign.trans hspace)

theorem length_scanU_le (wide : Int → BitVec 32) (s : List Char) : (scanU wide s).2.length ≤ s.length :=
  length_scanNumber_le s

theorem isSpace_head_skipSpace {s cs : List Char} {c : Char} (h : skipSpace s = c :: cs) : isSpace c = false := by
  have hhead := List.head?_dropWhile_not isSpace s
  rw [show s.dropWhile isSpace = c :: cs from h] at hhead
  exact hhead

/-- A word that was read is not empty, so the text gets shorter. -/
theorem length_scanS_lt {s word rest : List Char} (h : scanS s = some (word, rest)) : rest.length < s.length := by
  unfold scanS at h
  split_ifs at h with hend
  obtain ⟨-, rfl⟩ := Prod.mk.inj (Option.some.inj h)
  have hspace := length_skipSpace_le s
  obtain ⟨c, cs, hcs⟩ := List.exists_cons_of_ne_nil hend
  have hc := isSpace_head_skipSpace hcs
  rw [hcs] at hspace ⊢
  rw [List.dropWhile_cons_of_pos (by simp [hc])]
  have htail := List.length_dropWhile_le (fun c => !isSpace c) cs
  rw [List.length_cons] at hspace
  omega

/-! ### Words between white space -/

def IsWord (word : List Char) : Prop := word ≠ [] ∧ ∀ c ∈ word, isSpace c = false

/-- The text ends here or goes on with white space. -/
def AtGap (s : List Char) : Prop := ∀ c ∈ s.head?, isSpace c = true

/-- The text is these words in this order, with white space between any two of them and perhaps at the
ends. -/
inductive Words : List (List Char) → List Char → Prop
  | done {s : List Char} (hs : ∀ c ∈ s, isSpace c = true) : Words [] s
  | next {space word rest : List Char} {words : List (List Char)} (hspace : ∀ c ∈ space, isSpace c = true)
      (hword : IsWord word) (hgap : AtGap rest) (hrest : Words words rest) :
      Words (word :: words) (space ++ word ++ rest)

/-- A decimal numeral with the value `n`; leading zeros do not matter. -/
structure IsNumeral (n : Nat) (word : List Char) : Prop where
  ne_nil : word ≠ []
  digits : ∀ c ∈ word, c.isDigit = true
  value : digitsValue word = n

instance decidableIsNumeral (n : Nat) (word : List Char) : Decidable (IsNumeral n word) :=
  decidable_of_iff (word ≠ [] ∧ word.all Char.isDigit = true ∧ digitsValue word = n)
    ⟨fun h => ⟨h.1, List.all_eq_true.mp h.2.1, h.2.2⟩, fun h => ⟨h.ne_nil, List.all_eq_true.mpr h.digits, h.value⟩⟩

theorem isSpace_of_isDigit {c : Char} (h : c.isDigit = true) : isSpace c = false := by
  rw [← Bool.not_eq_true]
  intro hspace
  simp only [isSpace, Bool.or_eq_true, beq_iff_eq] at hspace
  rcases hspace with ((((rfl | rfl) | rfl) | rfl) | rfl) | rfl
  all_goals exact absurd h (by decide)

/-- The white space before a word. -/
theorem skipSpace_word {space word : List Char} (hspace : ∀ c ∈ space, isSpace c = true) (hword : IsWord word)
    (rest : List Char) : skipSpace (space ++ word ++ rest) = word ++ rest := by
  obtain ⟨c, cs, rfl⟩ := List.exists_cons_of_ne_nil hword.1
  rw [List.append_assoc, skipSpace, List.dropWhile_append_of_pos hspace, List.cons_append,
    List.dropWhile_cons_of_neg (by simp [hword.2 c List.mem_cons_self])]

theorem Words.skipSpace {words : List (List Char)} {s : List Char} (h : Words words s) :
    Words words (CScan.skipSpace s) := by
  cases h with
  | done hs => exact .done fun c hc => hs c ((List.dropWhile_sublist _).mem hc)
  | next hspace hword hgap hrest =>
      rw [skipSpace_word hspace hword _]
      have hnone : ∀ c ∈ ([] : List Char), isSpace c = true := fun c hc => absurd hc List.not_mem_nil
      exact .next hnone hword hgap hrest

/-- Taking characters of one kind from a piece of that kind, when the text goes on with another. -/
theorem span_append {p : Char → Bool} {piece rest : List Char} (hpiece : ∀ c ∈ piece, p c = true)
    (hrest : ∀ c ∈ rest.head?, p c = false) :
    (piece ++ rest).takeWhile p = piece ∧ (piece ++ rest).dropWhile p = rest := by
  rw [List.takeWhile_append_of_pos hpiece, List.dropWhile_append_of_pos hpiece]
  cases rest with
  | nil => exact ⟨List.append_nil piece, rfl⟩
  | cons c cs =>
      have hc : ¬ p c = true := by simp [hrest c rfl]
      rw [List.takeWhile_cons_of_neg hc, List.dropWhile_cons_of_neg hc]
      exact ⟨List.append_nil piece, rfl⟩

/-- `%s` reads the next word. -/
theorem scanS_word {word : List Char} {words : List (List Char)} {s : List Char} (h : Words (word :: words) s) :
    ∃ rest, scanS s = some (word, rest) ∧ Words words rest := by
  cases h with
  | @next space _ rest _ hspace hword hgap hrest =>
      have hskip := skipSpace_word hspace hword rest
      have hinside : ∀ c ∈ word, (!isSpace c) = true := fun c hc => by simp [hword.2 c hc]
      have hbehind : ∀ c ∈ rest.head?, (!isSpace c) = false := fun c hc => by simp [hgap c hc]
      have hspan := span_append hinside hbehind
      refine ⟨rest, ?_, hrest⟩
      rw [scanS, hskip, if_neg (by simp [hword.1]), hspan.1, hspan.2]

theorem scanS_done {s : List Char} (h : Words [] s) : scanS s = none := by
  cases h with
  | done hs => exact if_pos (List.dropWhile_eq_nil_iff.mpr hs)

theorem Words.of_scanS {s word rest : List Char} {words : List (List Char)} (h : scanS s = some (word, rest))
    (hrest : Words words rest) : Words (word :: words) s := by
  unfold scanS at h
  split_ifs at h with hend
  obtain ⟨rfl, rfl⟩ := Prod.mk.inj (Option.some.inj h)
  obtain ⟨c, cs, hcs⟩ := List.exists_cons_of_ne_nil hend
  have hc := isSpace_head_skipSpace hcs
  have hs : s.takeWhile isSpace ++ (CScan.skipSpace s).takeWhile (fun c => !isSpace c) ++
      (CScan.skipSpace s).dropWhile (fun c => !isSpace c) = s := by
    rw [List.append_assoc, List.takeWhile_append_dropWhile, CScan.skipSpace, List.takeWhile_append_dropWhile]
  have hspace : ∀ c ∈ s.takeWhile isSpace, isSpace c = true := fun c hc => List.mem_takeWhile_imp hc
  have hword : IsWord ((CScan.skipSpace s).takeWhile fun c => !isSpace c) := by
    refine ⟨?_, fun c hc => by simpa using List.mem_takeWhile_imp hc⟩
    rw [hcs, List.takeWhile_cons_of_pos (by simp [hc])]
    exact List.cons_ne_nil _ _
  have hgap : AtGap ((CScan.skipSpace s).dropWhile fun c => !isSpace c) := by
    intro c hc
    have hhead := List.head?_dropWhile_not (fun c => !isSpace c) (CScan.skipSpace s)
    rw [Option.mem_def.mp hc] at hhead
    simpa using hhead
  have hnext := Words.next hspace hword hgap hrest
  rwa [hs] at hnext

/-- The words of a text, as `%s` reads them one after the other. -/
def wordsOf : Nat → List Char → List (List Char)
  | 0, _ => []
  | fuel + 1, s =>
      match scanS s with
      | none => []
      | some (word, rest) => word :: wordsOf fuel rest

theorem words_wordsOf {fuel : Nat} {s : List Char} (h : s.length < fuel) : Words (wordsOf fuel s) s := by
  induction fuel generalizing s with
  | zero => omega
  | succ fuel ih =>
      rw [wordsOf]
      cases hword : scanS s with
      | none =>
          unfold scanS at hword
          split_ifs at hword with hend
          exact .done (List.dropWhile_eq_nil_iff.mp hend)
      | some wr =>
          obtain ⟨word, rest⟩ := wr
          have hrest := length_scanS_lt hword
          exact .of_scanS hword (ih (by omega))

theorem splitSign_of_isDigit {c : Char} (h : c.isDigit = true) (s : List Char) :
    splitSign (c :: s) = (false, c :: s) := by
  unfold splitSign
  split
  · rename_i heq
    cases heq
    exact absurd h (by decide)
  · rename_i heq
    cases heq
    exact absurd h (by decide)
  · rfl

/-- `%d` and `%u` read the next numeral. -/
theorem scanNumber_word {n : Nat} {word : List Char} {words : List (List Char)} {s : List Char}
    (hn : IsNumeral n word) (h : Words (word :: words) s) :
    ∃ rest, scanNumber s = (some (n : Int), rest) ∧ AtGap rest ∧ Words words rest := by
  cases h with
  | @next space _ rest _ hspace hword hgap hrest =>
      have hskip := skipSpace_word hspace hword rest
      have hgap' : ∀ c ∈ rest.head?, c.isDigit = false := by
        intro c hc
        rw [← Bool.not_eq_true]
        intro hdigit
        exact Bool.false_ne_true ((isSpace_of_isDigit hdigit).symm.trans (hgap c hc))
      have hspan := span_append hn.digits hgap'
      have hsign : splitSign (word ++ rest) = (false, word ++ rest) := by
        obtain ⟨c, cs, rfl⟩ := List.exists_cons_of_ne_nil hn.ne_nil
        exact splitSign_of_isDigit (hn.digits c List.mem_cons_self) _
      refine ⟨rest, ?_, hgap, hrest⟩
      simp only [scanNumber, hskip, hsign, hspan.1, hspan.2, if_neg hn.ne_nil, hn.value, Bool.false_eq_true,
        if_false]

theorem stored_natCast {lo hi : Int} {n : Nat} (hlo : lo ≤ 0) (hhi : (n : Int) ≤ hi) (wide : Int → BitVec 32) :
    stored lo hi wide n = BitVec.ofNat 32 n := by
  unfold stored
  rw [if_pos ⟨by omega, hhi⟩, BitVec.ofInt_natCast]

theorem scanD_word {n : Nat} {word : List Char} {words : List (List Char)} {s : List Char} (hn : IsNumeral n word)
    (h : Words (word :: words) s) (hlt : n < 2 ^ 31) (wide : Int → BitVec 32) :
    ∃ rest, scanD wide s = (some (BitVec.ofNat 32 n), rest) ∧ Words words rest := by
  obtain ⟨rest, hscan, -, hrest⟩ := scanNumber_word hn h
  refine ⟨rest, ?_, hrest⟩
  rw [scanD, hscan, Option.map_some, stored_natCast (by omega) (by omega)]

theorem scanU_word {n : Nat} {word : List Char} {words : List (List Char)} {s : List Char} (hn : IsNumeral n word)
    (h : Words (word :: words) s) (hlt : n < 2 ^ 32) (wide : Int → BitVec 32) :
    ∃ rest, scanU wide s = (some (BitVec.ofNat 32 n), rest) ∧ AtGap rest ∧ Words words rest := by
  obtain ⟨rest, hscan, hgap, hrest⟩ := scanNumber_word hn h
  refine ⟨rest, ?_, hgap, hrest⟩
  rw [scanU, hscan, Option.map_some, stored_natCast (by omega) (by omega)]

/-- A number that is not used may be of any size. -/
theorem scanD_skip {n : Nat} {word : List Char} {words : List (List Char)} {s : List Char} (hn : IsNumeral n word)
    (h : Words (word :: words) s) (wide : Int → BitVec 32) : Words words (scanD wide s).2 := by
  obtain ⟨rest, hscan, -, hrest⟩ := scanNumber_word hn h
  rw [scanD, hscan]
  exact hrest

/-- At a gap no letter comes next. -/
theorem skipLiteral_gap {c : Char} {s : List Char} (h : AtGap s) (hc : isSpace c = false) : skipLiteral c s = s := by
  refine if_neg fun hhead => ?_
  have hspace := h c hhead
  rw [hc] at hspace
  cases hspace

end CScan
