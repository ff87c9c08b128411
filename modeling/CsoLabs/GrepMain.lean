import CsoLabs.GrepRandom

/-! `main` of `rkgrep_main.c` from the point where the options are read: the patterns are cut out of one argument,
the file is read, and the first match of each pattern is printed. What goes to `stderr` is left out. -/

namespace CsoLabs.Grep
open CLang
open Table (CString)

/-- `MAX_PATTERNS` -/
def maxPatterns : Nat := 1000

/-- `'|'` -/
def bar : BitVec 8 := 0x7c

/-- `strtok_r(NULL, "|", &ind)`, where `ind` points to `rest`: the token, and what `ind` points to then. -/
def strtokR (rest : CString) : Option (CString × CString) :=
  let start := rest.bytes.dropWhile (· = bar)
  have hstart : ∀ b ∈ start, b ≠ 0 := fun b hb => rest.nonzero b ((List.dropWhile_sublist _).subset hb)
  if start = [] then none
  else some (⟨start.takeWhile (· ≠ bar), fun b hb => hstart b ((List.takeWhile_sublist _).subset hb)⟩,
    ⟨(start.dropWhile (· ≠ bar)).drop 1, fun b hb =>
      hstart b ((List.dropWhile_sublist _).subset (List.mem_of_mem_drop hb))⟩)

/-- The loop that fills the array `patterns`. -/
def patternLoop : Nat → CString → List CString → Except Abort (List CString)
  | 0, _, _ => .error .diverges
  | fuel + 1, rest, patterns =>
      match strtokR rest with
      | none => .ok patterns
      | some (ptr, rest) =>
          if patterns.length < maxPatterns then do
            let patterns := patterns ++ [ptr]
            assertC (decide (patterns.length < maxPatterns)) "n_patterns < MAX_PATTERNS"
            patternLoop fuel rest patterns
          else .error .outOfBounds

def readPatterns (arg : CString) : Except Abort (List CString) := patternLoop (arg.bytes.length + 1) arg []

/-- `algo_type` -/
inductive AlgoType where
  | naive
  | rk
  | bloom
  | rkBloom
  | all
  deriving DecidableEq

/-- The functions that `rkgrep.c` is to have. -/
structure Finders where
  naive : Matcher
  rk : Matcher
  maker : BloomMaker
  usingBloom : BloomFilter → Matcher

/-- The characters of a text. -/
def chars (s : String) : List (BitVec 8) := s.toList.map fun c => BitVec.ofNat 8 c.toNat

/-- The line for a pattern with more than one match. -/
def onlyOne (n : Int) (pattern : CString) : List (BitVec 8) :=
  chars "--  only 1 out " ++ chars (toString n) ++ chars " matches for pattern " ++ pattern.bytes ++
    chars " is displayed\n"

/-- The loop over the patterns. -/
def printMatches (matcher : Matcher) (doc : CString) : List CString → Except Abort (List (BitVec 8))
  | [] => .ok []
  | pattern :: patterns => do
      let (n, firstMatchInd) := matcher pattern doc
      let line ← printMatchedSentence firstMatchInd pattern doc
      let rest ← printMatches matcher doc patterns
      return line ++ (if 1 < n then onlyOne n pattern else []) ++ rest

/-- The loop that asserts the length of the patterns from the second one on. -/
def assertLengths (m : Nat) : List CString → Except Abort Unit
  | [] => .ok ()
  | pattern :: patterns => do
      assertC (decide (m = pattern.bytes.length)) "m == strlen(patterns[i])"
      assertLengths m patterns

def usage : String := "rkgrep -a <test type> pattern1|pattern2|pattern3 <filename>\n"

/-- The `switch`, with the patterns `first :: rest`. -/
def search (f : Finders) (which : AlgoType) (doc first : CString) (rest : List CString) :
    Except Abort (List (BitVec 8)) :=
  match which with
  | .naive => printMatches f.naive doc (first :: rest)
  | .rk => printMatches f.rk doc (first :: rest)
  | .rkBloom => do
      let m := first.bytes.length
      assertLengths m rest
      let bf ← f.maker.create m doc (toInt (doc.bytes.length * 8))
      printMatches (f.usingBloom bf) doc (first :: rest)
  | .bloom => .error (.exit "Unknown algo type 2\n")
  | .all => .error (.exit "Unknown algo type 4\n")

/-- `main`, with the arguments behind the options; it returns what is printed. -/
def rkgrep (f : Finders) (which : AlgoType) (arg : CString) (io : Io) : Except Abort (List (BitVec 8)) := do
  let patterns ← readPatterns arg
  match patterns with
  | [] => .error (.exit usage)
  | first :: rest => do
      let (doc, _) ← readAsciiFile io
      if doc = none then .error (.exit "") else search f which (← stringAt doc) first rest

/-! ### Tokens -/

/-- The pieces between the bars that are not empty. -/
def tokens (bytes : List (BitVec 8)) : List (List (BitVec 8)) := (bytes.splitOn bar).filter (· ≠ [])

theorem tokens_nil : tokens [] = [] := rfl

theorem tokens_bar_cons (bytes : List (BitVec 8)) : tokens (bar :: bytes) = tokens bytes := by
  unfold tokens
  rw [List.splitOn_cons_eq_if_modifyHead, if_pos (beq_self_eq_true bar)]
  rfl

theorem tokens_dropWhile (bytes : List (BitVec 8)) : tokens (bytes.dropWhile (· = bar)) = tokens bytes := by
  induction bytes with
  | nil => rfl
  | cons b bytes ih =>
      by_cases hb : b = bar
      · rw [List.dropWhile_cons_of_pos (by simpa using hb), ih, hb, tokens_bar_cons]
      · rw [List.dropWhile_cons_of_neg (by simpa using hb)]

/-- A piece in front of a bar or of the end. -/
theorem tokens_append {token rest : List (BitVec 8)} (hbar : bar ∉ token) (hne : token ≠ [])
    (hrest : ∀ b ∈ rest.head?, b = bar) : tokens (token ++ rest) = token :: tokens (rest.drop 1) := by
  have hkeep : ∀ pieces, (token :: pieces).filter (· ≠ []) = token :: pieces.filter (· ≠ []) := fun pieces =>
    List.filter_cons_of_pos (decide_eq_true hne)
  unfold tokens
  cases rest with
  | nil =>
      rw [List.append_nil, List.splitOn_eq_singleton hbar, hkeep]
      rfl
  | cons b rest =>
      obtain rfl : b = bar := hrest b rfl
      rw [List.splitOn_append_cons_self_of_not_mem hbar, hkeep]
      rfl

theorem tokens_of_strtokR_none {rest : CString} (h : strtokR rest = none) : tokens rest.bytes = [] := by
  unfold strtokR at h
  dsimp only at h
  split_ifs at h with hstart
  rw [← tokens_dropWhile, hstart, tokens_nil]

theorem tokens_of_strtokR_some {rest ptr rest' : CString} (h : strtokR rest = some (ptr, rest')) :
    tokens rest.bytes = ptr.bytes :: tokens rest'.bytes ∧ rest'.bytes.length < rest.bytes.length := by
  unfold strtokR at h
  dsimp only at h
  split_ifs at h with hstart
  cases h
  dsimp only
  have hhead := List.head_dropWhile_not (· = bar) hstart
  have hle := (List.dropWhile_sublist (· = bar) (l := rest.bytes)).length_le
  rw [← tokens_dropWhile]
  generalize rest.bytes.dropWhile (· = bar) = start at hstart hhead hle
  have hbar : bar ∉ start.takeWhile (· ≠ bar) := fun hb => by simpa using List.mem_takeWhile_imp hb
  have hne : start.takeWhile (· ≠ bar) ≠ [] := by
    cases start with
    | nil => exact absurd rfl hstart
    | cons b start =>
        have hb : b ≠ bar := of_decide_eq_false hhead
        rw [List.takeWhile_cons_of_pos (by simpa using hb)]
        exact List.cons_ne_nil _ _
  have hrest : ∀ b ∈ (start.dropWhile (· ≠ bar)).head?, b = bar := by
    intro b hb
    have hnot := List.head?_dropWhile_not (· ≠ bar) start
    rw [Option.mem_def.mp hb] at hnot
    simpa using hnot
  have hlen := congrArg List.length (@List.takeWhile_append_dropWhile _ (· ≠ bar) start)
  have hpos := List.length_pos_of_ne_nil hne
  rw [List.length_append] at hlen
  constructor
  · rw [← tokens_append hbar hne hrest, List.takeWhile_append_dropWhile]
  · rw [List.length_drop]
    omega

/-! ### The patterns -/

/-- All tokens of a string, with `fuel` calls of `strtok_r`. -/
def allTokens : Nat → CString → List CString
  | 0, _ => []
  | fuel + 1, rest =>
      match strtokR rest with
      | none => []
      | some (ptr, rest) => ptr :: allTokens fuel rest

theorem allTokens_bytes {fuel : Nat} {rest : CString} (h : rest.bytes.length < fuel) :
    (allTokens fuel rest).map CString.bytes = tokens rest.bytes := by
  induction fuel generalizing rest with
  | zero => omega
  | succ fuel ih =>
      rw [allTokens]
      cases hnext : strtokR rest with
      | none =>
          rw [tokens_of_strtokR_none hnext]
          rfl
      | some next =>
          obtain ⟨htokens, hlt⟩ := tokens_of_strtokR_some hnext
          rw [htokens, List.map_cons, ih (by omega)]

/-- The loop stores all tokens, or stops at the last place of the array. -/
theorem patternLoop_eq {fuel : Nat} {rest : CString} (h : rest.bytes.length < fuel) {patterns : List CString}
    (hroom : patterns.length < maxPatterns) :
    patternLoop fuel rest patterns =
      if (patterns ++ allTokens fuel rest).length < maxPatterns then .ok (patterns ++ allTokens fuel rest)
      else .error (.assertion "n_patterns < MAX_PATTERNS") := by
  induction fuel generalizing rest patterns with
  | zero => omega
  | succ fuel ih =>
      rw [patternLoop, allTokens]
      cases hnext : strtokR rest with
      | none =>
          dsimp only
          rw [List.append_nil, if_pos hroom]
      | some next =>
          obtain ⟨-, hlt⟩ := tokens_of_strtokR_some hnext
          dsimp only
          rw [if_pos hroom, List.append_cons patterns next.1 (allTokens fuel next.2)]
          by_cases hlast : (patterns ++ [next.1]).length < maxPatterns
          · rw [decide_eq_true hlast, assertC_true, ok_bind, ih (by omega) hlast]
          · rw [decide_eq_false hlast, if_neg]
            · rfl
            · rw [List.length_append]
              omega

/-- The patterns that an argument stands for. -/
def patternsOf (arg : CString) : List CString := allTokens (arg.bytes.length + 1) arg

theorem readPatterns_eq (arg : CString) :
    readPatterns arg = if (patternsOf arg).length < maxPatterns then .ok (patternsOf arg)
      else .error (.assertion "n_patterns < MAX_PATTERNS") :=
  patternLoop_eq (Nat.lt_succ_self _) (by decide)

theorem patternsOf_bytes (arg : CString) : (patternsOf arg).map CString.bytes = tokens arg.bytes :=
  allTokens_bytes (Nat.lt_succ_self _)

theorem ne_nil_of_mem_patternsOf {arg pattern : CString} (h : pattern ∈ patternsOf arg) : pattern.bytes ≠ [] := by
  have hmem := List.mem_map_of_mem (f := CString.bytes) h
  rw [patternsOf_bytes] at hmem
  exact of_decide_eq_true (List.mem_filter.mp hmem).2

/-! ### The lines -/

/-- A right answer, with a negative position for a pattern that is not found. -/
def Reports (pattern doc : CString) (answer : Int × Int) : Prop :=
  RightAnswer pattern doc answer ∧ (positions pattern doc = [] → answer.2 < 0)

/-- What is printed for a pattern. -/
def shown (doc pattern : CString) : List (BitVec 8) :=
  match positions pattern doc with
  | [] => []
  | pos :: others => matchedLine pos pattern doc ++ if others = [] then [] else onlyOne (others.length + 1) pattern

/-- The document goes on behind the first match, if there is one. -/
def GoesOn (doc pattern : CString) : Prop :=
  ∀ pos ∈ (positions pattern doc).head?, pos + pattern.bytes.length < doc.bytes.length

section

variable {pattern doc : CString} {pos : Nat}

theorem lineEnd_le (h : Occurs pattern doc pos) (hpattern : pattern.bytes ≠ []) :
    lineEnd pos pattern doc ≤ doc.bytes.length := by
  have hle := h.le (.inl hpattern)
  have hrest := (List.takeWhile_sublist (· ≠ newline) (l := doc.bytes.drop (pos + pattern.bytes.length))).length_le
  rw [List.length_drop] at hrest
  unfold lineEnd lineRest
  omega

/-- The line is printed if the document goes on behind the match, and the strings are left otherwise. -/
theorem printMatchedSentence_cases (h : Occurs pattern doc pos) (hpattern : pattern.bytes ≠ [])
    (hint : (doc.bytes.length : Int) ≤ intMax) :
    pos + pattern.bytes.length < doc.bytes.length ∧
        printMatchedSentence pos pattern doc = .ok (matchedLine pos pattern doc) ∨
      doc.bytes.length ≤ pos + pattern.bytes.length ∧ ∀ out, printMatchedSentence pos pattern doc ≠ .ok out := by
  have hle := h.le (.inl hpattern)
  have hline := lineEnd_le h hpattern
  obtain ⟨start, hstart, hfront⟩ := print_front (show pos ≤ doc.bytes.length by omega)
  unfold printMatchedSentence
  rw [if_neg (by omega), Int.toNat_natCast, hstart, ok_bind, hfront, ok_bind]
  by_cases hend : pos + pattern.bytes.length < doc.bytes.length
  · left
    have hloop := matchLoop_eq h hend (by omega) (Nat.zero_le _) (show _ < doc.bytes.length + 2 by omega)
    rw [Nat.cast_zero, List.drop_zero] at hloop
    rw [lineEnd, Nat.add_comm pos] at hline
    refine ⟨hend, ?_⟩
    rw [hloop, ok_bind]
    dsimp only
    rw [restLoop_eq (by omega) (by omega), if_pos (by omega), ok_bind, matchedLine, Nat.add_comm pos]
    rfl
  · right
    refine ⟨by omega, fun out hrun => ?_⟩
    obtain ⟨r, hmatch, -⟩ := bind_eq_ok hrun
    exact hend (of_matchLoop h (Nat.zero_le _) hmatch).1

end

/-- All lines are printed when the document goes on behind each first match, and none of the output is right
otherwise, as the program has left the strings. -/
theorem printMatches_cases {matcher : Matcher} {doc : CString} (hint : (doc.bytes.length : Int) ≤ intMax)
    {patterns : List CString} (hne : ∀ p ∈ patterns, p.bytes ≠ [])
    (hreports : ∀ p ∈ patterns, Reports p doc (matcher p doc)) :
    (∀ p ∈ patterns, GoesOn doc p) ∧ printMatches matcher doc patterns = .ok (patterns.flatMap (shown doc)) ∨
      ¬ (∀ p ∈ patterns, GoesOn doc p) ∧ ∀ out, printMatches matcher doc patterns ≠ .ok out := by
  induction patterns with
  | nil => exact .inl ⟨nofun, rfl⟩
  | cons p patterns ih =>
      rw [List.forall_mem_cons] at hne hreports
      have htail := ih hne.2 hreports.2
      obtain ⟨⟨hcount, hfirst⟩, hnone⟩ := hreports.1
      have hline : GoesOn doc p ∧ printMatchedSentence (matcher p doc).2 p doc =
            .ok (match positions p doc with | [] => [] | pos :: _ => matchedLine pos p doc) ∨
          ¬ GoesOn doc p ∧ ∀ out, printMatchedSentence (matcher p doc).2 p doc ≠ .ok out := by
        cases hpositions : positions p doc with
        | nil =>
            left
            refine ⟨?_, if_pos (hnone hpositions)⟩
            unfold GoesOn
            rw [hpositions]
            exact nofun
        | cons pos others =>
            have hocc := (mem_positions hne.1).mp (hpositions ▸ List.mem_cons_self : pos ∈ positions p doc)
            rw [hpositions] at hfirst
            rw [hfirst pos rfl]
            unfold GoesOn
            rw [hpositions]
            rcases printMatchedSentence_cases hocc hne.1 hint with ⟨hend, hrun⟩ | ⟨hend, hrun⟩
            · refine .inl ⟨fun other hother => ?_, hrun⟩
              obtain rfl := Option.some.inj hother
              exact hend
            · exact .inr ⟨fun hall => absurd (hall pos rfl) (by omega), hrun⟩
      have hshown : (match positions p doc with | [] => [] | pos :: _ => matchedLine pos p doc) ++
          (if 1 < (matcher p doc).1 then onlyOne (matcher p doc).1 p else []) = shown doc p := by
        unfold shown
        rw [hcount]
        cases hpositions : positions p doc with
        | nil => rfl
        | cons pos others =>
            cases others with
            | nil => rfl
            | cons other others =>
                dsimp only
                rw [List.length_cons, if_pos (by rw [List.length_cons]; omega), if_neg (List.cons_ne_nil _ _)]
                rfl
      have hrun : printMatches matcher doc (p :: patterns) = printMatchedSentence (matcher p doc).2 p doc >>= fun line =>
          printMatches matcher doc patterns >>= fun rest =>
            .ok (line ++ (if 1 < (matcher p doc).1 then onlyOne (matcher p doc).1 p else []) ++ rest) := rfl
      rw [List.forall_mem_cons, hrun, List.flatMap_cons]
      rcases hline with ⟨hgoes, hok⟩ | ⟨hstays, hfail⟩
      · rw [hok, ok_bind, and_iff_right hgoes, ← hshown]
        rcases htail with ⟨hall, htail⟩ | ⟨hnot, htail⟩
        · left
          rw [htail, ok_bind]
          exact ⟨hall, rfl⟩
        · right
          refine ⟨hnot, fun out hout => ?_⟩
          obtain ⟨rest, hrest, -⟩ := bind_eq_ok hout
          exact htail rest hrest
      · right
        refine ⟨fun hall => hstays hall.1, fun out hout => ?_⟩
        obtain ⟨line, hl, -⟩ := bind_eq_ok hout
        exact hfail line hl

/-! ### The whole program -/

/-- The matcher that an option selects. For a filter all patterns must have the length of the first one. -/
inductive Selects (f : Finders) (doc first : CString) (rest : List CString) : AlgoType → Matcher → Prop where
  | naive : Selects f doc first rest .naive f.naive
  | rk : Selects f doc first rest .rk f.rk
  | rkBloom {bf : BloomFilter} (lengths : ∀ p ∈ rest, first.bytes.length = p.bytes.length)
      (made : f.maker.create first.bytes.length doc (toInt (doc.bytes.length * 8)) = .ok bf) :
      Selects f doc first rest .rkBloom (f.usingBloom bf)

theorem assertLengths_eq_ok {m : Nat} {patterns : List CString} (h : ∀ p ∈ patterns, m = p.bytes.length) :
    assertLengths m patterns = .ok () := by
  induction patterns with
  | nil => rfl
  | cons p patterns ih =>
      rw [List.forall_mem_cons] at h
      rw [assertLengths, decide_eq_true h.1, assertC_true, ok_bind, ih h.2]

theorem Selects.search_eq {f : Finders} {doc first : CString} {rest : List CString} {which : AlgoType}
    {matcher : Matcher} (h : Selects f doc first rest which matcher) :
    search f which doc first rest = printMatches matcher doc (first :: rest) := by
  cases h with
  | naive => rfl
  | rk => rfl
  | rkBloom lengths made =>
      unfold search
      dsimp only
      rw [assertLengths_eq_ok lengths, ok_bind, made, ok_bind]

/-- **What `rkgrep` prints.** The patterns are the pieces of the argument between the bars that are not empty. For a
file that is read as a whole and a matcher that reports what is true, the program comes to its end exactly when there
are patterns, but fewer than `MAX_PATTERNS`, the file has good characters only and no more than an `int` can count,
the memory behind them is zero, and the file goes on behind the first match of each pattern. It then prints, in the
order of the patterns, the line of each first match, and how many matches there are if there are more. -/
theorem rkgrep_eq_ok_iff {f : Finders} {which : AlgoType} {arg doc : CString} {io : Io} (hio : io.Complete doc.bytes)
    {matcher : Matcher}
    (hselects : ∀ first rest, patternsOf arg = first :: rest → Selects f doc first rest which matcher)
    (hreports : ∀ p ∈ patternsOf arg, Reports p doc (matcher p doc)) :
    (patternsOf arg).map CString.bytes = tokens arg.bytes ∧
      ∀ out, rkgrep f which arg io = .ok out ↔
        (patternsOf arg ≠ [] ∧ (patternsOf arg).length < maxPatterns ∧ (∀ b ∈ doc.bytes, Ascii b) ∧
          (doc.bytes.length : Int) ≤ intMax ∧ io.fresh doc.bytes.length = 0 ∧ ∀ p ∈ patternsOf arg, GoesOn doc p) ∧
        out = (patternsOf arg).flatMap (shown doc) := by
  refine ⟨patternsOf_bytes arg, fun out => ?_⟩
  have hne : ∀ p ∈ patternsOf arg, p.bytes ≠ [] := fun p hp => ne_nil_of_mem_patternsOf hp
  rw [rkgrep, readPatterns_eq]
  by_cases hmax : (patternsOf arg).length < maxPatterns
  swap
  · rw [if_neg hmax, error_bind]
    exact iff_of_false nofun fun h => hmax h.1.2.1
  rw [if_pos hmax, ok_bind]
  generalize hpatterns : patternsOf arg = patterns at hselects hreports hne hmax ⊢
  cases patterns with
  | nil => exact iff_of_false nofun fun h => h.1.1 rfl
  | cons first rest =>
      dsimp only
      rcases readAsciiFile_eq hio with ⟨hread, hascii, hint⟩ | ⟨hread, hbad⟩
      swap
      · rw [hread, error_bind]
        exact iff_of_false nofun fun h => hbad ⟨h.1.2.2.1, h.1.2.2.2.1⟩
      rw [hread, ok_bind]
      dsimp only
      rw [if_neg (Option.some_ne_none _)]
      by_cases hzero : io.fresh doc.bytes.length = 0
      · have hstring : stringAt (some (doc.bytes ++ [0])) = .ok doc := stringAt_buffer doc
        rw [hzero, hstring, ok_bind, (hselects first rest rfl).search_eq]
        rcases printMatches_cases hint hne hreports with ⟨hgoes, hrun⟩ | ⟨hstays, hrun⟩
        · rw [hrun, Except.ok.injEq, eq_comm]
          exact (and_iff_right ⟨List.cons_ne_nil _ _, hmax, hascii, hint, rfl, hgoes⟩).symm
        · exact iff_of_false (hrun out) fun h => hstays h.1.2.2.2.2.2
      · have hstring : stringAt (some (doc.bytes ++ [io.fresh doc.bytes.length])) = .error .outOfBounds := by
          unfold stringAt
          dsimp only
          rw [if_neg]
          intro hmem
          rcases List.mem_append.mp hmem with hmem | hmem
          · exact doc.nonzero 0 hmem rfl
          · exact hzero (List.mem_singleton.mp hmem).symm
        rw [hstring, error_bind]
        exact iff_of_false nofun fun h => hzero h.1.2.2.2.2.1

/-- The answers of the definition, with -1 for a pattern that is not found. -/
def allMatches : Matcher := fun pattern doc =>
  ((positions pattern doc).length, match positions pattern doc with | [] => -1 | pos :: _ => pos)

theorem reports_allMatches (pattern doc : CString) : Reports pattern doc (allMatches pattern doc) := by
  unfold Reports RightAnswer allMatches
  cases positions pattern doc with
  | nil => exact ⟨⟨rfl, nofun⟩, fun _ => by decide⟩
  | cons pos others => exact ⟨⟨rfl, fun other hother => by rw [Option.some.inj hother]⟩, nofun⟩

def exampleFinders : Finders := ⟨allMatches, allMatches, emptyFilters, fun _ => allMatches⟩

/-- "cat||it" -/
def catOrIt : CString := .ofBuffer [0x63, 0x61, 0x74, 0x7c, 0x7c, 0x69, 0x74]

/-- Two patterns are found in "a cat\nit sat"; the last word of the file is not. -/
theorem rkgrep_cat :
    rkgrep exampleFinders .naive catOrIt (ioOf catDoc.bytes 0) =
        .ok ([0x61, 0x20] ++ redcolor ++ [0x63, 0x61, 0x74] ++ normalcolor ++ [newline] ++
          (redcolor ++ [0x69, 0x74] ++ normalcolor ++ [0x20, 0x73, 0x61, 0x74] ++ [newline])) ∧
      ∀ out, rkgrep exampleFinders .rk satPattern (ioOf catDoc.bytes 0) ≠ .ok out := by
  have hio : (ioOf catDoc.bytes 0).Complete catDoc.bytes := ⟨rfl, rfl, rfl, rfl⟩
  have hascii : ∀ b ∈ catDoc.bytes, Ascii b := by
    unfold Ascii
    decide
  constructor
  · refine ((@rkgrep_eq_ok_iff exampleFinders .naive catOrIt catDoc _ hio allMatches (fun _ _ _ => .naive)
      fun p _ => reports_allMatches p catDoc).2 _).mpr ⟨⟨by decide, by decide, hascii, by decide, rfl, ?_⟩, by decide⟩
    unfold GoesOn
    decide
  · intro out hrun
    have hgoes := (((@rkgrep_eq_ok_iff exampleFinders .rk satPattern catDoc _ hio allMatches (fun _ _ _ => .rk)
      fun p _ => reports_allMatches p catDoc).2 out).mp hrun).1.2.2.2.2.2
    unfold GoesOn at hgoes
    exact absurd hgoes (by decide)

end CsoLabs.Grep
