import CsoLabs.CLang
import CsoLabs.PyLang

/-! `assert_lines_match` of `gradelib.py`, which judges the output of a program. The lines are read once: each
takes the patterns it matches off the list of those still required, and is noted as good if there was one, and as
bad if it matches a forbidden pattern. When something is wrong the exception carries a report, with the noted
lines, the lines around them, and an entry for each pattern that is still on the list.

`re.match` is a parameter: a pattern matches a line or it does not. -/

namespace CsoLabs.Grade
open PyLang CLang

/-- The choices of `--color`. -/
inductive ColorOption where
  | never
  | always
  | auto
  deriving DecidableEq, Repr

/-- What `color` depends on. -/
structure Display where
  color : ColorOption
  isatty : Bool
  deriving DecidableEq, Repr

/-- The keys of `COLORS`. -/
inductive ColorName where
  | default
  | red
  | green
  deriving DecidableEq, Repr

/-- `COLORS` -/
def colors : ColorName → Str
  | .default => "\x1b[0m".toList
  | .red => "\x1b[31m".toList
  | .green => "\x1b[32m".toList

def color (d : Display) (name : ColorName) (text : Str) : Str :=
  if d.color = .always ∨ (d.color = .auto ∧ d.isatty = true) then colors name ++ text ++ colors .default else text

/-- The patterns still required, and the numbers of the good and of the bad lines. -/
structure Scan where
  regexps : List Str
  good : List Int
  bad : List Int
  deriving DecidableEq, Repr

variable (reMatch : Str → Str → Bool) (d : Display)

/-- The line is checked against the required patterns. -/
def markGood (i : Int) (line : Str) (s : Scan) : Scan :=
  if s.regexps.any fun r => reMatch r line then
    { s with good := s.good ++ [i], regexps := s.regexps.filter fun r => !reMatch r line }
  else s

/-- The line is checked against the forbidden patterns. -/
def markBad (no : List Str) (i : Int) (line : Str) (s : Scan) : Scan :=
  if no.any fun r => reMatch r line then { s with bad := s.bad ++ [i] } else s

/-- The loop over the lines, the first of which has number `i`. -/
def scanLoop (no : List Str) : Int → List Str → Scan → Scan
  | _, [], s => s
  | i, line :: lines, s => scanLoop no (i + 1) lines (markBad reMatch no i line (markGood reMatch i line s))

/-- The lines read from the start. -/
def scan (lines regexps no : List Str) : Scan :=
  scanLoop reMatch no 0 lines { regexps := regexps, good := [], bad := [] }

/-- `sorted(show)` -/
def shown (count : Nat) (s : Scan) : List Int :=
  let around := (s.good ++ s.bad).flatMap fun lineno => [-2, -1, 0, 1, 2].map fun offset => lineno + offset
  let last := if s.regexps = [] then [] else [5, 4, 3, 2, 1].map fun back => (count : Int) - back
  (around ++ last).dedup.insertionSort (· ≤ ·)

def lineEntry (s : Scan) (lineno : Int) (line : Str) : Str :=
  (if lineno ∈ s.bad then color d .red "BAD ".toList
    else if lineno ∈ s.good then color d .green "GOOD".toList
    else "    ".toList) ++ " ".toList ++ line

def missingEntry (r : Str) : Str := color d .red "MISSING".toList ++ " '".toList ++ r ++ "'".toList

/-- The loop over the numbers of the lines to show, with `last` the number of the line shown before. -/
def reportLoop (lines : List Str) (s : Scan) : List Int → Int → List Str → Except Exc (Int × List Str)
  | [], last, msg => .ok (last, msg)
  | lineno :: rest, last, msg =>
      if 0 ≤ lineno ∧ lineno < lines.length then do
        let msg := if lineno ≠ last + 1 then msg ++ ["...".toList] else msg
        let line ← getItem lines lineno
        reportLoop lines s rest lineno (msg ++ [lineEntry d s lineno line])
      else reportLoop lines s rest last msg

/-- The entries of the report. -/
def report (lines : List Str) (s : Scan) : Except Exc (List Str) := do
  let (last, msg) ← reportLoop d lines s (shown lines.length s) (-1) []
  let msg := if last ≠ (lines.length : Int) - 1 then msg ++ ["...".toList] else msg
  let msg := if s.bad ≠ [] then msg ++ ["unexpected lines in output".toList] else msg
  return msg ++ s.regexps.map fun r => missingEntry d r

def assertLinesMatch (text : Str) (regexps no : List Str) : Except Exc Unit :=
  let lines := splitlines text
  let s := scan reMatch lines regexps no
  if s.regexps = [] ∧ s.bad = [] then return ()
  else do
    let msg ← report d lines s
    throw (.assertionError (join "\n".toList msg))

/-! ### The scan -/

/-- No line matches the pattern. -/
def Unmatched (lines : List Str) (r : Str) : Prop := ∀ line ∈ lines, reMatch r line = false

instance (lines : List Str) (r : Str) : Decidable (Unmatched reMatch lines r) :=
  inferInstanceAs (Decidable (∀ line ∈ lines, reMatch r line = false))

variable {reMatch} in
theorem eq_false_of_not_any {rs : List Str} {line : Str} (h : ¬ (rs.any fun r => reMatch r line) = true) :
    ∀ r ∈ rs, reMatch r line = false := by
  intro r hr
  exact Bool.eq_false_of_not_eq_true fun hmatch => h (List.any_eq_true.mpr ⟨r, hr, hmatch⟩)

/-- What a line does to the list of patterns does not depend on whether it is noted as good. -/
theorem markGood_regexps (i : Int) (line : Str) (s : Scan) :
    (markGood reMatch i line s).regexps = s.regexps.filter fun r => !reMatch r line := by
  unfold markGood
  split_ifs with hany
  · rfl
  · symm
    apply List.filter_eq_self.mpr
    intro r hr
    rw [eq_false_of_not_any hany r hr, Bool.not_false]

theorem markGood_bad (i : Int) (line : Str) (s : Scan) : (markGood reMatch i line s).bad = s.bad := by
  unfold markGood
  split_ifs
  · rfl
  · rfl

theorem markBad_regexps (no : List Str) (i : Int) (line : Str) (s : Scan) :
    (markBad reMatch no i line s).regexps = s.regexps := by
  unfold markBad
  split_ifs
  · rfl
  · rfl

theorem markBad_bad_eq_nil (no : List Str) (i : Int) (line : Str) (s : Scan) :
    (markBad reMatch no i line s).bad = [] ↔ s.bad = [] ∧ ∀ r ∈ no, reMatch r line = false := by
  unfold markBad
  split_ifs with hany
  · obtain ⟨r, hr, hmatch⟩ := List.any_eq_true.mp hany
    refine iff_of_false (List.append_ne_nil_of_right_ne_nil _ (List.cons_ne_nil _ _)) ?_
    rintro ⟨-, hall⟩
    rw [hall r hr] at hmatch
    cases hmatch
  · exact (and_iff_left (eq_false_of_not_any hany)).symm

/-- The patterns left on the list are those that no line matches, each as often as it was required. -/
theorem scanLoop_regexps (no : List Str) (i : Int) (lines : List Str) (s : Scan) :
    (scanLoop reMatch no i lines s).regexps = s.regexps.filter fun r => Unmatched reMatch lines r := by
  induction lines generalizing i s with
  | nil =>
      symm
      apply List.filter_eq_self.mpr
      intro r _
      exact decide_eq_true fun line hline => absurd hline List.not_mem_nil
  | cons line lines ih =>
      rw [scanLoop, ih, markBad_regexps, markGood_regexps, List.filter_filter]
      congr 1
      funext r
      have hcons : Unmatched reMatch (line :: lines) r ↔ Unmatched reMatch lines r ∧ reMatch r line = false := by
        rw [Unmatched, List.forall_mem_cons, and_comm]
        rfl
      rw [decide_eq_decide.mpr hcons, Bool.decide_and, Bool.decide_eq_false]

theorem scanLoop_bad_eq_nil (no : List Str) (i : Int) (lines : List Str) (s : Scan) :
    (scanLoop reMatch no i lines s).bad = [] ↔ s.bad = [] ∧ ∀ r ∈ no, Unmatched reMatch lines r := by
  induction lines generalizing i s with
  | nil =>
      refine (and_iff_left ?_).symm
      intro r _ line hline
      cases hline
  | cons line lines ih =>
      rw [scanLoop, ih, markBad_bad_eq_nil, markGood_bad, and_assoc]
      refine and_congr_right fun _ => ?_
      simp only [Unmatched, List.forall_mem_cons]
      exact forall₂_and.symm

/-! ### The report -/

/-- The entry is not about a missing pattern. -/
def Other (e : Str) : Prop := ∀ r, e ≠ missingEntry d r

theorem other_dots : Other d "...".toList := by
  intro r heq
  unfold missingEntry color at heq
  split_ifs at heq
  · simp [colors] at heq
  · simp at heq

theorem other_unexpected : Other d "unexpected lines in output".toList := by
  intro r heq
  unfold missingEntry color at heq
  split_ifs at heq
  · simp [colors] at heq
  · simp at heq

/-- The mark of a line differs from that of a missing pattern in its first letter, after the colour sequence if
there is one, or in the colour. -/
theorem other_lineEntry (s : Scan) (lineno : Int) (line : Str) : Other d (lineEntry d s lineno line) := by
  intro r heq
  unfold lineEntry missingEntry color at heq
  split_ifs at heq
  all_goals simp [colors] at heq

theorem missingEntry_injective : Function.Injective (missingEntry d) := by
  intro r r' heq
  exact List.append_cancel_left (List.append_cancel_right heq)

theorem missingEntry_ne_nil (r : Str) : missingEntry d r ≠ [] := by
  unfold missingEntry
  exact List.append_ne_nil_of_right_ne_nil _ (by decide)

variable {d} in
theorem others_append {msg : List Str} {e : Str} (hmsg : ∀ e ∈ msg, Other d e) (he : Other d e) :
    ∀ e' ∈ msg ++ [e], Other d e' :=
  List.forall_mem_append.mpr ⟨hmsg, List.forall_mem_singleton.mpr he⟩

variable {d} in
theorem others_append_ite {c : Prop} [Decidable c] {msg : List Str} {e : Str} (hmsg : ∀ e ∈ msg, Other d e)
    (he : Other d e) : ∀ e' ∈ if c then msg ++ [e] else msg, Other d e' := by
  split_ifs
  · exact others_append hmsg he
  · exact hmsg

/-- The guard keeps every index in range, and no entry of the loop is about a missing pattern. -/
theorem reportLoop_spec (lines : List Str) (s : Scan) (nos : List Int) (last : Int) (msg : List Str)
    (hmsg : ∀ e ∈ msg, Other d e) :
    ∃ last' msg', reportLoop d lines s nos last msg = .ok (last', msg') ∧ ∀ e ∈ msg', Other d e := by
  induction nos generalizing last msg with
  | nil => exact ⟨last, msg, rfl, hmsg⟩
  | cons lineno nos ih =>
      rw [reportLoop]
      by_cases hrange : 0 ≤ lineno ∧ lineno < lines.length
      · obtain ⟨line, -, hitem⟩ := getItem_of_lt hrange.1 hrange.2
        rw [if_pos hrange, hitem, ok_bind]
        apply ih
        apply others_append
        · exact others_append_ite hmsg (other_dots d)
        · exact other_lineEntry d s lineno line
      · rw [if_neg hrange]
        exact ih last msg hmsg

/-- The report is what the lines give, and then the missing patterns. -/
theorem report_eq (lines : List Str) (s : Scan) :
    ∃ msg, report d lines s = .ok (msg ++ s.regexps.map (missingEntry d)) ∧ (∀ e ∈ msg, Other d e) ∧
      (s.bad ≠ [] → "unexpected lines in output".toList ∈ msg) := by
  obtain ⟨last, msg, hloop, hmsg⟩ := reportLoop_spec d lines s (shown lines.length s) (-1) [] (by simp)
  unfold report
  rw [hloop, ok_bind]
  refine ⟨_, rfl, ?_, ?_⟩
  · apply others_append_ite
    · exact others_append_ite hmsg (other_dots d)
    · exact other_unexpected d
  · intro hbad
    rw [if_pos hbad]
    exact List.mem_append_right _ (List.mem_singleton_self _)

/-! ### The judgement -/

theorem scan_regexps (lines regexps no : List Str) :
    (scan reMatch lines regexps no).regexps = regexps.filter fun r => Unmatched reMatch lines r :=
  scanLoop_regexps reMatch no 0 lines _

theorem scan_passes_iff (lines regexps no : List Str) :
    ((scan reMatch lines regexps no).regexps = [] ∧ (scan reMatch lines regexps no).bad = []) ↔
      (∀ r ∈ regexps, ∃ line ∈ lines, reMatch r line = true) ∧ ∀ r ∈ no, Unmatched reMatch lines r := by
  rw [scan_regexps, scan, scanLoop_bad_eq_nil, and_iff_right rfl, List.filter_eq_nil_iff]
  refine and_congr_left fun _ => forall₂_congr fun r _ => ?_
  rw [decide_eq_true_eq, Unmatched]
  push Not
  exact exists_congr fun line => and_congr_right fun _ => Bool.ne_false_iff

theorem assertLinesMatch_of_passes {text : Str} {regexps no : List Str}
    (h : (scan reMatch (splitlines text) regexps no).regexps = [] ∧
      (scan reMatch (splitlines text) regexps no).bad = []) :
    assertLinesMatch reMatch d text regexps no = .ok () :=
  if_pos h

/-- A report that is not empty, with the missing patterns at its end. -/
theorem assertLinesMatch_of_fails {text : Str} {regexps no : List Str}
    (h : ¬ ((scan reMatch (splitlines text) regexps no).regexps = [] ∧
      (scan reMatch (splitlines text) regexps no).bad = [])) :
    ∃ msg, assertLinesMatch reMatch d text regexps no =
        .error (.assertionError (join "\n".toList
          (msg ++ (scan reMatch (splitlines text) regexps no).regexps.map (missingEntry d)))) ∧
      (∀ e ∈ msg, Other d e) ∧
      join "\n".toList (msg ++ (scan reMatch (splitlines text) regexps no).regexps.map (missingEntry d)) ≠ [] := by
  obtain ⟨msg, hreport, hother, hbad⟩ := report_eq d (splitlines text) (scan reMatch (splitlines text) regexps no)
  refine ⟨msg, ?_, hother, ?_⟩
  · unfold assertLinesMatch
    dsimp only
    rw [if_neg h, hreport, ok_bind]
    rfl
  · by_cases hmissing : (scan reMatch (splitlines text) regexps no).regexps = []
    · refine join_ne_nil (List.mem_append_left _ (hbad fun hnil => h ⟨hmissing, hnil⟩)) ?_
      decide
    · obtain ⟨r, hr⟩ := List.exists_mem_of_ne_nil _ hmissing
      exact join_ne_nil (List.mem_append_right _ (List.mem_map_of_mem hr)) (missingEntry_ne_nil d r)

/-- The matcher returns or raises an `AssertionError` with a message. -/
theorem assertLinesMatch_cases (text : Str) (regexps no : List Str) :
    assertLinesMatch reMatch d text regexps no = .ok () ∨
      ∃ msg, msg ≠ [] ∧ assertLinesMatch reMatch d text regexps no = .error (.assertionError msg) := by
  by_cases hpass : (scan reMatch (splitlines text) regexps no).regexps = [] ∧
      (scan reMatch (splitlines text) regexps no).bad = []
  · exact .inl (assertLinesMatch_of_passes reMatch d hpass)
  · obtain ⟨msg, hraise, -, hnonempty⟩ := assertLinesMatch_of_fails reMatch d hpass
    exact .inr ⟨_, hnonempty, hraise⟩

theorem count_missingEntry {msg : List Str} (hother : ∀ e ∈ msg, Other d e) (lines regexps : List Str) (r : Str) :
    (msg ++ (regexps.filter fun r => Unmatched reMatch lines r).map (missingEntry d)).count (missingEntry d r) =
      if ∀ line ∈ lines, reMatch r line = false then regexps.count r else 0 := by
  have hnone : msg.count (missingEntry d r) = 0 :=
    List.count_eq_zero.mpr fun hmem => hother _ hmem r rfl
  rw [List.count_append, hnone, Nat.zero_add, List.count_map_of_injective _ _ (missingEntry_injective d)]
  split_ifs with hunmatched
  · exact List.count_filter (decide_eq_true hunmatched)
  · apply List.count_eq_zero.mpr
    intro hmem
    exact hunmatched (of_decide_eq_true (List.mem_filter.mp hmem).2)

/-- Whether the text passes is decided by the lines and the patterns alone. If it does not, the exception carries a
message, in which each required pattern that no line matches has as many entries as it was required times, and no
other pattern has one. -/
theorem assertLinesMatch_exact (text : Str) (regexps no : List Str) :
    (assertLinesMatch reMatch d text regexps no = .ok () ↔
        (∀ r ∈ regexps, ∃ line ∈ splitlines text, reMatch r line = true) ∧
          ∀ r ∈ no, ∀ line ∈ splitlines text, reMatch r line = false) ∧
      (assertLinesMatch reMatch d text regexps no ≠ .ok () →
        ∃ msg, assertLinesMatch reMatch d text regexps no = .error (.assertionError (join "\n".toList msg)) ∧
          join "\n".toList msg ≠ [] ∧
          ∀ r, msg.count (missingEntry d r) =
            if ∀ line ∈ splitlines text, reMatch r line = false then regexps.count r else 0) := by
  have hiff := scan_passes_iff reMatch (splitlines text) regexps no
  refine ⟨⟨?_, ?_⟩, ?_⟩
  · intro hok
    apply hiff.mp
    by_contra hfails
    obtain ⟨msg, hraise, -, -⟩ := assertLinesMatch_of_fails reMatch d hfails
    rw [hraise] at hok
    cases hok
  · intro hpass
    exact assertLinesMatch_of_passes reMatch d (hiff.mpr hpass)
  · intro hne
    obtain ⟨msg, hraise, hother, hnonempty⟩ :=
      assertLinesMatch_of_fails reMatch d fun hpass => hne (assertLinesMatch_of_passes reMatch d hpass)
    refine ⟨_, hraise, hnonempty, fun r => ?_⟩
    rw [scan_regexps]
    exact count_missingEntry reMatch d hother (splitlines text) regexps r

/-- A program that prints the second of two lines only, judged by equality. -/
example : assertLinesMatch (fun r line => decide (r = line)) ⟨.never, false⟩ "b: OK\n".toList
    ["a: OK".toList, "b: OK".toList] [] =
      .error (.assertionError "GOOD b: OK\nMISSING 'a: OK'".toList) := by
  decide +kernel

end CsoLabs.Grade
