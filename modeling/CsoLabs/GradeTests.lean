import CsoLabs.CLang
import CsoLabs.ParentForest
import CsoLabs.PyLang

/-! The test structure of `gradelib.py`: the tests that `test` registers, `run_test`, which runs a test after its
parent and counts its points, and `run_tests`, which runs what the filters select.

The body of a test is a function of a world that all tests share. It says how the body ended and which callbacks it
added to `on_finish`. The log of the bodies that were run, and how they ended, is not in the source. -/

namespace CsoLabs.Grade
open PyLang CLang

/-- What a body does: `.ok ()` if it returns. -/
structure Finish (W : Type) where
  outcome : Except Exc Unit
  onFinish : List (Option Str → W → W)
  world : W

/-- The arguments of `test` and the decorated function. No title is the empty one; the function is given the number
of the test that `get_current_test` returns. -/
structure Test (W : Type) where
  points : Nat
  title : Str
  funcName : Str
  fn : Option Nat → W → Finish W

/-- The registered tests in order, each with the position of its parent. The name of a function that gives its test
the title is checked when it is registered. -/
structure Suite (W : Type) where
  tests : List (Test W)
  parents : Forest tests.length
  named : ∀ t ∈ tests, t.title = [] → "test_".toList <+: t.funcName

/-- The variables of the module, and the log. -/
structure St (n : Nat) (W : Type) where
  complete : List (Fin n)
  total : Nat
  possible : Nat
  currentTest : Option Nat
  world : W
  log : List (Fin n × Except Exc Unit)

/-- `fail` after the `try` statement: only an `AssertionError` is caught. -/
def fail : Except Exc Unit → Except Exc (Option Str)
  | .ok () => .ok none
  | .error (.assertionError msg) => .ok (some msg)
  | .error e => .error e

/-- `bool(fail)` -/
def truthy : Option Str → Bool
  | none => false
  | some msg => !msg.isEmpty

/-- The callbacks of `on_finish`. -/
def finishWorld {W : Type} (fail : Option Str) (onFinish : List (Option Str → W → W)) (w : W) : W :=
  onFinish.foldl (fun w callback => callback fail w) w

namespace Suite

variable {W : Type} (s : Suite W)

/-- `run_test.title` -/
def title (i : Fin s.tests.length) : Str :=
  let t := s.tests.get i
  let title := if t.title = [] then (t.funcName.drop 5).map fun c => if c = '_' then ' ' else c else t.title
  if (s.parents.parent i).isSome then "  ".toList ++ title else title

def points (i : Fin s.tests.length) : Nat := (s.tests.get i).points

/-- What `run_test` does with the result of a test. -/
def settle (i : Fin s.tests.length) (fail : Option Str) (onFinish : List (Option Str → W → W))
    (st : St s.tests.length W) : St s.tests.length W :=
  let st := { st with possible := st.possible + s.points i }
  let st := if truthy fail then st else { st with total := st.total + s.points i }
  let st := { st with world := finishWorld fail onFinish st.world }
  { st with currentTest := none }

/-- The body of a test and its result. -/
def runBody (i : Fin s.tests.length) (st : St s.tests.length W) : Except Exc (St s.tests.length W) := do
  let st := { st with currentTest := some i.val }
  let r := (s.tests.get i).fn st.currentTest st.world
  let st := { st with world := r.world, log := st.log ++ [(i, r.outcome)] }
  let fail ← fail r.outcome
  return s.settle i fail r.onFinish st

def runTest (i : Fin s.tests.length) (st : St s.tests.length W) : Except Exc (St s.tests.length W) :=
  if i ∈ st.complete then .ok st
  else do
    let st := { st with complete := i :: st.complete }
    let st ← match h : s.parents.parent i with
      | none => .ok st
      | some p =>
          have := s.parents.parent_lt h
          runTest p st
    s.runBody i st
termination_by i

def shouldRun (limit : List Str) (limitInverse : Bool) (i : Fin s.tests.length) : Bool :=
  if limit = [] then true
  else
    let matched := limit.any fun l => isIn l (lower (s.title i))
    limitInverse ^^ matched

/-- The loop over `TESTS`. -/
def runLoop (limit : List Str) (limitInverse : Bool) :
    List (Fin s.tests.length) → St s.tests.length W → Except Exc (St s.tests.length W)
  | [], st => .ok st
  | i :: rest, st =>
      if s.shouldRun limit limitInverse i then do
        let st ← s.runTest i st
        runLoop limit limitInverse rest st
      else runLoop limit limitInverse rest st

/-- The state when the module has been loaded. -/
def start (w : W) : St s.tests.length W :=
  { complete := [], total := 0, possible := 0, currentTest := none, world := w, log := [] }

/-- `run_tests` from the point where the command line has been read and the programs built, with the status it exits
with. -/
def runTests (args : List Str) (limitInverse : Bool) (w : W) : Except Exc (St s.tests.length W × Nat) := do
  let st ← s.runLoop (args.map lower) limitInverse (List.finRange s.tests.length) (s.start w)
  return (st, if st.total < st.possible then 1 else 0)

/-! ### Which bodies are run -/

/-- The tests that are asked for. -/
def selected (args : List Str) (limitInverse : Bool) : List (Fin s.tests.length) :=
  (List.finRange s.tests.length).filter fun i => s.shouldRun (args.map lower) limitInverse i

/-- The bodies of a list of tests, one after the other. -/
def runBodies : List (Fin s.tests.length) → St s.tests.length W → Except Exc (St s.tests.length W)
  | [], st => .ok st
  | i :: rest, st => do
      let st ← s.runBody i st
      runBodies rest st

theorem runBodies_append (xs ys : List (Fin s.tests.length)) (st : St s.tests.length W) :
    s.runBodies (xs ++ ys) st = (s.runBodies xs st >>= s.runBodies ys) := by
  induction xs generalizing st with
  | nil => rw [List.nil_append, runBodies, ok_bind]
  | cons i xs ih =>
      rw [List.cons_append, runBodies, runBodies]
      cases s.runBody i st with
      | error e => rfl
      | ok st => exact ih st

/-- A body does not look at the flags. -/
theorem runBody_mark (i : Fin s.tests.length) (st : St s.tests.length W) (c : List (Fin s.tests.length)) :
    s.runBody i { st with complete := c } = (s.runBody i st).map fun st => { st with complete := c } := by
  simp only [runBody]
  cases fail ((s.tests.get i).fn (some i.val) st.world).outcome with
  | error e => rfl
  | ok fail =>
      rw [ok_bind, ok_bind, settle, settle]
      split_ifs
      · rfl
      · rfl

theorem runBodies_mark (order : List (Fin s.tests.length)) (st : St s.tests.length W)
    (c : List (Fin s.tests.length)) :
    s.runBodies order { st with complete := c } = (s.runBodies order st).map fun st => { st with complete := c } := by
  induction order generalizing st with
  | nil => rfl
  | cons i order ih =>
      rw [runBodies, runBodies, runBody_mark]
      cases s.runBody i st with
      | error e => rfl
      | ok st => exact ih st

theorem runTest_of_complete {i : Fin s.tests.length} {st : St s.tests.length W} (hi : i ∈ st.complete) :
    s.runTest i st = .ok st := by
  rw [runTest, if_pos hi]

theorem runTest_of_root {i : Fin s.tests.length} {st : St s.tests.length W} (hi : i ∉ st.complete)
    (hroot : s.parents.parent i = none) :
    s.runTest i st = s.runBody i { st with complete := i :: st.complete } := by
  rw [runTest, if_neg hi]
  dsimp only
  split
  · rw [ok_bind]
  · rename_i p hp
    rw [hroot] at hp
    cases hp

theorem runTest_of_parent {i p : Fin s.tests.length} {st : St s.tests.length W} (hi : i ∉ st.complete)
    (hp : s.parents.parent i = some p) :
    s.runTest i st = (s.runTest p { st with complete := i :: st.complete } >>= s.runBody i) := by
  rw [runTest, if_neg hi]
  dsimp only
  split
  · rename_i hroot
    rw [hp] at hroot
    cases hroot
  · rename_i q hq
    rw [hp] at hq
    cases hq
    rfl

/-- Flags first, bodies later: a test marks itself and its ancestors, and the bodies of those that were not marked
are run from the root down. -/
theorem runTest_eq (i : Fin s.tests.length) (st : St s.tests.length W)
    (hclosed : s.parents.ClosedUpTo st.complete i) :
    s.runTest i st = s.runBodies (s.parents.missing st.complete i)
      { st with complete := s.parents.missing st.complete i ++ st.complete } := by
  induction i using s.parents.induct generalizing st with
  | root i hroot =>
      by_cases hi : i ∈ st.complete
      · rw [s.runTest_of_complete hi, s.parents.missing_of_mem hclosed hi]
        rfl
      · rw [s.runTest_of_root hi hroot, s.parents.missing_of_root hroot hi, runBodies]
        exact (bind_pure _).symm
  | child i p hp ih =>
      by_cases hi : i ∈ st.complete
      · rw [s.runTest_of_complete hi, s.parents.missing_of_mem hclosed hi]
        rfl
      · have hlt := s.parents.parent_lt hp
        -- the mark of `i` itself is above all that its ancestors look at
        have hclosed' : s.parents.ClosedUpTo (i :: st.complete) p := by
          intro j hj hjp q hq
          rcases List.mem_cons.mp hj with rfl | hj
          · exact absurd hjp (not_le.mpr hlt)
          · exact List.mem_cons_of_mem i (hclosed j hj (hjp.trans hlt.le) q hq)
        rw [s.runTest_of_parent hi hp, ih _ hclosed', s.parents.missing_of_parent hp hi, runBodies_append,
          List.append_assoc, List.singleton_append]
        congr 1
        funext st'
        exact (bind_pure _).symm

/-- The bodies that the loop executes are the visits of the selected tests and their ancestors. -/
theorem runLoop_eq (limit : List Str) (limitInverse : Bool) (rest done : List (Fin s.tests.length))
    (hclosed : s.parents.Closed done) :
    ∃ c, ∀ st : St s.tests.length W, st.complete = done → s.runLoop limit limitInverse rest st =
      s.runBodies (s.parents.visits done (rest.filter fun i => s.shouldRun limit limitInverse i))
        { st with complete := c } := by
  induction rest generalizing done with
  | nil =>
      refine ⟨done, ?_⟩
      rintro st rfl
      rfl
  | cons i rest ih =>
      by_cases hrun : s.shouldRun limit limitInverse i = true
      · obtain ⟨c, hc⟩ := ih (s.parents.missing done i ++ done) (s.parents.closed_missing_append hclosed i)
        refine ⟨c, ?_⟩
        rintro st rfl
        have htest := s.runTest_eq i st fun j hj _ => hclosed j hj
        rw [runLoop, if_pos hrun, htest, List.filter_cons_of_pos hrun, Forest.visits, runBodies_append,
          s.runBodies_mark _ st (s.parents.missing st.complete i ++ st.complete), s.runBodies_mark _ st c]
        cases s.runBodies (s.parents.missing st.complete i) st with
        | error e => rfl
        | ok st' => exact hc _ rfl
      · obtain ⟨c, hc⟩ := ih done hclosed
        refine ⟨c, fun st hst => ?_⟩
        rw [runLoop, if_neg hrun, List.filter_cons_of_neg hrun]
        exact hc st hst

/-- The order in which bodies are run. -/
def schedule (args : List Str) (limitInverse : Bool) : List (Fin s.tests.length) :=
  s.parents.visits [] (s.selected args limitInverse)

theorem mem_schedule (args : List Str) (limitInverse : Bool) (i : Fin s.tests.length) :
    i ∈ s.schedule args limitInverse ↔
      ∃ j, s.shouldRun (args.map lower) limitInverse j = true ∧ i ∈ s.parents.chain j := by
  rw [schedule, Forest.mem_visits, and_iff_right List.not_mem_nil]
  refine exists_congr fun j => and_congr_left fun _ => ?_
  rw [selected, List.mem_filter, and_iff_right (List.mem_finRange j)]

/-- A run of `run_tests` is the run of the scheduled bodies, up to the flags. -/
theorem runTests_eq (args : List Str) (limitInverse : Bool) (w : W) :
    ∃ c, s.runTests args limitInverse w =
      (s.runBodies (s.schedule args limitInverse) (s.start w)).map fun st =>
        ({ st with complete := c }, if st.total < st.possible then 1 else 0) := by
  obtain ⟨c, hc⟩ := s.runLoop_eq (args.map lower) limitInverse (List.finRange s.tests.length) []
    fun j hj => absurd hj List.not_mem_nil
  refine ⟨c, ?_⟩
  rw [runTests, hc (s.start w) rfl, runBodies_mark, ← selected, ← schedule]
  cases s.runBodies (s.schedule args limitInverse) (s.start w) with
  | error e => rfl
  | ok st => rfl

end Suite

end CsoLabs.Grade
