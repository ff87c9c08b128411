import CsoLabs.GradeTests

/-! The points that `run_tests` gives. A failed test is told from a passed one by the text of its exception, so an
assertion without a message counts as passed.

A run is compared with a replay of the scheduled bodies, which has no counters and no flags. -/

namespace CsoLabs.Grade
open PyLang CLang

namespace Suite

variable {W : Type} (s : Suite W)

/-! ### A replay of the bodies -/

/-- The body returned, or it raised an `AssertionError`. -/
def Asserts (o : Except Exc Unit) : Prop := ∀ e, o = .error e → ∃ msg, e = .assertionError msg

def OnlyAsserts : Prop := ∀ t ∈ s.tests, ∀ current w, Asserts (t.fn current w).outcome

/-- The text of an `AssertionError`. -/
def caught : Except Exc Unit → Option Str
  | .error (.assertionError msg) => some msg
  | _ => none

/-- The body of a test and its callbacks. -/
def play (i : Fin s.tests.length) (w : W) : Except Exc Unit × W :=
  let r := (s.tests.get i).fn (some i.val) w
  (r.outcome, finishWorld (caught r.outcome) r.onFinish r.world)

/-- How the bodies of a list of tests end when they are run one after the other. -/
def replay : List (Fin s.tests.length) → W → List (Fin s.tests.length × Except Exc Unit)
  | [], _ => []
  | i :: rest, w => (i, (s.play i w).1) :: replay rest (s.play i w).2

/-- The world that they leave. -/
def replayWorld (order : List (Fin s.tests.length)) (w : W) : W := order.foldl (fun w i => (s.play i w).2) w

/-! ### The counters -/

/-- `run_test` gives the points: an exception without a text counts as none. -/
def earned : Except Exc Unit → Bool
  | .ok () => true
  | .error (.assertionError msg) => msg.isEmpty
  | .error _ => false

/-- The points of the tests with a given way to end. -/
def pointsOf (log : List (Fin s.tests.length × Except Exc Unit)) (p : Except Exc Unit → Bool) : Nat :=
  (log.map fun e => if p e.2 then s.points e.1 else 0).sum

theorem pointsOf_cons (e : Fin s.tests.length × Except Exc Unit) (log : List (Fin s.tests.length × Except Exc Unit))
    (p : Except Exc Unit → Bool) :
    s.pointsOf (e :: log) p = (if p e.2 then s.points e.1 else 0) + s.pointsOf log p := by
  rw [pointsOf, pointsOf, List.map_cons, List.sum_cons]

/-- What one body adds to the counters. -/
theorem runBody_ok (i : Fin s.tests.length) (st : St s.tests.length W) (hi : Asserts (s.play i st.world).1) :
    ∃ st', s.runBody i st = .ok st' ∧ st'.world = (s.play i st.world).2 ∧
      st'.log = st.log ++ [(i, (s.play i st.world).1)] ∧ st'.possible = st.possible + s.points i ∧
      st'.total = st.total + if earned (s.play i st.world).1 then s.points i else 0 := by
  obtain ⟨r, hr⟩ : ∃ r, (s.tests.get i).fn (some i.val) st.world = r := ⟨_, rfl⟩
  have hplay : s.play i st.world = (r.outcome, finishWorld (caught r.outcome) r.onFinish r.world) := by
    rw [play, hr]
  rw [hplay] at hi ⊢
  simp only [runBody, hr]
  cases hout : r.outcome with
  | ok u => exact ⟨_, rfl, rfl, rfl, rfl, rfl⟩
  | error e =>
      obtain ⟨msg, rfl⟩ := hi e hout
      refine ⟨_, rfl, ?_⟩
      rw [settle, truthy]
      cases msg with
      | nil => exact ⟨rfl, rfl, rfl, rfl⟩
      | cons c msg => exact ⟨rfl, rfl, rfl, rfl⟩

theorem runBodies_ok (order : List (Fin s.tests.length)) (st : St s.tests.length W)
    (horder : ∀ e ∈ s.replay order st.world, Asserts e.2) :
    ∃ st', s.runBodies order st = .ok st' ∧ st'.world = s.replayWorld order st.world ∧
      st'.log = st.log ++ s.replay order st.world ∧
      st'.possible = st.possible + s.pointsOf (s.replay order st.world) (fun _ => true) ∧
      st'.total = st.total + s.pointsOf (s.replay order st.world) earned := by
  induction order generalizing st with
  | nil => exact ⟨st, rfl, rfl, (List.append_nil _).symm, rfl, rfl⟩
  | cons i order ih =>
      rw [replay, List.forall_mem_cons] at horder
      obtain ⟨st₁, hbody, hworld, hlog, hpossible, htotal⟩ := s.runBody_ok i st horder.1
      obtain ⟨st₂, hrest, hworld', hlog', hpossible', htotal'⟩ := ih st₁ (by rw [hworld]; exact horder.2)
      refine ⟨st₂, ?_, ?_, ?_, ?_, ?_⟩
      · rw [runBodies, hbody, ok_bind, hrest]
      · rw [hworld', hworld, replayWorld, replayWorld, List.foldl_cons]
      · rw [hlog', hlog, hworld, List.append_assoc, List.singleton_append, replay]
      · rw [hpossible', hpossible, hworld, replay, pointsOf_cons, if_pos rfl, Nat.add_assoc]
      · rw [htotal', htotal, hworld, replay, pointsOf_cons, Nat.add_assoc]

theorem map_fst_replay (order : List (Fin s.tests.length)) (w : W) : (s.replay order w).map Prod.fst = order := by
  induction order generalizing w with
  | nil => rfl
  | cons i order ih => rw [replay, List.map_cons, ih]

theorem pointsOf_eq_zero_iff (log : List (Fin s.tests.length × Except Exc Unit)) (p : Except Exc Unit → Bool) :
    s.pointsOf log p = 0 ↔ ∀ e ∈ log, p e.2 = true → s.points e.1 = 0 := by
  rw [pointsOf, List.sum_eq_zero_iff, List.forall_mem_map]
  refine forall₂_congr fun e _ => ?_
  split_ifs with hp
  · exact ⟨fun h _ => h, fun h => h hp⟩
  · exact iff_of_true rfl fun h => absurd h hp

/-- Points split into those of two disjoint ways to end. -/
theorem pointsOf_add (log : List (Fin s.tests.length × Except Exc Unit)) {p q r : Except Exc Unit → Bool}
    (hsplit : ∀ o, p o = (q o || r o)) (hdisjoint : ∀ o, (q o && r o) = false) :
    s.pointsOf log p = s.pointsOf log q + s.pointsOf log r := by
  unfold pointsOf
  rw [← List.sum_map_add]
  congr 1
  apply List.map_congr_left
  intro e _
  rw [hsplit]
  have hdis := hdisjoint e.2
  cases hq : q e.2 with
  | false => rw [Bool.false_or, if_neg Bool.false_ne_true, Nat.zero_add]
  | true =>
      rw [hq, Bool.true_and] at hdis
      rw [hdis, Bool.true_or, if_pos rfl, if_neg Bool.false_ne_true, Nat.add_zero]

/-- The body returned. -/
def returned : Except Exc Unit → Bool
  | .ok () => true
  | .error _ => false

/-- The body raised an `AssertionError` with an empty message. -/
def silent : Except Exc Unit → Bool
  | .error (.assertionError []) => true
  | _ => false

/-- Every test earns its points exactly when its body returns. -/
structure Scored (st : St s.tests.length W) (status : Nat) : Prop where
  once : (st.log.map Prod.fst).Nodup
  possible_eq : st.possible = s.pointsOf st.log fun _ => true
  total_eq : st.total = s.pointsOf st.log returned
  status_eq : status = 1 ↔ ∃ e ∈ st.log, returned e.2 = false ∧ 0 < s.points e.1

theorem earned_eq (o : Except Exc Unit) : earned o = (returned o || silent o) := by
  match o with
  | .ok () => rfl
  | .error (.assertionError []) => rfl
  | .error (.assertionError (_ :: _)) => rfl
  | .error .attributeError => rfl
  | .error .indexError => rfl
  | .error (.runtimeError _) => rfl

theorem returned_and_silent (o : Except Exc Unit) : (returned o && silent o) = false := by
  cases o with
  | ok u => rfl
  | error e => rfl

theorem silent_iff (o : Except Exc Unit) : silent o = true ↔ o = .error (.assertionError []) := by
  constructor
  · intro h
    unfold silent at h
    split at h
    · rfl
    · cases h
  · rintro rfl
    rfl

/-- The counters after a log, when the log is one of distinct tests. -/
theorem scored_iff (st : St s.tests.length W) (hnodup : (st.log.map Prod.fst).Nodup)
    (hpossible : st.possible = s.pointsOf st.log fun _ => true) (htotal : st.total = s.pointsOf st.log earned) :
    s.Scored st (if st.total < st.possible then 1 else 0) ↔
      ∀ e ∈ st.log, e.2 = .error (.assertionError []) → s.points e.1 = 0 := by
  have hearned : s.pointsOf st.log earned = s.pointsOf st.log returned + s.pointsOf st.log silent :=
    s.pointsOf_add st.log earned_eq returned_and_silent
  have hall : (s.pointsOf st.log fun _ => true) =
      s.pointsOf st.log earned + s.pointsOf st.log fun o => !earned o :=
    s.pointsOf_add st.log (fun o => (Bool.or_not_self _).symm) fun o => Bool.and_not_self _
  have hsilent : s.pointsOf st.log silent = 0 ↔
      ∀ e ∈ st.log, e.2 = .error (.assertionError []) → s.points e.1 = 0 := by
    rw [pointsOf_eq_zero_iff]
    exact forall₂_congr fun e _ => by rw [silent_iff]
  rw [← hsilent]
  constructor
  · intro h
    have := h.total_eq
    omega
  · intro hzero
    refine ⟨hnodup, hpossible, by omega, ?_⟩
    have hlost : st.total < st.possible ↔ ¬ (s.pointsOf st.log fun o => !earned o) = 0 := by omega
    have hstatus : (if st.total < st.possible then 1 else 0) = 1 ↔ st.total < st.possible := by
      split_ifs with hlt
      · exact iff_of_true rfl hlt
      · exact iff_of_false (fun h => by cases h) hlt
    rw [hstatus, hlost, pointsOf_eq_zero_iff]
    push Not
    rw [pointsOf_eq_zero_iff] at hzero
    refine exists_congr fun e => and_congr_right fun he => ?_
    rw [Nat.pos_iff_ne_zero, Bool.not_eq_true', earned_eq, Bool.or_eq_false_iff]
    constructor
    · rintro ⟨⟨hraised, -⟩, hpos⟩
      exact ⟨hraised, hpos⟩
    · rintro ⟨hraised, hpos⟩
      exact ⟨⟨hraised, Bool.eq_false_of_not_eq_true fun h => hpos (hzero e he h)⟩, hpos⟩

/-- What holds of the outcome of every test, whatever the world, holds along a replay. -/
theorem forall_replay {P : Except Exc Unit → Prop}
    (hP : ∀ t ∈ s.tests, ∀ current w, P (t.fn current w).outcome) (order : List (Fin s.tests.length)) (w : W) :
    ∀ e ∈ s.replay order w, P e.2 := by
  induction order generalizing w with
  | nil =>
      intro e he
      cases he
  | cons i order ih =>
      rw [replay, List.forall_mem_cons]
      exact ⟨hP _ (List.get_mem s.tests i) _ _, ih _⟩

/-- A run of `run_tests` in which no body fails but by an assertion. -/
theorem runTests_spec (args : List Str) (limitInverse : Bool) (w : W)
    (hasserts : ∀ e ∈ s.replay (s.schedule args limitInverse) w, Asserts e.2) :
    ∃ st, s.runTests args limitInverse w = .ok (st, if st.total < st.possible then 1 else 0) ∧
      st.world = s.replayWorld (s.schedule args limitInverse) w ∧
      st.log = s.replay (s.schedule args limitInverse) w ∧ st.possible = s.pointsOf st.log (fun _ => true) ∧
      st.total = s.pointsOf st.log earned := by
  obtain ⟨c, hc⟩ := s.runTests_eq args limitInverse w
  obtain ⟨st, hrun, hworld, hlog, hpossible, htotal⟩ :=
    s.runBodies_ok (s.schedule args limitInverse) (s.start w) hasserts
  rw [hrun] at hc
  have hlog' : st.log = s.replay (s.schedule args limitInverse) w := hlog
  refine ⟨{ st with complete := c }, hc, hworld, hlog, ?_, ?_⟩
  · dsimp only
    rw [hlog']
    exact hpossible.trans (Nat.zero_add _)
  · dsimp only
    rw [hlog']
    exact htotal.trans (Nat.zero_add _)

/-- A run executes the bodies of the selected tests and of their ancestors. The tests earn their points as they should
exactly when no body among these raises an `AssertionError` with an empty message for a test that has points. -/
theorem runTests_scored_iff (hs : s.OnlyAsserts) (args : List Str) (limitInverse : Bool) (w : W) :
    ∃ st status, s.runTests args limitInverse w = .ok (st, status) ∧
      (∀ i, i ∈ st.log.map Prod.fst ↔
        ∃ j, s.shouldRun (args.map lower) limitInverse j = true ∧ i ∈ s.parents.chain j) ∧
      (s.Scored st status ↔ ∀ e ∈ s.replay (s.schedule args limitInverse) w,
        e.2 = .error (.assertionError []) → s.points e.1 = 0) := by
  obtain ⟨st, hrun, -, hlog, hpossible, htotal⟩ :=
    s.runTests_spec args limitInverse w (s.forall_replay hs _ w)
  have hfst : st.log.map Prod.fst = s.schedule args limitInverse := by
    rw [hlog, map_fst_replay]
  refine ⟨st, _, hrun, ?_, ?_⟩
  · intro i
    rw [← s.mem_schedule, ← hfst]
  · rw [← hlog]
    refine s.scored_iff st ?_ hpossible htotal
    rw [hfst]
    exact s.parents.nodup_visits

end Suite

/-- A test with a body that ends in the same way each time. -/
def endingTest (points : Nat) (title : Str) (outcome : Except Exc Unit) : Test Unit :=
  { points := points, title := title, funcName := "do_test".toList
    fn := fun _ w => { outcome := outcome, onFinish := [], world := w } }

/-- A test without points that passes, and a test of five points below it that fails. -/
def failingSuite : Suite Unit where
  tests := [endingTest 0 "part".toList (.ok ()),
    endingTest 5 "step".toList (.error (.assertionError "MISSING 'OK'".toList))]
  parents :=
    { parent := fun i => if i.val = 1 then some ⟨0, Nat.zero_lt_two⟩ else none
      parent_lt := by decide }
  named := by decide +kernel

/-- The child alone is selected, and loses its points. -/
theorem failingSuite_scored : ∃ st status, failingSuite.runTests ["step".toList] false () = .ok (st, status) ∧
    failingSuite.Scored st status := by
  have hasserts : failingSuite.OnlyAsserts := by
    intro t ht current w e he
    rcases List.mem_pair.mp ht with rfl | rfl
    · cases he
    · exact ⟨_, (Except.error.inj he).symm⟩
  have htext : ∀ t ∈ failingSuite.tests, ∀ current w, (t.fn current w).outcome ≠ .error (.assertionError []) := by
    intro t ht current w he
    rcases List.mem_pair.mp ht with rfl | rfl
    · cases he
    · exact absurd (Exc.assertionError.inj (Except.error.inj he)) (by decide +kernel)
  obtain ⟨st, status, hrun, -, hiff⟩ := failingSuite.runTests_scored_iff hasserts ["step".toList] false ()
  refine ⟨st, status, hrun, hiff.mpr fun e he hsilent => ?_⟩
  exact absurd hsilent (failingSuite.forall_replay (P := fun o => o ≠ .error (.assertionError [])) htext _ _ e he)

/-- A test of five points with the body `assert False`. -/
def assertFalseSuite : Suite Unit where
  tests := [endingTest 5 "assert false".toList (.error (.assertionError []))]
  parents := { parent := fun _ => none, parent_lt := fun h => by cases h }
  named := by decide +kernel

/-- The body raises an exception without a text, and the test gets its points. -/
theorem assertFalse_earns :
    assertFalseSuite.OnlyAsserts ∧ ∃ st, assertFalseSuite.runTests [] false () = .ok (st, 0) ∧ st.total = 5 ∧
      st.log = [(⟨0, Nat.zero_lt_one⟩, .error (.assertionError []))] ∧ ¬ assertFalseSuite.Scored st 0 := by
  have htest : assertFalseSuite.runTest ⟨0, Nat.zero_lt_one⟩ (assertFalseSuite.start ()) =
      .ok { complete := [⟨0, Nat.zero_lt_one⟩], total := 5, possible := 5, currentTest := none, world := (),
            log := [(⟨0, Nat.zero_lt_one⟩, .error (.assertionError []))] } := by
    rw [Suite.runTest_of_root _ List.not_mem_nil rfl]
    rfl
  have hrun : assertFalseSuite.runTests [] false () =
      .ok ({ complete := [⟨0, Nat.zero_lt_one⟩], total := 5, possible := 5, currentTest := none, world := (),
             log := [(⟨0, Nat.zero_lt_one⟩, .error (.assertionError []))] }, 0) := by
    have hall : List.finRange assertFalseSuite.tests.length = [⟨0, Nat.zero_lt_one⟩] := rfl
    have hselected : assertFalseSuite.shouldRun [] false ⟨0, Nat.zero_lt_one⟩ = true := rfl
    rw [Suite.runTests, hall, List.map_nil, Suite.runLoop, if_pos hselected, htest, ok_bind]
    rfl
  refine ⟨?_, _, hrun, rfl, rfl, fun h => ?_⟩
  · intro t ht current w e he
    rw [List.mem_singleton.mp ht] at he
    exact ⟨[], (Except.error.inj he).symm⟩
  · exact absurd h.total_eq (by decide)

end CsoLabs.Grade
