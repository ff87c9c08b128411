import CsoLabs.GradeLab

/-! The grade that `grade-lab` gives. The script reaches it by registered functions that call their parents, by a shared
`Runner`, exceptions and callbacks; what comes out can be said of the programs alone: each check is worth its points
exactly if the output of its group's program passes it. -/

namespace CsoLabs.Grade
open PyLang CLang

/-! ### What a check asks for -/

/-- Every required pattern matches some line, and no forbidden one does. -/
def Passes (reMatch : Str → Str → Bool) (out : Str) (regexps no : List Str) : Prop :=
  (∀ r ∈ regexps, ∃ line ∈ splitlines out, reMatch r line = true) ∧
    ∀ r ∈ no, ∀ line ∈ splitlines out, reMatch r line = false

instance (reMatch : Str → Str → Bool) (out : Str) (regexps no : List Str) : Decidable (Passes reMatch out regexps no) :=
  inferInstanceAs (Decidable (_ ∧ _))

theorem assertLinesMatch_eq_ok_iff (reMatch : Str → Str → Bool) (d : Display) (out : Str) (regexps no : List Str) :
    assertLinesMatch reMatch d out regexps no = .ok () ↔ Passes reMatch out regexps no := by
  have hscan : _ ↔ Passes reMatch out regexps no := scan_passes_iff reMatch (splitlines out) regexps no
  constructor
  · intro hok
    apply hscan.mp
    by_contra hfails
    obtain ⟨msg, hraise, -⟩ := assertLinesMatch_of_fails reMatch d hfails
    rw [hraise] at hok
    cases hok
  · intro hpasses
    exact assertLinesMatch_of_passes reMatch d (hscan.mpr hpasses)

/-- The points of a registered test, and those it is given when `output` is what the programs have printed. -/
def Slot.points (S : Slot) : Nat :=
  match S.check with
  | none => S.group.points
  | some m => m.points

def Slot.credit (reMatch : Str → Str → Bool) (output : Nat → Str) (S : Slot) : Nat :=
  match S.check with
  | none => S.group.points
  | some m => if Passes reMatch (output S.g) m.regexps m.no then m.points else 0

/-! ### What the programs have printed -/

/-- Every output on record is the one its program prints after what was done before. -/
def Genuine (exec : List Event → Str → Str) (events : List Event) : Prop :=
  ∀ before g b out after, events = before ++ .ran g b out :: after → out = exec before b

theorem Genuine.append {exec : List Event → Str → Str} {events : List Event} (h : Genuine exec events) {e : Event}
    (he : ∀ g b out, e = .ran g b out → out = exec events b) : Genuine exec (events ++ [e]) := by
  intro before g b out after heq
  rcases List.eq_nil_or_concat after with rfl | ⟨after', e', rfl⟩
  · obtain ⟨rfl, rfl⟩ := List.append_singleton_inj.mp heq
    exact he g b out rfl
  · rw [List.concat_eq_append, ← List.cons_append, ← List.append_assoc] at heq
    exact h before g b out after' (List.append_singleton_inj.mp heq).1

/-- The output of the program of a group. -/
def outputOf : List Event → Nat → Str
  | [], _ => []
  | .ran g' _ out :: events, g => if g' = g then out else outputOf events g
  | .judged _ _ :: events, g => outputOf events g

theorem outputOf_eq {events : List Event} (hnodup : (events.filterMap ranGroup).Nodup) {g : Nat} {b out : Str}
    (h : .ran g b out ∈ events) : outputOf events g = out := by
  induction events with
  | nil => cases h
  | cons e events ih =>
      cases e with
      | judged g' o =>
          rcases List.mem_cons.mp h with heq | h
          · cases heq
          · exact ih hnodup h
      | ran g' b' out' =>
          obtain ⟨hnew, hrest⟩ := List.nodup_cons.mp (show (g' :: events.filterMap ranGroup).Nodup from hnodup)
          rw [outputOf]
          rcases List.mem_cons.mp h with heq | h
          · cases heq
            exact if_pos rfl
          · have hmem : g ∈ events.filterMap ranGroup := List.mem_filterMap.mpr ⟨_, h, rfl⟩
            have hne : g' ≠ g := fun heq => hnew (heq ▸ hmem)
            rw [if_neg hne]
            exact ih hrest h

/-! ### One test in a run -/

theorem Suite.mem_replay {W : Type} (s : Suite W) {order : List (Fin s.tests.length)} {w : W}
    {e : Fin s.tests.length × Except Exc Unit} (he : e ∈ s.replay order w) :
    ∃ pre post, order = pre ++ e.1 :: post ∧ e.2 = (s.play e.1 (s.replayWorld pre w)).1 := by
  induction order generalizing w with
  | nil => cases he
  | cons i order ih =>
      rcases List.mem_cons.mp he with rfl | he
      · exact ⟨[], order, rfl, rfl⟩
      · obtain ⟨pre, post, rfl, houtcome⟩ := ih he
        exact ⟨i :: pre, post, rfl, houtcome⟩

section Run
variable {exec : List Event → Str → Str} {reMatch : Str → Str → Bool} {d : Display} {groups : List Group}
  {i : Fin (gradeLab exec reMatch d groups).tests.length} {S : Slot} {r : Runner}
  {pre post : List (Fin (gradeLab exec reMatch d groups).tests.length)}

/-- A test adds one event, whatever has happened before. -/
theorem play_events (i : Fin (gradeLab exec reMatch d groups).tests.length) (r : Runner) :
    ∃ e, ((gradeLab exec reMatch d groups).play i r).2.events = r.events ++ [e] ∧
      ∀ g b out, e = .ran g b out → out = exec r.events b := by
  obtain ⟨S, hS⟩ := exists_slot i
  cases hcheck : S.check with
  | none =>
      rw [play_parent hS hcheck]
      refine ⟨_, rfl, ?_⟩
      intro g b out heq
      cases heq
      rfl
  | some m =>
      refine ⟨.judged S.g r.procOutput, ?_, ?_⟩
      · rw [Suite.play, get_tests hS, Slot.toTest, hcheck]
        exact (saveOnFinish_frame _ _ _).2
      · intro g b out heq
        cases heq

theorem events_replayWorld (order : List (Fin (gradeLab exec reMatch d groups).tests.length)) (r : Runner) :
    r.events <+: ((gradeLab exec reMatch d groups).replayWorld order r).events := by
  induction order generalizing r with
  | nil => exact List.prefix_refl _
  | cons i order ih =>
      obtain ⟨e, hevents, -⟩ := play_events i r
      refine List.IsPrefix.trans ?_ (ih ((gradeLab exec reMatch d groups).play i r).2)
      rw [hevents]
      exact List.prefix_append _ _

theorem Genuine.replayWorld (order : List (Fin (gradeLab exec reMatch d groups).tests.length))
    (h : Genuine exec r.events) : Genuine exec ((gradeLab exec reMatch d groups).replayWorld order r).events := by
  induction order generalizing r with
  | nil => exact h
  | cons i order ih =>
      apply ih
      obtain ⟨e, hevents, hran⟩ := play_events i r
      rw [hevents]
      exact h.append hran

/-- The parents of the tests up to `i` come before `i`. -/
theorem closed_of_split (hsorted : (pre ++ i :: post).Pairwise (· < ·))
    (hclosed : (gradeLab exec reMatch d groups).parents.Closed (pre ++ i :: post)) :
    (gradeLab exec reMatch d groups).parents.Closed pre ∧
      ∀ p, (gradeLab exec reMatch d groups).parents.parent i = some p → p ∈ pre := by
  obtain ⟨-, hrest, hlt⟩ := List.pairwise_append.mp hsorted
  have hbefore : ∀ j p, j ≤ i → j ∈ pre ++ i :: post →
      (gradeLab exec reMatch d groups).parents.parent j = some p → p ∈ pre := by
    intro j p hj hmem hp
    have hpj := (gradeLab exec reMatch d groups).parents.parent_lt hp
    rcases List.mem_append.mp (hclosed j hmem p hp) with hpre | hpost
    · exact hpre
    · rcases List.mem_cons.mp hpost with rfl | hpost
      · exact absurd (hpj.trans_le hj) (lt_irrefl p)
      · exact absurd (hpj.trans_le hj) (not_lt.mpr ((List.pairwise_cons.mp hrest).1 p hpost).le)
  refine ⟨fun j hj p hp => ?_, fun p hp => ?_⟩
  · exact hbefore j p (hlt j hj i List.mem_cons_self).le (List.mem_append_left _ hj) hp
  · exact hbefore i p le_rfl (List.mem_append_right _ List.mem_cons_self) hp

/-- How the body of a test of a run ends, in terms of what is on record when the run is over. -/
theorem ended_of_split (hsorted : (pre ++ i :: post).Pairwise (· < ·))
    (hclosed : (gradeLab exec reMatch d groups).parents.Closed (pre ++ i :: post))
    (hS : (slots 0 0 groups)[i.val]? = some S) :
    let r := (gradeLab exec reMatch d groups).replayWorld pre newRunner
    (S.check = none → ((gradeLab exec reMatch d groups).play i r).1 = .ok ()) ∧
      ∀ m, S.check = some m → ∃ out, .ran S.g S.group.binary out ∈ r.events ∧
        ((gradeLab exec reMatch d groups).play i r).1 = assertLinesMatch reMatch d out m.regexps m.no := by
  intro r
  obtain ⟨hclosedPre, hparent⟩ := closed_of_split hsorted hclosed
  obtain ⟨hpre, -, hlt⟩ := List.pairwise_append.mp hsorted
  have hkept : Kept pre r := (kept_newRunner.replay pre hpre hclosedPre).2
  refine ⟨fun hcheck => by rw [play_parent hS hcheck], fun m hcheck => ?_⟩
  have hchild : S.check ≠ none := by
    rw [hcheck]
    exact Option.some_ne_none m
  obtain ⟨out, hout, hran⟩ := hkept.own hpre (fun j hj => hlt j hj i List.mem_cons_self) hparent hS hchild
  refine ⟨out, hran, ?_⟩
  rw [Suite.play, get_tests hS, Slot.toTest, hcheck]
  dsimp only [matchOutput]
  rw [hout]

theorem points_eq (hS : (slots 0 0 groups)[i.val]? = some S) : (gradeLab exec reMatch d groups).points i = S.points := by
  rw [Suite.points, get_tests hS, Slot.toTest, Slot.points]
  cases S.check with
  | none => rfl
  | some m => rfl

/-- The registered tests at the given positions. -/
def slotsAt (groups : List Group) (order : List Nat) : List Slot := order.filterMap fun i => (slots 0 0 groups)[i]?

theorem slotsAt_cons {j : Nat} (order : List Nat) (hS : (slots 0 0 groups)[j]? = some S) :
    slotsAt groups (j :: order) = S :: slotsAt groups order := List.filterMap_cons_some hS

theorem filterMap_range (L : List Slot) : (List.range L.length).filterMap (fun i => L[i]?) = L := by
  induction L with
  | nil => rfl
  | cons S L ih =>
      have hhead : (S :: L)[0]? = some S := rfl
      rw [List.length_cons, List.range_succ_eq_map, List.filterMap_cons_some hhead, List.filterMap_map]
      exact congrArg (S :: ·) ih

/-- Points counted over a log are points counted over the tests of the log. -/
theorem pointsOf_eq_sum {log : List (Fin (gradeLab exec reMatch d groups).tests.length × Except Exc Unit)}
    {p : Except Exc Unit → Bool} {worth : Slot → Nat}
    (hworth : ∀ e ∈ log, ∀ S, (slots 0 0 groups)[e.1.val]? = some S →
      (if p e.2 then (gradeLab exec reMatch d groups).points e.1 else 0) = worth S) :
    (gradeLab exec reMatch d groups).pointsOf log p =
      ((slotsAt groups (log.map fun e => e.1.val)).map worth).sum := by
  induction log with
  | nil => rfl
  | cons e log ih =>
      obtain ⟨hhead, hrest⟩ := List.forall_mem_cons.mp hworth
      obtain ⟨S, hS⟩ := exists_slot e.1
      rw [Suite.pointsOf_cons, ih hrest, List.map_cons, slotsAt_cons _ hS, List.map_cons, List.sum_cons, hhead S hS]

/-- The tests of a run in order, with their parents among them. -/
theorem pairwise_schedule (args : List Str) (limitInverse : Bool) :
    ((gradeLab exec reMatch d groups).schedule args limitInverse).Pairwise (· < ·) := by
  have hselected : ((gradeLab exec reMatch d groups).selected args limitInverse).Pairwise (· < ·) :=
    (List.pairwise_lt_finRange _).filter _
  exact (blocks_gradeLab.pairwise_visits (fun j hj => absurd hj List.not_mem_nil) hselected
    fun i _ j hj => absurd hj List.not_mem_nil).1

/-- A test of a run leaves the output of its group's program on record, or finds it there. -/
theorem ran_of_mem_replay (args : List Str) (limitInverse : Bool) {events : List Event}
    (hevents : events = ((gradeLab exec reMatch d groups).replayWorld
      ((gradeLab exec reMatch d groups).schedule args limitInverse) newRunner).events)
    {e : Fin (gradeLab exec reMatch d groups).tests.length × Except Exc Unit}
    (he : e ∈ (gradeLab exec reMatch d groups).replay ((gradeLab exec reMatch d groups).schedule args limitInverse)
      newRunner) (hS : (slots 0 0 groups)[e.1.val]? = some S) : ∃ out, .ran S.g S.group.binary out ∈ events := by
  have hsorted := @pairwise_schedule exec reMatch d groups args limitInverse
  have hclosed : (gradeLab exec reMatch d groups).parents.Closed
      ((gradeLab exec reMatch d groups).schedule args limitInverse) :=
    (gradeLab exec reMatch d groups).parents.closed_visits
  obtain ⟨pre, post, horder, -⟩ := Suite.mem_replay _ he
  rw [horder] at hsorted hclosed hevents
  rw [hevents, Suite.replayWorld, List.foldl_append]
  cases hcheck : S.check with
  | none =>
      -- the body of a parent test runs the program itself
      have hplay := congrArg Prod.snd
        (play_parent hS hcheck ((gradeLab exec reMatch d groups).replayWorld pre newRunner))
      dsimp only at hplay
      have hran := (events_replayWorld post (runBinary exec S.g S.group.binary
        ((gradeLab exec reMatch d groups).replayWorld pre newRunner))).subset
        (List.mem_append_right _ List.mem_cons_self)
      rw [← hplay] at hran
      exact ⟨_, hran⟩
  | some m =>
      obtain ⟨out, hran, -⟩ := (ended_of_split hsorted hclosed hS).2 m hcheck
      exact ⟨out, (events_replayWorld (e.1 :: post) _).subset hran⟩

/-- What a test of a run is given, from the outputs on record when the run is over. -/
theorem credit_eq (args : List Str) (limitInverse : Bool) {events : List Event}
    (hevents : events = ((gradeLab exec reMatch d groups).replayWorld
      ((gradeLab exec reMatch d groups).schedule args limitInverse) newRunner).events)
    (honce : (events.filterMap ranGroup).Nodup) {e : Fin (gradeLab exec reMatch d groups).tests.length × Except Exc Unit}
    (he : e ∈ (gradeLab exec reMatch d groups).replay ((gradeLab exec reMatch d groups).schedule args limitInverse)
      newRunner) (hS : (slots 0 0 groups)[e.1.val]? = some S) :
    (if Suite.earned e.2 then (gradeLab exec reMatch d groups).points e.1 else 0) =
      S.credit reMatch (outputOf events) := by
  have hsorted := @pairwise_schedule exec reMatch d groups args limitInverse
  have hclosed : (gradeLab exec reMatch d groups).parents.Closed
      ((gradeLab exec reMatch d groups).schedule args limitInverse) :=
    (gradeLab exec reMatch d groups).parents.closed_visits
  obtain ⟨pre, post, horder, houtcome⟩ := Suite.mem_replay _ he
  rw [horder] at hsorted hclosed hevents
  obtain ⟨hparent, hchild⟩ := ended_of_split hsorted hclosed hS
  rw [points_eq hS, houtcome, Slot.points, Slot.credit]
  cases hcheck : S.check with
  | none =>
      rw [hparent hcheck]
      rfl
  | some m =>
      obtain ⟨out, hran, hends⟩ := hchild m hcheck
      have hmem : .ran S.g S.group.binary out ∈ events := by
        rw [hevents, Suite.replayWorld, List.foldl_append]
        exact (events_replayWorld (e.1 :: post) _).subset hran
      rw [hends, outputOf_eq honce hmem]
      dsimp only
      by_cases hpasses : Passes reMatch out m.regexps m.no
      · rw [if_pos hpasses, (assertLinesMatch_eq_ok_iff reMatch d out m.regexps m.no).mpr hpasses]
        rfl
      · rw [if_neg hpasses]
        rcases assertLinesMatch_cases reMatch d out m.regexps m.no with hok | ⟨msg, hne, hraise⟩
        · exact absurd ((assertLinesMatch_eq_ok_iff reMatch d out m.regexps m.no).mp hok) hpasses
        · rw [hraise, Suite.earned, List.isEmpty_eq_false_iff.mpr hne]
          rfl

/-- Without filters all tests are run. -/
theorem slotsAt_perm {log : List (Fin (gradeLab exec reMatch d groups).tests.length × Except Exc Unit)}
    (hnodup : (log.map Prod.fst).Nodup) (hall : ∀ i, i ∈ log.map Prod.fst) :
    (slotsAt groups (log.map fun e => e.1.val)).Perm (slots 0 0 groups) := by
  have hperm : (log.map Prod.fst).Perm (List.finRange _) :=
    (List.perm_ext_iff_of_nodup hnodup (List.nodup_finRange _)).mpr fun i =>
      iff_of_true (hall i) (List.mem_finRange i)
  have hvals := hperm.map Fin.val
  rw [List.map_map, List.map_coe_finRange_eq_range] at hvals
  have hrange : ((List.range (gradeLab exec reMatch d groups).tests.length).filterMap fun i => (slots 0 0 groups)[i]?) =
      slots 0 0 groups := by
    rw [show (gradeLab exec reMatch d groups).tests.length = (slots 0 0 groups).length from List.length_map _]
    exact filterMap_range _
  exact (hvals.filterMap _).trans (.of_eq hrange)

end Run

/-- **The grade.** Whatever groups are registered, whichever tests are selected and whatever the programs print: the
run ends after the selected tests and their parents, each run once. The program of a group is run at most once, that of
each test of the run is run, and `output` is what it prints. The possible points are those of the tests that were run;
the points given are those of the parent tests and of the checks that the output of their own program passes; and the
script exits with 1 exactly if points are missing. -/
theorem gradeLab_grade (exec : List Event → Str → Str) (reMatch : Str → Str → Bool) (d : Display) (groups : List Group)
    (args : List Str) (limitInverse : Bool) :
    ∃ st, (gradeLab exec reMatch d groups).runTests args limitInverse newRunner =
        .ok (st, if st.total < st.possible then 1 else 0) ∧
      (st.log.map Prod.fst).Nodup ∧
      (∀ i, i ∈ st.log.map Prod.fst ↔ ∃ j, (gradeLab exec reMatch d groups).shouldRun (args.map lower) limitInverse j =
        true ∧ i ∈ (gradeLab exec reMatch d groups).parents.chain j) ∧
      (st.world.events.filterMap ranGroup).Nodup ∧
      ∃ output, (∀ before g b out after, st.world.events = before ++ .ran g b out :: after →
          out = exec before b ∧ out = output g) ∧
        (∀ S ∈ slotsAt groups (st.log.map fun e => e.1.val),
          .ran S.g S.group.binary (output S.g) ∈ st.world.events) ∧
        st.possible = ((slotsAt groups (st.log.map fun e => e.1.val)).map Slot.points).sum ∧
        st.total = ((slotsAt groups (st.log.map fun e => e.1.val)).map (Slot.credit reMatch output)).sum ∧
        (args = [] → st.possible = ((slots 0 0 groups).map Slot.points).sum ∧
          st.total = ((slots 0 0 groups).map (Slot.credit reMatch output)).sum) := by
  obtain ⟨hsound, hkept⟩ := @replay_schedule exec reMatch d groups args limitInverse
  obtain ⟨st, hrun, hworld, hlog, hpossible, htotal⟩ :=
    (gradeLab exec reMatch d groups).runTests_spec args limitInverse newRunner fun e he => (hsound e he).asserts
  have hfst : st.log.map Prod.fst = (gradeLab exec reMatch d groups).schedule args limitInverse := by
    rw [hlog, Suite.map_fst_replay]
  have hnodup : (st.log.map Prod.fst).Nodup := by
    rw [hfst]
    exact (gradeLab exec reMatch d groups).parents.nodup_visits
  have hmem : ∀ i, i ∈ st.log.map Prod.fst ↔ ∃ j, (gradeLab exec reMatch d groups).shouldRun (args.map lower)
      limitInverse j = true ∧ i ∈ (gradeLab exec reMatch d groups).parents.chain j := by
    intro i
    rw [hfst, Suite.mem_schedule]
  have honce : (st.world.events.filterMap ranGroup).Nodup := by
    rw [hworld]
    exact hkept.once
  have hpossible' : st.possible = ((slotsAt groups (st.log.map fun e => e.1.val)).map Slot.points).sum := by
    rw [hpossible]
    exact pointsOf_eq_sum fun e _ S hS => by rw [if_pos rfl, points_eq hS]
  have htotal' : st.total =
      ((slotsAt groups (st.log.map fun e => e.1.val)).map (Slot.credit reMatch (outputOf st.world.events))).sum := by
    rw [htotal]
    apply pointsOf_eq_sum
    intro e he S hS
    rw [hlog] at he
    exact credit_eq args limitInverse (by rw [hworld]) honce he hS
  refine ⟨st, hrun, hnodup, hmem, honce, outputOf st.world.events, ?_, fun S hS => ?_, hpossible', htotal',
    fun hargs => ?_⟩
  · intro before g b out after heq
    have hgenuine : Genuine exec st.world.events := by
      rw [hworld]
      refine Genuine.replayWorld _ fun before g b out after h => ?_
      exact absurd h.symm (List.append_ne_nil_of_right_ne_nil _ (List.cons_ne_nil _ _))
    have hran : .ran g b out ∈ st.world.events := by
      rw [heq]
      exact List.mem_append_right _ List.mem_cons_self
    exact ⟨hgenuine before g b out after heq, (outputOf_eq honce hran).symm⟩
  · obtain ⟨j, hj, hslot⟩ := List.mem_filterMap.mp hS
    obtain ⟨e, he, rfl⟩ := List.mem_map.mp hj
    rw [hlog] at he
    obtain ⟨out, hran⟩ := ran_of_mem_replay args limitInverse (congrArg Runner.events hworld) he hslot
    rwa [outputOf_eq honce hran]
  · subst hargs
    have hperm := slotsAt_perm hnodup fun i =>
      (hmem i).mpr ⟨i, rfl, (gradeLab exec reMatch d groups).parents.mem_chain_self i⟩
    rw [hpossible', htotal']
    exact ⟨(hperm.map _).sum_eq, (hperm.map _).sum_eq⟩

/-! ### The groups of the script -/

def matchtest (name : String) (points : Nat) (regexp : String) (named : name.toList ≠ [] := by decide +kernel) :
    MatchTest :=
  ⟨name.toList, points, [regexp.toList], [], named⟩

/-- A parent test of no points that runs `build/part<n>`. -/
def part (n title : String) (children : List MatchTest) (named : title.toList ≠ [] := by decide +kernel) : Group where
  points := 0
  title := title.toList
  funcName := ("test_part" ++ n).toList
  binary := ("build/part" ++ n).toList
  children := children
  named := fun h => absurd h named

def labGroups : List Group :=
  [part "1" "basic [part1.c]"
      [matchtest "set_to_five" 2 "part1: set_to_five OK", matchtest "array_sum" 3 "part1: array_sum OK"],
    part "2" "bubble sort [part2.c]"
      [matchtest "swap" 5 "part2: swap OK", matchtest "bubble_sort" 5 "part2: bubble_sort OK"],
    part "3" "prime sieves [part3.c]"
      [matchtest "initialize_array" 5 "part3: initialize_array OK",
        matchtest "mark_multiples" 5 "part3: mark_multiples OK",
        matchtest "prime_number_sieves" 5 "part3: prime_number_sieves OK",
        matchtest "find_smallest_divisor" 5 "part3: find_smallest_divisor OK"],
    part "4" "point structure [part4.c]"
      [matchtest "set_point" 5 "part4: set_point OK", matchtest "point_dist" 5 "part4: point_dist OK"],
    part "5" "linked list [part5.c]"
      [matchtest "list_insert" 5 "part5: list_insert OK", matchtest "list_end" 2 "part5: list_end OK",
        matchtest "list_size" 3 "part5: list_size OK", matchtest "list_find" 5 "part5: list_find OK",
        matchtest "list_remove" 5 "part5: list_remove OK"],
    part "6" "bitwise operators [part6.c]"
      [matchtest "get_exponent_field" 5 "part6: get_exponent_field OK",
        matchtest "clear_msb" 5 "part6: clear_msb OK", matchtest "bit_at_index" 5 "part6: bit_at_index OK"],
    part "7" "binary tree [part7.c]"
      [matchtest "preorder_traveral" 5 "part7: preorder_traversal OK",
        matchtest "inorder_traversal" 3 "part7: inorder_traversal OK",
        matchtest "inorder_traversal_with_dup" 2 "part7: inorder_traversal with duplicates OK"],
    part "8" "split string [part8.c]"
      [matchtest "easy_string_split" 5 "part8: easy_string_split OK",
        matchtest "harder_string_split" 5 "part8: harder_string_split OK"]]

example : ((slots 0 0 labGroups).map Slot.points).sum = 100 := by decide +kernel

end CsoLabs.Grade
