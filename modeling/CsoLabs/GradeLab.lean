import CsoLabs.GradeMatch
import CsoLabs.GradeScore

/-! The grading script `grade-lab`. One `Runner` is shared by all tests: the body of a parent test runs a program and
keeps its output there, and the bodies of the tests below it look for patterns in the output that is kept.

What a program prints is arbitrary, and may depend on all that was done before it was run. The record of the programs
run and of the outputs looked at is not in the source. -/

namespace CsoLabs.Grade
open PyLang CLang

/-- A program was run for a group of tests, or a test of the group looked at the output kept. -/
inductive Event where
  | ran (group : Nat) (binary out : Str)
  | judged (group : Nat) (out : Option Str)
  deriving DecidableEq, Repr

/-- The `Runner`, with the files that its callbacks write and the record. -/
structure Runner where
  procOutput : Option Str
  files : List (Str × Str)
  events : List Event
  deriving DecidableEq, Repr

/-- The arguments of `matchtest` after the parent. The name must not be empty, as `do_test` gives no title. -/
structure MatchTest where
  name : Str
  points : Nat
  regexps : List Str
  no : List Str
  named : name ≠ []

/-- A parent test, the program it runs, and the tests below it. -/
structure Group where
  points : Nat
  title : Str
  funcName : Str
  binary : Str
  children : List MatchTest
  named : title = [] → "test_".toList <+: funcName

variable (exec : List Event → Str → Str) (reMatch : Str → Str → Bool) (d : Display)

/-- `Runner()` -/
def newRunner : Runner := { procOutput := none, files := [], events := [] }

/-- `Runner.run_test`, in the body of the parent test of group `g`. -/
def runBinary (g : Nat) (binary : Str) (r : Runner) : Runner :=
  { r with
    procOutput := some (exec r.events binary)
    events := r.events ++ [.ran g binary (exec r.events binary)] }

/-- The callback that keeps the output of a failed test in a file. -/
def saveOnFinish (filename : Str) (fail : Option Str) (r : Runner) : Runner :=
  if truthy fail then { r with files := (filename, r.procOutput.getD []) :: r.files.filter fun f => f.1 ≠ filename }
  else if r.files.any fun f => f.1 = filename then { r with files := r.files.filter fun f => f.1 ≠ filename }
  else r

/-- The name of the file for a test with a parent. -/
def outFile (parentFuncName title : Str) : Str :=
  replace parentFuncName "test_".toList [] ++ ".".toList ++ strip title ++ ".out".toList

/-- `Runner.match`, in a test of group `g`. -/
def matchOutput (g : Nat) (filename : Str) (regexps no : List Str) (current : Option Nat) (r : Runner) :
    Finish Runner :=
  match current with
  | none => { outcome := .error (.runtimeError "No test is running".toList), onFinish := [], world := r }
  | some _ =>
      let r' := { r with events := r.events ++ [.judged g r.procOutput] }
      { outcome :=
          match r.procOutput with
          | none => .error .attributeError
          | some out => assertLinesMatch reMatch d out regexps no
        onFinish := [saveOnFinish filename]
        world := r' }

/-- A registered test: the number of its group, the position of the parent test of the group, and the arguments of
`matchtest` if it is not that test itself. -/
structure Slot where
  g : Nat
  head : Nat
  group : Group
  check : Option MatchTest

/-- The parent test of a group and the tests below it. -/
def block (g off : Nat) (G : Group) : List Slot :=
  { g := g, head := off, group := G, check := none } ::
    G.children.map fun m => { g := g, head := off, group := G, check := some m }

/-- The tests of a list of groups in the order of their registration, from group `g` at position `off` on. -/
def slots : Nat → Nat → List Group → List Slot
  | _, _, [] => []
  | g, off, G :: groups => block g off G ++ slots (g + 1) (off + (block g off G).length) groups

def Slot.toTest (S : Slot) : Test Runner :=
  match S.check with
  | none =>
      { points := S.group.points, title := S.group.title, funcName := S.group.funcName
        fn := fun _ r => { outcome := .ok (), onFinish := [], world := runBinary exec S.g S.group.binary r } }
  | some m =>
      { points := m.points, title := m.name, funcName := "do_test".toList
        fn := matchOutput reMatch d S.g (outFile S.group.funcName ("  ".toList ++ m.name)) m.regexps m.no }

/-! ### The layout -/

/-- Each slot knows its group. -/
theorem group_of_mem_slots {g off : Nat} {groups : List Group} {S : Slot} (hS : S ∈ slots g off groups) :
    g ≤ S.g ∧ groups[S.g - g]? = some S.group := by
  induction groups generalizing g off with
  | nil => cases hS
  | cons G groups ih =>
      rw [slots, List.mem_append, block, List.mem_cons, List.mem_map, or_assoc] at hS
      rcases hS with rfl | ⟨m, -, rfl⟩ | hS
      · exact ⟨le_rfl, by rw [Nat.sub_self]; rfl⟩
      · exact ⟨le_rfl, by rw [Nat.sub_self]; rfl⟩
      · obtain ⟨hle, hgroup⟩ := ih hS
        have hpos : S.g - g = S.g - (g + 1) + 1 := by omega
        exact ⟨by omega, by rw [hpos, List.getElem?_cons_succ, hgroup]⟩

theorem block_getElem? {g off : Nat} {G : Group} {j : Nat} {S : Slot} (hS : (block g off G)[j]? = some S) :
    S.g = g ∧ S.head = off ∧ (S.check = none ↔ j = 0) := by
  cases j with
  | zero =>
      cases hS
      exact ⟨rfl, rfl, iff_of_true rfl rfl⟩
  | succ j =>
      rw [block, List.getElem?_cons_succ, List.getElem?_map, Option.map_eq_some_iff] at hS
      obtain ⟨m, -, rfl⟩ := hS
      exact ⟨rfl, rfl, iff_of_false (Option.some_ne_none m) (Nat.succ_ne_zero j)⟩

/-- The numbers of the groups grow from one parent test to the next. -/
theorem pairwise_slots (g off : Nat) (groups : List Group) :
    (slots g off groups).Pairwise fun S T => T.check = none → S.g < T.g := by
  induction groups generalizing g off with
  | nil => exact List.Pairwise.nil
  | cons G groups ih =>
      rw [slots]
      refine List.pairwise_append.mpr ⟨?_, ih (g + 1) _, ?_⟩
      · refine List.pairwise_cons.mpr ⟨?_, ?_⟩
        · intro T hT hcheck
          obtain ⟨m, -, rfl⟩ := List.mem_map.mp hT
          cases hcheck
        · refine List.pairwise_map.mpr (List.pairwise_of_forall fun m m' hcheck => ?_)
          cases hcheck
      · intro S hS T hT _
        obtain ⟨j, hj⟩ := List.mem_iff_getElem?.mp hS
        have := (group_of_mem_slots hT).1
        have := (block_getElem? hj).1
        omega

/-- What is known of the slot `S` at position `off + j`: where its group starts, and that all slots between belong to
the group. -/
structure Placed (L : List Slot) (off j : Nat) (S : Slot) : Prop where
  off_le : off ≤ S.head
  head_le : S.head ≤ off + j
  check_iff : S.check = none ↔ S.head = off + j
  same : ∀ i T, L[i]? = some T → S.head ≤ off + i → i ≤ j → T.g = S.g ∧ T.head = S.head

theorem placed_slots {g off : Nat} {groups : List Group} {j : Nat} {S : Slot}
    (hS : (slots g off groups)[j]? = some S) : Placed (slots g off groups) off j S := by
  induction groups generalizing g off j with
  | nil => cases hS
  | cons G groups ih =>
      rw [slots] at hS ⊢
      by_cases hj : j < (block g off G).length
      · rw [List.getElem?_append_left hj] at hS
        obtain ⟨hg, hhead, hcheck⟩ := block_getElem? hS
        refine ⟨hhead.ge, by omega, by rw [hcheck]; omega, ?_⟩
        intro i T hT _ hij
        rw [List.getElem?_append_left (lt_of_le_of_lt hij hj)] at hT
        obtain ⟨hg', hhead', -⟩ := block_getElem? hT
        exact ⟨hg'.trans hg.symm, hhead'.trans hhead.symm⟩
      · rw [List.getElem?_append_right (not_lt.mp hj)] at hS
        have hplaced := ih hS
        have hoff := hplaced.off_le
        have hhead := hplaced.head_le
        refine ⟨by omega, by omega, by rw [hplaced.check_iff]; omega, ?_⟩
        intro i T hT hi hij
        rw [List.getElem?_append_right (by omega)] at hT
        exact hplaced.same _ T hT (by omega) (by omega)

/-! ### The suite -/

/-- The position of the parent of a test. -/
def parentOf (groups : List Group) (i : Nat) : Option Nat :=
  match (slots 0 0 groups)[i]? with
  | none => none
  | some S => if S.check.isSome then some S.head else none

theorem parentOf_eq_some {groups : List Group} {i p : Nat} {S : Slot} (hS : (slots 0 0 groups)[i]? = some S) :
    parentOf groups i = some p ↔ S.head = p ∧ p < i := by
  have hplaced := placed_slots hS
  have hle := hplaced.head_le
  rw [parentOf, hS]
  dsimp only
  split_ifs with hcheck
  · have hne : S.head ≠ 0 + i := fun h => by
      rw [hplaced.check_iff.mpr h] at hcheck
      cases hcheck
    rw [Option.some_inj]
    omega
  · have heq := hplaced.check_iff.mp (Option.not_isSome_iff_eq_none.mp hcheck)
    refine iff_of_false (fun h => by cases h) ?_
    omega

theorem parentOf_lt {groups : List Group} {i p : Nat} (h : parentOf groups i = some p) : p < i := by
  cases hS : (slots 0 0 groups)[i]? with
  | none =>
      rw [parentOf, hS] at h
      cases h
  | some S => exact ((parentOf_eq_some hS).mp h).2

/-- The tests of the groups, as `grade-lab` registers them. -/
def gradeLab (groups : List Group) : Suite Runner where
  tests := (slots 0 0 groups).map fun S => S.toTest exec reMatch d
  parents := Forest.ofNat _ (parentOf groups) parentOf_lt
  named := by
    intro t ht htitle
    obtain ⟨S, -, rfl⟩ := List.mem_map.mp ht
    unfold Slot.toTest at htitle ⊢
    cases hcheck : S.check with
    | none =>
        rw [hcheck] at htitle
        exact S.group.named htitle
    | some m =>
        rw [hcheck] at htitle
        exact absurd htitle m.named

section Suite
variable {exec : List Event → Str → Str} {reMatch : Str → Str → Bool} {d : Display} {groups : List Group}
  {i p : Fin (gradeLab exec reMatch d groups).tests.length} {S : Slot} {r : Runner}

theorem exists_slot (i : Fin (gradeLab exec reMatch d groups).tests.length) :
    ∃ S, (slots 0 0 groups)[i.val]? = some S := by
  have hi : i.val < (slots 0 0 groups).length := i.isLt.trans_eq (List.length_map _)
  exact ⟨_, List.getElem?_eq_getElem hi⟩

theorem parent_eq_some (hS : (slots 0 0 groups)[i.val]? = some S) :
    (gradeLab exec reMatch d groups).parents.parent i = some p ↔ S.head = p.val ∧ p < i := by
  rw [Fin.lt_def, ← parentOf_eq_some hS]
  exact Forest.ofNat_parent_eq_some parentOf_lt

/-- A group is a block. -/
theorem blocks_gradeLab : (gradeLab exec reMatch d groups).parents.Blocks := by
  constructor
  · intro i p hp
    obtain ⟨S, hS⟩ := exists_slot i
    obtain ⟨T, hT⟩ := exists_slot p
    obtain ⟨hhead, hlt⟩ := (parent_eq_some hS).mp hp
    obtain ⟨-, hTS⟩ := (placed_slots hS).same p.val T hT (by omega) (by omega)
    cases hq : (gradeLab exec reMatch d groups).parents.parent p with
    | none => rfl
    | some q =>
        obtain ⟨hhead', hlt'⟩ := (parent_eq_some hT).mp hq
        omega
  · intro i p j hp hpj hji
    obtain ⟨S, hS⟩ := exists_slot i
    obtain ⟨T, hT⟩ := exists_slot j
    obtain ⟨hhead, hlt⟩ := (parent_eq_some hS).mp hp
    obtain ⟨-, hTS⟩ := (placed_slots hS).same j.val T hT (by omega) (by omega)
    exact (parent_eq_some hT).mpr ⟨hTS.trans hhead, hpj⟩

/-! ### The bodies -/

theorem saveOnFinish_frame (filename : Str) (fail : Option Str) (r : Runner) :
    (saveOnFinish filename fail r).procOutput = r.procOutput ∧ (saveOnFinish filename fail r).events = r.events := by
  unfold saveOnFinish
  split_ifs
  · exact ⟨rfl, rfl⟩
  · exact ⟨rfl, rfl⟩
  · exact ⟨rfl, rfl⟩

theorem get_tests (hS : (slots 0 0 groups)[i.val]? = some S) :
    (gradeLab exec reMatch d groups).tests.get i = S.toTest exec reMatch d := by
  apply Option.some_inj.mp
  rw [List.get_eq_getElem, ← List.getElem?_eq_getElem i.isLt]
  unfold gradeLab
  rw [List.getElem?_map, hS, Option.map_some]

/-- The body of a parent test runs its program. -/
theorem play_parent (hS : (slots 0 0 groups)[i.val]? = some S) (hcheck : S.check = none) (r : Runner) :
    (gradeLab exec reMatch d groups).play i r = (.ok (), runBinary exec S.g S.group.binary r) := by
  rw [Suite.play, get_tests hS, Slot.toTest, hcheck]
  rfl

/-- The body of a test below it looks at the output that is kept, and leaves it. -/
theorem play_child (hS : (slots 0 0 groups)[i.val]? = some S) (hcheck : S.check ≠ none) {out : Str}
    (hout : r.procOutput = some out) :
    (((gradeLab exec reMatch d groups).play i r).1 = .ok () ∨
        ∃ msg, msg ≠ [] ∧ ((gradeLab exec reMatch d groups).play i r).1 = .error (.assertionError msg)) ∧
      ((gradeLab exec reMatch d groups).play i r).2.procOutput = some out ∧
      ((gradeLab exec reMatch d groups).play i r).2.events = r.events ++ [.judged S.g (some out)] := by
  obtain ⟨m, hm⟩ := Option.ne_none_iff_exists'.mp hcheck
  rw [Suite.play, get_tests hS, Slot.toTest, hm]
  dsimp only [matchOutput]
  rw [hout]
  refine ⟨assertLinesMatch_cases reMatch d out m.regexps m.no, ?_, ?_⟩
  · exact (saveOnFinish_frame _ _ _).1
  · exact (saveOnFinish_frame _ _ _).2

end Suite

/-! ### The record -/

/-- The group of an event at which a program was run. -/
def ranGroup : Event → Option Nat
  | .ran g _ _ => some g
  | .judged _ _ => none

/-- The output looked at is that of the group's own program, which has been run before. -/
def OwnOutput (groups : List Group) (before : List Event) (g : Nat) (o : Option Str) : Prop :=
  ∃ G out, groups[g]? = some G ∧ o = some out ∧ .ran g G.binary out ∈ before

/-- All outputs looked at are those of the right programs. -/
def Judged (groups : List Group) (events : List Event) : Prop :=
  ∀ before g o after, events = before ++ .judged g o :: after → OwnOutput groups before g o

theorem judged_nil (groups : List Group) : Judged groups [] := by
  intro before g o after h
  exact absurd h.symm (List.append_ne_nil_of_right_ne_nil _ (List.cons_ne_nil _ _))

theorem Judged.append {groups : List Group} {events : List Event} (h : Judged groups events) {e : Event}
    (he : ∀ g o, e = .judged g o → OwnOutput groups events g o) : Judged groups (events ++ [e]) := by
  intro before g o after heq
  rcases List.eq_nil_or_concat after with rfl | ⟨after', e', rfl⟩
  · obtain ⟨rfl, rfl⟩ := List.append_singleton_inj.mp heq
    exact he g o rfl
  · rw [List.concat_eq_append, ← List.cons_append, ← List.append_assoc] at heq
    exact h before g o after' (List.append_singleton_inj.mp heq).1

section Run
variable {exec : List Event → Str → Str} {reMatch : Str → Str → Bool} {d : Display} {groups : List Group}
  {i : Fin (gradeLab exec reMatch d groups).tests.length} {S : Slot} {r : Runner}
  {pre : List (Fin (gradeLab exec reMatch d groups).tests.length)}

/-- What holds when the tests `pre` have been run: in particular, the output kept is the one of the group of the last
of them. -/
structure Kept (pre : List (Fin (gradeLab exec reMatch d groups).tests.length)) (r : Runner) : Prop where
  judged : Judged groups r.events
  once : (r.events.filterMap ranGroup).Nodup
  ran_mem : ∀ g ∈ r.events.filterMap ranGroup, ∃ j ∈ pre, ∃ S, (slots 0 0 groups)[j.val]? = some S ∧ S.g = g
  last : ∀ pre' j S, pre = pre' ++ [j] → (slots 0 0 groups)[j.val]? = some S →
    ∃ out, r.procOutput = some out ∧ .ran S.g S.group.binary out ∈ r.events

theorem kept_newRunner :
    Kept ([] : List (Fin (gradeLab exec reMatch d groups).tests.length)) newRunner := by
  refine ⟨judged_nil groups, List.nodup_nil, ?_, ?_⟩
  · intro g hg
    cases hg
  · intro pre' j S h
    exact absurd h.symm (List.append_ne_nil_of_right_ne_nil _ (List.cons_ne_nil _ _))

theorem Kept.parent (h : Kept pre r) (hpre : ∀ j ∈ pre, j < i) (hS : (slots 0 0 groups)[i.val]? = some S)
    (hcheck : S.check = none) : Kept (pre ++ [i]) (runBinary exec S.g S.group.binary r) := by
  have hgroups : (runBinary exec S.g S.group.binary r).events.filterMap ranGroup =
      r.events.filterMap ranGroup ++ [S.g] := List.filterMap_append
  refine ⟨h.judged.append fun g o he => (by cases he), ?_, ?_, ?_⟩
  · rw [hgroups]
    refine List.Nodup.append h.once (List.nodup_singleton _) ?_
    intro g hg hg'
    obtain ⟨j, hj, T, hT, rfl⟩ := h.ran_mem g hg
    -- the earlier program is one of an earlier group
    have hlt : T.g < S.g := by
      obtain ⟨hjlt, hjeq⟩ := List.getElem?_eq_some_iff.mp hT
      obtain ⟨hilt, hieq⟩ := List.getElem?_eq_some_iff.mp hS
      have := List.pairwise_iff_getElem.mp (pairwise_slots 0 0 groups) j.val i.val hjlt hilt (hpre j hj)
      rw [hjeq, hieq] at this
      exact this hcheck
    exact absurd (List.mem_singleton.mp hg') hlt.ne
  · intro g hg
    rw [hgroups] at hg
    rcases List.mem_append.mp hg with hg | hg
    · obtain ⟨j, hj, hslot⟩ := h.ran_mem g hg
      exact ⟨j, List.mem_append_left _ hj, hslot⟩
    · exact ⟨i, List.mem_append_right _ (List.mem_singleton_self i), S, hS, (List.mem_singleton.mp hg).symm⟩
  · intro pre' j T heq hT
    obtain ⟨-, rfl⟩ := List.append_singleton_inj.mp heq
    rw [hS] at hT
    cases hT
    exact ⟨_, rfl, List.mem_append_right _ (List.mem_singleton_self _)⟩

/-- Between a parent test and a test below it only tests of the same group are run. -/
theorem Kept.own (h : Kept pre r) (hsorted : pre.Pairwise (· < ·)) (hpre : ∀ j ∈ pre, j < i)
    (hparent : ∀ p, (gradeLab exec reMatch d groups).parents.parent i = some p → p ∈ pre)
    (hS : (slots 0 0 groups)[i.val]? = some S) (hcheck : S.check ≠ none) :
    ∃ out, r.procOutput = some out ∧ .ran S.g S.group.binary out ∈ r.events := by
  have hplaced := placed_slots hS
  have hhead := hplaced.head_le
  have hne := mt hplaced.check_iff.mpr hcheck
  have hlt : S.head < i.val := by omega
  have hmem : ⟨S.head, hlt.trans i.isLt⟩ ∈ pre := hparent _ ((parent_eq_some hS).mpr ⟨rfl, hlt⟩)
  rcases List.eq_nil_or_concat pre with rfl | ⟨pre', j, rfl⟩
  · cases hmem
  · rw [List.concat_eq_append] at *
    obtain ⟨T, hT⟩ := exists_slot j
    have hij : j < i := hpre j (List.mem_append_right _ (List.mem_singleton_self j))
    have hheadj : S.head ≤ j.val := by
      rcases List.mem_append.mp hmem with hmem | hmem
      · have := (List.pairwise_append.mp hsorted).2.2 _ hmem j (List.mem_singleton_self j)
        exact this.le
      · exact (congrArg Fin.val (List.mem_singleton.mp hmem)).le
    obtain ⟨hg, -⟩ := hplaced.same j.val T hT (by omega) (by omega)
    have hgroup : T.group = S.group := by
      have hTg := (group_of_mem_slots (List.mem_of_getElem? hT)).2
      have hSg := (group_of_mem_slots (List.mem_of_getElem? hS)).2
      rw [hg, hSg] at hTg
      exact (Option.some.inj hTg).symm
    obtain ⟨out, hout, hran⟩ := h.last pre' j T rfl hT
    exact ⟨out, hout, by rwa [hg, hgroup] at hran⟩

theorem Kept.child (h : Kept pre r) (hS : (slots 0 0 groups)[i.val]? = some S) {out : Str}
    (hran : .ran S.g S.group.binary out ∈ r.events) {r' : Runner} (hout : r'.procOutput = some out)
    (hevents : r'.events = r.events ++ [.judged S.g (some out)]) : Kept (pre ++ [i]) r' := by
  have hgroups : r'.events.filterMap ranGroup = r.events.filterMap ranGroup := by
    rw [hevents, List.filterMap_append]
    exact List.append_nil _
  refine ⟨?_, ?_, ?_, ?_⟩
  · rw [hevents]
    refine h.judged.append fun g o he => ?_
    cases he
    exact ⟨S.group, out, (group_of_mem_slots (List.mem_of_getElem? hS)).2, rfl, hran⟩
  · rw [hgroups]
    exact h.once
  · intro g hg
    rw [hgroups] at hg
    obtain ⟨j, hj, hslot⟩ := h.ran_mem g hg
    exact ⟨j, List.mem_append_left _ hj, hslot⟩
  · intro pre' j T heq hT
    obtain ⟨-, rfl⟩ := List.append_singleton_inj.mp heq
    rw [hS] at hT
    cases hT
    exact ⟨out, hout, by rw [hevents]; exact List.mem_append_left _ hran⟩

/-- A body that returns, or raises an `AssertionError` with a message. -/
def Sound (o : Except Exc Unit) : Prop := o = .ok () ∨ ∃ msg, msg ≠ [] ∧ o = .error (.assertionError msg)

/-- One test more. -/
theorem Kept.play (h : Kept pre r) (hsorted : pre.Pairwise (· < ·)) (hpre : ∀ j ∈ pre, j < i)
    (hparent : ∀ p, (gradeLab exec reMatch d groups).parents.parent i = some p → p ∈ pre) :
    Sound ((gradeLab exec reMatch d groups).play i r).1 ∧
      Kept (pre ++ [i]) ((gradeLab exec reMatch d groups).play i r).2 := by
  obtain ⟨S, hS⟩ := exists_slot i
  by_cases hcheck : S.check = none
  · rw [play_parent hS hcheck]
    exact ⟨.inl rfl, h.parent hpre hS hcheck⟩
  · obtain ⟨out, hout, hran⟩ := h.own hsorted hpre hparent hS hcheck
    obtain ⟨hends, hout', hevents⟩ := play_child hS hcheck hout
    exact ⟨hends, h.child hS hran hout' hevents⟩

/-- All tests that are to come, if their parents are there. -/
theorem Kept.replay (rest : List (Fin (gradeLab exec reMatch d groups).tests.length)) (h : Kept pre r)
    (hsorted : (pre ++ rest).Pairwise (· < ·))
    (hclosed : (gradeLab exec reMatch d groups).parents.Closed (pre ++ rest)) :
    (∀ e ∈ (gradeLab exec reMatch d groups).replay rest r, Sound e.2) ∧
      Kept (pre ++ rest) ((gradeLab exec reMatch d groups).replayWorld rest r) := by
  induction rest generalizing pre r with
  | nil =>
      rw [List.append_nil]
      refine ⟨?_, h⟩
      intro e he
      cases he
  | cons i rest ih =>
      obtain ⟨hpre, hrest, hlt⟩ := List.pairwise_append.mp hsorted
      have hbefore : ∀ j ∈ pre, j < i := fun j hj => hlt j hj i List.mem_cons_self
      have hparent : ∀ p, (gradeLab exec reMatch d groups).parents.parent i = some p → p ∈ pre := by
        intro p hp
        have hpi := (gradeLab exec reMatch d groups).parents.parent_lt hp
        rcases List.mem_append.mp (hclosed i (List.mem_append_right _ List.mem_cons_self) p hp) with hmem | hmem
        · exact hmem
        · rcases List.mem_cons.mp hmem with rfl | hmem
          · exact absurd hpi (lt_irrefl p)
          · exact absurd hpi (not_lt.mpr ((List.pairwise_cons.mp hrest).1 p hmem).le)
      obtain ⟨hsound, hkept⟩ := h.play hpre hbefore hparent
      rw [List.append_cons] at hsorted hclosed ⊢
      obtain ⟨hall, hkept'⟩ := ih hkept hsorted hclosed
      rw [Suite.replay, List.forall_mem_cons]
      exact ⟨⟨hsound, hall⟩, hkept'⟩

/-- The tests that a run executes, with the parents before their children and no other group in between. -/
theorem replay_schedule (args : List Str) (limitInverse : Bool) :
    (∀ e ∈ (gradeLab exec reMatch d groups).replay ((gradeLab exec reMatch d groups).schedule args limitInverse)
        newRunner, Sound e.2) ∧
      Kept ((gradeLab exec reMatch d groups).schedule args limitInverse)
        ((gradeLab exec reMatch d groups).replayWorld ((gradeLab exec reMatch d groups).schedule args limitInverse)
          newRunner) := by
  have hselected : ((gradeLab exec reMatch d groups).selected args limitInverse).Pairwise (· < ·) :=
    (List.pairwise_lt_finRange _).filter _
  have hsorted := (blocks_gradeLab.pairwise_visits (fun j hj => absurd hj List.not_mem_nil) hselected
    fun i _ j hj => absurd hj List.not_mem_nil).1
  exact kept_newRunner.replay _ hsorted (gradeLab exec reMatch d groups).parents.closed_visits

end Run

theorem Sound.asserts {o : Except Exc Unit} (h : Sound o) : Suite.Asserts o := by
  intro e he
  rcases h with h | ⟨msg, -, h⟩
  · rw [h] at he
    cases he
  · rw [h] at he
    exact ⟨msg, (Except.error.inj he).symm⟩

/-- Whatever groups are registered and whichever tests are selected, the program of a group is run at most once, and
every test looks at the output of the program of its own group, which has been run before. -/
theorem judged_own_output (groups : List Group) (args : List Str) (limitInverse : Bool) :
    ∃ st status, (gradeLab exec reMatch d groups).runTests args limitInverse newRunner = .ok (st, status) ∧
      (st.world.events.filterMap ranGroup).Nodup ∧
      ∀ before g o after, st.world.events = before ++ .judged g o :: after →
        ∃ G out, groups[g]? = some G ∧ o = some out ∧ .ran g G.binary out ∈ before := by
  obtain ⟨hsound, hkept⟩ := @replay_schedule exec reMatch d groups args limitInverse
  obtain ⟨st, hrun, hworld, -⟩ :=
    (gradeLab exec reMatch d groups).runTests_spec args limitInverse newRunner fun e he => (hsound e he).asserts
  refine ⟨st, _, hrun, ?_, ?_⟩
  · rw [hworld]
    exact hkept.once
  · rw [hworld]
    exact hkept.judged

/-- The points of `grade-lab` are given as they should be, since none of its tests fails without a message. -/
theorem gradeLab_scored (groups : List Group) (args : List Str) (limitInverse : Bool) :
    ∃ st status, (gradeLab exec reMatch d groups).runTests args limitInverse newRunner = .ok (st, status) ∧
      (gradeLab exec reMatch d groups).Scored st status := by
  obtain ⟨hsound, -⟩ := @replay_schedule exec reMatch d groups args limitInverse
  obtain ⟨st, hrun, -, hlog, hpossible, htotal⟩ :=
    (gradeLab exec reMatch d groups).runTests_spec args limitInverse newRunner fun e he => (hsound e he).asserts
  refine ⟨st, _, hrun, ((gradeLab exec reMatch d groups).scored_iff st ?_ hpossible htotal).mpr ?_⟩
  · rw [hlog, Suite.map_fst_replay]
    exact (gradeLab exec reMatch d groups).parents.nodup_visits
  · intro e he hsilent
    rw [hlog] at he
    rcases hsound e he with hok | ⟨msg, hne, hraise⟩
    · rw [hok] at hsilent
      cases hsilent
    · rw [hraise] at hsilent
      exact absurd (Exc.assertionError.inj (Except.error.inj hsilent)) hne

end CsoLabs.Grade
