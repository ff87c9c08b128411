import CsoLabs.RwlockTest

/-! What `test_rwl_priority` finds out about a lock, in every interleaving of the master and its ten threads. -/

namespace CsoLabs.Rwlock

variable {grants : Queue → Thread → Prop} {s s' : Test}

/-- How far a thread has come. -/
def Pc.stage : Pc → Nat
  | .absent => 0
  | .started => 1
  | .waiting => 2
  | .locked => 3
  | .asleep => 4
  | .woken => 5
  | .leaving => 6
  | .done => 7

/-- How far the master has come. -/
def Master.phase : Master → Nat
  | .start => 0
  | .awaitReader => 1
  | .spawnWriter => 2
  | .awaitWriter => 3
  | .spawnReaders _ => 4
  | .look => 5
  | .awaitAll => 6
  | .release => 7
  | .awaitPeer => 8
  | .judge _ => 9
  | .dismiss => 10
  | .join _ => 11
  | .passed => 12
  | .fatal _ => 13

theorem Pc.holds_iff {p : Pc} : p.Holds ↔ 3 ≤ p.stage ∧ p.stage ≤ 6 := by
  cases p <;> simp [Pc.Holds, Pc.stage]

/-- What holds of the threads and the variables on any lock. -/
structure Basic (s : Test) : Prop where
  granted_iff : ∀ t, t ∈ s.granted ↔ 3 ≤ (s.pc t).stage
  nodup : s.granted.Nodup
  first : s.granted = [] ∨ s.granted.head? = some .lingerReader
  out : ∀ t, 6 ≤ (s.pc t).stage → s.getout t = true
  asleep : ∀ t, s.pc t = .asleep → s.getout t = false
  readerGetout : s.readerGetout = true → 8 ≤ s.master.phase
  readerGetout' : 8 ≤ s.master.phase → s.master.phase ≤ 12 → s.readerGetout = true
  peersGetout : s.peersGetout = true ↔ s.master.phase = 11 ∨ s.master.phase = 12
  lingerAbsent : s.pc .lingerReader = .absent ↔ s.master.phase = 0
  writerAbsent : s.pc .competingWriter = .absent ↔ s.master.phase ≤ 2
  readerAbsent : ∀ i, s.pc (.competingReader i) = .absent ↔
    s.master.phase ≤ 3 ∨ ∃ k ≤ i.val, s.master = .spawnReaders k
  readerInCs : s.readerInCs = true ↔ 4 ≤ (s.pc .lingerReader).stage
  entered : 2 ≤ s.master.phase → s.readerInCs = true
  who : (s.whoIsInCs = 0 ∧ ∀ t, t ≠ .lingerReader → (s.pc t).stage ≤ 3) ∨
    (s.whoIsInCs = 1 ∧ 4 ≤ (s.pc .competingWriter).stage) ∨
    (s.whoIsInCs = 2 ∧ ∃ i, 4 ≤ (s.pc (.competingReader i)).stage)
  joined : ∀ k, s.master = .join k ∨ (s.master = .passed ∧ k = 10) → ∀ j < k, s.pc (Thread.ofNat j) = .done

theorem Basic.init : Basic .init where
  granted_iff t := by simp [Test.init, Pc.stage]
  nodup := List.nodup_nil
  first := .inl rfl
  out t := by simp [Test.init, Pc.stage]
  asleep t := by simp [Test.init]
  readerGetout := by simp [Test.init]
  readerGetout' := by simp [Test.init, Master.phase]
  peersGetout := by simp [Test.init, Master.phase]
  lingerAbsent := by simp [Test.init, Master.phase]
  writerAbsent := by simp [Test.init, Master.phase]
  readerAbsent := by simp [Test.init, Master.phase]
  readerInCs := by simp [Test.init, Pc.stage]
  entered := by simp [Test.init, Master.phase]
  who := .inl ⟨rfl, fun t _ => by simp [Test.init, Pc.stage]⟩
  joined := by simp [Test.init]

/-- A step of a thread on the one side of all the marks: it has not been let in or had been before, the same with
what it does first, and it leaves only when it may. -/
theorem Basic.move (h : Basic s) {t : Thread} {p : Pc} (hpos : 0 < (s.pc t).stage ∧ 0 < p.stage)
    (hin : 3 ≤ (s.pc t).stage ↔ 3 ≤ p.stage) (hentered : 4 ≤ (s.pc t).stage ↔ 4 ≤ p.stage)
    (hout : 6 ≤ p.stage → s.getout t = true) (hsleep : p = .asleep → s.getout t = false)
    (hdone : s.pc t = .done → p = .done) : Basic (s.setPc t p) where
  granted_iff u := by have := h.granted_iff u; grind [Test.setPc]
  nodup := h.nodup
  first := h.first
  out u := by have := h.out u; cases u <;> grind [Test.setPc, Test.getout]
  asleep u := by have := h.asleep u; cases u <;> grind [Test.setPc, Test.getout]
  readerGetout := h.readerGetout
  readerGetout' := h.readerGetout'
  peersGetout := h.peersGetout
  lingerAbsent := by have := h.lingerAbsent; grind [Test.setPc, Pc.stage]
  writerAbsent := by have := h.writerAbsent; grind [Test.setPc, Pc.stage]
  readerAbsent := by have := h.readerAbsent; grind [Test.setPc, Pc.stage]
  readerInCs := by have := h.readerInCs; grind [Test.setPc]
  entered := h.entered
  who := by have := h.who; grind [Test.setPc]
  joined := by have := h.joined; grind [Test.setPc]

/-- A thread is let in. Before any other, it is the lingering reader. -/
theorem Basic.grant (h : Basic s) {t : Thread} (ht : s.pc t = .waiting) :
    Basic { s.setPc t .locked with granted := s.granted ++ [t] } where
  granted_iff u := by have := h.granted_iff u; grind [Test.setPc, Pc.stage]
  nodup := by have := h.granted_iff t; have := h.nodup; grind [Pc.stage]
  first := by
    rcases h.first with hnil | hhead
    · right
      have hnone : ∀ u, (s.pc u).stage < 3 := fun u => by have := h.granted_iff u; grind
      have := h.readerInCs
      have := h.entered
      have := h.writerAbsent
      have := h.readerAbsent
      cases t <;> grind [Pc.stage]
    · grind
  out u := by have := h.out u; cases u <;> grind [Test.setPc, Test.getout, Pc.stage]
  asleep u := by have := h.asleep u; cases u <;> grind [Test.setPc, Test.getout]
  readerGetout := h.readerGetout
  readerGetout' := h.readerGetout'
  peersGetout := h.peersGetout
  lingerAbsent := by have := h.lingerAbsent; grind [Test.setPc]
  writerAbsent := by have := h.writerAbsent; grind [Test.setPc]
  readerAbsent := by have := h.readerAbsent; grind [Test.setPc]
  readerInCs := by have := h.readerInCs; grind [Test.setPc, Pc.stage]
  entered := h.entered
  who := by have := h.who; grind [Test.setPc, Pc.stage]
  joined := by have := h.joined; grind [Test.setPc]

theorem Basic.enter (h : Basic s) {t : Thread} (ht : s.pc t = .locked) : Basic (s.enter t) where
  granted_iff u := by have := h.granted_iff u; cases t <;> grind [Test.enter, Test.checkGetout, Test.setPc, Pc.stage]
  nodup := by cases t <;> exact h.nodup
  first := by cases t <;> exact h.first
  out u := by
    have := h.out u
    cases t <;> cases u <;> grind [Test.enter, Test.checkGetout, Test.setPc, Test.getout, Pc.stage]
  asleep u := by
    have := h.asleep u
    cases t <;> cases u <;> grind [Test.enter, Test.checkGetout, Test.setPc, Test.getout, Pc.stage]
  readerGetout := by cases t <;> exact h.readerGetout
  readerGetout' := by cases t <;> exact h.readerGetout'
  peersGetout := by cases t <;> exact h.peersGetout
  lingerAbsent := by have := h.lingerAbsent; cases t <;> grind [Test.enter, Test.checkGetout, Test.setPc]
  writerAbsent := by have := h.writerAbsent; cases t <;> grind [Test.enter, Test.checkGetout, Test.setPc]
  readerAbsent := by have := h.readerAbsent; cases t <;> grind [Test.enter, Test.checkGetout, Test.setPc]
  readerInCs := by have := h.readerInCs; cases t <;> grind [Test.enter, Test.checkGetout, Test.setPc, Pc.stage]
  entered := by have := h.entered; cases t <;> grind [Test.enter, Test.checkGetout, Test.setPc]
  who := by have := h.who; cases t <;> grind [Test.enter, Test.checkGetout, Test.setPc, Pc.stage]
  joined := by have := h.joined; cases t <;> grind [Test.enter, Test.checkGetout, Test.setPc]

/-- The master goes on to `m`, and nothing else changes. -/
theorem Basic.advance (h : Basic s) {m : Master} (hpast : 1 ≤ s.master.phase)
    (hphase : (s.master.phase < 12 ∧ m.phase = s.master.phase + 1) ∨
      (5 ≤ s.master.phase ∧ s.master.phase < 10 ∧ m.phase = 13) ∨ ∃ k, s.master = .join k ∧ m = .join (k + 1))
    (hplain : s.master.phase ≠ 2 ∧ s.master.phase ≠ 7 ∧ s.master.phase ≠ 10)
    (hcs : m.phase = 2 → s.readerInCs = true) (hfirst : m.phase = 4 → m = .spawnReaders 0)
    (hspawned : ∀ k, s.master = .spawnReaders k → 8 ≤ k)
    (hjoined : ∀ k, m = .join k ∨ (m = .passed ∧ k = 10) → ∀ j < k, s.pc (Thread.ofNat j) = .done) :
    Basic { s with master := m } where
  granted_iff := h.granted_iff
  nodup := h.nodup
  first := h.first
  out := h.out
  asleep := h.asleep
  readerGetout := by have := h.readerGetout; grind [Master.phase]
  readerGetout' := by have := h.readerGetout'; grind [Master.phase]
  peersGetout := by have := h.peersGetout; grind [Master.phase]
  lingerAbsent := by have := h.lingerAbsent; grind [Master.phase]
  writerAbsent := by have := h.writerAbsent; grind [Master.phase]
  readerAbsent i := by have := h.readerAbsent i; have := i.isLt; grind [Master.phase]
  readerInCs := h.readerInCs
  entered := by have := h.entered; grind [Master.phase]
  who := h.who
  joined := hjoined

theorem ofNat_reader {k : Nat} (hk : k < 8) : Thread.ofNat (k + 2) = .competingReader ⟨k, hk⟩ := by
  rw [Thread.ofNat, if_neg (by omega), if_neg (by omega), Nat.add_sub_cancel]
  exact congrArg _ (Fin.ext (Nat.mod_eq_of_lt hk))

/-- The master creates a thread. -/
theorem Basic.spawn (h : Basic s) {t : Thread} {m : Master} (ht : s.pc t = .absent)
    (hm : (s.master = .start ∧ t = .lingerReader ∧ m = .awaitReader) ∨
      (s.master = .spawnWriter ∧ t = .competingWriter ∧ m = .awaitWriter) ∨
      ∃ i : Fin 8, s.master = .spawnReaders i ∧ t = .competingReader i ∧ m = .spawnReaders (i + 1)) :
    Basic { s.setPc t .started with master := m } where
  granted_iff u := by have := h.granted_iff u; grind [Test.setPc, Pc.stage]
  nodup := h.nodup
  first := h.first
  out u := by have := h.out u; cases u <;> grind [Test.setPc, Test.getout, Pc.stage]
  asleep u := by have := h.asleep u; cases u <;> grind [Test.setPc, Test.getout]
  readerGetout := by have := h.readerGetout; grind [Master.phase, Test.setPc]
  readerGetout' := by have := h.readerGetout'; grind [Master.phase, Test.setPc]
  peersGetout := by have := h.peersGetout; grind [Master.phase, Test.setPc]
  lingerAbsent := by have := h.lingerAbsent; grind [Master.phase, Test.setPc]
  writerAbsent := by have := h.writerAbsent; grind [Master.phase, Test.setPc]
  readerAbsent j := by have := h.readerAbsent j; grind [Master.phase, Test.setPc]
  readerInCs := by have := h.readerInCs; grind [Test.setPc, Pc.stage]
  entered := by have := h.entered; grind [Master.phase, Test.setPc]
  who := by have := h.who; grind [Test.setPc, Pc.stage]
  joined := by grind

theorem Basic.release (h : Basic s) (hm : s.master = .release) :
    Basic { s.broadcastLinger with readerGetout := true, master := .awaitPeer } where
  granted_iff u := by have := h.granted_iff u; grind [Test.broadcastLinger, Pc.stage]
  nodup := h.nodup
  first := h.first
  out u := by have := h.out u; cases u <;> grind [Test.broadcastLinger, Test.getout, Pc.stage]
  asleep u := by have := h.asleep u; cases u <;> grind [Test.broadcastLinger, Test.getout]
  readerGetout := by grind [Master.phase]
  readerGetout' := by grind
  peersGetout := by have := h.peersGetout; grind [Master.phase, Test.broadcastLinger]
  lingerAbsent := by have := h.lingerAbsent; grind [Master.phase, Test.broadcastLinger]
  writerAbsent := by have := h.writerAbsent; grind [Master.phase, Test.broadcastLinger]
  readerAbsent i := by have := h.readerAbsent i; grind [Master.phase, Test.broadcastLinger]
  readerInCs := by have := h.readerInCs; grind [Test.broadcastLinger, Pc.stage]
  entered := by have := h.entered; grind [Master.phase, Test.broadcastLinger]
  who := by have := h.who; grind [Test.broadcastLinger, Pc.stage]
  joined := by grind

theorem Basic.dismiss (h : Basic s) (hm : s.master = .dismiss) :
    Basic { s.broadcastPeers with peersGetout := true, master := .join 0 } where
  granted_iff u := by have := h.granted_iff u; grind [Test.broadcastPeers, Pc.stage]
  nodup := h.nodup
  first := h.first
  out u := by have := h.out u; cases u <;> grind [Test.broadcastPeers, Test.getout, Pc.stage]
  asleep u := by have := h.asleep u; cases u <;> grind [Test.broadcastPeers, Test.getout]
  readerGetout := by grind [Master.phase]
  readerGetout' := by have := h.readerGetout'; grind [Master.phase, Test.broadcastPeers]
  peersGetout := by grind [Master.phase]
  lingerAbsent := by have := h.lingerAbsent; grind [Master.phase, Test.broadcastPeers]
  writerAbsent := by have := h.writerAbsent; grind [Master.phase, Test.broadcastPeers]
  readerAbsent i := by have := h.readerAbsent i; grind [Master.phase, Test.broadcastPeers]
  readerInCs := by have := h.readerInCs; grind [Test.broadcastPeers, Pc.stage]
  entered := by have := h.entered; grind [Master.phase, Test.broadcastPeers]
  who := by have := h.who; grind [Test.broadcastPeers, Pc.stage]
  joined := by grind

/-- The master goes on from `m` to `m'` in a way that only the phases tell. -/
theorem Basic.advance_of_phase (h : Basic s) {m : Master} (hpast : 1 ≤ s.master.phase)
    (hphase : (s.master.phase < 10 ∧ m.phase = s.master.phase + 1) ∨
      (5 ≤ s.master.phase ∧ s.master.phase < 10 ∧ m.phase = 13))
    (hplain : s.master.phase ≠ 2 ∧ s.master.phase ≠ 4 ∧ s.master.phase ≠ 7)
    (hcs : m.phase = 2 → s.readerInCs = true) (hfirst : m.phase = 4 → m = .spawnReaders 0) :
    Basic { s with master := m } :=
  h.advance hpast (by omega) (by omega) hcs hfirst (by grind [Master.phase]) (by grind [Master.phase])

theorem Basic.masterStep (h : Basic s) : Basic s.masterStep := by
  unfold Test.masterStep
  split
  case h_1 hm => exact h.spawn (h.lingerAbsent.mpr (by rw [hm]; rfl)) (.inl ⟨hm, rfl, rfl⟩)
  case h_2 hm =>
    split_ifs with hcs
    · apply h.advance_of_phase <;> grind [Master.phase]
    · exact h
  case h_3 hm =>
    exact h.spawn (h.writerAbsent.mpr (by rw [hm]; exact le_rfl)) (.inr (.inl ⟨hm, rfl, rfl⟩))
  case h_4 hm =>
    split_ifs
    · apply h.advance_of_phase <;> grind [Master.phase]
    · exact h
  case h_5 k hm =>
    split_ifs with hk
    · rw [ofNat_reader hk]
      exact h.spawn ((h.readerAbsent _).mpr (.inr ⟨k, le_rfl, hm⟩)) (.inr (.inr ⟨⟨k, hk⟩, hm, rfl, rfl⟩))
    · apply h.advance <;> grind [Master.phase]
  case h_6 hm =>
    split_ifs
    all_goals apply h.advance_of_phase <;> grind [Master.phase]
  case h_7 hm =>
    split_ifs
    · apply h.advance_of_phase <;> grind [Master.phase]
    · exact h
  case h_8 hm => exact h.release hm
  case h_9 hm =>
    split_ifs
    · apply h.advance_of_phase <;> grind [Master.phase]
    · exact h
  case h_10 who hm =>
    split_ifs
    all_goals apply h.advance_of_phase <;> grind [Master.phase]
  case h_11 hm => exact h.dismiss hm
  case h_12 k hm =>
    have hjoined := h.joined k (.inl hm)
    split_ifs with hk hdone
    · apply h.advance <;> grind [Master.phase]
    · exact h
    · apply h.advance <;> grind [Master.phase]
  case h_13 => exact h
  case h_14 => exact h

theorem Basic.step (h : Basic s) (hstep : Step grants s s') : Basic s' := by
  cases hstep with
  | master => exact h.masterStep
  | request ht => apply h.move <;> grind [Pc.stage]
  | grant ht => exact h.grant ht
  | enter ht => exact h.enter ht
  | @wake t ht =>
      have hout := h.asleep t ht
      apply h.move <;> grind [Pc.stage]
  | recheck ht => apply h.move <;> grind [Pc.stage]
  | @unlock t ht =>
      have hout := h.out t
      apply h.move <;> grind [Pc.stage]

theorem Reachable.basic (h : Reachable grants s) : Basic s := by
  induction h with
  | refl => exact Basic.init
  | tail _ hstep ih => exact ih.step hstep

/-- The flags are still down. -/
theorem Basic.peersGetout_eq_false (h : Basic s) (hphase : s.master.phase ≤ 10) : s.peersGetout = false := by
  by_contra htrue
  have := h.peersGetout.mp (Bool.not_eq_false _ ▸ htrue)
  omega

theorem Basic.readerGetout_eq_false (h : Basic s) (hphase : s.master.phase ≤ 7) : s.readerGetout = false := by
  by_contra htrue
  have := h.readerGetout (Bool.not_eq_false _ ▸ htrue)
  omega

/-! ### A lock that excludes -/

/-- The writer holds the lock alone. -/
def WriterAlone (s : Test) : Prop := (s.pc .competingWriter).Holds → ∀ t, (s.pc t).Holds → t = .competingWriter

/-- All the master does to a thread is to create it or to wake it. -/
theorem pc_masterStep (h : Basic s) (t : Thread) : s.masterStep.pc t = s.pc t ∨
    (s.pc t = .absent ∧ s.masterStep.pc t = .started) ∨ (s.pc t = .asleep ∧ s.masterStep.pc t = .woken) := by
  have hlinger := h.lingerAbsent
  have hwriter := h.writerAbsent
  have hreader := h.readerAbsent
  unfold Test.masterStep
  split
  case h_5 k hm =>
    split_ifs with hk
    · rw [ofNat_reader hk]
      have habsent := (hreader ⟨k, hk⟩).mpr (.inr ⟨k, le_rfl, hm⟩)
      grind [Test.setPc]
    · exact .inl rfl
  all_goals grind [Test.setPc, Master.phase, Test.testFatal, Test.broadcastLinger, Test.broadcastPeers]

theorem holds_masterStep (h : Basic s) (t : Thread) : (s.masterStep.pc t).Holds ↔ (s.pc t).Holds := by
  rcases pc_masterStep h t with hpc | ⟨hpc, hpc'⟩ | ⟨hpc, hpc'⟩
  · rw [hpc]
  · rw [hpc, hpc']
    decide
  · rw [hpc, hpc']
    decide

theorem stage_masterStep (h : Basic s) (t : Thread) : (s.pc t).stage ≤ (s.masterStep.pc t).stage := by
  rcases pc_masterStep h t with hpc | ⟨hpc, hpc'⟩ | ⟨hpc, hpc'⟩
  · rw [hpc]
  · rw [hpc, hpc']
    decide
  · rw [hpc, hpc']
    decide

/-- A thread comes to hold the lock only by being let in. -/
theorem holds_of_step (h : Basic s) (hstep : Step grants s s') {t : Thread} (ht : (s'.pc t).Holds) :
    (s.pc t).Holds ∨ (s.pc t = .waiting ∧ grants s.queue t ∧ ∀ u, u ≠ t → s'.pc u = s.pc u) := by
  cases hstep with
  | master => exact .inl ((holds_masterStep h t).mp ht)
  | grant hu hgrants => grind [Test.setPc, Pc.Holds]
  | @enter u hu => cases u <;> grind [Test.enter, Test.checkGetout, Test.setPc, Pc.Holds]
  | recheck hu => grind [Test.checkGetout, Test.setPc, Pc.Holds]
  | request hu => grind [Test.setPc, Pc.Holds]
  | wake hu => grind [Test.setPc, Pc.Holds]
  | unlock hu => grind [Test.setPc, Pc.Holds]

theorem mem_holding {t : Thread} : t ∈ s.queue.holding ↔ (s.pc t).Holds := by
  rw [Test.queue, Finset.mem_filter, and_iff_right (Finset.mem_univ t)]

theorem mem_waiting {t : Thread} : t ∈ s.queue.waiting ↔ s.pc t = .waiting := by
  rw [Test.queue, Finset.mem_filter, and_iff_right (Finset.mem_univ t)]

theorem WriterAlone.step (halone : WriterAlone s) (hex : Excludes grants) (h : Basic s)
    (hstep : Step grants s s') : WriterAlone s' := by
  intro hwriter t ht
  by_contra hne
  rcases holds_of_step h hstep hwriter with hheld | ⟨-, hgrants, hsame⟩
  · rcases holds_of_step h hstep ht with hheld' | ⟨-, hgrants, -⟩
    · exact hne (halone hheld t hheld')
    · exact hex.shared hgrants (mem_holding.mpr hheld)
  · rw [hsame t hne] at ht
    have hnone := mem_holding.mpr ht
    rw [hex.exclusive hgrants] at hnone
    exact Finset.notMem_empty t hnone

/-- While the threads may not leave, a writer that has entered is the first after the lingering reader, and no
other thread has been let in. -/
theorem Basic.writer_first (h : Basic s) (halone : WriterAlone s) (hwho : s.whoIsInCs = 1)
    (hgetout : s.peersGetout = false) : s.granted = [.lingerReader, .competingWriter] := by
  have hin : 4 ≤ (s.pc .competingWriter).stage := by
    have := h.who
    omega
  have hstay : ∀ t, t ≠ .lingerReader → (s.pc t).stage ≤ 5 := by
    intro t ht
    by_contra hgt
    have hout := h.out t (by omega)
    cases t with
    | lingerReader => exact ht rfl
    | competingWriter => exact absurd (hgetout.symm.trans hout) (by decide)
    | competingReader i => exact absurd (hgetout.symm.trans hout) (by decide)
  have hwriter : (s.pc .competingWriter).Holds := Pc.holds_iff.mpr ⟨by omega, by have := hstay .competingWriter; grind⟩
  have hmem : .competingWriter ∈ s.granted := (h.granted_iff _).mpr (by omega)
  have honly : ∀ t ∈ s.granted, t = .lingerReader ∨ t = .competingWriter := by
    intro t ht
    by_cases hlinger : t = .lingerReader
    · exact .inl hlinger
    · have hlow := (h.granted_iff t).mp ht
      have hhigh := hstay t hlinger
      exact .inr (halone hwriter t (Pc.holds_iff.mpr ⟨hlow, by omega⟩))
  have hnodup := h.nodup
  have hfirst := h.first
  cases hlist : s.granted with
  | nil => grind
  | cons t rest =>
      rw [hlist] at hmem hnodup hfirst honly
      obtain rfl : t = .lingerReader := by simpa using hfirst
      obtain ⟨hnotMem, hnodup⟩ := List.nodup_cons.mp hnodup
      have hrest : ∀ u ∈ rest, u = .competingWriter := fun u hu =>
        (honly u (List.mem_cons_of_mem _ hu)).resolve_left fun heq => hnotMem (heq ▸ hu)
      have hwriterRest : .competingWriter ∈ rest := (List.mem_cons.mp hmem).resolve_left (by decide)
      rw [List.eq_replicate_of_mem hrest] at hnodup hwriterRest ⊢
      have hle := List.nodup_replicate.mp hnodup
      have hpos := (List.mem_replicate.mp hwriterRest).1
      obtain hone : rest.length = 1 := by omega
      rw [hone]
      rfl

/-- Once the master has found the writer inside, the record says so. -/
structure Ordered (s : Test) : Prop where
  alone : WriterAlone s
  witnessed : s.master = .judge 1 ∨ (10 ≤ s.master.phase ∧ s.master.phase ≤ 12) →
    [.lingerReader, .competingWriter] <+: s.granted

theorem granted_grows (hstep : Step grants s s') : s.granted <+: s'.granted := by
  cases hstep with
  | master =>
      unfold Test.masterStep
      split <;> (try split_ifs) <;> exact List.prefix_rfl
  | grant => exact List.prefix_append _ _
  | @enter t => cases t <;> exact List.prefix_rfl
  | request => exact List.prefix_rfl
  | wake => exact List.prefix_rfl
  | recheck => exact List.prefix_rfl
  | unlock => exact List.prefix_rfl

theorem Ordered.masterStep (h : Ordered s) (hb : Basic s)
    (hm : s.masterStep.master = .judge 1 ∨ (10 ≤ s.masterStep.master.phase ∧ s.masterStep.master.phase ≤ 12)) :
    [.lingerReader, .competingWriter] <+: s.masterStep.granted := by
  have hgranted := @granted_grows (fun _ _ => False) s _ (.master s)
  by_cases hold : s.master = .judge 1 ∨ (10 ≤ s.master.phase ∧ s.master.phase ≤ 12)
  · exact (h.witnessed hold).trans hgranted
  · -- the master has just left its loop, or has just passed judgement
    have hwho : s.master = .awaitPeer ∧ s.whoIsInCs = 1 := by
      unfold Test.masterStep at hm
      split at hm <;> grind [Master.phase, Test.testFatal]
    have hgetout := hb.peersGetout_eq_false (by rw [hwho.1]; decide)
    rw [← hb.writer_first h.alone hwho.2 hgetout]
    exact hgranted

/-- What the other threads leave to the master. -/
theorem master_of_step (hstep : Step grants s s') :
    s' = s.masterStep ∨ (s'.master = s.master ∧ s'.peersGetout = s.peersGetout) := by
  cases hstep with
  | master => exact .inl rfl
  | @enter t => cases t <;> exact .inr ⟨rfl, rfl⟩
  | request => exact .inr ⟨rfl, rfl⟩
  | grant => exact .inr ⟨rfl, rfl⟩
  | wake => exact .inr ⟨rfl, rfl⟩
  | recheck => exact .inr ⟨rfl, rfl⟩
  | unlock => exact .inr ⟨rfl, rfl⟩

theorem Reachable.ordered (hex : Excludes grants) (h : Reachable grants s) : Ordered s := by
  induction h with
  | refl => exact ⟨fun hwriter => by simp [Test.init, Pc.Holds] at hwriter, by simp [Test.init, Master.phase]⟩
  | @tail s₁ s₂ hreach hstep ih =>
      have hb := Reachable.basic hreach
      refine ⟨ih.alone.step hex hb hstep, fun hm => ?_⟩
      rcases master_of_step hstep with rfl | ⟨hmaster, -⟩
      · exact ih.masterStep hb hm
      · rw [hmaster] at hm
        exact (ih.witnessed hm).trans (granted_grows hstep)

/-- **What a passed test proves.** On any lock that readers share and a writer has alone, whenever the test passes,
in whatever order the threads ran, the lock was given to the lingering reader, then to the writer and only then to
the eight readers, once to each, and all ten threads have finished. -/
theorem passed_writer_first (hex : Excludes grants) (h : Reachable grants s) (hpassed : s.master = .passed) :
    ∃ rest, s.granted = .lingerReader :: .competingWriter :: rest ∧
      rest.Perm ((List.finRange 8).map .competingReader) ∧ ∀ t, s.pc t = .done := by
  have hb := Reachable.basic h
  have hdone : ∀ t, s.pc t = .done := by
    have hjoined := hb.joined 10 (.inr ⟨hpassed, rfl⟩)
    intro t
    cases t with
    | lingerReader => exact hjoined 0 (by decide)
    | competingWriter => exact hjoined 1 (by decide)
    | competingReader i => exact ofNat_reader i.isLt ▸ hjoined (i + 2) (by omega)
  obtain ⟨rest, hrest⟩ := (h.ordered hex).witnessed (.inr (by rw [hpassed]; decide))
  have hgranted : s.granted = .lingerReader :: .competingWriter :: rest := hrest.symm
  have hnodup := hb.nodup
  have hmem := hb.granted_iff
  rw [hgranted] at hnodup hmem
  refine ⟨rest, hgranted, (List.perm_ext_iff_of_nodup (hnodup.sublist (by simp)) ?_).mpr fun t => ?_, hdone⟩
  · exact (List.nodup_finRange 8).map fun i j hij => by cases hij; rfl
  · have ht := (hmem t).mpr (by rw [hdone t]; decide)
    cases t <;> simp_all

/-! ### A lock that also prefers writers -/

/-- No complaint so far, and none to come: no competing reader is let in before all are told to leave. -/
structure Safe (s : Test) : Prop where
  alive : s.master.phase ≤ 12
  alone : WriterAlone s
  writer : 4 ≤ s.master.phase → 2 ≤ (s.pc .competingWriter).stage
  readers : s.peersGetout = false → ∀ i, (s.pc (.competingReader i)).stage ≤ 2
  judge : ∀ w, s.master = .judge w → w = 1

theorem mem_waiting_of_nwaiters (h : s.nwaiters = 1) : ∃ t, s.pc t = .waiting := by
  obtain ⟨t, ht⟩ := Finset.card_eq_one.mp h
  exact ⟨t, mem_waiting.mp (ht ▸ Finset.mem_singleton_self t)⟩

/-- Until all are told to leave, only the writer among the competing threads can have set `who_is_in_cs`, and not
before the lingering reader is told to leave. -/
theorem Safe.who (h : Safe s) (hb : Basic s) (hgetout : s.peersGetout = false) :
    s.whoIsInCs = 0 ∨ (s.whoIsInCs = 1 ∧ s.readerGetout = true) := by
  rcases hb.who with ⟨hzero, -⟩ | ⟨hone, hin⟩ | ⟨-, i, hin⟩
  · exact .inl hzero
  · refine .inr ⟨hone, ?_⟩
    by_contra hstays
    have hwriterOut := hb.out .competingWriter
    have hwriter : (s.pc .competingWriter).Holds := Pc.holds_iff.mpr ⟨by omega, by grind [Test.getout]⟩
    have hphase : 3 ≤ s.master.phase := by
      have := hb.writerAbsent
      grind [Pc.stage]
    have hlingerIn := hb.readerInCs.mp (hb.entered (by omega))
    have hlingerOut := hb.out .lingerReader
    have hlinger : (s.pc .lingerReader).Holds := Pc.holds_iff.mpr ⟨by omega, by grind [Test.getout]⟩
    exact absurd (h.alone hwriter _ hlinger) (by decide)
  · have := h.readers hgetout i
    omega

/-- The one thread that waits when the master stops waiting for the writer is the writer. -/
theorem writer_waiting (hb : Basic s) (hm : s.master = .awaitWriter) (hone : s.nwaiters = 1) :
    s.pc .competingWriter = .waiting := by
  obtain ⟨t, ht⟩ := mem_waiting_of_nwaiters hone
  have hlinger := hb.readerInCs.mp (hb.entered (by rw [hm]; decide))
  cases t with
  | lingerReader => grind [Pc.stage]
  | competingWriter => exact ht
  | competingReader i =>
      have hnone := (hb.readerAbsent i).mpr (.inl (by rw [hm]; decide))
      grind

theorem judge_of_masterStep {w : Nat} (h : s.masterStep.master = .judge w) :
    s.master = .awaitPeer ∧ s.whoIsInCs = w ∧ w ≠ 0 := by
  unfold Test.masterStep at h
  split at h <;> grind [Test.testFatal]

theorem peersGetout_of_masterStep (h : s.masterStep.peersGetout = false) : s.peersGetout = false := by
  unfold Test.masterStep at h
  split at h <;> first | exact h | (split_ifs at h <;> exact h) | cases h

theorem writerWaited_of_masterStep (h : 4 ≤ s.masterStep.master.phase) :
    4 ≤ s.master.phase ∨ (s.master = .awaitWriter ∧ s.nwaiters = 1) := by
  unfold Test.masterStep at h
  split at h <;> grind [Master.phase]

/-- What makes the master complain. -/
theorem fatal_of_masterStep (h : 13 ≤ s.masterStep.master.phase) : 13 ≤ s.master.phase ∨
    (s.master = .look ∧ s.whoIsInCs ≠ 0) ∨ ∃ w, s.master = .judge w ∧ w ≠ 1 := by
  unfold Test.masterStep at h
  split at h <;> grind [Master.phase, Test.testFatal]

theorem Safe.masterStep (h : Safe s) (hb : Basic s) (halone : WriterAlone s.masterStep) : Safe s.masterStep := by
  have hstays := hb.peersGetout_eq_false
  refine ⟨?_, halone, fun hphase => ?_, fun hgetout i => ?_, fun w hw => ?_⟩
  · by_contra hfatal
    rcases fatal_of_masterStep (not_le.mp hfatal) with hold | ⟨hm, hne⟩ | ⟨w, hm, hne⟩
    · exact absurd h.alive (not_le.mpr hold)
    · rcases h.who hb (hstays (by rw [hm]; decide)) with hzero | ⟨-, hgetout⟩
      · exact hne hzero
      · have := hb.readerGetout hgetout
        rw [hm] at this
        exact absurd this (by decide)
    · exact hne (h.judge w hm)
  · rcases writerWaited_of_masterStep hphase with hold | ⟨hm, hone⟩
    · exact (h.writer hold).trans (stage_masterStep hb _)
    · exact (congrArg Pc.stage (writer_waiting hb hm hone)).ge.trans (stage_masterStep hb _)
  · have hlow := h.readers (peersGetout_of_masterStep hgetout) i
    rcases pc_masterStep hb (.competingReader i) with hpc | ⟨-, hpc⟩ | ⟨hpc, -⟩
    · rwa [hpc]
    · rw [hpc]
      decide
    · rw [hpc] at hlow
      exact absurd hlow (by decide)
  · obtain ⟨hm, rfl, hne⟩ := judge_of_masterStep hw
    rcases h.who hb (hstays (by rw [hm]; decide)) with hzero | ⟨hone, -⟩
    · exact absurd hzero hne
    · exact hone

/-- A lock that prefers writers does not let in a competing reader while the writer waits or is inside. -/
theorem Safe.reader_waits (h : Safe s) (hb : Basic s) (hex : Excludes grants) (hprefers : PrefersWriter grants)
    (hgetout : s.peersGetout = false) {i : Fin 8} (hwaits : s.pc (.competingReader i) = .waiting) :
    ¬ grants s.queue (.competingReader i) := by
  intro hgrants
  have hphase : 4 ≤ s.master.phase := by
    have := hb.readerAbsent i
    grind
  have hout := hb.out .competingWriter
  have hstage := h.writer hphase
  by_cases hwriter : s.pc .competingWriter = .waiting
  · cases hprefers hgrants (mem_waiting.mpr hwriter)
  · refine hex.shared hgrants (mem_holding.mpr (Pc.holds_iff.mpr ⟨?_, ?_⟩))
    · cases hpc : s.pc .competingWriter <;> simp_all [Pc.stage]
    · by_contra hgt
      exact absurd (hgetout.symm.trans (hout (by omega))) (by decide)

/-- A thread's own step past a mark. -/
theorem stage_of_step (h : Basic s) (hstep : Step grants s s') (t : Thread) :
    (s.pc t).stage ≤ (s'.pc t).stage ∨ (s.pc t = .woken ∧ s'.pc t = .asleep) := by
  cases hstep with
  | master => exact .inl (stage_masterStep h t)
  | @enter u hu => cases u <;> grind [Test.enter, Test.checkGetout, Test.setPc, Pc.stage]
  | recheck hu => grind [Test.checkGetout, Test.setPc, Pc.stage]
  | request hu => grind [Test.setPc, Pc.stage]
  | grant hu => grind [Test.setPc, Pc.stage]
  | wake hu => grind [Test.setPc, Pc.stage]
  | unlock hu => grind [Test.setPc, Pc.stage]

/-- A thread passes the lock only by being let in. -/
theorem passes_of_step (h : Basic s) (hstep : Step grants s s') {t : Thread} (hlow : (s.pc t).stage ≤ 2)
    (hhigh : ¬ (s'.pc t).stage ≤ 2) : s.pc t = .waiting ∧ grants s.queue t := by
  cases hstep with
  | master =>
      rcases pc_masterStep h t with hpc | ⟨-, hpc⟩ | ⟨hpc, -⟩
      · rw [hpc] at hhigh
        exact absurd hlow hhigh
      · rw [hpc] at hhigh
        exact absurd (by decide) hhigh
      · rw [hpc] at hlow
        exact absurd hlow (by decide)
  | @enter u hu => cases u <;> grind [Test.enter, Test.checkGetout, Test.setPc, Pc.stage]
  | recheck hu => grind [Test.checkGetout, Test.setPc, Pc.stage]
  | request hu => grind [Test.setPc, Pc.stage]
  | grant hu hgrants => grind [Test.setPc, Pc.stage]
  | wake hu => grind [Test.setPc, Pc.stage]
  | unlock hu => grind [Test.setPc, Pc.stage]

theorem Safe.step (h : Safe s) (hb : Basic s) (hex : Excludes grants) (hprefers : PrefersWriter grants)
    (hstep : Step grants s s') : Safe s' := by
  have halone := h.alone.step hex hb hstep
  rcases master_of_step hstep with rfl | ⟨hmaster, hpeers⟩
  · exact h.masterStep hb halone
  · refine ⟨hmaster ▸ h.alive, halone, fun hphase => ?_, fun hgetout i => ?_, fun w hw => h.judge w (hmaster ▸ hw)⟩
    · have hold := h.writer (hmaster ▸ hphase)
      rcases stage_of_step hb hstep .competingWriter with hle | ⟨-, hpc⟩
      · exact hold.trans hle
      · rw [hpc]
        decide
    · rw [hpeers] at hgetout
      by_contra hhigh
      obtain ⟨hwaits, hgrants⟩ := passes_of_step hb hstep (h.readers hgetout i) hhigh
      exact h.reader_waits hb hex hprefers hgetout hwaits hgrants

theorem Safe.init : Safe .init where
  alive := by decide
  alone hwriter := absurd hwriter (by decide)
  writer hphase := absurd hphase (by decide)
  readers _ _ := Nat.zero_le 2
  judge _ hw := by cases hw

theorem Reachable.safe (hex : Excludes grants) (hprefers : PrefersWriter grants) (h : Reachable grants s) : Safe s := by
  induction h with
  | refl => exact Safe.init
  | tail hreach hstep ih => exact ih.step (Reachable.basic hreach) hex hprefers hstep

/-! ### The test can always be finished -/

/-- How many steps the master has left at least. -/
def Master.left : Master → Nat
  | .start => 30
  | .awaitReader => 29
  | .spawnWriter => 28
  | .awaitWriter => 27
  | .spawnReaders k => 18 + (8 - k)
  | .look => 17
  | .awaitAll => 16
  | .release => 15
  | .awaitPeer => 14
  | .judge _ => 13
  | .dismiss => 12
  | .join k => 1 + (10 - k)
  | .passed => 0
  | .fatal _ => 0

/-- The steps left of all threads. -/
def Test.left (s : Test) : Nat := s.master.left + ∑ t, (7 - (s.pc t).stage)

theorem Pc.stage_le (p : Pc) : p.stage ≤ 7 := by
  cases p <;> decide

theorem left_lt_of_stage {t : Thread} (hmaster : s'.master = s.master) (ht : (s.pc t).stage < (s'.pc t).stage)
    (hother : ∀ u, u ≠ t → s'.pc u = s.pc u) : s'.left < s.left := by
  rw [Test.left, Test.left, hmaster]
  refine Nat.add_lt_add_left (Finset.sum_lt_sum (fun u _ => ?_) ⟨t, Finset.mem_univ t, ?_⟩) _
  · by_cases hu : u = t
    · subst hu
      omega
    · rw [hother u hu]
  · have := Pc.stage_le (s'.pc t)
    omega

theorem left_masterStep (h : Basic s) (hlt : s.masterStep.master.left < s.master.left) :
    s.masterStep.left < s.left := by
  rw [Test.left, Test.left]
  refine Nat.add_lt_add_of_lt_of_le hlt (Finset.sum_le_sum fun t _ => ?_)
  have := stage_masterStep h t
  omega

/-- Some step brings the test nearer to its end. -/
def Advances (grants : Queue → Thread → Prop) (s : Test) : Prop := ∃ s', Step grants s s' ∧ s'.left < s.left

theorem Advances.master (h : Basic s) (m : Master) (hm : s.masterStep.master = m) (hlt : m.left < s.master.left) :
    Advances grants s :=
  ⟨_, .master s, left_masterStep h (hm ▸ hlt)⟩

theorem setPc_other {t : Thread} {p : Pc} (u : Thread) (hu : u ≠ t) : (s.setPc t p).pc u = s.pc u := if_neg hu

theorem Advances.request {t : Thread} (ht : s.pc t = .started) : Advances grants s := by
  refine ⟨_, .request ht, left_lt_of_stage rfl ?_ setPc_other⟩
  simp only [Test.setPc, ht, if_true]
  decide

theorem Advances.grant {t : Thread} (ht : s.pc t = .waiting) (hgrants : grants s.queue t) : Advances grants s := by
  refine ⟨_, .grant ht hgrants, left_lt_of_stage rfl ?_ setPc_other⟩
  simp only [Test.setPc, ht, if_true]
  decide

/-- A thread that is on its way goes on, unless it may not leave yet. -/
theorem Advances.thread {t : Thread} (hb : Basic s) (hpresent : s.pc t ≠ .absent) (hwaits : s.pc t ≠ .waiting)
    (hdone : s.pc t ≠ .done) (hgetout : s.pc t = .locked ∨ s.getout t = true) : Advances grants s := by
  have hcheck : s.pc t = .woken → s.getout t = true := fun ht => hgetout.resolve_left (by rw [ht]; decide)
  cases ht : s.pc t with
  | absent => exact absurd ht hpresent
  | started => exact .request ht
  | waiting => exact absurd ht hwaits
  | locked =>
      refine ⟨_, .enter ht, ?_⟩
      cases t <;>
        refine left_lt_of_stage rfl ?_ setPc_other <;>
        simp only [Test.enter, Test.checkGetout, Test.setPc, ht, if_true] <;> split <;> decide
  | asleep =>
      have hstays := hb.asleep t ht
      rw [ht] at hgetout
      exact absurd (hstays.symm.trans (hgetout.resolve_left (by decide))) (by decide)
  | woken =>
      refine ⟨_, .recheck ht, left_lt_of_stage rfl ?_ setPc_other⟩
      simp only [Test.checkGetout, Test.setPc, ht, hcheck ht, if_true]
      decide
  | leaving =>
      refine ⟨_, .unlock ht, left_lt_of_stage rfl ?_ setPc_other⟩
      simp only [Test.setPc, ht, if_true]
      decide
  | done => exact absurd ht hdone

/-- Where a thread waits and those inside may leave, one of these goes on or somebody is let in. -/
theorem Advances.waiting {t : Thread} (hb : Basic s) (hserves : Serves grants) (hwaits : s.pc t = .waiting)
    (hholders : ∀ u, (s.pc u).Holds → s.getout u = true) : Advances grants s := by
  by_cases hfree : ∃ u, (s.pc u).Holds
  · obtain ⟨u, hu⟩ := hfree
    refine .thread hb ?_ ?_ ?_ (.inr (hholders u hu)) <;>
      · intro hpc
        rw [hpc] at hu
        exact absurd hu (by decide)
  · have hnone : s.queue.holding = ∅ := by
      refine Finset.eq_empty_of_forall_notMem fun u hu => ?_
      exact hfree ⟨u, mem_holding.mp hu⟩
    obtain ⟨u, hu, hgrants⟩ := hserves hnone ⟨t, mem_waiting.mpr hwaits⟩
    exact .grant (mem_waiting.mp hu) hgrants

/-- The lingering reader is inside until it is told to leave. -/
theorem linger_holds (hb : Basic s) (hphase : 2 ≤ s.master.phase) (hstays : s.readerGetout = false) :
    (s.pc .lingerReader).Holds := by
  have hin := hb.readerInCs.mp (hb.entered hphase)
  refine Pc.holds_iff.mpr ⟨by omega, ?_⟩
  by_contra hout
  exact absurd (hstays.symm.trans (hb.out .lingerReader (by omega))) (by decide)

/-- The competing threads wait behind it. -/
theorem Safe.competing_stage (h : Safe s) (hb : Basic s) (hphase : 2 ≤ s.master.phase) (hphase' : s.master.phase ≤ 7)
    {t : Thread} (ht : t ≠ .lingerReader) : (s.pc t).stage ≤ 2 := by
  have hstays := hb.peersGetout_eq_false (by omega)
  have hlinger := hb.readerGetout_eq_false hphase'
  cases t with
  | lingerReader => exact absurd rfl ht
  | competingReader i => exact h.readers hstays i
  | competingWriter =>
      by_contra hhigh
      have hwriter : (s.pc .competingWriter).Holds := by
        refine Pc.holds_iff.mpr ⟨by omega, ?_⟩
        by_contra hout
        exact absurd (hstays.symm.trans (hb.out .competingWriter (by omega))) (by decide)
      exact absurd (h.alone hwriter _ (linger_holds hb hphase hlinger)) (by decide)

theorem Pc.eq_waiting {p : Pc} (hle : p.stage ≤ 2) (habsent : p ≠ .absent) (hstarted : p ≠ .started) : p = .waiting := by
  cases p <;> simp_all [Pc.stage]

theorem advances_awaitReader (hb : Basic s) (hserves : Serves grants) (hm : s.master = .awaitReader) :
    Advances grants s := by
  by_cases hcs : s.readerInCs = true
  · exact .master hb .spawnWriter (by simp only [Test.masterStep, hm, hcs, if_true]) (by rw [hm]; decide)
  · have hlow := mt hb.readerInCs.mpr hcs
    have hpresent := mt hb.lingerAbsent.mp (by rw [hm]; decide)
    by_cases hwaits : s.pc .lingerReader = .waiting
    · refine .waiting hb hserves hwaits fun u hu => ?_
      -- the other threads have not been created
      cases u with
      | lingerReader => exact absurd (hwaits ▸ hu) (by decide)
      | competingWriter =>
          have habsent := hb.writerAbsent.mpr (by rw [hm]; decide)
          exact absurd (habsent ▸ hu) (by decide)
      | competingReader i =>
          have habsent := (hb.readerAbsent i).mpr (.inl (by rw [hm]; decide))
          exact absurd (habsent ▸ hu) (by decide)
    · cases hpc : s.pc .lingerReader with
      | started => exact .request hpc
      | locked => exact .thread hb hpresent hwaits (by rw [hpc]; decide) (.inl hpc)
      | absent => exact absurd hpc hpresent
      | waiting => exact absurd hpc hwaits
      | asleep => exact absurd (by rw [hpc]; decide) hlow
      | woken => exact absurd (by rw [hpc]; decide) hlow
      | leaving => exact absurd (by rw [hpc]; decide) hlow
      | done => exact absurd (by rw [hpc]; decide) hlow

theorem Safe.advances_awaitWriter (h : Safe s) (hb : Basic s) (hm : s.master = .awaitWriter) : Advances grants s := by
  have hlow : (s.pc .competingWriter).stage ≤ 2 :=
    h.competing_stage hb (by rw [hm]; decide) (by rw [hm]; decide) (by decide)
  have hpresent := mt hb.writerAbsent.mp (by rw [hm]; decide)
  by_cases hstarted : s.pc .competingWriter = .started
  · exact .request hstarted
  · have hwaits := Pc.eq_waiting hlow hpresent hstarted
    have hone : s.nwaiters = 1 := by
      refine Finset.card_eq_one.mpr ⟨.competingWriter, Finset.ext fun t => ?_⟩
      rw [mem_waiting, Finset.mem_singleton]
      refine ⟨fun ht => ?_, fun ht => ht ▸ hwaits⟩
      cases t with
      | lingerReader =>
          have hin := hb.readerInCs.mp (hb.entered (by rw [hm]; decide))
          rw [ht] at hin
          exact absurd hin (by decide)
      | competingWriter => rfl
      | competingReader i =>
          have habsent := (hb.readerAbsent i).mpr (.inl (by rw [hm]; decide))
          cases habsent.symm.trans ht
    exact .master hb (.spawnReaders 0) (by simp only [Test.masterStep, hm, hone, if_true]) (by rw [hm]; decide)

theorem Safe.advances_awaitAll (h : Safe s) (hb : Basic s) (hm : s.master = .awaitAll) : Advances grants s := by
  have hlow : ∀ t, t ≠ .lingerReader → (s.pc t).stage ≤ 2 := fun t ht =>
    h.competing_stage hb (by rw [hm]; decide) (by rw [hm]; decide) ht
  have hpresent : ∀ t, t ≠ .lingerReader → s.pc t ≠ .absent := by
    intro t ht
    cases t with
    | lingerReader => exact absurd rfl ht
    | competingWriter => exact mt hb.writerAbsent.mp (by rw [hm]; decide)
    | competingReader i =>
        refine mt (hb.readerAbsent i).mp ?_
        rw [hm]
        rintro (hphase | ⟨k, -, hspawn⟩)
        · exact absurd hphase (by decide)
        · cases hspawn
  by_cases hstarted : ∃ t, s.pc t = .started
  · obtain ⟨t, ht⟩ := hstarted
    exact .request ht
  · have hwaits : ∀ t, t ≠ .lingerReader → s.pc t = .waiting := fun t ht =>
      Pc.eq_waiting (hlow t ht) (hpresent t ht) fun hpc => hstarted ⟨t, hpc⟩
    have hall : s.queue.waiting = Finset.univ.erase .lingerReader := by
      refine Finset.ext fun t => ?_
      rw [mem_waiting, Finset.mem_erase, and_iff_left (Finset.mem_univ t)]
      refine ⟨?_, hwaits t⟩
      rintro ht rfl
      have hin := hb.readerInCs.mp (hb.entered (by rw [hm]; decide))
      rw [ht] at hin
      exact absurd hin (by decide)
    have hnine : s.nwaiters = 9 := by
      rw [Test.nwaiters, hall]
      decide
    exact .master hb .release (by simp only [Test.masterStep, hm, hnine, if_true]) (by rw [hm]; decide)

theorem Safe.advances_awaitPeer (h : Safe s) (hb : Basic s) (hserves : Serves grants) (hm : s.master = .awaitPeer) :
    Advances grants s := by
  by_cases hwho : s.whoIsInCs = 0
  · have hnone : ∀ t, t ≠ .lingerReader → (s.pc t).stage ≤ 3 := by
      rcases hb.who with ⟨-, hnone⟩ | ⟨hone, -⟩ | ⟨htwo, -⟩
      · exact hnone
      · omega
      · omega
    have hlow := h.writer (by rw [hm]; decide)
    have hhigh := hnone .competingWriter (by decide)
    have hstays := hb.peersGetout_eq_false (by rw [hm]; decide)
    by_cases hwaits : s.pc .competingWriter = .waiting
    · refine .waiting hb hserves hwaits fun u hu => ?_
      cases u with
      | lingerReader => exact hb.readerGetout' (by rw [hm]; decide) (by rw [hm]; decide)
      | competingWriter => exact absurd (hwaits ▸ hu) (by decide)
      | competingReader i =>
          have hi := h.readers hstays i
          exact absurd (Pc.holds_iff.mp hu).1 (by omega)
    · have hlocked : s.pc .competingWriter = .locked := by
        cases hpc : s.pc .competingWriter <;> simp_all [Pc.stage]
      exact .thread hb (by rw [hlocked]; decide) hwaits (by rw [hlocked]; decide) (.inl hlocked)
  · exact .master hb (.judge s.whoIsInCs) (by simp only [Test.masterStep, hm, ne_eq, hwho, not_false_eq_true, if_true])
      (by rw [hm]; exact Nat.lt_succ_self 13)

theorem Safe.advances_join (hb : Basic s) (hserves : Serves grants) {k : Nat} (hm : s.master = .join k) :
    Advances grants s := by
  by_cases hk : k < 10
  · by_cases hdone : s.pc (Thread.ofNat k) = .done
    · refine .master hb (.join (k + 1)) (by simp only [Test.masterStep, hm, hk, hdone, if_true]) ?_
      rw [hm]
      simp only [Master.left]
      omega
    · have hphase : s.master.phase = 11 := by rw [hm]; rfl
      have hgetout : ∀ t, s.getout t = true := by
        intro t
        cases t with
        | lingerReader => exact hb.readerGetout' (by omega) (by omega)
        | competingWriter => exact hb.peersGetout.mpr (.inl hphase)
        | competingReader i => exact hb.peersGetout.mpr (.inl hphase)
      have hpresent : s.pc (Thread.ofNat k) ≠ .absent := by
        cases hthread : Thread.ofNat k with
        | lingerReader => exact mt hb.lingerAbsent.mp (by omega)
        | competingWriter => exact mt hb.writerAbsent.mp (by omega)
        | competingReader i =>
            refine mt (hb.readerAbsent i).mp ?_
            rintro (hle | ⟨j, -, hspawn⟩)
            · omega
            · cases hm.symm.trans hspawn
      by_cases hwaits : s.pc (Thread.ofNat k) = .waiting
      · exact .waiting hb hserves hwaits fun u _ => hgetout u
      · exact .thread hb hpresent hwaits hdone (.inr (hgetout _))
  · refine .master hb .passed (by simp only [Test.masterStep, hm, hk, if_false]) ?_
    rw [hm]
    exact Nat.lt_of_lt_of_le Nat.zero_lt_one (Nat.le_add_right 1 _)

/-- In every state of a test that is not over, some step brings it nearer to its end. -/
theorem Safe.advances (h : Safe s) (hb : Basic s) (hserves : Serves grants) (hover : s.master ≠ .passed) :
    Advances grants s := by
  cases hm : s.master with
  | start => exact .master hb .awaitReader (by simp only [Test.masterStep, hm]) (by rw [hm]; decide)
  | awaitReader => exact advances_awaitReader hb hserves hm
  | spawnWriter => exact .master hb .awaitWriter (by simp only [Test.masterStep, hm]) (by rw [hm]; decide)
  | awaitWriter => exact h.advances_awaitWriter hb hm
  | spawnReaders k =>
      by_cases hk : k < 8
      · refine .master hb (.spawnReaders (k + 1)) (by simp only [Test.masterStep, hm, hk, if_true]) ?_
        rw [hm]
        simp only [Master.left]
        omega
      · refine .master hb .look (by simp only [Test.masterStep, hm, hk, if_false]) ?_
        rw [hm]
        simp only [Master.left]
        omega
  | look =>
      have hwho : s.whoIsInCs = 0 := by
        refine (h.who hb (hb.peersGetout_eq_false (by rw [hm]; decide))).resolve_right fun hone => ?_
        have hstays := hb.readerGetout_eq_false (by rw [hm]; decide)
        exact absurd (hstays.symm.trans hone.2) (by decide)
      exact .master hb .awaitAll (by simp [Test.masterStep, hm, hwho]) (by rw [hm]; decide)
  | awaitAll => exact h.advances_awaitAll hb hm
  | release => exact .master hb .awaitPeer (by simp only [Test.masterStep, hm]) (by rw [hm]; decide)
  | awaitPeer => exact h.advances_awaitPeer hb hserves hm
  | judge w =>
      obtain rfl := h.judge w hm
      exact .master hb .dismiss (by simp [Test.masterStep, hm]) (by rw [hm]; decide)
  | dismiss => exact .master hb (.join 0) (by simp only [Test.masterStep, hm]) (by rw [hm]; decide)
  | join k => exact Safe.advances_join hb hserves hm
  | passed => exact absurd hm hover
  | fatal msg => exact absurd h.alive (by rw [hm]; exact Nat.not_succ_le_self 12)

theorem Reachable.exists_passed (hex : Excludes grants) (hprefers : PrefersWriter grants) (hserves : Serves grants)
    (h : Reachable grants s) : ∃ s', Relation.ReflTransGen (Step grants) s s' ∧ s'.master = .passed := by
  induction hleft : s.left using Nat.strong_induction_on generalizing s with
  | h n ih =>
      subst hleft
      by_cases hover : s.master = .passed
      · exact ⟨s, .refl, hover⟩
      · obtain ⟨s₁, hstep, hlt⟩ := (h.safe hex hprefers).advances (Reachable.basic h) hserves hover
        obtain ⟨s₂, hrest, hpassed⟩ := ih _ hlt (h.tail hstep) rfl
        exact ⟨s₂, .head hstep hrest, hpassed⟩

/-- **A correct lock passes.** On any lock that readers share, that a writer has alone and is preferred for, and
that does not lie idle while threads wait, the test complains in no order of the threads, and it never gets stuck:
from every state it can get into, it can still be finished, whatever woke the threads in the meantime. -/
theorem correct_lock_passes (hex : Excludes grants) (hprefers : PrefersWriter grants) (hserves : Serves grants)
    (h : Reachable grants s) : (∀ errmsg, s.master ≠ .fatal errmsg) ∧
      ∃ s', Relation.ReflTransGen (Step grants) s s' ∧ s'.master = .passed := by
  refine ⟨fun errmsg hfatal => ?_, h.exists_passed hex hprefers hserves⟩
  have halive := (h.safe hex hprefers).alive
  rw [hfatal] at halive
  exact Nat.not_succ_le_self 12 halive

/-- A lock that lets in a writer when nobody is inside, and a reader when no writer is inside or waits. -/
def writerFirst (q : Queue) (t : Thread) : Prop :=
  t ∈ q.waiting ∧ (if t = .competingWriter then q.holding = ∅
    else .competingWriter ∉ q.holding ∧ .competingWriter ∉ q.waiting)

theorem writerFirst_excludes : Excludes writerFirst where
  shared := by
    rintro q t ⟨-, ht⟩
    split_ifs at ht
    · rw [ht]
      exact Finset.notMem_empty _
    · exact ht.1
  exclusive := by
    rintro q ⟨-, ht⟩
    rwa [if_pos rfl] at ht

theorem writerFirst_prefersWriter : PrefersWriter writerFirst := by
  rintro q t ⟨-, ht⟩ hwaits
  by_contra hne
  rw [if_neg hne] at ht
  exact ht.2 hwaits

theorem writerFirst_serves : Serves writerFirst := by
  intro q hfree hsome
  by_cases hwriter : .competingWriter ∈ q.waiting
  · exact ⟨_, hwriter, hwriter, by rw [if_pos rfl, hfree]⟩
  · obtain ⟨t, ht⟩ := hsome
    have hne : t ≠ .competingWriter := fun heq => hwriter (heq ▸ ht)
    refine ⟨t, ht, ht, ?_⟩
    rw [if_neg hne, hfree]
    exact ⟨Finset.notMem_empty _, hwriter⟩

theorem correct_lock_passes_writerFirst : (∀ errmsg, Test.init.master ≠ .fatal errmsg) ∧
    ∃ s', Relation.ReflTransGen (Step writerFirst) .init s' ∧ s'.master = .passed :=
  correct_lock_passes writerFirst_excludes writerFirst_prefersWriter writerFirst_serves .refl

/-- Such a lock does pass, and its record is the one promised. -/
theorem passed_writer_first_writerFirst : ∃ s, Reachable writerFirst s ∧ s.master = .passed ∧
    ∃ rest, s.granted = .lingerReader :: .competingWriter :: rest ∧
      rest.Perm ((List.finRange 8).map .competingReader) ∧ ∀ t, s.pc t = .done := by
  obtain ⟨s, hreach, hpassed⟩ := Reachable.exists_passed writerFirst_excludes writerFirst_prefersWriter
    writerFirst_serves .refl
  exact ⟨s, hreach, hpassed, passed_writer_first writerFirst_excludes hreach hpassed⟩

end CsoLabs.Rwlock
