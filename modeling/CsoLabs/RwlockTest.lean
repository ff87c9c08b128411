import Mathlib

/-! The tester of the reader-writer lock, `testrwlock.c`: a reader takes the lock and lingers, a writer and eight
readers queue up behind it, and the master thread looks who gets in first.

The lock is a parameter, for `rwlock.c` has only its interface so far: it says which of the waiting threads may be
let in. What a thread does between taking the mutex `test_m` and giving it back, or sleeping on a condition
variable, is one step. -/

namespace CsoLabs.Rwlock

/-- The threads of `test_rwl_priority` besides the master. -/
inductive Thread where
  | lingerReader
  | competingWriter
  | competingReader (i : Fin 8)
  deriving DecidableEq, Fintype

/-- The entry of the array `threads`. -/
def Thread.ofNat (k : Nat) : Thread :=
  if k = 0 then .lingerReader else if k = 1 then .competingWriter else .competingReader (Fin.ofNat 8 (k - 2))

/-- Where a thread is: not created, about to call for the lock, waiting in that call, back from it, asleep on its
condition variable, woken but without the mutex, about to give the lock back, finished. -/
inductive Pc where
  | absent
  | started
  | waiting
  | locked
  | asleep
  | woken
  | leaving
  | done
  deriving DecidableEq

/-- Where the master is in `test_rwl_priority`. -/
inductive Master where
  | start
  | awaitReader
  | spawnWriter
  | awaitWriter
  | spawnReaders (k : Nat)
  | look
  | awaitAll
  | release
  | awaitPeer
  | judge (who : Nat)
  | dismiss
  | join (k : Nat)
  | passed
  | fatal (errmsg : String)
  deriving DecidableEq

/-- What a lock sees of its users. -/
structure Queue where
  waiting : Finset Thread
  holding : Finset Thread

/-- The global variables of the test and the threads. The flags are 0 or 1. `granted` records, for the statements
below only, the threads to which the lock has been given. -/
structure Test where
  master : Master
  pc : Thread → Pc
  readerInCs : Bool
  whoIsInCs : Nat
  readerGetout : Bool
  peersGetout : Bool
  granted : List Thread

namespace Pc

/-- The lock is held. -/
def Holds (p : Pc) : Prop := p = .locked ∨ p = .asleep ∨ p = .woken ∨ p = .leaving

instance decidableHolds (p : Pc) : Decidable p.Holds := inferInstanceAs (Decidable (_ ∨ _))

end Pc

namespace Test

def init : Test where
  master := .start
  pc _ := .absent
  readerInCs := false
  whoIsInCs := 0
  readerGetout := false
  peersGetout := false
  granted := []

def setPc (s : Test) (t : Thread) (p : Pc) : Test := { s with pc := fun u => if u = t then p else s.pc u }

def queue (s : Test) : Queue where
  waiting := Finset.univ.filter fun t => s.pc t = .waiting
  holding := Finset.univ.filter fun t => (s.pc t).Holds

/-- `rwl_nwaiters(&l2)` -/
def nwaiters (s : Test) : Nat := s.queue.waiting.card

/-- The flag whose condition variable the thread waits on. -/
def getout (s : Test) : Thread → Bool
  | .lingerReader => s.readerGetout
  | .competingWriter => s.peersGetout
  | .competingReader _ => s.peersGetout

/-- The test of a waiting loop: out of it, or to sleep. -/
def checkGetout (s : Test) (t : Thread) : Test := s.setPc t (if s.getout t then .leaving else .asleep)

/-- What a thread does first when it has the lock. -/
def enter (s : Test) (t : Thread) : Test :=
  match t with
  | .lingerReader => checkGetout { s with readerInCs := true } t
  | .competingWriter => checkGetout { s with whoIsInCs := 1 } t
  | .competingReader _ => checkGetout { s with whoIsInCs := 2 } t

/-- `pthread_cond_broadcast(&test_linger)` -/
def broadcastLinger (s : Test) : Test :=
  { s with pc := fun u => if u = .lingerReader ∧ s.pc u = .asleep then .woken else s.pc u }

/-- `pthread_cond_broadcast(&test_peers)` -/
def broadcastPeers (s : Test) : Test :=
  { s with pc := fun u => if u ≠ .lingerReader ∧ s.pc u = .asleep then .woken else s.pc u }

/-- `test_fatal(rwltest, errmsg)` -/
def testFatal (s : Test) (errmsg : String) : Test := { s with master := .fatal errmsg }

/-- One step of `test_rwl_priority`. A loop whose condition is not met yet leaves everything as it is. -/
def masterStep (s : Test) : Test :=
  match s.master with
  | .start => { s.setPc .lingerReader .started with master := .awaitReader }
  | .awaitReader => if s.readerInCs then { s with master := .spawnWriter } else s
  | .spawnWriter => { s.setPc .competingWriter .started with master := .awaitWriter }
  | .awaitWriter => if s.nwaiters = 1 then { s with master := .spawnReaders 0 } else s
  | .spawnReaders k =>
      if k < 8 then { s.setPc (Thread.ofNat (k + 2)) .started with master := .spawnReaders (k + 1) }
      else { s with master := .look }
  | .look =>
      if s.whoIsInCs = 1 then
        s.testFatal "Competing writer should not have been in critical section while reader is still there\n"
      else if s.whoIsInCs = 2 then
        s.testFatal "Competing readers should not have been in critical section while there is a competing writer\n"
      else { s with master := .awaitAll }
  | .awaitAll => if s.nwaiters = 9 then { s with master := .release } else s
  | .release => { s.broadcastLinger with readerGetout := true, master := .awaitPeer }
  | .awaitPeer => if s.whoIsInCs ≠ 0 then { s with master := .judge s.whoIsInCs } else s
  | .judge who =>
      if who ≠ 1 then s.testFatal "Writer should have priority over readers in locking"
      else { s with master := .dismiss }
  | .dismiss => { s.broadcastPeers with peersGetout := true, master := .join 0 }
  | .join k =>
      if k < 10 then
        if s.pc (Thread.ofNat k) = .done then { s with master := .join (k + 1) } else s
      else { s with master := .passed }
  | .passed => s
  | .fatal _ => s

end Test

/-- One step of the master or of a thread, on a lock that lets in the threads `grants` allows. A thread can wake up
without a broadcast. -/
inductive Step (grants : Queue → Thread → Prop) : Test → Test → Prop where
  | master (s : Test) : Step grants s s.masterStep
  | request {s : Test} {t : Thread} (h : s.pc t = .started) : Step grants s (s.setPc t .waiting)
  | grant {s : Test} {t : Thread} (h : s.pc t = .waiting) (hgrants : grants s.queue t) :
      Step grants s { s.setPc t .locked with granted := s.granted ++ [t] }
  | enter {s : Test} {t : Thread} (h : s.pc t = .locked) : Step grants s (s.enter t)
  | wake {s : Test} {t : Thread} (h : s.pc t = .asleep) : Step grants s (s.setPc t .woken)
  | recheck {s : Test} {t : Thread} (h : s.pc t = .woken) : Step grants s (s.checkGetout t)
  | unlock {s : Test} {t : Thread} (h : s.pc t = .leaving) : Step grants s (s.setPc t .done)

/-- The states the test can get into. -/
def Reachable (grants : Queue → Thread → Prop) (s : Test) : Prop := Relation.ReflTransGen (Step grants) .init s

/-! ### What a lock must do -/

/-- Readers share the lock, and a writer has it alone. -/
structure Excludes (grants : Queue → Thread → Prop) : Prop where
  shared : ∀ {q t}, grants q t → .competingWriter ∉ q.holding
  exclusive : ∀ {q}, grants q .competingWriter → q.holding = ∅

/-- No reader gets the lock while a writer waits. -/
def PrefersWriter (grants : Queue → Thread → Prop) : Prop :=
  ∀ {q t}, grants q t → .competingWriter ∈ q.waiting → t = .competingWriter

/-- A lock that nobody holds is given to one of those who wait. -/
def Serves (grants : Queue → Thread → Prop) : Prop :=
  ∀ {q : Queue}, q.holding = ∅ → q.waiting.Nonempty → ∃ t ∈ q.waiting, grants q t

end CsoLabs.Rwlock
