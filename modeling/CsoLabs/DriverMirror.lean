import CsoLabs.DriverEval

/-! The range list mirrors the live blocks, whatever the allocator under test answers. The list is keyed
by the low address alone, and a payload around a recorded one is let through; but a second payload at a
recorded low address never is, so that `remove_range` finds the record it is meant to find. -/

namespace CsoLabs.Driver
open CLang ByteMemory Malloc

variable {σ : Type}

/-- The record of a live id: its block with the size it was last given. -/
def record (t : Trace) (id : Int) : Range := ⟨t.blocks id, t.blocks id + (t.blockSizes id).toNat - 1⟩

structure Mirror (d : Session σ) (live : List Int) : Prop where
  live_nodup : live.Nodup
  ranges_perm : d.ranges.Perm (live.map (record d.trace))
  lo_nodup : (d.ranges.map Range.lo).Nodup
  nonempty : ∀ p ∈ d.ranges, p.lo ≤ p.hi

theorem removeRange_perm {ranges : List Range} (hnodup : (ranges.map Range.lo).Nodup) {p : Range}
    (hp : p ∈ ranges) : ranges.Perm (p :: removeRange ranges p.lo) := by
  induction ranges with
  | nil => cases hp
  | cons q qs ih =>
      obtain ⟨hq, hqs⟩ := List.nodup_cons.mp hnodup
      rw [removeRange]
      rcases List.mem_cons.mp hp with rfl | hp
      · rw [if_pos rfl]
      · have hne : q.lo ≠ p.lo := fun heq => hq (heq ▸ List.mem_map_of_mem hp)
        rw [if_neg hne]
        exact ((ih hqs hp).cons q).trans (List.Perm.swap p q _)

namespace Mirror

variable {d : Session σ} {live : List Int}

/-- Removing the record of a live id leaves the records of the others. -/
theorem removeRange (h : Mirror d live) {id : Int} (hid : id ∈ live) :
    d.ranges.Perm (record d.trace id :: Driver.removeRange d.ranges (d.trace.blocks id)) ∧
      (Driver.removeRange d.ranges (d.trace.blocks id)).Perm ((live.erase id).map (record d.trace)) := by
  have hmem : record d.trace id ∈ d.ranges := h.ranges_perm.mem_iff.mpr (List.mem_map_of_mem hid)
  have hremove : d.ranges.Perm (record d.trace id :: Driver.removeRange d.ranges (d.trace.blocks id)) :=
    removeRange_perm h.lo_nodup hmem
  refine ⟨hremove, ?_⟩
  have hlive := h.ranges_perm.trans ((List.perm_cons_erase hid).map (record d.trace))
  exact List.Perm.cons_inv (hremove.symm.trans hlive)

/-- A payload that `add_range` accepts begins where no recorded one does. -/
theorem lo_not_mem {lib : Memlib} {ranges : List Range} (hne : ∀ p ∈ ranges, p.lo ≤ p.hi) {lo : Nat} {size : Int}
    (hacc : Accepts lib ranges lo size) : lo ∉ ranges.map Range.lo := by
  intro hmem
  obtain ⟨p, hp, rfl⟩ := List.mem_map.mp hmem
  have hend := hacc.ends p hp
  have hle := hne p hp
  simp [endInside, hle] at hend

/-- An id that is not among `ids` can be remembered without touching their records. -/
theorem map_record_remember {ids : List Int} {t : Trace} {index : Int} (hindex : index ∉ ids) (p : Nat) (size : Int) :
    ids.map (record (t.remember index p size)) = ids.map (record t) := by
  apply List.map_congr_left
  intro id hid
  have hne : id ≠ index := fun heq => hindex (heq ▸ hid)
  simp only [record, Trace.remember, Function.update_of_ne hne]

theorem record_remember {t : Trace} {index size : Int} (hsize : PosInt size) (p : Nat) :
    record (t.remember index p size) index = ⟨p, lastByte p size⟩ := by
  have hpos := hsize.1
  simp only [record, Trace.remember, Function.update_self, toNat_toSizeT hpos.le hsize.2, lastByte]

/-- A block that is freed or moved takes its record with it. -/
theorem removed (h : Mirror d live) {id : Int} (hid : id ∈ live) (priv : σ) (lib : Memlib) :
    Mirror { d with priv := priv, lib := lib, ranges := Driver.removeRange d.ranges (d.trace.blocks id) }
      (live.erase id) := by
  have hsub := removeRange_sublist d.ranges (d.trace.blocks id)
  exact ⟨h.live_nodup.erase id, (h.removeRange hid).2, h.lo_nodup.sublist (hsub.map Range.lo),
    fun p hp => h.nonempty p (hsub.subset hp)⟩

/-- The record of an accepted block joins the others. -/
theorem accepted (h : Mirror d live) {index size : Int} (hindex : index ∉ live) (hsize : PosInt size) {lib : Memlib}
    {p : Nat} (hacc : Accepts lib d.ranges p size) (priv : σ) :
    Mirror (d.accepted priv lib d.ranges index p size) (index :: live) := by
  refine ⟨List.nodup_cons.mpr ⟨hindex, h.live_nodup⟩, ?_,
    List.nodup_cons.mpr ⟨lo_not_mem h.nonempty hacc, h.lo_nodup⟩,
    List.forall_mem_cons.mpr ⟨le_lastByte p hsize, h.nonempty⟩⟩
  change (⟨p, lastByte p size⟩ :: d.ranges).Perm ((index :: live).map (record (d.trace.remember index p size)))
  rw [List.map_cons, record_remember hsize, map_record_remember hindex]
  exact h.ranges_perm.cons _

theorem perm_live {live' : List Int} (h : Mirror d live) (hperm : live.Perm live') : Mirror d live' :=
  ⟨hperm.nodup_iff.mp h.live_nodup, h.ranges_perm.trans (hperm.map _), h.lo_nodup, h.nonempty⟩

/-- One request that `eval_mm_valid` interprets and goes on from. -/
theorem step {A : Allocator σ} {tracenum i : Int} {op : TraceOp} {d' : Session σ} (h : Mirror d live)
    (hop : OpOk live op) (hstep : validStep A tracenum i op d = .ok (true, d')) :
    Mirror d' (liveAfter live op) := by
  obtain ⟨type, index, size⟩ := op
  cases type with
  | alloc =>
      obtain ⟨hindex, hsize⟩ := hop
      obtain ⟨p, priv, lib, -, -, hacc, -, rfl⟩ := of_validAlloc hsize hstep
      exact h.accepted hindex hsize hacc priv
  | realloc =>
      obtain ⟨hindex, hsize⟩ := hop
      obtain ⟨newp, priv, lib, -, -, hacc, -, rfl⟩ := of_validRealloc hsize hstep
      have hnew := (h.removed hindex d.priv d.lib).accepted h.live_nodup.not_mem_erase hsize hacc priv
      exact hnew.perm_live (List.perm_cons_erase hindex).symm
  | free =>
      obtain ⟨priv, lib, -, -, -, rfl⟩ := of_validFree hstep
      exact h.removed hop priv lib

theorem restart (d : Session σ) {A : Allocator σ} {r : Int} {d₀ : Session σ}
    (hinit : d.restart.callInit A = .ok (r, d₀)) : Mirror d₀ [] ∧ d₀.trace = d.trace := by
  obtain ⟨⟨r', priv, lib⟩, -, hret⟩ := bind_eq_ok hinit
  cases hret
  exact ⟨⟨List.nodup_nil, .refl _, List.nodup_nil, fun p hp => by cases hp⟩, rfl⟩

end Mirror

/-- The ids live after the requests `ops`. -/
def liveIds (ops : List TraceOp) : List Int := ops.foldl liveAfter []

theorem wellFormedFrom_append {live : List Int} {pre post : List TraceOp} :
    WellFormedFrom live (pre ++ post) ↔ WellFormedFrom live pre ∧ WellFormedFrom (pre.foldl liveAfter live) post := by
  induction pre generalizing live with
  | nil => simp [WellFormedFrom]
  | cons op ops ih => simp only [List.cons_append, WellFormedFrom, ih, List.foldl_cons, and_assoc]

theorem mirror_of_validLoop {A : Allocator σ} {tracenum i : Int} {ops : List TraceOp} {live : List Int}
    {d d' : Session σ} (h : Mirror d live) (hops : WellFormedFrom live ops)
    (hrun : validLoop A tracenum i ops d = .ok (1, d')) : Mirror d' (ops.foldl liveAfter live) := by
  induction ops generalizing live d i with
  | nil =>
      cases hrun
      exact h
  | cons op ops ih =>
      obtain ⟨⟨continues, d₁⟩, hstep, hrest⟩ := bind_eq_ok hrun
      cases continues with
      | false => cases hrest
      | true => exact ih (h.step hops.1 hstep) hops.2 hrest

/-- **The bookkeeping mirrors the live set.** However the allocator answers, after every prefix of a
well-formed trace that `eval_mm_valid` has worked through, the range list is the list of the records of
the live ids, one each; and if the next request frees or moves a block, `remove_range` takes out the
record of that block and no other. -/
theorem ranges_mirror_live {A : Allocator σ} {tracenum r : Int} {d d₀ d' : Session σ}
    (hwf : WellFormedFrom [] d.trace.ops) (hinit : d.restart.callInit A = .ok (r, d₀))
    {pre post : List TraceOp} (hops : d.trace.ops = pre ++ post)
    (hrun : validLoop A tracenum 0 pre d₀ = .ok (1, d')) :
    (liveIds pre).Nodup ∧ d'.ranges.Perm ((liveIds pre).map (record d'.trace)) ∧
      ∀ op ∈ post.head?, op.type ≠ .alloc →
        d'.ranges.Perm (record d'.trace op.index :: removeRange d'.ranges (d'.trace.blocks op.index)) := by
  rw [hops, wellFormedFrom_append] at hwf
  have hmirror := mirror_of_validLoop (Mirror.restart d hinit).1 hwf.1 hrun
  refine ⟨hmirror.live_nodup, hmirror.ranges_perm, fun op hop htype => (hmirror.removeRange ?_).1⟩
  cases post with
  | nil => cases hop
  | cons next rest =>
      obtain rfl : next = op := by simpa using hop
      obtain ⟨hnext, -⟩ := hwf.2
      obtain ⟨type, index, size⟩ := next
      cases type with
      | alloc => exact absurd rfl htype
      | realloc => exact hnext.1
      | free => exact hnext

/-- A session on an empty heap at address 4096, with a trace of two ids that makes every kind of request. -/
def exampleSession : Session Unit where
  lib := exampleLib
  priv := ()
  trace := ⟨2, [⟨.alloc, 0, 16⟩, ⟨.alloc, 1, 8⟩, ⟨.realloc, 0, 40⟩, ⟨.free, 1, 0⟩], fun _ => 0, fun _ => 0⟩
  ranges := []
  report := ⟨0, []⟩
  returned := []

theorem ranges_mirror_live_example :
    ∃ d', validLoop naive 0 0 [⟨.alloc, 0, 16⟩, ⟨.alloc, 1, 8⟩] exampleSession = .ok (1, d') ∧
      d'.ranges.Perm ([1, 0].map (record d'.trace)) := by
  have hrun : (validLoop naive 0 0 [⟨.alloc, 0, 16⟩, ⟨.alloc, 1, 8⟩] exampleSession).map Prod.fst = .ok 1 := by
    decide +kernel
  obtain ⟨d', hrun⟩ := exists_eq_ok_of_map_fst hrun
  exact ⟨d', hrun, (ranges_mirror_live (A := naive) (r := 0) (d := exampleSession) (by decide) rfl
    (show exampleSession.trace.ops = _ ++ [⟨.realloc, 0, 40⟩, ⟨.free, 1, 0⟩] from rfl) hrun).2.1⟩

end CsoLabs.Driver
