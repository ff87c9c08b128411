import CsoLabs.DriverAccept

/-! What a 1 of `eval_mm_valid` proves. Nothing is assumed of the allocator under test. The range list is
then the list of the live payloads in the order in which they were last handed out, and two of them that
share a byte are nested, the newer one around the older: the shape the overlap test does not see. -/

namespace CsoLabs.Driver
open CLang ByteMemory Malloc

variable {σ : Type}

/-- The two payloads share no byte, or the newer goes all around the older. -/
def ApartOrAround (older newer : Range) : Prop :=
  ¬ older.Meets newer ∨ (newer.lo < older.lo ∧ older.hi < newer.hi)

/-- The live ids after a request, the one handed out last in front. -/
def handedAfter (ids : List Int) (op : TraceOp) : List Int :=
  match op.type with
  | .alloc => op.index :: ids
  | .realloc => op.index :: ids.erase op.index
  | .free => ids.erase op.index

/-- The live ids after the requests `ops`, in the order in which their blocks were last handed out. -/
def handedOut (ops : List TraceOp) : List Int := ops.foldl handedAfter []

/-- `mm_realloc`, called for this request, moves the bytes that the old and the new size both cover. -/
def MovesData (A : Allocator σ) (d : Session σ) (op : TraceOp) : Prop :=
  ∃ newp priv lib, A.mmRealloc (d.trace.blocks op.index) (toSizeT op.size) d.priv d.lib = .ok (newp, priv, lib) ∧
    newp ≠ null ∧
    ∀ j < min (d.trace.blockSizes op.index).toNat op.size.toNat, lib.mem (newp + j) = fillByte op.index

theorem apartOrAround_of_ends {older : Range} (holder : older.lo ≤ older.hi) {lo : Nat} {size : Int}
    (hsize : PosInt size) (hends : endInside lo (lastByte lo size) older = false) :
    ApartOrAround older ⟨lo, lastByte lo size⟩ := by
  by_cases hmeets : older.Meets ⟨lo, lastByte lo size⟩
  · rcases (meets_iff holder (le_lastByte lo hsize)).mp hmeets with hend | haround
    · rw [hends] at hend
      cases hend
    · exact .inr haround
  · exact .inl hmeets

/-- Among records with different low addresses, `remove_range` takes out the one of the id. -/
theorem removeRange_records {t : Trace} {ids : List Int} (hlo : (ids.map t.blocks).Nodup) {id : Int}
    (hid : id ∈ ids) : removeRange (ids.map (record t)) (t.blocks id) = (ids.erase id).map (record t) := by
  induction ids with
  | nil => cases hid
  | cons first rest ih =>
      obtain ⟨hfirst, hrest⟩ := List.nodup_cons.mp hlo
      rw [List.map_cons, removeRange]
      by_cases heq : first = id
      · rw [heq, List.erase_cons_head]
        exact if_pos rfl
      · have hmem : id ∈ rest := (List.mem_cons.mp hid).resolve_left (Ne.symm heq)
        have hne : (record t first).lo ≠ t.blocks id := by
          intro hb
          change t.blocks first = t.blocks id at hb
          exact hfirst (hb ▸ List.mem_map_of_mem hmem)
        rw [if_neg hne, ih hrest hmem, List.erase_cons_tail (by simpa using heq), List.map_cons]

theorem movesData_of_validRealloc {A : Allocator σ} {tracenum i index size : Int} {d d' : Session σ}
    (hsize : PosInt size)
    (hold : 1 ≤ (d.trace.blockSizes index).toNat ∧ ((d.trace.blockSizes index).toNat : Int) ≤ intMax)
    (h : validRealloc A tracenum i index size d = .ok (true, d')) :
    index % 256 < 128 ∧ MovesData A d ⟨.realloc, index, size⟩ := by
  obtain ⟨newp, priv, lib, hcall, hp, hacc, hid, -⟩ := of_validRealloc hsize h
  rw [validRealloc_ok tracenum i hsize hid hcall hp hacc] at h
  split at h
  · rename_i hkept
    have hpos := hsize.1
    have hchecked := toNat_checkedBytes hsize hold
    obtain ⟨hlow, hbytes⟩ := of_dataKept (by omega) hkept
    rw [hchecked] at hbytes
    exact ⟨hlow, newp, priv, lib, hcall, hp, hbytes⟩
  · cases h

/-- What the driver has tested of the blocks that are live. -/
structure Vetted (d : Session σ) (ids : List Int) : Prop where
  mirror : Mirror d ids
  sizes : ∀ id ∈ ids, 1 ≤ (d.trace.blockSizes id).toNat ∧ ((d.trace.blockSizes id).toNat : Int) ≤ intMax
  ranges_eq : d.ranges = ids.map (record d.trace)
  aligned : ∀ p ∈ d.ranges, 16 ∣ p.lo
  apart : d.ranges.Pairwise fun newer older => ApartOrAround older newer

namespace Vetted

variable {d : Session σ} {ids : List Int}

theorem removed (h : Vetted d ids) {id : Int} (hid : id ∈ ids) (priv : σ) (lib : Memlib) :
    Vetted { d with priv := priv, lib := lib, ranges := removeRange d.ranges (d.trace.blocks id) }
      (ids.erase id) := by
  have hsub := removeRange_sublist d.ranges (d.trace.blocks id)
  have hlo : (ids.map d.trace.blocks).Nodup := by
    have hnodup := h.mirror.lo_nodup
    rwa [h.ranges_eq, List.map_map] at hnodup
  refine ⟨h.mirror.removed hid priv lib, fun id' hid' => h.sizes id' (List.mem_of_mem_erase hid'), ?_,
    fun p hp => h.aligned p (hsub.subset hp), h.apart.sublist hsub⟩
  change removeRange d.ranges (d.trace.blocks id) = (ids.erase id).map (record d.trace)
  rw [h.ranges_eq]
  exact removeRange_records hlo hid

/-- An accepted block goes in front of the others. -/
theorem accepted (h : Vetted d ids) {index size : Int} (hindex : index ∉ ids) (hsize : PosInt size) {lib : Memlib}
    {p : Nat} (hacc : Accepts lib d.ranges p size) (priv : σ) :
    Vetted (d.accepted priv lib d.ranges index p size) (index :: ids) := by
  refine ⟨h.mirror.accepted hindex hsize hacc priv, Served.sizes_remember p hsize h.sizes, ?_,
    List.forall_mem_cons.mpr ⟨hacc.aligned, h.aligned⟩, List.pairwise_cons.mpr ⟨fun q hq => ?_, h.apart⟩⟩
  · change ⟨p, lastByte p size⟩ :: d.ranges = (index :: ids).map (record (d.trace.remember index p size))
    rw [List.map_cons, Mirror.record_remember hsize, Mirror.map_record_remember hindex, h.ranges_eq]
  · exact apartOrAround_of_ends (h.mirror.nonempty q hq) hsize (hacc.ends q hq)

/-- One request that `eval_mm_valid` goes on from. A REALLOC has moved the data, and the comparison that saw it
can only come out true for an id whose low byte is below 128. -/
theorem step {A : Allocator σ} {tracenum i : Int} {op : TraceOp} {d' : Session σ} (h : Vetted d ids)
    (hop : OpOk ids op) (hstep : validStep A tracenum i op d = .ok (true, d')) :
    Vetted d' (handedAfter ids op) ∧ (op.type = .realloc → op.index % 256 < 128 ∧ MovesData A d op) := by
  obtain ⟨type, index, size⟩ := op
  cases type with
  | alloc =>
      obtain ⟨hindex, hsize⟩ := hop
      obtain ⟨p, priv, lib, -, -, hacc, -, rfl⟩ := of_validAlloc hsize hstep
      exact ⟨h.accepted hindex hsize hacc priv, fun htype => by cases htype⟩
  | realloc =>
      obtain ⟨hindex, hsize⟩ := hop
      have hmoves := movesData_of_validRealloc hsize (h.sizes index hindex) hstep
      obtain ⟨newp, priv, lib, -, -, hacc, -, rfl⟩ := of_validRealloc hsize hstep
      -- the old record goes before the new payload is tested, so that a block may be moved onto itself
      have hremoved := h.removed hindex d.priv d.lib
      exact ⟨hremoved.accepted h.mirror.live_nodup.not_mem_erase hsize hacc priv, fun _ => hmoves⟩
  | free =>
      obtain ⟨priv, lib, -, -, -, rfl⟩ := of_validFree hstep
      exact ⟨h.removed hop priv lib, fun htype => by cases htype⟩

end Vetted

/-- The order in which the blocks were handed out does not matter for which are live. -/
theorem handedAfter_perm {live ids : List Int} (hperm : live.Perm ids) {op : TraceOp} (hop : OpOk live op) :
    (liveAfter live op).Perm (handedAfter ids op) := by
  obtain ⟨type, index, size⟩ := op
  cases type with
  | alloc => exact hperm.cons index
  | realloc => exact hperm.trans (List.perm_cons_erase (hperm.mem_iff.mp hop.1))
  | free => exact hperm.erase index

theorem OpOk.perm {live ids : List Int} (hperm : live.Perm ids) {op : TraceOp} (hop : OpOk live op) : OpOk ids op := by
  obtain ⟨type, index, size⟩ := op
  cases type with
  | alloc => exact ⟨fun hmem => hop.1 (hperm.mem_iff.mpr hmem), hop.2⟩
  | realloc => exact ⟨hperm.mem_iff.mp hop.1, hop.2⟩
  | free => exact hperm.mem_iff.mp hop

/-- `eval_mm_valid` works through the requests `pre` before it comes to the rest. -/
theorem validLoop_append {A : Allocator σ} {tracenum i : Int} {pre post : List TraceOp} {d d' : Session σ}
    (hrun : validLoop A tracenum i (pre ++ post) d = .ok (1, d')) :
    ∃ dm j, validLoop A tracenum i pre d = .ok (1, dm) ∧ validLoop A tracenum j post dm = .ok (1, d') := by
  induction pre generalizing i d with
  | nil => exact ⟨d, i, rfl, hrun⟩
  | cons op ops ih =>
      obtain ⟨⟨continues, d₁⟩, hstep, hrest⟩ := bind_eq_ok hrun
      cases continues with
      | false => cases hrest
      | true =>
          obtain ⟨dm, j, hpre, hpost⟩ := ih hrest
          refine ⟨dm, j, ?_, hpost⟩
          rw [validLoop, hstep]
          exact hpre

theorem vetted_of_validLoop {A : Allocator σ} {tracenum i : Int} {ops : List TraceOp} {live ids : List Int}
    (hperm : live.Perm ids) {d d' : Session σ} (h : Vetted d ids) (hops : WellFormedFrom live ops)
    (hrun : validLoop A tracenum i ops d = .ok (1, d')) :
    Vetted d' (ops.foldl handedAfter ids) ∧ (ops.foldl liveAfter live).Perm (ops.foldl handedAfter ids) := by
  induction ops generalizing live ids d i with
  | nil =>
      cases hrun
      exact ⟨h, hperm⟩
  | cons op ops ih =>
      obtain ⟨⟨continues, d₁⟩, hstep, hrest⟩ := bind_eq_ok hrun
      cases continues with
      | false => cases hrest
      | true => exact ih (handedAfter_perm hperm hops.1) (h.step (hops.1.perm hperm) hstep).1 hops.2 hrest

theorem evalMmValid_eq_one {A : Allocator σ} {tracenum : Int} {d d' : Session σ}
    (hrun : evalMmValid A tracenum d = .ok (1, d')) :
    ∃ r d₀, d.restart.callInit A = .ok (r, d₀) ∧ 0 ≤ r ∧ validLoop A tracenum 0 d₀.trace.ops d₀ = .ok (1, d') := by
  obtain ⟨⟨r, d₀⟩, hinit, hrest⟩ := bind_eq_ok hrun
  dsimp only at hrest
  by_cases hr : r < 0
  · rw [if_pos hr] at hrest
    cases hrest
  · rw [if_neg hr] at hrest
    exact ⟨r, d₀, hinit, not_lt.mp hr, hrest⟩

/-- **What a valid trace proves.** If `eval_mm_valid` returns 1, then after every prefix of the trace the range
list is the list of the live payloads, the one handed out last in front; each is aligned, and a newer one shares a
byte with an older one only if it goes all around it. A REALLOC that follows has moved the data, and its id has a
low byte below 128: with any other id the trace is invalid for every allocator. -/
theorem evalMmValid_sound {A : Allocator σ} {tracenum : Int} {d d' : Session σ}
    (hwf : WellFormedFrom [] d.trace.ops) (hrun : evalMmValid A tracenum d = .ok (1, d')) {pre post : List TraceOp}
    (hops : d.trace.ops = pre ++ post) :
    ∃ r d₀ dm, d.restart.callInit A = .ok (r, d₀) ∧ 0 ≤ r ∧ validLoop A tracenum 0 pre d₀ = .ok (1, dm) ∧
      (handedOut pre).Perm (liveIds pre) ∧ dm.ranges = (handedOut pre).map (record dm.trace) ∧
      (∀ id ∈ handedOut pre, 16 ∣ dm.trace.blocks id ∧ 1 ≤ (dm.trace.blockSizes id).toNat) ∧
      (handedOut pre).Pairwise (fun newer older => ApartOrAround (record dm.trace older) (record dm.trace newer)) ∧
      ∀ op ∈ post.head?, op.type = .realloc → op.index % 256 < 128 ∧ MovesData A dm op := by
  obtain ⟨r, d₀, hinit, hr, hloop⟩ := evalMmValid_eq_one hrun
  obtain ⟨hmirror, htrace⟩ := Mirror.restart d hinit
  have hranges : d₀.ranges = [] := hmirror.ranges_perm.eq_nil
  have hvetted : Vetted d₀ [] := ⟨hmirror, by simp, hranges, by simp [hranges], by simp [hranges]⟩
  rw [htrace, hops] at hloop
  rw [hops, wellFormedFrom_append] at hwf
  obtain ⟨dm, j, hpre, hpost⟩ := validLoop_append hloop
  obtain ⟨hvet, hperm⟩ := vetted_of_validLoop (List.Perm.refl _) hvetted hwf.1 hpre
  have hapart := hvet.apart
  rw [hvet.ranges_eq, List.pairwise_map] at hapart
  refine ⟨r, d₀, dm, hinit, hr, hpre, hperm.symm, hvet.ranges_eq, fun id hid => ⟨?_, (hvet.sizes id hid).1⟩, hapart,
    fun op hop => ?_⟩
  · have hmem : record dm.trace id ∈ dm.ranges := by
      rw [hvet.ranges_eq]
      exact List.mem_map_of_mem hid
    exact hvet.aligned _ hmem
  · cases post with
    | nil => cases hop
    | cons next rest =>
        obtain rfl : next = op := by simpa using hop
        obtain ⟨⟨continues, d₁⟩, hstep, hrest⟩ := bind_eq_ok hpost
        cases continues with
        | false => cases hrest
        | true => exact (hvet.step (hwf.2.1.perm hperm) hstep).2

theorem evalMmValid_sound_example :
    ∃ dm : Session Unit, dm.ranges = [1, 0].map (record dm.trace) ∧
      ApartOrAround (record dm.trace 0) (record dm.trace 1) ∧ MovesData naive dm ⟨.realloc, 0, 40⟩ := by
  have hrun : (evalMmValid naive 0 exampleSession).map Prod.fst = .ok 1 := by decide +kernel
  obtain ⟨d', hrun⟩ := exists_eq_ok_of_map_fst hrun
  obtain ⟨-, -, dm, -, -, -, -, hranges, -, hapart, hmoves⟩ := evalMmValid_sound (by decide) hrun
    (show exampleSession.trace.ops = [⟨.alloc, 0, 16⟩, ⟨.alloc, 1, 8⟩] ++ [⟨.realloc, 0, 40⟩, ⟨.free, 1, 0⟩] from rfl)
  exact ⟨dm, hranges, (List.pairwise_cons.mp hapart).1 0 List.mem_cons_self, (hmoves _ rfl rfl).2⟩

end CsoLabs.Driver
