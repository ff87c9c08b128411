import CsoLabs.MallocMemlib

/-! The range list of `mdriver.c`. The driver records the payload of every block the allocator under
test hands out, and refuses a payload that is misaligned, leaves the heap, or meets a recorded one.
The last test looks only at the two ends of the new payload. -/

namespace CsoLabs.Driver
open CLang Malloc

/-- The payload `[lo, hi]` of a block. -/
structure Range where
  lo : Nat
  hi : Nat
  deriving DecidableEq

/-- The counter `errors` and the lines printed so far. -/
structure Report where
  errors : Nat
  output : List String

/-- A pointer as `%p` prints it. -/
def ptrText (p : Nat) : String := if p = 0 then "(nil)" else "0x" ++ String.ofList (Nat.toDigits 16 p)

/-- Requests are numbered from 0 and start on line 5 of a trace file. -/
def mallocError (tracenum opnum : Int) (msg : String) (r : Report) : Report where
  errors := r.errors + 1
  output := r.output ++ ["ERROR [trace " ++ toString tracenum ++ ", line " ++ toString (opnum + 5) ++ "]: " ++
    msg ++ "\n"]

/-- `lo + size - 1` as a 64-bit address: an allocator may return an address near the top. -/
def rangeHi (lo : Nat) (size : Int) : Nat := (((lo : Int) + size - 1) % 2 ^ 64).toNat

/-- The test on one recorded payload: one of the two ends lies in it. -/
def endInside (lo hi : Nat) (p : Range) : Bool :=
  (p.lo ≤ lo && lo ≤ p.hi) || (p.lo ≤ hi && hi ≤ p.hi)

def addRange (lib : Memlib) (ranges : List Range) (lo : Nat) (size tracenum opnum : Int) (r : Report) :
    Except Abort (Int × List Range × Report) := do
  let hi := rangeHi lo size
  assertC (0 < size) "size > 0"
  if isAligned lo = false then
    return (0, ranges, mallocError tracenum opnum
      ("Payload address (" ++ ptrText lo ++ ") not aligned to " ++ toString alignment ++ " bytes") r)
  else if lo < lib.memHeapLo ∨ lib.memHeapHi < lo ∨ hi < lib.memHeapLo ∨ lib.memHeapHi < hi then
    return (0, ranges, mallocError tracenum opnum
      ("Payload (" ++ ptrText lo ++ ":" ++ ptrText hi ++ ") lies outside heap (" ++ ptrText lib.memHeapLo ++ ":" ++
        ptrText lib.memHeapHi ++ ")") r)
  else
    match ranges.find? (endInside lo hi) with
    | some p =>
        return (0, ranges, mallocError tracenum opnum
          ("Payload (" ++ ptrText lo ++ ":" ++ ptrText hi ++ ") overlaps another payload (" ++ ptrText p.lo ++ ":" ++
            ptrText p.hi ++ ")\n") r)
    | none => return (1, ⟨lo, hi⟩ :: ranges, r)

/-- The first record that starts at `lo` is unlinked. -/
def removeRange : List Range → Nat → List Range
  | [], _ => []
  | p :: ps, lo => if p.lo = lo then ps else p :: removeRange ps lo

/-! ### What one call does -/

/-- The last byte of a payload of `size` bytes at `lo`. -/
def lastByte (lo : Nat) (size : Int) : Nat := lo + size.toNat - 1

/-- The two ranges share a byte. -/
def Range.Meets (p q : Range) : Prop := ∃ x, p.lo ≤ x ∧ x ≤ p.hi ∧ q.lo ≤ x ∧ x ≤ q.hi

/-- What `add_range` tests, said of the payload without the wrap of `hi`. -/
structure Accepts (lib : Memlib) (ranges : List Range) (lo : Nat) (size : Int) : Prop where
  aligned : 16 ∣ lo
  lo_ge : lib.memHeapLo ≤ lo
  hi_le : lastByte lo size ≤ lib.memHeapHi
  ends : ∀ p ∈ ranges, endInside lo (lastByte lo size) p = false

/-- What a payload should satisfy. -/
structure Legit (lib : Memlib) (ranges : List Range) (lo : Nat) (size : Int) : Prop where
  aligned : 16 ∣ lo
  lo_ge : lib.memHeapLo ≤ lo
  hi_le : lastByte lo size ≤ lib.memHeapHi
  apart : ∀ p ∈ ranges, ¬ p.Meets ⟨lo, lastByte lo size⟩

/-- A C `int` that is positive. -/
def PosInt (size : Int) : Prop := 0 < size ∧ size ≤ intMax

theorem memHeapHi_lt (lib : Memlib) : lib.memHeapHi < 2 ^ 47 := by
  have hpos := lib.start_pos
  have hbrk := lib.start_le_brk
  have hmax := lib.brk_le_max.trans lib.max_le
  simp only [Memlib.memHeapHi]
  omega

theorem rangeHi_eq {lo : Nat} {size : Int} (hlo : lo < 2 ^ 47) (hsize : PosInt size) :
    rangeHi lo size = lastByte lo size := by
  obtain ⟨hpos, hle⟩ := hsize
  simp only [intMax] at hle
  simp only [rangeHi, lastByte]
  omega

theorem le_lastByte (lo : Nat) {size : Int} (hsize : PosInt size) : lo ≤ lastByte lo size := by
  have := hsize.1
  simp only [lastByte]
  omega

/-- `add_range` returns 1 and records the payload, or returns 0, complains and records nothing. -/
theorem addRange_spec (lib : Memlib) (ranges : List Range) (lo : Nat) {size : Int} (hsize : PosInt size)
    (tracenum opnum : Int) (r : Report) :
    (Accepts lib ranges lo size ∧ addRange lib ranges lo size tracenum opnum r =
        .ok (1, ⟨lo, lastByte lo size⟩ :: ranges, r)) ∨
      (¬ Accepts lib ranges lo size ∧ ∃ msg, addRange lib ranges lo size tracenum opnum r =
        .ok (0, ranges, mallocError tracenum opnum msg r)) := by
  have hheap := memHeapHi_lt lib
  have hlast := le_lastByte lo hsize
  simp only [addRange, decide_eq_true hsize.1, assertC_true, ok_bind]
  by_cases haligned : isAligned lo = false
  · right
    refine ⟨fun hacc => ?_, _, if_pos haligned⟩
    have hdvd := hacc.aligned
    simp only [isAligned, alignment, beq_eq_false_iff_ne] at haligned
    omega
  rw [if_neg haligned]
  by_cases hout : lo < lib.memHeapLo ∨ lib.memHeapHi < lo ∨ rangeHi lo size < lib.memHeapLo ∨
      lib.memHeapHi < rangeHi lo size
  · right
    refine ⟨fun hacc => ?_, _, if_pos hout⟩
    have hlo := hacc.lo_ge
    have hhi := hacc.hi_le
    rw [rangeHi_eq (by omega) hsize] at hout
    omega
  rw [if_neg hout]
  have hhi : rangeHi lo size = lastByte lo size := rangeHi_eq (by omega) hsize
  rw [hhi] at hout ⊢
  cases hfind : ranges.find? (endInside lo (lastByte lo size)) with
  | some p =>
      right
      refine ⟨fun hacc => ?_, _, rfl⟩
      have hend := List.find?_some hfind
      rw [hacc.ends p (List.mem_of_find?_eq_some hfind)] at hend
      cases hend
  | none =>
      left
      refine ⟨⟨?_, by omega, by omega, ?_⟩, rfl⟩
      · simp only [isAligned, alignment, beq_eq_false_iff_ne, ne_eq, not_not] at haligned
        omega
      · intro p hp
        simpa using List.find?_eq_none.mp hfind p hp

theorem removeRange_sublist (ranges : List Range) (lo : Nat) : (removeRange ranges lo).Sublist ranges := by
  induction ranges with
  | nil => exact List.Sublist.refl _
  | cons p ps ih =>
      rw [removeRange]
      split
      · exact List.sublist_cons_self p ps
      · exact ih.cons_cons p

/-! ### Where the detector is exact -/

/-- The new payload reaches past a recorded one on both sides, and nothing recorded holds one of its
ends: the shape the test does not see. -/
structure Swallows (lib : Memlib) (ranges : List Range) (lo : Nat) (size : Int) : Prop where
  aligned : 16 ∣ lo
  lo_ge : lib.memHeapLo ≤ lo
  hi_le : lastByte lo size ≤ lib.memHeapHi
  around : ∃ p ∈ ranges, lo < p.lo ∧ p.hi < lastByte lo size
  ends : ∀ p ∈ ranges, endInside lo (lastByte lo size) p = false

/-- Two ranges meet in an end of the second, or the second goes all around the first. -/
theorem meets_iff {p : Range} (hp : p.lo ≤ p.hi) {lo hi : Nat} (hle : lo ≤ hi) :
    p.Meets ⟨lo, hi⟩ ↔ endInside lo hi p = true ∨ (lo < p.lo ∧ p.hi < hi) := by
  simp only [Range.Meets, endInside, Bool.or_eq_true, Bool.and_eq_true, decide_eq_true_eq]
  constructor
  · rintro ⟨x, h1, h2, h3, h4⟩
    omega
  · rintro ((⟨h1, h2⟩ | ⟨h1, h2⟩) | ⟨h1, h2⟩)
    · exact ⟨lo, h1, h2, le_rfl, hle⟩
    · exact ⟨hi, h1, h2, hle, le_rfl⟩
    · exact ⟨p.lo, le_rfl, hp, by omega, by omega⟩

theorem legit_iff (lib : Memlib) {ranges : List Range} (hranges : ∀ p ∈ ranges, p.lo ≤ p.hi) (lo : Nat)
    {size : Int} (hsize : PosInt size) :
    Legit lib ranges lo size ↔ Accepts lib ranges lo size ∧ ¬ Swallows lib ranges lo size := by
  have hlast := le_lastByte lo hsize
  constructor
  · rintro ⟨haligned, hlo, hhi, hapart⟩
    refine ⟨⟨haligned, hlo, hhi, fun p hp => ?_⟩, fun hswallow => ?_⟩
    · have hmeets := mt (meets_iff (hranges p hp) hlast).mpr (hapart p hp)
      rw [not_or, Bool.not_eq_true] at hmeets
      exact hmeets.1
    · obtain ⟨p, hp, haround⟩ := hswallow.around
      exact hapart p hp ((meets_iff (hranges p hp) hlast).mpr (.inr haround))
  · rintro ⟨⟨haligned, hlo, hhi, hends⟩, hswallow⟩
    refine ⟨haligned, hlo, hhi, fun p hp hmeets => ?_⟩
    rcases (meets_iff (hranges p hp) hlast).mp hmeets with hend | haround
    · rw [hends p hp] at hend
      cases hend
    · exact hswallow ⟨haligned, hlo, hhi, ⟨p, hp, haround⟩, hends⟩

/-! ### Histories of calls -/

/-- A call on the range list. The heap may have grown since the last one. -/
inductive RangeCall where
  | add (lib : Memlib) (lo : Nat) (size tracenum opnum : Int)
  | remove (lo : Nat)

def RangeCall.Valid : RangeCall → Prop
  | .add _ _ size _ _ => PosInt size
  | .remove _ => True

def PairwiseApart (ranges : List Range) : Prop := ranges.Pairwise fun p q => ¬ p.Meets q

/-- From these ranges on, every call of `add_range` returns 1 exactly for a legitimate payload, changes
nothing when it returns 0, and the recorded payloads stay apart. -/
def ExactFrom : List RangeCall → List Range → Report → Prop
  | [], ranges, _ => PairwiseApart ranges
  | .add lib lo size tracenum opnum :: calls, ranges, r => PairwiseApart ranges ∧
      match addRange lib ranges lo size tracenum opnum r with
      | .ok (v, ranges', r') => (v = 1 ↔ Legit lib ranges lo size) ∧ (v = 0 ∨ v = 1) ∧
          (v = 0 → ranges' = ranges) ∧ ExactFrom calls ranges' r'
      | .error _ => False
  | .remove lo :: calls, ranges, r => PairwiseApart ranges ∧ ExactFrom calls (removeRange ranges lo) r

/-- No call of `add_range` gets a payload that swallows a recorded one. -/
def NoneSwallowed : List RangeCall → List Range → Report → Prop
  | [], _, _ => True
  | .add lib lo size tracenum opnum :: calls, ranges, r => ¬ Swallows lib ranges lo size ∧
      match addRange lib ranges lo size tracenum opnum r with
      | .ok (_, ranges', r') => NoneSwallowed calls ranges' r'
      | .error _ => True
  | .remove lo :: calls, ranges, r => NoneSwallowed calls (removeRange ranges lo) r

instance decidableSwallows (lib : Memlib) (ranges : List Range) (lo : Nat) (size : Int) :
    Decidable (Swallows lib ranges lo size) :=
  decidable_of_iff (16 ∣ lo ∧ lib.memHeapLo ≤ lo ∧ lastByte lo size ≤ lib.memHeapHi ∧
      (∃ p ∈ ranges, lo < p.lo ∧ p.hi < lastByte lo size) ∧ ∀ p ∈ ranges, endInside lo (lastByte lo size) p = false)
    ⟨fun ⟨haligned, hlo, hhi, haround, hends⟩ => ⟨haligned, hlo, hhi, haround, hends⟩,
      fun h => ⟨h.aligned, h.lo_ge, h.hi_le, h.around, h.ends⟩⟩

instance decidableNoneSwallowed : (calls : List RangeCall) → (ranges : List Range) → (r : Report) →
    Decidable (NoneSwallowed calls ranges r)
  | [], _, _ => inferInstanceAs (Decidable True)
  | .add lib lo size tracenum opnum :: calls, ranges, r =>
      have : Decidable (match addRange lib ranges lo size tracenum opnum r with
          | .ok (_, ranges', r') => NoneSwallowed calls ranges' r'
          | .error _ => True) :=
        match addRange lib ranges lo size tracenum opnum r with
        | .ok (_, ranges', r') => decidableNoneSwallowed calls ranges' r'
        | .error _ => inferInstanceAs (Decidable True)
      inferInstanceAs (Decidable (_ ∧ _))
  | .remove lo :: calls, ranges, r => decidableNoneSwallowed calls (removeRange ranges lo) r

theorem exactFrom_iff {calls : List RangeCall} (hcalls : ∀ call ∈ calls, call.Valid) {ranges : List Range}
    (hranges : ∀ p ∈ ranges, p.lo ≤ p.hi) (hapart : PairwiseApart ranges) (r : Report) :
    ExactFrom calls ranges r ↔ NoneSwallowed calls ranges r := by
  induction calls generalizing ranges r with
  | nil => exact iff_of_true hapart trivial
  | cons call calls ih =>
      obtain ⟨hcall, hrestCalls⟩ := List.forall_mem_cons.mp hcalls
      cases call with
      | remove lo =>
          have hsub := removeRange_sublist ranges lo
          have hrest := ih hrestCalls (fun p hp => hranges p (hsub.subset hp)) (hapart.sublist hsub) r
          exact ⟨fun h => hrest.mp h.2, fun h => ⟨hapart, hrest.mpr h⟩⟩
      | add lib lo size tracenum opnum =>
          have hlegit := legit_iff lib hranges lo hcall
          rcases addRange_spec lib ranges lo hcall tracenum opnum r with ⟨hacc, hadd⟩ | ⟨hacc, msg, hadd⟩
          · simp only [ExactFrom, NoneSwallowed, hadd]
            -- once the payload is legitimate, the longer list is apart as well
            have hrest : Legit lib ranges lo size →
                (ExactFrom calls (⟨lo, lastByte lo size⟩ :: ranges) r ↔
                  NoneSwallowed calls (⟨lo, lastByte lo size⟩ :: ranges) r) := by
              intro hleg
              refine ih hrestCalls (List.forall_mem_cons.mpr ⟨le_lastByte lo hcall, hranges⟩) ?_ r
              refine List.pairwise_cons.mpr ⟨fun p hp hmeets => ?_, hapart⟩
              obtain ⟨x, h1, h2, h3, h4⟩ := hmeets
              exact hleg.apart p hp ⟨x, h3, h4, h1, h2⟩
            constructor
            · rintro ⟨-, hexact, -, -, htail⟩
              have hleg := hexact.mp trivial
              exact ⟨(hlegit.mp hleg).2, (hrest hleg).mp htail⟩
            · rintro ⟨hswallow, htail⟩
              have hleg := hlegit.mpr ⟨hacc, hswallow⟩
              exact ⟨hapart, iff_of_true trivial hleg, .inr trivial, by simp, (hrest hleg).mpr htail⟩
          · simp only [ExactFrom, NoneSwallowed, hadd]
            have hrest := ih hrestCalls hranges hapart (mallocError tracenum opnum msg r)
            have hswallow : ¬ Swallows lib ranges lo size :=
              fun h => hacc ⟨h.aligned, h.lo_ge, h.hi_le, h.ends⟩
            constructor
            · rintro ⟨-, -, -, -, htail⟩
              exact ⟨hswallow, hrest.mp htail⟩
            · rintro ⟨-, htail⟩
              refine ⟨hapart, iff_of_false (by decide) fun hleg => hacc (hlegit.mp hleg).1, .inl trivial,
                fun _ => trivial, hrest.mpr htail⟩

/-- **The overlap detector is exact as long as nothing is swallowed**, in every history that starts from the
empty list, and in no other. -/
theorem exactFrom_nil_iff {calls : List RangeCall} (hcalls : ∀ call ∈ calls, call.Valid) (r : Report) :
    ExactFrom calls [] r ↔ NoneSwallowed calls [] r :=
  exactFrom_iff hcalls (fun p hp => by cases hp) List.Pairwise.nil r

/-- A heap of 64 bytes at address 4096. -/
def smallHeap : Memlib := (exampleLib.memSbrk 64).2

/-- Two payloads are recorded; one that starts where the second does and one that leaves the heap are refused.
When the first is gone, a payload that runs into the second from below is refused, and a shorter one is not. -/
def smallHistory : List RangeCall :=
  [.add smallHeap 4096 16 0 0, .add smallHeap 4112 8 0 1, .add smallHeap 4112 16 0 2, .add smallHeap 4128 40 0 3,
    .remove 4096, .add smallHeap 4096 24 0 4, .add smallHeap 4096 16 0 5]

theorem exactFrom_nil_iff_smallHistory : ExactFrom smallHistory [] ⟨0, []⟩ := by
  have hvalid : ∀ call ∈ smallHistory, call.Valid := by
    simp [smallHistory, RangeCall.Valid, PosInt, intMax]
  exact (exactFrom_nil_iff hvalid ⟨0, []⟩).mpr (by decide +kernel)

/-- A payload around a recorded one is let through. -/
theorem not_exactFrom_nested :
    ¬ ExactFrom [.add smallHeap 4112 16 0 0, .add smallHeap 4096 48 0 1] [] ⟨0, []⟩ := by
  have hfirst : addRange smallHeap [] 4112 16 0 0 ⟨0, []⟩ = .ok (1, [⟨4112, 4127⟩], ⟨0, []⟩) := rfl
  have hsecond : addRange smallHeap [⟨4112, 4127⟩] 4096 48 0 1 ⟨0, []⟩ =
      .ok (1, [⟨4096, 4143⟩, ⟨4112, 4127⟩], ⟨0, []⟩) := rfl
  simp only [ExactFrom, hfirst, hsecond]
  rintro ⟨-, -, -, -, -, hexact, -⟩
  exact (hexact.mp trivial).apart ⟨4112, 4127⟩ List.mem_cons_self ⟨4112, by decide, by decide, by decide, by decide⟩

end CsoLabs.Driver
