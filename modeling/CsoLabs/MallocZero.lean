import CsoLabs.MallocHeap

/-! A client that may also ask for zero bytes. `mm_malloc(0)` makes a chunk that is all header, and
`mm_realloc(ptr, 0)` frees its block. The payload of an empty chunk at the end of the heap starts at the
break, one past the last heap byte, and there the range check of `mm_free` fails; it is the only
assertion that can. Every other call has one of five effects on the client's blocks and the chunks,
which `Turn` lists. -/

namespace CsoLabs.Malloc
open CLang ByteMemory Tiling

namespace Client

/-- As `exec`, but a `mm_realloc` of size zero gives its block back. -/
def execWithZero (c : Client) : Request → Except Abort Client
  | .realloc ptr size => do
      let (p, lib) ← mmRealloc ptr size c.lib
      if size = 0 then return ⟨lib, without ptr c.live⟩
      else if p = null then return ⟨lib, c.live⟩
      else return ⟨lib, moved c.live ptr p size.toNat :: without ptr c.live⟩
  | r => c.exec r

/-- The sizes are `0 .. INT_MAX`. -/
def LegalWithZero (c : Client) : Request → Prop
  | .malloc size => (size.toNat : Int) ≤ intMax
  | .realloc ptr size => (size.toNat : Int) ≤ intMax ∧ (ptr = null ∨ IsLive c.live ptr)
  | .free ptr => IsLive c.live ptr
  | .write ptr j _ => ∃ b ∈ c.live, b.ptr = ptr ∧ j < b.requested

/-- The request frees no block that starts at the break. -/
def FreesBelowBreak (c : Client) : Request → Prop
  | .realloc ptr size => size = 0 → ptr ≠ c.lib.memBrk
  | .free ptr => ptr ≠ c.lib.memBrk
  | _ => True

instance (c : Client) : (r : Request) → Decidable (c.LegalWithZero r)
  | .malloc _ => inferInstanceAs (Decidable (_ ≤ _))
  | .realloc _ _ => inferInstanceAs (Decidable (_ ∧ (_ ∨ _)))
  | .free ptr => inferInstanceAs (Decidable (IsLive c.live ptr))
  | .write _ _ _ => inferInstanceAs (Decidable (∃ _ ∈ _, _))

instance (c : Client) : (r : Request) → Decidable (c.FreesBelowBreak r)
  | .malloc _ => inferInstanceAs (Decidable True)
  | .realloc _ _ => inferInstanceAs (Decidable (_ → _))
  | .free _ => inferInstanceAs (Decidable (_ ≠ _))
  | .write _ _ _ => inferInstanceAs (Decidable True)

def runWithZero : List Request → Client → Except Abort Client
  | [], c => .ok c
  | r :: rs, c => do
      let c ← c.execWithZero r
      runWithZero rs c

/-- Every request meets the condition in the state in which it is made. -/
def Along (P : Client → Request → Prop) : List Request → Client → Prop
  | [], _ => True
  | r :: rs, c => P c r ∧
      match c.execWithZero r with
      | .ok c' => Along P rs c'
      | .error _ => True

instance decidableAlong (P : Client → Request → Prop) [∀ c r, Decidable (P c r)] :
    (rs : List Request) → (c : Client) → Decidable (Along P rs c)
  | [], _ => inferInstanceAs (Decidable True)
  | r :: rs, c =>
      have : Decidable (match c.execWithZero r with | .ok c' => Along P rs c' | .error _ => True) :=
        match c.execWithZero r with
        | .ok c' => decidableAlong P rs c'
        | .error _ => inferInstanceAs (Decidable True)
      inferInstanceAs (Decidable (_ ∧ _))

/-- The state after the block at `ptr` is given back. -/
def released (c : Client) (ptr : Nat) : Client :=
  ⟨c.lib.withMem (setChunkStatus c.lib.mem (payloadToHeader ptr) false), without ptr c.live⟩

/-- How many blocks a request gives back: one that is freed, or moved away by a `mm_realloc` that found
room. -/
def departs (c : Client) : Request → Nat
  | .malloc _ => 0
  | .realloc ptr size =>
      match mmRealloc ptr size c.lib with
      | .ok (p, _) => if ptr ≠ null ∧ (size = 0 ∨ p ≠ null) then 1 else 0
      | .error _ => 0
  | .free _ => 1
  | .write _ _ _ => 0

end Client

/-! ### The effect of a call -/

/-- What a call does to the blocks and the chunks of a heap with the break at `brk`; the last argument
counts the blocks given back. -/
inductive Turn (brk : Nat) (live : List Block) (chunks : List Chunk) : List Block → List Chunk → Nat → Prop
  | stay : Turn brk live chunks live chunks 0
  | make (size : SizeT) (hsize : (size.toNat : Int) ≤ intMax) : Turn brk live chunks
      (.fresh (headerToPayload brk) size.toNat :: live) (chunks ++ [⟨brk, chunkBytes size⟩]) 0
  | move {b : Block} (hb : b ∈ live) (size : SizeT) (hsize : (size.toNat : Int) ≤ intMax) : Turn brk live chunks
      (b.moveTo (headerToPayload brk) size.toNat :: without b.ptr live) (chunks ++ [⟨brk, chunkBytes size⟩]) 1
  | release {b : Block} (hb : b ∈ live) : Turn brk live chunks (without b.ptr live) chunks 1
  | record (f : Block → Block) (hptr : ∀ b, (f b).ptr = b.ptr) (hreq : ∀ b, (f b).requested = b.requested) :
      Turn brk live chunks (live.map f) chunks 0

/-- The call returns, and takes the invariant from `chunks` to new chunks by a turn. -/
def Turns (c : Client) (chunks : List Chunk) (r : Request) : Prop :=
  ∃ c' chunks', c.execWithZero r = .ok c' ∧ HeapInv c'.lib c'.live chunks' ∧
    Turn c.lib.memBrk c.live chunks c'.live chunks' (c.departs r)

section

variable {c : Client} {chunks : List Chunk}

theorem turns_malloc (h : HeapInv c.lib c.live chunks) {size : SizeT} (hsize : (size.toNat : Int) ≤ intMax) :
    Turns c chunks (.malloc size) := by
  by_cases hroom : c.lib.memBrk + chunkBytes size ≤ c.lib.memMaxAddr
  · obtain ⟨s', hcall, -, -, -, hinv⟩ := h.malloc hsize hroom
    refine ⟨⟨s', .fresh (headerToPayload c.lib.memBrk) size.toNat :: c.live⟩, _, ?_, hinv, .make size hsize⟩
    simp only [Client.execWithZero, Client.exec, hcall, ok_bind, if_neg (Client.headerToPayload_ne_null _), pure_eq_ok]
  · refine ⟨c, chunks, ?_, h, .stay⟩
    simp only [Client.execWithZero, Client.exec, mmMalloc_noRoom hsize (not_le.mp hroom), ok_bind, if_true, pure_eq_ok]

/-- `NULL` is no block of the client's. -/
theorem HeapInv.not_isLive_null (h : HeapInv c.lib c.live chunks) : ¬ IsLive c.live null :=
  fun ⟨_, hb, hnull⟩ => h.ptr_ne_null hb hnull

theorem ne_zero_of_toNat_pos {size : SizeT} (h : 0 < size.toNat) : size ≠ 0 := by
  rintro rfl
  exact absurd h (by decide)

theorem turns_realloc_pos (h : HeapInv c.lib c.live chunks) {ptr : Nat} {size : SizeT} (hpos : 0 < size.toNat)
    (hsize : (size.toNat : Int) ≤ intMax) (hptr : ptr = null ∨ IsLive c.live ptr) :
    Turns c chunks (.realloc ptr size) := by
  have hne := ne_zero_of_toNat_pos hpos
  by_cases hroom : c.lib.memBrk + chunkBytes size ≤ c.lib.memMaxAddr
  · have hnew := Client.headerToPayload_ne_null c.lib.memBrk
    rcases hptr with rfl | ⟨b, hb, rfl⟩
    · obtain ⟨s', hcall, -, -, -, hinv⟩ := h.malloc hsize hroom
      rw [← mmRealloc_null hpos] at hcall
      refine ⟨⟨s', .fresh (headerToPayload c.lib.memBrk) size.toNat :: c.live⟩, _, ?_, hinv, ?_⟩
      · simp only [Client.execWithZero, hcall, ok_bind, if_neg hne, if_neg hnew, pure_eq_ok,
          Client.moved_of_not_live h.not_isLive_null, Client.without_of_not_live h.not_isLive_null]
      · simp only [Client.departs, hcall, ne_eq, not_true_eq_false, false_and, if_false]
        exact .make size hsize
    · obtain ⟨s', hcall, -, -, hinv⟩ := h.realloc hb hpos hsize hroom
      refine ⟨⟨s', b.moveTo (headerToPayload c.lib.memBrk) size.toNat :: without b.ptr c.live⟩, _, ?_, hinv, ?_⟩
      · simp only [Client.execWithZero, hcall, ok_bind, if_neg hne, if_neg hnew, pure_eq_ok,
          Client.moved_of_mem h hb]
      · simp only [Client.departs, hcall, ne_eq, h.ptr_ne_null hb, hnew, not_false_eq_true, or_true, and_self, if_true]
        exact .move hb size hsize
  · have hcall := mmRealloc_noRoom ptr hpos hsize (not_le.mp hroom)
    refine ⟨c, chunks, ?_, h, ?_⟩
    · simp only [Client.execWithZero, hcall, ok_bind, if_neg hne, if_true, pure_eq_ok]
    · simp only [Client.departs, hcall, ne_eq, not_true_eq_false, or_false, hne, and_false, if_false]
      exact .stay

theorem turns_realloc_zero (h : HeapInv c.lib c.live chunks) {ptr : Nat} (hptr : ptr = null ∨ IsLive c.live ptr)
    (hbelow : ptr ≠ c.lib.memBrk) : Turns c chunks (.realloc ptr 0) := by
  rcases hptr with rfl | ⟨b, hb, rfl⟩
  · have hcall := mmRealloc_zero_null c.lib
    refine ⟨c, chunks, ?_, h, ?_⟩
    · simp only [Client.execWithZero, BitVec.ofNat_eq_ofNat, hcall, ok_bind, if_true, pure_eq_ok,
        Client.without_of_not_live h.not_isLive_null]
    · simp only [Client.departs, BitVec.ofNat_eq_ofNat, hcall, ne_eq, not_true_eq_false, false_and, if_false]
      exact .stay
  · have hbounds := (h.block_bounds hb).2
    have hcall := mmRealloc_zero (h.ptr_ne_null hb) (h.free_below hb (by omega))
    refine ⟨c.released b.ptr, chunks, ?_, h.release hb, ?_⟩
    · simp only [Client.execWithZero, BitVec.ofNat_eq_ofNat, hcall, ok_bind, if_true, pure_eq_ok, Client.released]
    · simp only [Client.departs, BitVec.ofNat_eq_ofNat, hcall, ne_eq, h.ptr_ne_null hb, not_false_eq_true, true_or,
        and_self, if_true]
      exact .release hb

theorem turns_free (h : HeapInv c.lib c.live chunks) {ptr : Nat} (hptr : IsLive c.live ptr)
    (hbelow : ptr ≠ c.lib.memBrk) : Turns c chunks (.free ptr) := by
  obtain ⟨b, hb, rfl⟩ := hptr
  have hbounds := (h.block_bounds hb).2
  refine ⟨c.released b.ptr, chunks, ?_, h.release hb, .release hb⟩
  simp only [Client.execWithZero, Client.exec, h.free_below hb (by omega), ok_bind, pure_eq_ok, Client.released]

theorem turns_write (h : HeapInv c.lib c.live chunks) {b : Block} (hb : b ∈ c.live) {j : Nat} (hj : j < b.requested)
    (v : BitVec 8) : Turns c chunks (.write b.ptr j v) :=
  ⟨_, chunks, rfl, h.write hb hj v, .record _ (fun b' => (Block.recordAt_same b.ptr j v b').1)
    fun b' => (Block.recordAt_same b.ptr j v b').2⟩

/-- Every legal call that frees no block at the break is a turn. -/
theorem turns_of_legal (h : HeapInv c.lib c.live chunks) {r : Request} (hr : c.LegalWithZero r)
    (hbelow : c.FreesBelowBreak r) : Turns c chunks r := by
  cases r with
  | malloc size => exact turns_malloc h hr
  | realloc ptr size =>
      rcases Nat.eq_zero_or_pos size.toNat with hzero | hpos
      · obtain rfl : size = 0 := BitVec.eq_of_toNat_eq hzero
        exact turns_realloc_zero h hr.2 (hbelow rfl)
      · exact turns_realloc_pos h hpos hr.1 hr.2
  | free ptr => exact turns_free h hr hbelow
  | write ptr j v =>
      obtain ⟨b, hb, rfl, hj⟩ := hr
      exact turns_write h hb hj v

/-! ### The range check of `mm_free` -/

/-- The text of the assertion. -/
def rangeCheck : String := "ptr >= mem_heap_lo() && ptr <= mem_heap_hi()"

/-- The break is one past the last heap byte. -/
theorem mmFree_at_break (s : Memlib) : mmFree s.memBrk s = .error (.assertion rangeCheck) := by
  have hpos := s.start_pos
  have hle := s.start_le_brk
  have hhi : ¬ s.memBrk ≤ s.memHeapHi := by
    rw [Memlib.memHeapHi]
    omega
  simp only [mmFree, hhi, decide_false, Bool.and_false, assertC, Bool.false_eq_true, if_false, error_bind, rangeCheck]

/-- A legal call that frees a block at the break fails there. -/
theorem execWithZero_at_break {r : Request} (hr : c.LegalWithZero r) (hbelow : ¬ c.FreesBelowBreak r) :
    c.execWithZero r = .error (.assertion rangeCheck) := by
  have hnull : c.lib.memBrk ≠ null := by
    have hpos := c.lib.start_pos
    have hle := c.lib.start_le_brk
    rw [null]
    omega
  cases r with
  | malloc size => exact absurd trivial hbelow
  | realloc ptr size =>
      simp only [Client.FreesBelowBreak, Classical.not_imp, ne_eq, not_not] at hbelow
      obtain ⟨rfl, rfl⟩ := hbelow
      have hcall : mmRealloc c.lib.memBrk 0 c.lib = .error (.assertion rangeCheck) := by
        rw [mmRealloc, if_neg (show ¬ 0#64 < 0 by decide), if_neg hnull, mmFree_at_break, error_bind]
      rw [Client.execWithZero, hcall, error_bind]
  | free ptr =>
      simp only [Client.FreesBelowBreak, ne_eq, not_not] at hbelow
      subst hbelow
      rw [Client.execWithZero, Client.exec, mmFree_at_break, error_bind]
      exact fun _ _ heq => by cases heq
  | write ptr j v => exact absurd trivial hbelow

/-- A legal run goes through if no request frees a block at the break, and stops at the first that does. -/
theorem runWithZero_cases (h : HeapInv c.lib c.live chunks) (rs : List Request)
    (hrs : Client.Along Client.LegalWithZero rs c) :
    (Client.Along Client.FreesBelowBreak rs c ∧ ∃ c', Client.runWithZero rs c = .ok c') ∨
      (¬ Client.Along Client.FreesBelowBreak rs c ∧
        Client.runWithZero rs c = .error (.assertion rangeCheck)) := by
  induction rs generalizing c chunks with
  | nil => exact .inl ⟨trivial, c, rfl⟩
  | cons r rs ih =>
      obtain ⟨hlegal, hrest⟩ := hrs
      by_cases hbelow : c.FreesBelowBreak r
      · obtain ⟨c₁, chunks₁, hexec, h₁, -⟩ := turns_of_legal h hlegal hbelow
        rw [hexec] at hrest
        simp only [Client.Along, Client.runWithZero, hexec, ok_bind, hbelow, true_and]
        exact ih h₁ hrest
      · refine .inr ⟨fun halong => hbelow halong.1, ?_⟩
        rw [Client.runWithZero, execWithZero_at_break hlegal hbelow, error_bind]

end

/-- **When no assertion fails.** A run of a client that asks for `0 .. INT_MAX` bytes meets a failing
assertion exactly when some request frees a block that starts at the break; otherwise it goes through. -/
theorem assertions_hold_iff {s : Memlib} (hinit : Initialised s) (haligned : 16 ∣ s.memStartBrk)
    (rs : List Request) (hrs : Client.Along Client.LegalWithZero rs ⟨s, []⟩) :
    ((∀ expr, Client.runWithZero rs ⟨s, []⟩ ≠ .error (.assertion expr)) ↔
      Client.Along Client.FreesBelowBreak rs ⟨s, []⟩) ∧
    (Client.Along Client.FreesBelowBreak rs ⟨s, []⟩ → ∃ c, Client.runWithZero rs ⟨s, []⟩ = .ok c) := by
  have hempty : HeapInv s [] [] := HeapInv.empty hinit.brk_eq haligned
  rcases runWithZero_cases (show HeapInv (Client.lib ⟨s, []⟩) (Client.live ⟨s, []⟩) [] from hempty) rs hrs with
    ⟨hbelow, c, hrun⟩ | ⟨hbelow, hrun⟩
  · refine ⟨iff_of_true (fun expr herror => ?_) hbelow, fun _ => ⟨c, hrun⟩⟩
    rw [hrun] at herror
    cases herror
  · refine ⟨iff_of_false (fun hnone => hnone rangeCheck hrun) hbelow, fun halong => absurd halong hbelow⟩

/-- An empty block is freed after another one was made above it. -/
theorem assertions_hold_example :
    ∃ c, Client.runWithZero [.malloc 0, .malloc 5, .free 4112, .realloc 4128 0] ⟨exampleLib, []⟩ = .ok c := by
  have hinit : Initialised exampleLib := .memResetBrk _
  exact (assertions_hold_iff hinit (by decide) [.malloc 0, .malloc 5, .free 4112, .realloc 4128 0]
    (by decide +kernel)).2 (by decide +kernel)

/-- `mm_free(mm_malloc(0))` on the heap just initialised. -/
theorem assertion_fails_free_of_empty :
    Initialised exampleLib ∧ Client.Along Client.LegalWithZero [.malloc 0, .free 4112] ⟨exampleLib, []⟩ ∧
      (Client.runWithZero [.malloc 0, .free 4112] ⟨exampleLib, []⟩).map (fun c => c.lib.memBrk) =
        .error (.assertion "ptr >= mem_heap_lo() && ptr <= mem_heap_hi()") :=
  ⟨.memResetBrk _, by decide +kernel, by decide +kernel⟩

end CsoLabs.Malloc
