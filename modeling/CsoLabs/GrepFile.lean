import CsoLabs.CLang

/-! `read_ascii_file` of `rkgrep_main.c`. The check of the characters gives the buffer back in the middle of its
loop and goes on, and the terminating zero is written when there is no buffer. -/

namespace CsoLabs.Grep
open CLang

/-- What the calls into the system do: the contents of the file if it can be opened, whether `fstat` and `malloc`
succeed, what `read` returns, and what the memory holds that `malloc` returns. -/
structure Io where
  file : Option (List (BitVec 8))
  statOk : Bool
  granted : Bool
  count : Int
  fresh : Nat → BitVec 8

/-- A pointer to a buffer, or NULL. -/
abbrev Doc := Option (List (BitVec 8))

/-- `doc[i]` -/
def deref (doc : Doc) (i : Nat) : Except Abort (BitVec 8) :=
  match doc with
  | none => .error .invalidPointer
  | some buf => if i < buf.length then .ok (buf.getD i 0) else .error .outOfBounds

/-- `doc[i] = b` -/
def assign (doc : Doc) (i : Nat) (b : BitVec 8) : Except Abort Doc :=
  match doc with
  | none => .error .invalidPointer
  | some buf => if i < buf.length then .ok (some (buf.set i b)) else .error .outOfBounds

/-- The buffer of `size + 1` bytes after `read`. -/
def bufferAfterRead (io : Io) (content : List (BitVec 8)) : List (BitVec 8) :=
  (List.range (content.length + 1)).map fun j : Nat =>
    if (j : Int) < io.count then content.getD j (io.fresh j) else io.fresh j

def notAscii (c : BitVec 8) : String := "character (" ++ String.singleton (Char.ofNat c.toNat) ++ ") is not ASCII\n"

/-- The loop over the characters, with `n` turns left; the second component is what goes to `stderr`. -/
def asciiLoop : Nat → Nat → Doc → List String → Except Abort (Doc × List String)
  | 0, _, doc, err => .ok (doc, err)
  | n + 1, i, doc, err => do
      let c ← deref doc i
      if charToInt c ≤ 0 then asciiLoop n (i + 1) none (err ++ [notAscii c]) else asciiLoop n (i + 1) doc err

/-- What becomes of the buffer when `read` has returned `n`. -/
def checkRead (n : Int) (size : Nat) (doc : Doc) : Except Abort (Doc × List String) :=
  if n < 0 then .ok (none, ["read_ascii_file: read "])
  else if n ≠ size then .ok (none, ["read_ascii_file: short read!\n"])
  else asciiLoop size 0 doc []

def readAsciiFile (io : Io) : Except Abort (Doc × List String) :=
  match io.file with
  | none => .error (.exit "read_ascii_file: open ")
  | some content =>
      let size := content.length
      if io.statOk = false then .error (.exit "read_ascii_file: fstat ")
      else if io.granted = false then
        .error (.exit (" failed to allocate " ++ toString (toInt size) ++ " bytes. No memory\n"))
      else do
        let (doc, err) ← checkRead (toInt io.count) size (some (bufferAfterRead io content))
        if doc = none then
          let doc ← assign doc size 0
          return (doc, err)
        else return (doc, err)

/-! ### The loop -/

def Ascii (b : BitVec 8) : Prop := 1 ≤ b.toNat ∧ b.toNat ≤ 127

theorem ascii_iff (b : BitVec 8) : Ascii b ↔ ¬ charToInt b ≤ 0 := by
  have hlt := b.isLt
  rw [Ascii, charToInt, BitVec.toInt_eq_toNat_cond]
  split_ifs <;> omega

/-- Without a buffer the loop ends where it is, or reads through NULL. -/
theorem asciiLoop_null (n i : Nat) (err : List String) :
    asciiLoop n i none err = if n = 0 then .ok (none, err) else .error .invalidPointer := by
  cases n with
  | zero => rfl
  | succ n => rfl

/-- All characters are good and the buffer stays, or it is lost. -/
theorem asciiLoop_cases {buf : List (BitVec 8)} {n i : Nat} (h : i + n ≤ buf.length) (err : List String) :
    ((∀ b ∈ (buf.take (i + n)).drop i, Ascii b) ∧ asciiLoop n i (some buf) err = .ok (some buf, err)) ∨
      (¬ (∀ b ∈ (buf.take (i + n)).drop i, Ascii b) ∧
        ((∃ err', asciiLoop n i (some buf) err = .ok (none, err')) ∨
          asciiLoop n i (some buf) err = .error .invalidPointer)) := by
  induction n generalizing i err with
  | zero =>
      left
      rw [List.drop_eq_nil_of_le (by rw [List.length_take]; omega)]
      exact ⟨fun b hb => absurd hb List.not_mem_nil, rfl⟩
  | succ n ih =>
      have hi : i < buf.length := by omega
      have hi' : i < (buf.take (i + (n + 1))).length := by
        rw [List.length_take]
        omega
      have hderef : deref (some buf) i = .ok (buf.getD i 0) := if_pos hi
      rw [asciiLoop, hderef, ok_bind, List.drop_eq_getElem_cons hi', List.getElem_take, List.getD_eq_getElem _ _ hi,
        List.forall_mem_cons]
      by_cases hgood : Ascii buf[i]
      · have hshift : i + (n + 1) = i + 1 + n := by omega
        rw [if_neg ((ascii_iff _).mp hgood), and_iff_right hgood, hshift]
        exact ih (by omega) err
      · right
        refine ⟨fun hall => hgood hall.1, ?_⟩
        rw [ascii_iff, not_not] at hgood
        rw [if_pos hgood, asciiLoop_null]
        split_ifs
        · exact .inl ⟨_, rfl⟩
        · exact .inr rfl

/-! ### Whole files -/

/-- The file is there, and every call does what it is asked for. -/
structure Io.Complete (io : Io) (content : List (BitVec 8)) : Prop where
  file : io.file = some content
  statOk : io.statOk = true
  granted : io.granted = true
  count : io.count = content.length

theorem bufferAfterRead_eq {io : Io} {content : List (BitVec 8)} (h : io.Complete content) :
    bufferAfterRead io content = content ++ [io.fresh content.length] := by
  unfold bufferAfterRead
  rw [h.count]
  apply List.ext_getElem
  · rw [List.length_map, List.length_range, List.length_append, List.length_singleton]
  intro j hj hj'
  rw [List.getElem_map, List.getElem_range]
  by_cases hlt : j < content.length
  · rw [if_pos (by omega), List.getD_eq_getElem _ _ hlt, List.getElem_append_left hlt]
  · rw [List.length_append, List.length_singleton] at hj'
    obtain rfl : j = content.length := by omega
    rw [if_neg (by omega), List.getElem_concat_length rfl]

/-- The number of bytes, converted to `int`, is the same up to `INT_MAX`. -/
theorem toInt_length_eq_iff (n : Nat) : toInt n = n ↔ (n : Int) ≤ intMax := by
  constructor
  · intro heq
    have hlt := Int.bmod_lt (x := n) (m := 2 ^ 32) (by decide)
    rw [show Int.bmod n (2 ^ 32) = n from heq] at hlt
    rw [intMax]
    omega
  · intro hle
    exact toInt_of_le (by omega) hle

/-- The buffer comes back as it was read if all is well, and is missed at the end if it is not. -/
theorem readAsciiFile_eq {io : Io} {content : List (BitVec 8)} (h : io.Complete content) :
    readAsciiFile io = .ok (some (content ++ [io.fresh content.length]), []) ∧
        (∀ b ∈ content, Ascii b) ∧ (content.length : Int) ≤ intMax ∨
      readAsciiFile io = .error .invalidPointer ∧
        ¬ ((∀ b ∈ content, Ascii b) ∧ (content.length : Int) ≤ intMax) := by
  have hrun : readAsciiFile io = checkRead (toInt content.length) content.length
      (some (content ++ [io.fresh content.length])) >>= fun r =>
        if r.1 = none then assign r.1 content.length 0 >>= fun doc => pure (doc, r.2) else pure (r.1, r.2) := by
    unfold readAsciiFile
    rw [h.file]
    dsimp only
    rw [if_neg (by rw [h.statOk]; decide), if_neg (by rw [h.granted]; decide), h.count, bufferAfterRead_eq h]
  have hlost : ∀ err, checkRead (toInt content.length) content.length
      (some (content ++ [io.fresh content.length])) = .ok (none, err) → readAsciiFile io = .error .invalidPointer := by
    intro err hcheck
    rw [hrun, hcheck, ok_bind]
    rfl
  by_cases hsize : (content.length : Int) ≤ intMax
  · have hcheck : checkRead (toInt content.length) content.length (some (content ++ [io.fresh content.length])) =
        asciiLoop content.length 0 (some (content ++ [io.fresh content.length])) [] := by
      unfold checkRead
      rw [(toInt_length_eq_iff _).mpr hsize, if_neg (by omega), if_neg (not_not_intro rfl)]
    have hlen : 0 + content.length ≤ (content ++ [io.fresh content.length]).length := by
      rw [List.length_append]
      omega
    have hcases := asciiLoop_cases hlen []
    rw [Nat.zero_add, List.drop_zero, List.take_left] at hcases
    rcases hcases with ⟨hall, hloop⟩ | ⟨hall, ⟨err, hloop⟩ | hloop⟩
    · left
      refine ⟨?_, hall, hsize⟩
      rw [hrun, hcheck, hloop, ok_bind]
      rfl
    · exact .inr ⟨hlost err (hcheck.trans hloop), fun hgood => hall hgood.1⟩
    · right
      refine ⟨?_, fun hgood => hall hgood.1⟩
      rw [hrun, hcheck, hloop, error_bind]
  · right
    refine ⟨?_, fun hgood => hsize hgood.2⟩
    have hne : toInt content.length ≠ content.length := mt (toInt_length_eq_iff _).mp hsize
    by_cases hneg : toInt content.length < 0
    · exact hlost _ (if_pos hneg)
    · apply hlost
      unfold checkRead
      rw [if_neg hneg, if_pos hne]

/-- Files of characters from 1 to 127 come back as C strings, and NULL comes back for every other file. -/
def ReturnsAscii (io : Io) (content : List (BitVec 8)) : Prop :=
  ((∀ b ∈ content, Ascii b) → ∃ err, readAsciiFile io = .ok (some (content ++ [0]), err)) ∧
    (¬ (∀ b ∈ content, Ascii b) → ∃ err, readAsciiFile io = .ok (none, err))

/-- **When a file is read as it should be.** Only if all its characters are good, an `int` can hold their number,
and the memory behind them happens to be zero. -/
theorem readAsciiFile_iff {io : Io} {content : List (BitVec 8)} (h : io.Complete content) :
    ReturnsAscii io content ↔
      (∀ b ∈ content, Ascii b) ∧ (content.length : Int) ≤ intMax ∧ io.fresh content.length = 0 := by
  rcases readAsciiFile_eq h with ⟨hrun, hall, hsize⟩ | ⟨hrun, hbad⟩
  · unfold ReturnsAscii
    rw [hrun]
    constructor
    · rintro ⟨hgood, -⟩
      obtain ⟨err, heq⟩ := hgood hall
      have hbytes := Option.some.inj (Prod.mk.inj (Except.ok.inj heq)).1
      exact ⟨hall, hsize, List.singleton_inj.mp (List.append_cancel_left hbytes)⟩
    · rintro ⟨-, -, hzero⟩
      rw [hzero]
      exact ⟨fun _ => ⟨[], rfl⟩, fun hnot => absurd hall hnot⟩
  · refine iff_of_false ?_ fun hgood => hbad ⟨hgood.1, hgood.2.1⟩
    rintro ⟨hgood, hother⟩
    rw [hrun] at hgood hother
    by_cases hall : ∀ b ∈ content, Ascii b
    · obtain ⟨err, heq⟩ := hgood hall
      cases heq
    · obtain ⟨err, heq⟩ := hother hall
      cases heq

/-- A file of these bytes, read into memory that holds `junk`. -/
def ioOf (content : List (BitVec 8)) (junk : BitVec 8) : Io := ⟨some content, true, true, content.length, fun _ => junk⟩

theorem readAsciiFile_lucky : ReturnsAscii (ioOf [0x68, 0x69] 0) [0x68, 0x69] := by
  refine (readAsciiFile_iff ⟨rfl, rfl, rfl, rfl⟩).mpr ⟨?_, by decide, rfl⟩
  simp [Ascii]

/-- A good file is left without its zero, and a bad one makes the function write through NULL. -/
theorem readAsciiFile_unterminated :
    readAsciiFile (ioOf [0x68] 7) = .ok (some [0x68, 7], []) ∧ ¬ ReturnsAscii (ioOf [0x68] 7) [0x68] ∧
      readAsciiFile (ioOf [0x80] 0) = .error .invalidPointer ∧ ¬ ReturnsAscii (ioOf [0x80] 0) [0x80] := by
  have hgood : readAsciiFile (ioOf [0x68] 7) = .ok (some [0x68, 7], []) := by decide
  have hbad : readAsciiFile (ioOf [0x80] 0) = .error .invalidPointer := by decide
  refine ⟨hgood, fun h => ?_, hbad, fun h => ?_⟩
  · obtain ⟨err, heq⟩ := h.1 (by simp [Ascii])
    rw [hgood] at heq
    exact absurd (Prod.mk.inj (Except.ok.inj heq)).1 (by decide)
  · obtain ⟨err, heq⟩ := h.2 (by simp [Ascii])
    rw [hbad] at heq
    cases heq

end CsoLabs.Grep
