import CsoLabs.DriverReadBounds

/-! What `read_trace` makes of a well-formed trace file: four header numbers and the requests, as words between
any white space. Each conversion leaves the text at the gap behind its word, where the next one goes on; the
letter d that the format of a FREE request asks for is never there. -/

namespace CsoLabs.Driver
open CLang CScan Malloc

/-- A request line. -/
inductive TraceLine where
  | alloc (id size : Nat)
  | realloc (id size : Nat)
  | free (id : Nat)

def TraceLine.id : TraceLine → Nat
  | .alloc id _ => id
  | .realloc id _ => id
  | .free id => id

/-- The size, in the requests that have one. -/
def TraceLine.size? : TraceLine → Option Nat
  | .alloc _ size => some size
  | .realloc _ size => some size
  | .free _ => none

/-- What a trace file says. -/
structure TraceFile where
  heapHint : Nat
  numIds : Nat
  numOps : Nat
  weight : Nat
  lines : List TraceLine

/-- The header describes the requests, ids and sizes are in range, and the two numbers that are kept fit in
an `int`: for others the conversion `%d` is undefined. -/
structure TraceFile.WellFormed (file : TraceFile) : Prop where
  ids_pos : 1 ≤ file.numIds
  numIds_fits : (file.numIds : Int) ≤ intMax
  numOps_fits : (file.numOps : Int) ≤ intMax
  count : file.lines.length = file.numOps
  ids : ∀ line ∈ file.lines, line.id < file.numIds
  sizes : ∀ line ∈ file.lines, ∀ size ∈ line.size?, size < 2 ^ 31
  largest : ∃ line ∈ file.lines, line.size?.isSome = true ∧ line.id = file.numIds - 1

/-- The words of the request lines. -/
inductive Spells : List TraceLine → List (List Char) → Prop
  | nil : Spells [] []
  | alloc {id size : Nat} {v w : List Char} {lines : List TraceLine} {words : List (List Char)}
      (hid : IsNumeral id v) (hsize : IsNumeral size w) (hrest : Spells lines words) :
      Spells (.alloc id size :: lines) (['a'] :: v :: w :: words)
  | realloc {id size : Nat} {v w : List Char} {lines : List TraceLine} {words : List (List Char)}
      (hid : IsNumeral id v) (hsize : IsNumeral size w) (hrest : Spells lines words) :
      Spells (.realloc id size :: lines) (['r'] :: v :: w :: words)
  | free {id : Nat} {v : List Char} {lines : List TraceLine} {words : List (List Char)}
      (hid : IsNumeral id v) (hrest : Spells lines words) : Spells (.free id :: lines) (['f'] :: v :: words)

/-- The text is the file, laid out with any white space. -/
def TraceFile.WrittenAs (file : TraceFile) (text : List Char) : Prop :=
  ∃ hint ids ops weight words, IsNumeral file.heapHint hint ∧ IsNumeral file.numIds ids ∧
    IsNumeral file.numOps ops ∧ IsNumeral file.weight weight ∧ Spells file.lines words ∧
    Words (hint :: ids :: ops :: weight :: words) text

/-- The entry of `ops` for a line; the size of a FREE entry is not set. -/
def TraceLine.DecodedTo : TraceLine → TraceOp → Prop
  | .alloc id size, op => op = ⟨.alloc, id, size⟩
  | .realloc id size, op => op = ⟨.realloc, id, size⟩
  | .free id, op => op.type = .free ∧ op.index = id

/-! ### The header -/

theorem scanHeader_writtenAs {file : TraceFile} (hwf : file.WellFormed) {text : List Char}
    (htext : file.WrittenAs text) (env : Environment) :
    (scanHeader env text).numIds = BitVec.ofNat 32 file.numIds ∧
      (scanHeader env text).numOps = BitVec.ofNat 32 file.numOps ∧
      ∃ words, Spells file.lines words ∧ Words words (scanHeader env text).rest := by
  obtain ⟨hint, ids, ops, weight, words, hhint, hids, hops, hweight, hlines, hwords⟩ := htext
  have hidsFit := hwf.numIds_fits
  have hopsFit := hwf.numOps_fits
  simp only [intMax] at hidsFit hopsFit
  have htext₁ := scanD_skip hhint hwords env.wide
  obtain ⟨text₂, hscanIds, htext₂⟩ := scanD_word hids htext₁ (by omega) env.wide
  obtain ⟨text₃, hscanOps, htext₃⟩ := scanD_word hops htext₂ (by omega) env.wide
  have htext₄ := scanD_skip hweight htext₃ env.wide
  simp only [scanHeader, hscanIds, hscanOps]
  exact ⟨rfl, rfl, words, hlines, htext₄⟩

/-! ### The requests -/

/-- What the loop reads for a line. A FREE request keeps the size that was read last. -/
def TraceLine.ReadAs : TraceLine → FileRequest → Prop
  | .alloc id size, q => q = ⟨.alloc, BitVec.ofNat 32 id, BitVec.ofNat 32 size⟩
  | .realloc id size, q => q = ⟨.realloc, BitVec.ofNat 32 id, BitVec.ofNat 32 size⟩
  | .free id, q => q.type = .free ∧ q.index = BitVec.ofNat 32 id

section

variable {wide : Int → BitVec 32} {words : List (List Char)} {v w s : List Char} {id n : Nat}

theorem scanIndexSize_words (hid : IsNumeral id v) (hn : IsNumeral n w) (h : Words (v :: w :: words) s)
    (hidFits : id < 2 ^ 32) (hnFits : n < 2 ^ 32) (wide : Int → BitVec 32) (index size : BitVec 32) :
    ∃ rest, scanIndexSize wide index size s = (BitVec.ofNat 32 id, BitVec.ofNat 32 n, rest) ∧ Words words rest := by
  obtain ⟨text₁, hscanId, -, htext₁⟩ := scanU_word hid h hidFits wide
  obtain ⟨text₂, hscanSize, -, htext₂⟩ := scanU_word hn htext₁.skipSpace hnFits wide
  refine ⟨text₂, ?_, htext₂⟩
  unfold scanIndexSize
  rw [hscanId]
  dsimp only
  rw [hscanSize]

/-- The id of a FREE request ends at a gap, so the letter d is not there. -/
theorem scanIndex_words (hid : IsNumeral id v) (h : Words (v :: words) s) (hidFits : id < 2 ^ 32)
    (wide : Int → BitVec 32) (index : BitVec 32) :
    ∃ rest, scanIndex wide index s = (BitVec.ofNat 32 id, rest) ∧ Words words rest := by
  obtain ⟨rest, hscanId, hgap, hrest⟩ := scanU_word hid h hidFits wide
  refine ⟨rest, ?_, hrest⟩
  unfold scanIndex
  rw [hscanId]
  dsimp only
  rw [skipLiteral_gap hgap (by decide)]

/-- One turn of the loop: the word of a request letter, what the `switch` reads behind it, and the rest. -/
theorem requestsFrom_letter {c : Char} {fuel : Nat} {index size : BitVec 32} {rest rest' : List Char}
    {q : FileRequest} {line : TraceLine} {lines : List TraceLine} (hfuel : s.length < fuel) (hword : scanS s = some ([c], rest))
    (hreq : scanRequest wide c index size rest = some (q, rest')) (hq : line.ReadAs q)
    (hlines : ∀ {fuel : Nat}, rest'.length < fuel →
      ∃ qs, requestsFrom wide fuel q.index q.size rest' = (qs, .eof) ∧ List.Forall₂ TraceLine.ReadAs lines qs) :
    ∃ qs, requestsFrom wide fuel index size s = (qs, .eof) ∧ List.Forall₂ TraceLine.ReadAs (line :: lines) qs := by
  have hshort : ¬ maxline ≤ [c].length := by
    rw [List.length_singleton]
    decide
  have hlen := length_scanS_lt hword
  have hlen' := length_scanRequest_le hreq
  cases fuel with
  | zero => omega
  | succ fuel =>
      obtain ⟨qs, hqs, hread⟩ := hlines (show rest'.length < fuel by omega)
      refine ⟨q :: qs, ?_, .cons hq hread⟩
      rw [requestsFrom, hword]
      dsimp only
      rw [if_neg hshort, List.headD_cons, hreq]
      dsimp only
      rw [hqs]

/-- The requests of the text are those of the lines, and they end with the file. -/
theorem requestsFrom_spells {lines : List TraceLine} (h : Spells lines words)
    (hids : ∀ line ∈ lines, line.id < 2 ^ 32) (hsizes : ∀ line ∈ lines, ∀ size ∈ line.size?, size < 2 ^ 32)
    (hs : Words words s) {fuel : Nat} (hfuel : s.length < fuel) (index size : BitVec 32) :
    ∃ qs, requestsFrom wide fuel index size s = (qs, .eof) ∧ List.Forall₂ TraceLine.ReadAs lines qs := by
  induction h generalizing s fuel index size with
  | nil =>
      cases fuel with
      | zero => omega
      | succ fuel =>
          refine ⟨[], ?_, .nil⟩
          rw [requestsFrom, scanS_done hs]
  | @alloc id n v w lines words hid hn hlines ih =>
      obtain ⟨text₁, hword, htext₁⟩ := scanS_word hs
      obtain ⟨hidFits, hids⟩ := List.forall_mem_cons.mp hids
      obtain ⟨hnFits, hsizes⟩ := List.forall_mem_cons.mp hsizes
      obtain ⟨text₂, hscan, htext₂⟩ := scanIndexSize_words hid hn htext₁ hidFits (hnFits n rfl) wide index size
      have hreq : scanRequest wide 'a' index size text₁ =
          some (⟨.alloc, BitVec.ofNat 32 id, BitVec.ofNat 32 n⟩, text₂) := by rw [scanRequest, hscan]
      exact requestsFrom_letter hfuel hword hreq rfl fun hrest => ih hids hsizes htext₂ hrest _ _
  | @realloc id n v w lines words hid hn hlines ih =>
      obtain ⟨text₁, hword, htext₁⟩ := scanS_word hs
      obtain ⟨hidFits, hids⟩ := List.forall_mem_cons.mp hids
      obtain ⟨hnFits, hsizes⟩ := List.forall_mem_cons.mp hsizes
      obtain ⟨text₂, hscan, htext₂⟩ := scanIndexSize_words hid hn htext₁ hidFits (hnFits n rfl) wide index size
      have hreq : scanRequest wide 'r' index size text₁ =
          some (⟨.realloc, BitVec.ofNat 32 id, BitVec.ofNat 32 n⟩, text₂) := by rw [scanRequest, hscan]
      exact requestsFrom_letter hfuel hword hreq rfl fun hrest => ih hids hsizes htext₂ hrest _ _
  | @free id v lines words hid hlines ih =>
      obtain ⟨text₁, hword, htext₁⟩ := scanS_word hs
      obtain ⟨hidFits, hids⟩ := List.forall_mem_cons.mp hids
      obtain ⟨-, hsizes⟩ := List.forall_mem_cons.mp hsizes
      obtain ⟨text₂, hscan, htext₂⟩ := scanIndex_words hid htext₁ hidFits wide index
      have hreq : scanRequest wide 'f' index size text₁ = some (⟨.free, BitVec.ofNat 32 id, size⟩, text₂) := by
        rw [scanRequest, hscan]
      exact requestsFrom_letter hfuel hword hreq ⟨rfl, rfl⟩ fun hrest => ih hids hsizes htext₂ hrest _ _

end

/-! ### The counts and the entries -/

theorem forall₂_mem {α β : Type} {R : α → β → Prop} {as : List α} {bs : List β} (h : List.Forall₂ R as bs) :
    (∀ a ∈ as, ∃ b ∈ bs, R a b) ∧ ∀ b ∈ bs, ∃ a ∈ as, R a b := by
  induction h with
  | nil => exact ⟨fun a ha => absurd ha List.not_mem_nil, fun b hb => absurd hb List.not_mem_nil⟩
  | @cons a b as bs hab _ ih =>
      refine ⟨List.forall_mem_cons.mpr ⟨⟨b, List.mem_cons_self, hab⟩, fun a' ha' => ?_⟩,
        List.forall_mem_cons.mpr ⟨⟨a, List.mem_cons_self, hab⟩, fun b' hb' => ?_⟩⟩
      · obtain ⟨b', hb', hab'⟩ := ih.1 a' ha'
        exact ⟨b', List.mem_cons_of_mem b hb', hab'⟩
      · obtain ⟨a', ha', hab'⟩ := ih.2 b' hb'
        exact ⟨a', List.mem_cons_of_mem a ha', hab'⟩

section

variable {line : TraceLine} {q : FileRequest} {lines : List TraceLine} {qs : List FileRequest} {n : Nat}

theorem TraceLine.ReadAs.index_eq (h : line.ReadAs q) : q.index = BitVec.ofNat 32 line.id := by
  cases line with
  | alloc id size => rw [show q = _ from h, TraceLine.id]
  | realloc id size => rw [show q = _ from h, TraceLine.id]
  | free id => exact h.2

theorem TraceLine.ReadAs.type_ne_free (h : line.ReadAs q) (hsize : line.size?.isSome = true) : q.type ≠ .free := by
  cases line with
  | alloc id size =>
      rw [show q = _ from h]
      exact OpType.noConfusion
  | realloc id size =>
      rw [show q = _ from h]
      exact OpType.noConfusion
  | free id => cases hsize

/-- The running maximum is the largest id, as the header counts it. -/
theorem maxOver_readAs (hread : List.Forall₂ TraceLine.ReadAs lines qs) (hids : ∀ line ∈ lines, line.id < n)
    (hpos : 1 ≤ n) (hn : n < 2 ^ 32) (hlargest : ∃ line ∈ lines, line.size?.isSome = true ∧ line.id = n - 1) :
    maxOver qs 0 = BitVec.ofNat 32 n - 1 := by
  obtain ⟨hforward, hbackward⟩ := forall₂_mem hread
  have htoNat : ∀ {id : Nat}, id < n → (BitVec.ofNat 32 id).toNat = id := by
    intro id hid
    rw [BitVec.toNat_ofNat]
    omega
  have hge : n - 1 ≤ (maxOver qs 0).toNat := by
    obtain ⟨line, hline, hsize, hid⟩ := hlargest
    obtain ⟨q, hq, hreadAs⟩ := hforward line hline
    have hle := BitVec.le_def.mp (index_le_maxOver hq (hreadAs.type_ne_free hsize) 0)
    rwa [hreadAs.index_eq, hid, htoNat (by omega)] at hle
  have hle : (maxOver qs 0).toNat ≤ n - 1 := by
    rcases maxOver_mem qs 0 with hstart | ⟨q, hq, -, hindex⟩
    · rw [hstart]
      exact Nat.zero_le _
    · obtain ⟨line, hline, hreadAs⟩ := hbackward q hq
      have hid := hids line hline
      rw [← hindex, hreadAs.index_eq, htoNat hid]
      omega
  apply BitVec.eq_of_toNat_eq
  have hsub : (BitVec.ofNat 32 n - 1).toNat = (2 ^ 32 - 1 + (BitVec.ofNat 32 n).toNat) % 2 ^ 32 :=
    BitVec.toNat_sub (BitVec.ofNat 32 n) 1
  rw [hsub, BitVec.toNat_ofNat]
  omega

theorem TraceLine.ReadAs.decodedTo {env : Environment} {i : BitVec 32} (h : line.ReadAs q) (hid : line.id < 2 ^ 31)
    (hsize : ∀ size ∈ line.size?, size < 2 ^ 31) : line.DecodedTo (q.op env i) := by
  have hindex := toInt_ofNat_of_lt hid
  cases line with
  | alloc id size =>
      have hsize' := toInt_ofNat_of_lt (hsize size rfl)
      subst h
      simp only [TraceLine.DecodedTo, FileRequest.op, hsize']
      rw [TraceLine.id] at hindex
      rw [hindex]
  | realloc id size =>
      have hsize' := toInt_ofNat_of_lt (hsize size rfl)
      subst h
      simp only [TraceLine.DecodedTo, FileRequest.op, hsize']
      rw [TraceLine.id] at hindex
      rw [hindex]
  | free id =>
      unfold FileRequest.op
      rw [h.1, h.2]
      exact ⟨rfl, hindex⟩

theorem entries_decodedTo {env : Environment} (hread : List.Forall₂ TraceLine.ReadAs lines qs)
    (hids : ∀ line ∈ lines, line.id < 2 ^ 31) (hsizes : ∀ line ∈ lines, ∀ size ∈ line.size?, size < 2 ^ 31)
    (i : Nat) : List.Forall₂ TraceLine.DecodedTo lines (entries env i qs) := by
  induction hread generalizing i with
  | nil => exact .nil
  | cons hq _ ih =>
      obtain ⟨hid, hids⟩ := List.forall_mem_cons.mp hids
      obtain ⟨hsize, hsizes⟩ := List.forall_mem_cons.mp hsizes
      exact .cons (hq.decodedTo hid hsize) (ih hids hsizes (i + 1))

end

/-- **Every well-formed trace file is decoded.** However the words are laid out, `read_trace` returns, and the
trace has the ids and the requests of the file, in their order. -/
theorem readTrace_writtenAs {file : TraceFile} (hwf : file.WellFormed) {text : List Char}
    (htext : file.WrittenAs text) {env : Environment} (hgrants : ∀ call n, env.grants call n = true) (path : String) :
    ∃ t, readTrace env path (some text) = .ok t ∧ t.numIds = file.numIds ∧ t.ops.length = file.numOps ∧
      List.Forall₂ TraceLine.DecodedTo file.lines t.ops := by
  obtain ⟨hnumIds, hnumOps, words, hlines, hwords⟩ := scanHeader_writtenAs hwf htext env
  have hidsFit := hwf.numIds_fits
  have hopsFit := hwf.numOps_fits
  simp only [intMax] at hidsFit hopsFit
  have hids : (scanHeader env text).numIds.toInt = file.numIds := by
    rw [hnumIds]
    exact toInt_ofNat_of_lt (by omega)
  have hops : (scanHeader env text).numOps.toInt = file.numOps := by
    rw [hnumOps]
    exact toInt_ofNat_of_lt (by omega)
  have hidsBelow : ∀ line ∈ file.lines, line.id < 2 ^ 31 := fun line hline => by
    have hid := hwf.ids line hline
    omega
  obtain ⟨qs, hqs, hread⟩ := requestsFrom_spells hlines (fun line hline => (hidsBelow line hline).trans (by decide))
    (fun line hline size hsize => (hwf.sizes line hline size hsize).trans (by decide)) hwords
    (Nat.lt_succ_self _) 0 env.size
  have hlen : qs.length = file.numOps := hread.length_eq.symm.trans hwf.count
  have hmax := maxOver_readAs hread hwf.ids hwf.ids_pos (by omega) hwf.largest
  refine ⟨⟨file.numIds, entries env 0 qs, env.blocks, env.blockSizes⟩, ?_, rfl, ?_,
    entries_decodedTo hread hidsBelow hwf.sizes 0⟩
  · have hallocs : AllocationsSucceed env text := allocationsSucceed_of_grants hgrants (by omega) (by omega)
    have hroom : (qs.length : Int) ≤ (scanHeader env text).numOps.toInt := by omega
    have hreqs : requests env text = (qs, .eof) := hqs
    rw [readTrace_eq hallocs, hreqs, storeAll_start hroom, ok_bind, finish, ok_bind,
      checkCounts_ok (by rw [hnumIds]; exact hmax) (by rw [hnumOps, hlen]), hids]
  · rw [length_entries, hlen]

/-- What `short1.rep` says. -/
def shortOne : TraceFile where
  heapHint := 20000
  numIds := 6
  numOps := 12
  weight := 1
  lines := [.alloc 0 2040, .alloc 1 2040, .free 1, .alloc 2 48, .alloc 3 4072, .free 3, .alloc 4 4072, .free 0,
    .free 2, .alloc 5 4072, .free 4, .free 5]

def shortOneText : List Char :=
  ("20000\n6\n12\n1\na 0 2040\na 1 2040\nf 1\na 2 48\na 3 4072\nf 3\na 4 4072\nf 0\nf 2\n" ++
    "a 5 4072\nf 4\nf 5\n").toList

theorem shortOne_wellFormed : shortOne.WellFormed where
  ids_pos := by decide
  numIds_fits := by decide
  numOps_fits := by decide
  count := rfl
  ids := by decide
  sizes := by decide
  largest := by decide

/-- The words of its requests. -/
def shortOneWords : List (List Char) :=
  [['a'], ['0'], ['2', '0', '4', '0'], ['a'], ['1'], ['2', '0', '4', '0'], ['f'], ['1'], ['a'], ['2'], ['4', '8'],
    ['a'], ['3'], ['4', '0', '7', '2'], ['f'], ['3'], ['a'], ['4'], ['4', '0', '7', '2'], ['f'], ['0'], ['f'], ['2'],
    ['a'], ['5'], ['4', '0', '7', '2'], ['f'], ['4'], ['f'], ['5']]

theorem spells_shortOneWords : Spells shortOne.lines shortOneWords := by
  apply Spells.alloc (by decide) (by decide)
  apply Spells.alloc (by decide) (by decide)
  apply Spells.free (by decide)
  apply Spells.alloc (by decide) (by decide)
  apply Spells.alloc (by decide) (by decide)
  apply Spells.free (by decide)
  apply Spells.alloc (by decide) (by decide)
  apply Spells.free (by decide)
  apply Spells.free (by decide)
  apply Spells.alloc (by decide) (by decide)
  apply Spells.free (by decide)
  apply Spells.free (by decide)
  exact .nil

theorem shortOne_writtenAs : shortOne.WrittenAs shortOneText := by
  have hwords : wordsOf 100 shortOneText =
      ['2', '0', '0', '0', '0'] :: ['6'] :: ['1', '2'] :: ['1'] :: shortOneWords := by decide +kernel
  refine ⟨['2', '0', '0', '0', '0'], ['6'], ['1', '2'], ['1'], shortOneWords, by decide, by decide, by decide,
    by decide, spells_shortOneWords, ?_⟩
  rw [← hwords]
  exact words_wordsOf (by decide +kernel)

theorem readTrace_shortOne :
    ∃ t, readTrace exampleEnvironment "./short1.rep" (some shortOneText) = .ok t ∧ t.numIds = 6 ∧
      t.ops.length = 12 ∧ List.Forall₂ TraceLine.DecodedTo shortOne.lines t.ops :=
  readTrace_writtenAs shortOne_wellFormed shortOne_writtenAs (fun _ _ => rfl) "./short1.rep"

end CsoLabs.Driver
