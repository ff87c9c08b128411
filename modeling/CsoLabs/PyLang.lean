import Mathlib

/-! What Python 2 programs share: the operations of `str` and `list` that are used here, and the exceptions a
program can raise. A `str` is the list of its bytes, each written as the character with its number. -/

namespace PyLang

abbrev Str := List Char

inductive Exc where
  | assertionError (msg : Str)
  | attributeError
  | indexError
  | runtimeError (msg : Str)
  deriving DecidableEq, Repr

/-- `splitlines`, with `cur` the part already read of the line that comes first. A line ends at a line feed, at a
carriage return, or at the two together. -/
def splitlinesFrom (cur : Str) : Str → List Str
  | [] => if cur = [] then [] else [cur]
  | '\r' :: '\n' :: s => cur :: splitlinesFrom [] s
  | c :: s => if c = '\n' ∨ c = '\r' then cur :: splitlinesFrom [] s else splitlinesFrom (cur ++ [c]) s

def splitlines (s : Str) : List Str := splitlinesFrom [] s

/-- `sep.join(parts)` -/
def join (sep : Str) (parts : List Str) : Str := sep.intercalate parts

/-- Only ASCII letters have another case. -/
def lower (s : Str) : Str := s.map Char.toLower

/-- `part in s` -/
def isIn (part s : Str) : Bool := s.tails.any part.isPrefixOf

/-- `replace`, with `skip` characters of an occurrence of `old` still to pass. -/
def replaceFrom (old new : Str) : Nat → Str → Str
  | _, [] => []
  | skip + 1, _ :: s => replaceFrom old new skip s
  | 0, c :: s =>
      if old.isPrefixOf (c :: s) then new ++ replaceFrom old new (old.length - 1) s else c :: replaceFrom old new 0 s

/-- `s.replace(old, new)`, for an `old` that is not empty. -/
def replace (s old new : Str) : Str := replaceFrom old new 0 s

def isSpace (c : Char) : Bool := c = ' ' ∨ c = '\t' ∨ c = '\n' ∨ c = '\r' ∨ c = '\x0b' ∨ c = '\x0c'

/-- `s.strip()` -/
def strip (s : Str) : Str := ((s.dropWhile isSpace).reverse.dropWhile isSpace).reverse

/-- `xs[i]`: a negative index counts from the end. -/
def getItem {α : Type} (xs : List α) (i : Int) : Except Exc α :=
  match if 0 ≤ i then xs[i.toNat]? else if 0 ≤ xs.length + i then xs[(xs.length + i).toNat]? else none with
  | none => .error .indexError
  | some x => .ok x

example : splitlines "ab\r\n\nc\r".toList = ["ab".toList, [], "c".toList] := by decide +kernel

theorem getItem_of_lt {α : Type} {xs : List α} {i : Int} (h0 : 0 ≤ i) (h : i < xs.length) :
    ∃ x ∈ xs, getItem xs i = .ok x := by
  have hlt : i.toNat < xs.length := by omega
  refine ⟨xs[i.toNat], List.getElem_mem hlt, ?_⟩
  rw [getItem, if_pos h0, List.getElem?_eq_getElem hlt]

/-- A part that is not empty shows in the joined text. -/
theorem join_ne_nil {sep part : Str} {parts : List Str} (hmem : part ∈ parts) (hne : part ≠ []) :
    join sep parts ≠ [] := by
  unfold join
  induction parts with
  | nil => cases hmem
  | cons first rest ih =>
      by_cases hrest : rest = []
      · subst hrest
        rw [List.intercalate_singleton, ← List.mem_singleton.mp hmem]
        exact hne
      · rw [List.intercalate_cons_of_ne_nil hrest]
        rcases List.mem_cons.mp hmem with rfl | hmem
        · exact List.append_ne_nil_of_left_ne_nil (List.append_ne_nil_of_left_ne_nil hne _) _
        · exact List.append_ne_nil_of_right_ne_nil _ (ih hmem)

end PyLang
