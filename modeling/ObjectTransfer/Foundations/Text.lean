import ObjectTransfer.Foundations.Words

/-! # Cutting texts

A text is the list of its characters. It is cut at the first occurrence of a mark, into lines, and
a line of digits is read as a number of the machine.
-/

namespace ObjectTransfer.Foundations
open List

def utf8Bytes (text : List Char) : Bytes := text.flatMap String.utf8EncodeChar

theorem utf8Bytes_injective : Function.Injective utf8Bytes := by
  intro s t h
  apply String.ofList_inj.mp
  apply String.toByteArray_inj.mp
  exact congrArg toByteArray h

section SplitOnce

variable {α : Type*} [DecidableEq α] {x : α} {mark line rest : List α}

/-- What stands before and after the first occurrence of a mark. -/
def splitOnce (mark : List α) : List α → Option (List α × List α)
  | [] => none
  | c :: cs =>
    if mark.isPrefixOf (c :: cs) then some ([], (c :: cs).drop mark.length)
    else (splitOnce mark cs).map fun parts => (c :: parts.1, parts.2)

theorem splitOnce_append (h : x ∉ line) : splitOnce (x :: mark) (line ++ rest) =
    (splitOnce (x :: mark) rest).map fun parts => (line ++ parts.1, parts.2) := by
  induction line with
  | nil => simp
  | cons c line ih =>
    rw [mem_cons, not_or] at h
    simp [splitOnce, isPrefixOf, h.1, ih h.2, Function.comp_def]

theorem splitOnce_line (h : x ∉ line) :
    splitOnce [x] (line ++ x :: rest) = some (line, rest) := by
  rw [splitOnce_append h]
  simp [splitOnce, isPrefixOf]

omit [DecidableEq α] in
theorem head?_append_ne (hne : line ≠ []) (h : x ∉ line) : (line ++ rest).head? ≠ some x := by
  cases line with
  | nil => contradiction
  | cons c line =>
    intro hc
    exact h (by simp [Option.some.inj hc])

/-- The end of one line is no empty line. -/
theorem splitOnce_pair (h : x ∉ line) (hrest : rest.head? ≠ some x) :
    splitOnce [x, x] (line ++ x :: rest) =
      (splitOnce [x, x] rest).map fun parts => (line ++ x :: parts.1, parts.2) := by
  rw [splitOnce_append h]
  cases rest with
  | nil => simp [splitOnce, isPrefixOf]
  | cons c rest =>
    have hne : x ≠ c := by simpa [eq_comm] using hrest
    simp [splitOnce, isPrefixOf, hne, Function.comp_def]

end SplitOnce

section Lines

def stripReturn (line : List Char) : List Char :=
  if line.getLast? = some '\r' then line.dropLast else line

/-- The lines of a text. A carriage return before the end of a line is no part of it; the last line
need not be ended. -/
def lines (text : List Char) : List (List Char) :=
  let pieces := text.splitOn '\n'
  pieces.dropLast.map stripReturn ++ (pieces.getLast?.filter (· ≠ [])).toList

theorem intercalate_ended (ls : List (List Char)) :
    ['\n'].intercalate (ls ++ [[]]) = (ls.map (· ++ ['\n'])).flatten := by
  induction ls with
  | nil => rfl
  | cons line ls ih =>
    rw [cons_append, intercalate_cons_of_ne_nil (by simp), ih]
    simp

theorem lines_ended {ls : List (List Char)} (h : ∀ l ∈ ls, '\n' ∉ l ∧ '\r' ∉ l) :
    lines (ls.map (· ++ ['\n'])).flatten = ls := by
  have hsplit : ((ls.map (· ++ ['\n'])).flatten).splitOn '\n' = ls ++ [[]] := by
    rw [← intercalate_ended]
    apply splitOn_intercalate
    · intro line hline
      rcases mem_append.mp hline with hl | hl
      · exact (h line hl).1
      · simp_all
    · simp
  have hstrip : ls.map stripReturn = ls := by
    conv_rhs => rw [← map_id ls]
    apply map_congr_left
    intro l hl
    apply if_neg
    intro hlast
    exact (h l hl).2 (mem_of_getLast? hlast)
  simp [lines, hsplit, hstrip]

end Lines

/-- A number of the machine's width, written with an optional sign. -/
def parseUsize (text : List Char) : Option {n : ℕ // n ≤ u64Max} :=
  let digits := if text.head? = some '+' then text.tail else text
  let n := Nat.ofDigitChars 10 digits 0
  if digits ≠ [] ∧ digits.all Char.isDigit then
    if h : n ≤ u64Max then some ⟨n, h⟩ else none
  else none

theorem parseUsize_toDigits (n : {n : ℕ // n ≤ u64Max}) :
    parseUsize (Nat.toDigits 10 n) = some n := by
  have hdigit : ∀ c ∈ Nat.toDigits 10 n, c.isDigit := by
    intro c hc
    exact Nat.isDigit_of_mem_toDigits (by decide) (by decide) hc
  have hsign : (Nat.toDigits 10 n).head? ≠ some '+' := by
    intro h
    exact absurd (hdigit '+' (mem_of_head? h)) (by decide)
  simp [parseUsize, hsign, Nat.toDigits_ne_nil, all_eq_true.mpr hdigit,
    Nat.ofDigitChars_ten_toDigits, n.2]

end ObjectTransfer.Foundations
