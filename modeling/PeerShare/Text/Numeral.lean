/-
  Numerals and lists in text.

  A numeral is one or more digits of a base.  A text that
  lists items between separators is cut at each separator;
  the text without separators is one item.

  Key definitions include:
    * `Text.digitValue?`
    * `Text.readNumeral?`
    * `Text.splitOn`

  Key theorems include:
    * `Text.not_mem_of_mem_splitOn`
-/

------------------------------------------------------------
-- Numerals
------------------------------------------------------------

namespace PeerShare

namespace Text

/- The value of a digit in a base of at most sixteen. -/
def digitValue?
    (base : Nat)
    (c : Char) : Option Nat :=
  let n := c.toNat
  let value :=
    if 48 ≤ n ∧ n ≤ 57 then n - 48
    else if 97 ≤ n ∧ n ≤ 102 then n - 87
    else if 65 ≤ n ∧ n ≤ 70 then n - 55
    else base
  if value < base then some value else none

/-
  The value of a row of digits that follow digits of value
  `high`.
-/
def readDigits?
    (base : Nat) :
    (high : Nat) →
    List Char →
    Option Nat
  | high, [] => some high
  | high, c :: cs =>
      match digitValue? base c with
      | none => none
      | some value => readDigits? base (high * base + value) cs

/- The value of a numeral. -/
def readNumeral?
    (base : Nat)
    (cs : List Char) : Option Nat :=
  if cs.isEmpty then none else readDigits? base 0 cs

/- The digits of a number in a base of at most sixteen. -/
def writeNumeral
    (base n : Nat) : String :=
  String.ofList (Nat.toDigits base n)

end Text

end PeerShare

------------------------------------------------------------
-- Lists in Text
------------------------------------------------------------

namespace PeerShare

namespace Text

/- Put a letter in front of the first of some items. -/
def consHead
    (c : Char) :
    List (List Char) → List (List Char)
  | [] => [[c]]
  | item :: items => (c :: item) :: items

/- The items between the separators of a text. -/
def splitOn
    (sep : Char) :
    List Char → List (List Char)
  | [] => [[]]
  | c :: cs =>
      if c = sep then [] :: splitOn sep cs
      else consHead c (splitOn sep cs)

theorem splitOn_ne_nil
    (sep : Char)
    (cs : List Char) :
    splitOn sep cs ≠ [] := by
  cases cs with
  | nil => simp [splitOn]
  | cons c cs =>
      rw [splitOn]
      split
      · simp
      · cases splitOn sep cs <;> simp [consHead]

/- No item holds a separator. -/
theorem not_mem_of_mem_splitOn
    {sep : Char}
    {cs item : List Char}
    (h : item ∈ splitOn sep cs) :
    sep ∉ item := by
  induction cs generalizing item with
  | nil =>
      simp only [splitOn, List.mem_singleton] at h
      simp [h]
  | cons c cs ih =>
      rw [splitOn] at h
      split at h
      · rcases List.mem_cons.mp h with rfl | h
        · simp
        · exact ih h
      · rename_i hNe
        cases hItems : splitOn sep cs with
        | nil => exact absurd hItems (splitOn_ne_nil sep cs)
        | cons first items =>
            rw [hItems] at h ih
            rcases List.mem_cons.mp h with rfl | h
            · intro hMem
              rcases List.mem_cons.mp hMem with hEq | hMem
              · exact hNe hEq.symm
              · exact ih List.mem_cons_self hMem
            · exact ih (List.mem_cons_of_mem _ h)

end Text

end PeerShare
