/-!
# Blanks

Blank characters are those of the Unicode property `White_Space`. Text is handled
as lists of characters.

* `trim`: text without the blanks at its ends;
* `tokens`: the maximal runs of other characters;
* `afterTokens`: what follows a number of tokens;
* `linesOf`: the lines of a text.
-/

namespace Tripwire.Text

/-- The characters of `White_Space`. -/
def isBlank (c : Char) : Bool :=
  let n := c.toNat
  decide (0x09 ≤ n ∧ n ≤ 0x0D) || n == 0x20 || n == 0x85 || n == 0xA0 || n == 0x1680 ||
    decide (0x2000 ≤ n ∧ n ≤ 0x200A) || n == 0x2028 || n == 0x2029 || n == 0x202F || n == 0x205F ||
    n == 0x3000

/-- The text from its first character that is not blank. -/
def trimStart (cs : List Char) : List Char := cs.dropWhile isBlank

/-- The text up to its last character that is not blank. -/
def trimEnd (cs : List Char) : List Char := (trimStart cs.reverse).reverse

/-- The text without the blanks at its ends. -/
def trim (cs : List Char) : List Char := trimEnd (trimStart cs)

/-- One character in front of a list of tokens. The head of the list is the token under way, empty
after a blank. -/
def tokenStep (c : Char) (acc : List (List Char)) : List (List Char) :=
  match acc with
  | token :: rest => if isBlank c then [] :: acc else (c :: token) :: rest
  | [] => []

/-- The maximal runs of characters that are not blank. -/
def tokens (cs : List Char) : List (List Char) :=
  (cs.foldr tokenStep [[]]).filter fun token => !token.isEmpty

/-- What follows the first `count` tokens and the blanks after each. There has to be a blank after
each of them. -/
def afterTokens : Nat → List Char → Option (List Char)
  | 0, cs => some (trimStart cs)
  | count + 1, cs =>
    match (trimStart cs).dropWhile fun c => !isBlank c with
    | [] => none
    | rest => afterTokens count rest

/-- One character in front of a list of lines. -/
def lineStep (c : Char) (acc : List (List Char)) : List (List Char) :=
  match acc with
  | line :: rest => if c = '\n' then [] :: acc else (c :: line) :: rest
  | [] => []

/-- The lines of a text; a line feed ends each but the last. -/
def linesOf (cs : List Char) : List (List Char) := cs.foldr lineStep [[]]

/-- ASCII letters in lower case, all else unchanged. -/
def lower (cs : List Char) : List Char := cs.map Char.toLower

@[simp] theorem isBlank_newline : isBlank '\n' = true := by decide

/-- The blanks include those of ASCII. -/
theorem isBlank_of_isWhitespace {c : Char} (h : c.isWhitespace = true) : isBlank c = true := by
  simp only [Char.isWhitespace, Bool.or_eq_true, decide_eq_true_eq] at h
  rcases h with ((rfl | rfl) | rfl) | rfl <;> decide

@[simp] theorem trimStart_nil : trimStart [] = [] := rfl

theorem trimStart_cons_of_not_blank {c : Char} (h : isBlank c = false) (cs : List Char) :
    trimStart (c :: cs) = c :: cs := by
  simp [trimStart, h]

theorem linesOf_eq_singleton {cs : List Char} (h : '\n' ∉ cs) : linesOf cs = [cs] := by
  unfold linesOf
  induction cs with
  | nil => rfl
  | cons c cs ih =>
    simp only [List.mem_cons, not_or] at h
    rw [List.foldr_cons, ih h.2]
    simp [lineStep, Ne.symm h.1]

end Tripwire.Text
