/-!
# Numerals

Decimal whole numbers in source text and on the command line. Only the ASCII
digits count; a sign may stand in front.

* `spell`: the number that digits spell;
* `spellHalves`: the same number, by halves, and `number` for digits in any number;
* `spellUpTo`: the number up to a limit, and `digitsBelow?` for numbers below it;
* `nat32?`: a number below `2 ^ 32`;
* `int64?`: a number in the 64-bit range with sign.

Halving changes nothing (`spellHalves_eq_spell`), and the limit only what reaches it
(`spellUpTo_of_lt`, `le_spellUpTo`).
-/

namespace Tripwire.Text

/-- The value of a decimal digit. -/
def digitValue? (c : Char) : Option Nat :=
  if c.isDigit then some (c.toNat - '0'.toNat) else none

/-- The digits of a text, if it holds nothing else. -/
def digits? (cs : List Char) : Option (List Nat) := cs.mapM digitValue?

/-- The number that digits spell, following on from `start`. -/
def spell (start : Nat) (ds : List Nat) : Nat := ds.foldl (fun n d => 10 * n + d) start

/-- The number that digits spell, put together from the numbers of both halves. The halves are halved
in turn, as often as `depth` says. -/
def spellHalves : Nat → List Nat → Nat
  | 0, ds => spell 0 ds
  | depth + 1, ds =>
    let half := ds.length / 2
    spellHalves depth (ds.take half) * Nat.pow 10 (ds.drop half).length +
      spellHalves depth (ds.drop half)

/-- The number that digits spell. Halves of more than 64 digits are halved, so that long numbers are
made by few multiplications. -/
def number (ds : List Nat) : Nat := spellHalves (ds.length.log2 - 5) ds

/-- The number that digits spell, unless it reaches a limit. Once the limit is reached further digits
are not read. -/
def spellUpTo (limit : Nat) (ds : List Nat) : Nat :=
  ds.foldl (fun n d => if n < limit then 10 * n + d else n) 0

/-- The value of a non-empty run of digits, if it is below a limit. -/
def digitsBelow? (limit : Nat) (cs : List Char) : Option Nat :=
  if cs.isEmpty then none
  else ((digits? cs).map (spellUpTo limit)).filter fun n => n < limit

/-- A number below `2 ^ 32`; a plus sign may stand in front. -/
def nat32? (cs : List Char) : Option Nat :=
  match cs with
  | '+' :: rest => digitsBelow? 0x100000000 rest
  | _ => digitsBelow? 0x100000000 cs

/-- A number in the 64-bit range; a sign may stand in front. -/
def int64? (cs : List Char) : Option Int :=
  match cs with
  | '+' :: rest => (digitsBelow? 0x8000000000000000 rest).map Int.ofNat
  | '-' :: rest => (digitsBelow? 0x8000000000000001 rest).map fun n => -(n : Int)
  | _ => (digitsBelow? 0x8000000000000000 cs).map Int.ofNat

@[simp] theorem spell_nil (start : Nat) : spell start [] = start := rfl

@[simp] theorem spell_cons (start d : Nat) (ds : List Nat) :
    spell start (d :: ds) = spell (10 * start + d) ds := rfl

theorem spell_append (start : Nat) (a b : List Nat) :
    spell start (a ++ b) = spell (spell start a) b := by
  simp [spell]

/-- What stands in front of digits counts as many tens as there are digits. -/
theorem spell_eq (start : Nat) (ds : List Nat) :
    spell start ds = start * Nat.pow 10 ds.length + spell 0 ds := by
  induction ds generalizing start with
  | nil => simp
  | cons d ds ih =>
    have hpow : Nat.pow 10 (d :: ds).length = Nat.pow 10 ds.length * 10 := rfl
    rw [spell_cons, spell_cons, ih (10 * start + d), ih (10 * 0 + d), hpow]
    simp only [Nat.mul_zero, Nat.zero_add, Nat.add_mul, Nat.add_assoc]
    rw [Nat.mul_comm 10 start, Nat.mul_assoc, Nat.mul_comm 10]

theorem spellHalves_eq_spell (depth : Nat) (ds : List Nat) : spellHalves depth ds = spell 0 ds := by
  induction depth generalizing ds with
  | zero => rfl
  | succ depth ih =>
    rw [spellHalves, ih, ih, ← spell_eq, ← spell_append, List.take_append_drop]

@[simp] theorem number_eq_spell (ds : List Nat) : number ds = spell 0 ds :=
  spellHalves_eq_spell _ ds

theorem le_spell (start : Nat) (ds : List Nat) : start ≤ spell start ds := by
  induction ds generalizing start with
  | nil => exact Nat.le_refl _
  | cons d ds ih =>
    have h := ih (10 * start + d)
    rw [spell_cons]
    omega

theorem foldl_of_spell_lt {limit start : Nat} {ds : List Nat} (h : spell start ds < limit) :
    ds.foldl (fun n d => if n < limit then 10 * n + d else n) start = spell start ds := by
  induction ds generalizing start with
  | nil => rfl
  | cons d ds ih =>
    have hstart : start < limit := Nat.lt_of_le_of_lt (le_spell start (d :: ds)) h
    rw [List.foldl_cons, if_pos hstart]
    exact ih h

/-- Below the limit the number is read in full. -/
theorem spellUpTo_of_lt {limit : Nat} {ds : List Nat} (h : spell 0 ds < limit) :
    spellUpTo limit ds = spell 0 ds :=
  foldl_of_spell_lt h

theorem le_foldl_of_le {limit start : Nat} (ds : List Nat) (h : limit ≤ start) :
    limit ≤ ds.foldl (fun n d => if n < limit then 10 * n + d else n) start := by
  induction ds generalizing start with
  | nil => exact h
  | cons d ds ih =>
    rw [List.foldl_cons, if_neg (Nat.not_lt.2 h)]
    exact ih h

theorem le_foldl_of_le_spell {limit start : Nat} {ds : List Nat} (h : limit ≤ spell start ds) :
    limit ≤ ds.foldl (fun n d => if n < limit then 10 * n + d else n) start := by
  induction ds generalizing start with
  | nil => exact h
  | cons d ds ih =>
    by_cases hstart : start < limit
    · rw [List.foldl_cons, if_pos hstart]
      exact ih h
    · exact le_foldl_of_le (d :: ds) (Nat.not_lt.1 hstart)

/-- A number that reaches the limit is read up to the limit at least. -/
theorem le_spellUpTo {limit : Nat} {ds : List Nat} (h : limit ≤ spell 0 ds) :
    limit ≤ spellUpTo limit ds :=
  le_foldl_of_le_spell h

end Tripwire.Text
