import Tripwire.Proofs.LineTable.Expand
import Mathlib.Data.List.Chain

/-!
# Line tables of spans

A table of spans stores the step from one given line to the next in 32 bits. A step
that needs more is off by a multiple of `2 ^ 32`, and so is the counter from there on.
A look-up takes the counter for a line only when it fits 32 bits without sign, and two
lines that differ by a multiple of `2 ^ 32` are equal. So the line of a span is found,
or none, but never another one.

* `LineTable.slip`: how far the counter is off behind some spans, with `LineTable.dvd_slip`;
* `LineTable.expandFrom_runsOfSpans`: the lines of the bytes, span by span;
* `LineTable.lineAt?_ofSpans`: the line of a span is found exactly when the counter is right;
* `LineTable.Steady`: lines with steps of 32 bits, for which it always is;
* `LineTable.ofSpans_spec`: what look-ups in the table of some spans find.
-/

namespace Tripwire

/-- The bytes of some spans. -/
def bytesOfSpans (spans : List (Nat × Option Nat)) : Nat :=
  spans.foldr (fun span sum => span.1 + sum) 0

@[simp] theorem bytesOfSpans_nil : bytesOfSpans [] = 0 := rfl

@[simp] theorem bytesOfSpans_cons (span : Nat × Option Nat) (spans : List (Nat × Option Nat)) :
    bytesOfSpans (span :: spans) = span.1 + bytesOfSpans spans := rfl

namespace LineTable

variable {firstLine size offset : Nat} {line : Option Nat}
  {spans before after : List (Nat × Option Nat)}

theorem span_runsOfSpans (first : Nat) : span (runsOfSpans first spans) = bytesOfSpans spans := by
  induction spans generalizing first with
  | nil => rfl
  | cons s spans ih =>
    obtain ⟨size, _ | line⟩ := s
    · rw [runsOfSpans, span_cons, ih, bytesOfSpans_cons]
    · rw [runsOfSpans, span_cons, ih, bytesOfSpans_cons]

/-! ### The counter -/

/-- By how much the counter is off behind some spans, when it was right in front of them: the sum of
what the steps lose in 32 bits. -/
def slip (line : Nat) : List (Nat × Option Nat) → Int
  | [] => 0
  | (_, none) :: spans => slip line spans
  | (_, some next) :: spans =>
    (wrap32 ((next : Int) - line) - ((next : Int) - line)) + slip next spans

/-- A step loses a multiple of `2 ^ 32`. -/
theorem dvd_wrap32_sub (n : Int) : (limit32 : Int) ∣ wrap32 n - n := by
  rw [wrap32]
  exact Int.dvd_bmod_sub_self

theorem dvd_slip (line : Nat) (spans : List (Nat × Option Nat)) :
    (limit32 : Int) ∣ slip line spans := by
  induction spans generalizing line with
  | nil => exact dvd_zero _
  | cons s spans ih =>
    obtain ⟨size, _ | next⟩ := s
    · exact ih line
    · exact dvd_add (dvd_wrap32_sub _) (ih next)

/-- Below the 32-bit limit a counter that is off by a multiple of `2 ^ 32` is no line. -/
theorem lineOfCounter_add {l : Nat} {s : Int} (hl : l < limit32) (hs : (limit32 : Int) ∣ s) :
    lineOfCounter (l + s) = if s = 0 then some l else none := by
  obtain ⟨k, rfl⟩ := hs
  rw [lineOfCounter, limit32] at *
  by_cases hk : k = 0
  · subst hk
    rw [Int.mul_zero, Int.add_zero, Int.toNat_natCast, if_pos (by omega), if_pos rfl]
  · rw [if_neg (by omega), if_neg (by omega)]

/-! ### Look-ups -/

/-- The bytes of a span have its line as the counter gives it. -/
theorem expandFrom_runsOfSpans (counter : Int) (first size : Nat) (line : Option Nat)
    (before after : List (Nat × Option Nat)) : ∃ front back, front.length = bytesOfSpans before ∧
      expandFrom counter (runsOfSpans first (before ++ (size, line) :: after)) =
        front ++ (List.replicate size (line.bind fun l => lineOfCounter
          (l + (counter - first + slip first (before ++ [(size, line)])))) ++ back) := by
  induction before generalizing counter first with
  | nil =>
    cases line with
    | none => exact ⟨[], expandFrom counter (runsOfSpans first after), rfl, by
        simp [runsOfSpans, expandFrom]⟩
    | some next =>
      refine ⟨[], expandFrom (counter + wrap32 ((next : Int) - first)) (runsOfSpans next after),
        rfl, ?_⟩
      have hcounter : (next : Int) + (counter - first +
          (wrap32 ((next : Int) - first) - ((next : Int) - first) + 0)) =
          counter + wrap32 ((next : Int) - first) := by ring
      simp only [List.nil_append, runsOfSpans, expandFrom, slip, hcounter, Option.getD_some,
        Option.bind_some]
  | cons s before ih =>
    obtain ⟨bytes, _ | next⟩ := s
    · obtain ⟨front, back, hlength, heq⟩ := ih counter first
      refine ⟨List.replicate bytes none ++ front, back, by simp [hlength], ?_⟩
      simp only [List.cons_append, runsOfSpans, expandFrom, slip, Option.getD_none, Int.add_zero,
        heq, Option.bind_none, List.append_assoc]
    · obtain ⟨front, back, hlength, heq⟩ := ih (counter + wrap32 ((next : Int) - first)) next
      have hcounter : counter + wrap32 ((next : Int) - first) - next +
          slip next (before ++ [(size, line)]) = counter - first +
          (wrap32 ((next : Int) - first) - ((next : Int) - first) +
            slip next (before ++ [(size, line)])) := by ring
      refine ⟨List.replicate bytes (lineOfCounter (counter + wrap32 ((next : Int) - first))) ++
        front, back, by simp [hlength], ?_⟩
      simp only [List.cons_append, runsOfSpans, expandFrom, slip, Option.getD_some, heq, hcounter,
        Option.bind_some, List.append_assoc]

/-- The line of a span is found exactly when the counter is right there. -/
theorem lineAt?_ofSpans (hline : ∀ l ∈ line, l < limit32)
    (hsize : bytesOfSpans (before ++ (size, line) :: after) < limit32)
    (hle : bytesOfSpans before ≤ offset) (hlt : offset < bytesOfSpans before + size) :
    (ofSpans firstLine (before ++ (size, line) :: after)).lineAt? offset =
      if slip firstLine (before ++ [(size, line)]) = 0 then line else none := by
  obtain ⟨front, back, hlength, heq⟩ :=
    expandFrom_runsOfSpans firstLine firstLine size line before after
  have htable : (ofSpans firstLine (before ++ (size, line) :: after)).size < limit32 := by
    rwa [size_eq_span, ofSpans, span_runsOfSpans]
  rw [lineAt?_eq_join htable, expand, ofSpans, heq, getElem?_split, if_neg (by omega),
    if_pos (by omega), Int.sub_self, Int.zero_add, Option.join_some]
  cases line with
  | none => simp
  | some l => exact lineOfCounter_add (hline l rfl) (dvd_slip _ _)

/-- Each given line can be reached from the one given before it, the first one from `line`, by a
step of 32 bits with sign. -/
def Steady (line : Nat) (spans : List (Nat × Option Nat)) : Prop :=
  (line :: spans.filterMap Prod.snd).IsChain fun a b : Nat =>
    -0x80000000 ≤ (b : Int) - a ∧ (b : Int) - a < 0x80000000

/-- Steady spans lose nothing. -/
theorem Steady.slip_eq_zero (h : Steady firstLine spans) : slip firstLine spans = 0 := by
  induction spans generalizing firstLine with
  | nil => rfl
  | cons s spans ih =>
    obtain ⟨size, _ | next⟩ := s
    · exact ih h
    · obtain ⟨hstep, htail⟩ := List.isChain_cons_cons.1 h
      have hwrap : wrap32 ((next : Int) - firstLine) = (next : Int) - firstLine := by
        rw [wrap32, limit32]
        exact Int.bmod_eq_of_le (by omega) (by omega)
      rw [slip, hwrap, Int.sub_self, Int.zero_add]
      exact ih htail

theorem Steady.of_append (h : Steady firstLine (before ++ after)) : Steady firstLine before := by
  rw [Steady, List.filterMap_append, ← List.cons_append] at h
  exact h.left_of_append

/-- In the table of some spans every offset has the line of its span or none, whatever the lines,
and it has the line of its span when the lines are steady. -/
theorem ofSpans_spec (hlines : ∀ span ∈ spans, ∀ l ∈ span.2, l < limit32)
    (hsize : bytesOfSpans spans < limit32) {size offset : Nat} {line : Option Nat}
    (hspans : spans = before ++ (size, line) :: after)
    (hle : bytesOfSpans before ≤ offset) (hlt : offset < bytesOfSpans before + size) :
    ((ofSpans firstLine spans).lineAt? offset = line ∨
        (ofSpans firstLine spans).lineAt? offset = none) ∧
      (Steady firstLine spans → (ofSpans firstLine spans).lineAt? offset = line) := by
  subst hspans
  have hlook : (ofSpans firstLine (before ++ (size, line) :: after)).lineAt? offset = _ :=
    lineAt?_ofSpans (hlines (size, line) (List.mem_append_right _ (List.mem_cons_self ..))) hsize
      hle hlt
  constructor
  · rw [hlook]
    exact ite_eq_or_eq _ _ _
  · intro hsteady
    rw [List.append_cons] at hsteady
    rw [hlook, if_pos hsteady.of_append.slip_eq_zero]

/-- Spans with the largest steps in both directions behind line 5, and bytes without a line. -/
def extremeSpans : List (Nat × Option Nat) :=
  [(2, some 0x80000004), (0, some 4), (4, none), (2, some 9)]

/-- Behind line 4 the first step is too large, and the lines are lost. -/
theorem exists_ofSpans_extreme :
    (∀ span ∈ extremeSpans, ∀ l ∈ span.2, l < limit32) ∧ bytesOfSpans extremeSpans < limit32 ∧
      extremeSpans = [(2, some 0x80000004), (0, some 4), (4, none)] ++ (2, some 9) :: [] ∧
      Steady 5 extremeSpans ∧ (ofSpans 5 extremeSpans).lineAt? 7 = some 9 ∧
      ((ofSpans 4 extremeSpans).lineAt? 7 = some 9 ∨ (ofSpans 4 extremeSpans).lineAt? 7 = none) ∧
      (ofSpans 4 extremeSpans).lineAt? 7 ≠ some 9 := by
  have hlines : ∀ span ∈ extremeSpans, ∀ l ∈ span.2, l < limit32 := by decide
  have hsize : bytesOfSpans extremeSpans < limit32 := by decide
  have hspans : extremeSpans =
    [(2, some 0x80000004), (0, some 4), (4, none)] ++ (2, some 9) :: [] := rfl
  have hsteady : Steady 5 extremeSpans := by
    unfold Steady
    decide
  have hspec := fun first => @ofSpans_spec first extremeSpans _ _ hlines hsize 2 7 (some 9) hspans
    (by decide) (by decide)
  exact ⟨hlines, hsize, hspans, hsteady, (hspec 5).2 hsteady, (hspec 4).1, by decide⟩

end LineTable

end Tripwire
