import Tripwire.Program
import Mathlib.Tactic.Common

/-!
# Programs that fail

Nothing undoes the steps of a program that fails. Whether it leaves a trace is a matter of
the order of its steps: it leaves none when every step that can fail comes before the first
change.

* `Program.Silent`, `Program.Safe`: programs that change nothing, and programs that cannot fail;
* `Program.Atomic`: programs that change nothing when they fail;
* `Program.Silent.bind_atomic`, `Program.Atomic.bind_safe`: how they are put together;
* `Program.Atomic.exec_eq`: how such a program ends.
-/

namespace Tripwire

namespace Program

variable {σ α β : Type} {p : Program σ α} {q : α → Program σ β}

/-- The program changes nothing. -/
def Silent (p : Program σ α) : Prop := ∀ s, (p.exec s).2 = s

/-- The program cannot fail. -/
def Safe (p : Program σ α) : Prop := ∀ s, ∃ a, (p.exec s).1 = .ok a

/-- The program changes nothing when it fails. -/
def Atomic (p : Program σ α) : Prop := ∀ s fault, (p.exec s).1 = .error fault → (p.exec s).2 = s

theorem silent_pure (a : α) : Silent (pure a : Program σ α) := fun _ => rfl

theorem silent_get : Silent (get : Program σ σ) := fun _ => rfl

theorem silent_lift (x : Except Fault α) : Silent (liftM x : Program σ α) := fun _ => rfl

theorem silent_require (condition : Prop) [Decidable condition] (fault : Fault) :
    Silent (require condition fault : Program σ Unit) := by
  intro s
  rw [exec_require]

theorem safe_change (step : σ → σ) : Safe (change step) := fun _ => ⟨(), rfl⟩

theorem Safe.bind (hp : Safe p) (hq : ∀ a, Safe (q a)) : Safe (p >>= q) := by
  intro s
  obtain ⟨a, ha⟩ := hp s
  obtain ⟨c, hc⟩ := hq a (p.exec s).2
  refine ⟨c, ?_⟩
  rw [exec_bind]
  generalize p.exec s = r at ha hc
  obtain ⟨x, s'⟩ := r
  obtain rfl : x = .ok a := ha
  exact hc

theorem Silent.atomic (hp : Silent p) : Atomic p := fun s _ _ => hp s

theorem Safe.atomic (hp : Safe p) : Atomic p := by
  intro s fault hfault
  obtain ⟨a, ha⟩ := hp s
  rw [ha] at hfault
  cases hfault

/-- Before the first change a program may fail. -/
theorem Silent.bind_atomic (hp : Silent p) (hq : ∀ a, Atomic (q a)) : Atomic (p >>= q) := by
  intro s fault hfault
  have hsame := hp s
  rw [exec_bind] at hfault ⊢
  generalize p.exec s = r at hsame hfault ⊢
  obtain ⟨x, s'⟩ := r
  obtain rfl : s' = s := hsame
  cases x with
  | error _ => rfl
  | ok a => exact hq a s' fault hfault

/-- After the first change nothing may fail. -/
theorem Atomic.bind_safe (hp : Atomic p) (hq : ∀ a, Safe (q a)) : Atomic (p >>= q) := by
  intro s fault hfault
  have hsame := hp s
  rw [exec_bind] at hfault ⊢
  generalize p.exec s = r at hsame hfault ⊢
  obtain ⟨x, s'⟩ := r
  cases x with
  | error other => exact hsame other rfl
  | ok a =>
    obtain ⟨c, hc⟩ := hq a s'
    rw [hc] at hfault
    cases hfault

/-! ### How atomic programs end -/

/-- An atomic program ends in its result, or in its fault and where it began. -/
theorem Atomic.exec_eq {p : Program σ Unit} (hp : Atomic p) (s : σ) :
    p.exec s =
      match p.result s with
      | .ok s' => (.ok (), s')
      | .error fault => (.error fault, s) := by
  have hsame := hp s
  rw [result]
  generalize p.exec s = r at hsame
  obtain ⟨x, s'⟩ := r
  cases x with
  | ok _ => rfl
  | error fault =>
    obtain rfl : s' = s := hsame fault rfl
    rfl

theorem Atomic.attempt_eq {p : Program σ Unit} (hp : Atomic p) (s : σ) :
    p.attempt s =
      match p.result s with
      | .ok s' => (s', none)
      | .error fault => (s, some fault) := by
  rw [attempt, hp.exec_eq]
  cases p.result s <;> rfl

/-- An atomic program that fails leaves everything as it was. -/
theorem Atomic.eq_of_attempt {p : Program σ Unit} {s s' : σ} {fault : Fault} (hp : Atomic p)
    (h : p.attempt s = (s', some fault)) : s' = s := by
  rw [hp.attempt_eq] at h
  cases hresult : p.result s with
  | ok _ =>
    rw [hresult] at h
    cases h
  | error _ =>
    rw [hresult] at h
    cases h
    rfl

end Program

end Tripwire
