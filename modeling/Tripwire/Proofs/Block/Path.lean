import Tripwire.Proofs.Block.Position

/-!
# Paths and the depth of the operand stack

Control passes from an instruction to the one behind it or, at a jump, to the
target. Along a path the effects of the instructions on the operand stack add up.

* `Opcode.Falls`: the instructions that can pass control to the one behind them;
* `Block.Edge`: one step of control with its effect, with `Block.Edge.exists_index`;
* `Block.Reaches`: the paths from the start of the code, with the depth they end at;
* `Block.DepthAtMost`: a bound of the depth along every path;
* `Block.rise`: the depth along instructions that do not jump, with
  `Block.rise_take_le_stackGrowth`.
-/

namespace Tripwire

/-- The instruction can pass control to the one behind it. -/
def Opcode.Falls (op : Opcode) : Prop :=
  op ≠ .jumpForward ∧ op ≠ .jumpAbsolute ∧ op ≠ .returnValue

instance (op : Opcode) : Decidable op.Falls :=
  inferInstanceAs (Decidable (_ ∧ _ ∧ _))

/-- The effect of a jump does not depend on its operand. -/
theorem Opcode.stackEffect_of_isJump {op : Opcode} (h : op.flow.isJump = true) (arg arg' : Nat)
    (taken : Bool) : op.stackEffect arg taken = op.stackEffect arg' taken := by
  cases op <;> first | rfl | cases h

namespace Block

/-! ### Steps of control -/

/-- One step of control from an offset to another, with its effect on the operand stack. -/
inductive Edge (b : Block) : Nat → Int → Nat → Prop
  | fall {i : Instruction} {p : Nat} : (i, p) ∈ placed b → i.opcode.Falls →
      Edge b p (i.stackEffect false) (p + i.size)
  | jump {i : Instruction} {p t : Nat} : (i, p) ∈ placed b → i.target? p = some t →
      Edge b p (i.stackEffect true) t

/-- A path from the start of the code leads to an offset and raises the operand stack by a depth. -/
inductive Reaches (b : Block) : Nat → Int → Prop
  | start : Reaches b 0 0
  | step {p q : Nat} {depth effect : Int} : Reaches b p depth → Edge b p effect q →
      Reaches b q (depth + effect)

/-- No path raises the operand stack by more than `limit`. -/
def DepthAtMost (b : Block) (limit : Nat) : Prop :=
  ∀ p depth, b.Reaches p depth → depth ≤ limit

section Edge

variable {b : Block} {i : Instruction} {k m p q : Nat} {effect : Int}

theorem edge_fall (hi : b[k]? = some i) (h : i.opcode.Falls) :
    b.Edge (b.start k) (i.stackEffect false) (b.start (k + 1)) := by
  rw [start_succ hi]
  exact .fall (mem_placed.2 ⟨k, hi, rfl⟩) h

theorem edge_jump (hi : b[k]? = some i) (h : b.LeadsTo k m) :
    b.Edge (b.start k) (i.stackEffect true) (b.start m) :=
  .jump (mem_placed.2 ⟨k, hi, rfl⟩) (h.target?_eq hi).2

/-- A step of control leaves an instruction for the one behind it or for the target of a jump. -/
theorem Edge.exists_index (hb : b.Closed) (h : b.Edge p effect q) :
    ∃ k i, b[k]? = some i ∧ b.start k = p ∧
      (i.opcode.Falls ∧ effect = i.stackEffect false ∧ q = b.start (k + 1) ∨
        ∃ m, b.LeadsTo k m ∧ effect = i.stackEffect true ∧ q = b.start m) := by
  cases h with
  | fall hmem hfalls =>
    obtain ⟨k, hi, rfl⟩ := mem_placed.1 hmem
    exact ⟨k, _, hi, rfl, .inl ⟨hfalls, rfl, (start_succ hi).symm⟩⟩
  | jump hmem htarget =>
    obtain ⟨k, hi, rfl⟩ := mem_placed.1 hmem
    obtain ⟨m, hkm⟩ := hb k _ hi (isJump_of_target? htarget)
    have htarget' := (hkm.target?_eq hi).2
    rw [htarget] at htarget'
    exact ⟨k, _, hi, rfl, .inr ⟨m, hkm, rfl, Option.some.inj htarget'⟩⟩

end Edge

/-! ### Straight lines -/

/-- The rise of the operand stack along the whole block when no jump is taken. -/
def rise (b : Block) : Int := b.foldr (fun i sum => i.stackEffect false + sum) 0

@[simp] theorem rise_nil : rise [] = 0 := rfl

@[simp] theorem rise_cons (i : Instruction) (b : Block) :
    rise (i :: b) = i.stackEffect false + rise b := rfl

@[simp] theorem rise_append (a b : Block) : rise (a ++ b) = rise a + rise b := by
  induction a with
  | nil => simp
  | cons i a ih => rw [List.cons_append, rise_cons, rise_cons, ih, Int.add_assoc]

theorem rise_take_succ {b : Block} {t : Nat} {i : Instruction} (hi : b[t]? = some i) :
    rise (b.take (t + 1)) = rise (b.take t) + i.stackEffect false := by
  rw [List.take_add_one, hi, rise_append]
  simp

theorem foldl_stackEffect (b : Block) (depth : Int) :
    b.foldl (fun depth i => depth + i.stackEffect false) depth = depth + rise b := by
  induction b generalizing depth with
  | nil => simp
  | cons i b ih => rw [List.foldl_cons, ih, rise_cons, Int.add_assoc]

/-- A running depth behind one instruction more, with the peak so far. -/
def track (f : Int → Instruction → Int) (s : Int × Int) (i : Instruction) : Int × Int :=
  (f s.1 i, max s.2 (f s.1 i))

theorem peak_le_foldl_track (f : Int → Instruction → Int) (b : Block) (s : Int × Int) :
    s.2 ≤ (b.foldl (track f) s).2 := by
  induction b generalizing s with
  | nil => exact le_rfl
  | cons i b ih => exact (le_max_left _ _).trans (ih (track f s i))

/-- The peak is at least as high as the running depth behind every leading part. -/
theorem foldl_take_le_foldl_track (f : Int → Instruction → Int) (b : Block) {s : Int × Int}
    (h : s.1 ≤ s.2) (t : Nat) : (b.take t).foldl f s.1 ≤ (b.foldl (track f) s).2 := by
  induction b generalizing s t with
  | nil => simpa using h
  | cons i b ih =>
    cases t with
    | zero => exact h.trans (peak_le_foldl_track f (i :: b) s)
    | succ t => exact ih (s := track f s i) (le_max_right _ _) t

theorem stackGrowth_eq (b : Block) :
    stackGrowth b = (b.foldl (track fun depth i => depth + i.stackEffect false) (0, 0)).2.toNat :=
  rfl

/-- No leading part of a block rises higher than the growth of the block. -/
theorem rise_take_le_stackGrowth (b : Block) (t : Nat) : rise (b.take t) ≤ stackGrowth b := by
  have hpeak := foldl_take_le_foldl_track (fun depth i => depth + i.stackEffect false) b
    (s := (0, 0)) le_rfl t
  rw [foldl_stackEffect, Int.zero_add] at hpeak
  rw [stackGrowth_eq]
  exact hpeak.trans (Int.self_le_toNat _)

theorem rise_flatten {blocks : List Block} (hflat : ∀ a ∈ blocks, rise a = 0) :
    rise blocks.flatten = 0 := by
  induction blocks with
  | nil => rfl
  | cons a blocks ih =>
    rw [List.flatten_cons, rise_append, hflat a (List.mem_cons_self ..),
      ih fun a' ha' => hflat a' (List.mem_cons_of_mem _ ha')]
    rfl

/-- Blocks laid end to end rise no higher than all of them together grow. -/
theorem rise_take_flatten_le (blocks : List Block) (t : Nat) :
    rise (blocks.flatten.take t) ≤ ((blocks.map stackGrowth).sum : Nat) := by
  induction blocks generalizing t with
  | nil => simp
  | cons a blocks ih =>
    have hrest := ih (t - a.length)
    have hgrowth := rise_take_le_stackGrowth a t
    rw [List.flatten_cons, List.take_append, rise_append, List.map_cons, List.sum_cons]
    push_cast at hrest ⊢
    exact Int.add_le_add hgrowth hrest

end Block

end Tripwire
