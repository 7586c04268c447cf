import Tripwire.Proofs.Splice.Nearest

/-!
# Taking out what was spliced in

A block that is spliced in widens jumps from below, and taking it out again
narrows them from above. What comes back is the widest tight layout of the old
instructions that is nowhere wider than the code was with the block.

* `Relaid`: the tight layouts of a block;
* `Block.Spliced.exists_of_leadsTo`: the jumps with the block are those of the old code;
* `Block.Spliced.spares`: the block can always be taken out;
* `Block.Laid.within`: the old code is nowhere wider;
* `Block.Widest`, `Block.widest_of_undo`: what comes back;
* `Block.Widest.eq_iff`: when the old code comes back;
* `Block.Widest.nearest_eq`: splicing the block in again.
-/

namespace Tripwire

/-- The block `c` has the instructions of `b`, its jumps lead where those of `b` lead, and they are
as narrow as their operands allow. -/
structure Relaid (b c : Block) : Prop where
  resized : List.Forall₂ Instruction.Resized b c
  tight : c.Tight
  leadsTo : ∀ j m, b.LeadsTo j m → c.LeadsTo j m

namespace Relaid

variable {b c : Block}

theorem refl (h : b.Tight) : Relaid b b :=
  ⟨List.forall₂_same.2 fun i _ => .refl i, h, fun _ _ h => h⟩

/-- The widths determine the layout. -/
theorem eq_of_within (hb : b.Valid) (h : Relaid b c) (hbc : Within b c) (hcb : Within c b) :
    c = b :=
  Block.eq_of_routes hb.closed h.resized
    ((forall₂_both hbc hcb.flip).imp fun _ _ hi => le_antisymm hi.1 hi.2) h.leadsTo

end Relaid

/-! ### Carrying over and back -/

section Carry

variable {k length m : Nat}

theorem carry_zero (k length m : Nat) : carry k 0 length m = if m < k then m else m + length := by
  unfold carry
  by_cases h : m < k
  · rw [if_pos (by omega), if_pos h, Nat.min_eq_left h.le]
  · rw [if_neg (by omega), if_neg h, Nat.sub_zero]

theorem stays_carry (k length m : Nat) : Stays k length (carry k 0 length m) := by
  rw [carry_zero]
  unfold Stays
  split <;> omega

theorem carry_carry (k length m : Nat) : carry k length 0 (carry k 0 length m) = m := by
  rw [carry_zero]
  unfold carry
  split <;> split <;> omega

end Carry

namespace Block

variable {b added w : Block} {k : Nat} {shifts : List Shift}

/-- What is related to a splice is related to the old block where the spliced block is dropped. -/
theorem forall₂_of_spliced {R : Instruction → Instruction → Prop} (hk : k ≤ b.length)
    (h : List.Forall₂ R (b.spliced k 0 added) w) :
    List.Forall₂ R b (w.spliced k added.length []) :=
  forall₂_unspliced hk (by rw [List.take_zero]; exact .nil) h

section Undo

/-- The jumps of the code with the block are those of the old code. -/
theorem Spliced.exists_of_leadsTo (hb : b.Valid) (ha : added.Addable) (hk : k ≤ b.length)
    (hw : b.Spliced k 0 added w shifts) {j m : Nat} (h : w.LeadsTo j m) :
    ∃ j' m', b.LeadsTo j' m' ∧ carry k 0 added.length j' = j ∧ carry k 0 added.length m' = m := by
  obtain ⟨j', m', -, hjm, hj, hm⟩ :=
    Block.exists_of_leadsTo hb.closed ha hk hw.resized hw.leadsTo hw.valid.solid h
  exact ⟨j', m', hjm, hj, hm⟩

/-- No jump leads into the block. -/
theorem Spliced.spares (hb : b.Valid) (ha : added.Addable) (hk : k ≤ b.length)
    (hw : b.Spliced k 0 added w shifts) : w.Spares k added.length := by
  intro j m _ hjm
  obtain ⟨j', m', -, -, rfl⟩ := hw.exists_of_leadsTo hb ha hk hjm
  have hstays := stays_carry k added.length m'
  unfold Stays at hstays
  omega

/-- The old code is nowhere wider than a layout with the block. -/
theorem Laid.within (hk : k ≤ b.length) (h : Laid true b k 0 added w) :
    Within (w.spliced k added.length []) b :=
  (forall₂_of_spliced hk (before_true.1 h.toward).flip).flip

/-- The block `r` is the widest tight layout of `b` that is nowhere wider than `bound`. -/
structure Widest (b bound r : Block) : Prop where
  relaid : Relaid b r
  within : Within bound r
  widest : ∀ c, Relaid b c → Within bound c → Within r c

/-- The widest layout is the block itself exactly when that is as wide as every other one. -/
theorem Widest.eq_iff {bound r : Block} (hb : b.Valid) (htight : b.Tight) (hbound : Within bound b)
    (h : Widest b bound r) : r = b ↔ ∀ c, Relaid b c → Within bound c → Within b c := by
  constructor
  · rintro rfl
    exact h.widest
  · intro hwidest
    exact h.relaid.eq_of_within hb (hwidest r h.relaid h.within)
      (h.widest b (.refl htight) hbound)

/-- What comes back is the widest tight layout of the old instructions that is nowhere wider than
the code with the block. -/
theorem widest_of_undo {r : Block} (hb : b.Valid) (ha : added.Addable) (hk : k ≤ b.length)
    (hw : b.Spliced k 0 added w shifts) (hencodable : ∀ i ∈ r, i.Encodable)
    (hr : Nearest false w k added.length [] r) :
    Widest b (w.spliced k added.length []) r where
  relaid := by
    refine ⟨resized_trans (forall₂_of_spliced hk hw.resized) hr.laid.resized,
      fun i hi hjump => ?_, fun j m hjm => ?_⟩
    · have hle := hr.laid.stops i hi hjump
      rw [toward_false] at hle
      exact le_antisymm (by exact_mod_cast hle) (hencodable i hi).fits
    · have hleads := hr.laid.leadsTo _ _ (stays_carry k added.length j)
        (hw.leadsTo j m (stays_zero k j) hjm)
      rwa [List.length_nil, carry_carry, carry_carry] at hleads
  within := before_false.1 hr.laid.toward
  widest c hc hwithin := by
    have hresized : List.Forall₂ Instruction.Resized (w.spliced k added.length []) c :=
      resized_trans (resized_symm (forall₂_of_spliced hk hw.resized)) hc.resized
    have hlaid : Laid false w k added.length [] c := by
      refine ⟨hresized, before_false.2 hwithin, fun j m _ hjm => ?_, fun i hi hjump => ?_,
        fun i hi => ?_⟩
      · obtain ⟨j', m', hjm', rfl, rfl⟩ := hw.exists_of_leadsTo hb ha hk hjm
        rw [List.length_nil, carry_carry, carry_carry]
        exact hc.leadsTo j' m' hjm'
      · rw [toward_false, hc.tight i hi hjump]
      · obtain ⟨i₀, hi₀, hsame⟩ := exists_of_mem_right hresized hi
        rcases mem_of_mem_spliced hi₀ with hi₀ | hi₀
        · refine hsame.bounded (hw.valid.encodable i₀ hi₀) fun hjump => ?_
          rw [hc.tight i hi hjump]
          exact ⟨one_le_minimalWidth _, minimalWidth_le_four _⟩
        · cases hi₀
    exact before_false.1 (hr.toward c hlaid)

/-! ### Splicing the block in again -/

section Again

variable {r : Block} (hk : k ≤ b.length) (hw : Nearest true b k 0 added w)
  (h : Widest b (w.spliced k added.length []) r)
include hk hw h

/-- What has come back lies before the code with the block. -/
theorem Widest.before_spliced (ha : added.Addable) : Before true (r.spliced k 0 added) w := by
  have hplain := forall₂_spliced (R := fun i i' : Instruction => i'.width ≤ i.width)
    (fun i (_ : i ∈ added) => le_refl i.width) k 0 h.within
  have hback : Block.spliced (w.spliced k added.length []) k 0 added = w :=
    spliced_unspliced ha hk hw.laid.resized
  rw [hback] at hplain
  exact before_true.2 hplain

/-- The code with the block is a layout of splicing the block into what has come back. -/
theorem Widest.laid (hb : b.Valid) (ha : added.Addable) (hr : r.Solid) :
    Laid true r k 0 added w :=
  hw.laid.advance h.relaid.resized h.relaid.leadsTo hb.closed hr (h.before_spliced hk hw ha)

/-- Splicing the block into what has come back makes the same code again. -/
theorem Widest.nearest_eq {v : Block} (hb : b.Valid) (htight : b.Tight) (ha : added.Addable)
    (hr : r.Solid) (hv : Nearest true r k 0 added v) : v = w :=
  Nearest.eq_of_between hb.closed ha hk h.relaid.resized h.relaid.leadsTo hr
    (before_true.2 (h.widest b (.refl htight) (hw.laid.within hk))) (h.before_spliced hk hw ha)
    hw hv

end Again

end Undo

end Block

end Tripwire
