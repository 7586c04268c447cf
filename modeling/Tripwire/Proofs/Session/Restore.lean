import Tripwire.Proofs.Assembly.Source
import Tripwire.Proofs.Session.Undo

/-!
# Restoring assembled functions

In an assembled function every jump is as narrow as it can be. A call in front of
it can widen jumps, and when they keep each other wide, clearing the breakpoint
does not narrow them again: the code that comes back is the widest layout of the
instructions that has room in the code with the call.

* `restored_iff_of_assemble`: when an assembled function comes back;
* `exists_not_restored`: a jump that stays wide.
-/

namespace Tripwire

/-- A breakpoint that has just been set in an assembled function can be cleared, and the stack
budget comes back. The code comes back, and the line table with it, exactly when no layout of its
instructions that is as narrow as the operands allow, and nowhere wider than the code with the call,
is wider than the assembled one. -/
theorem restored_iff_of_assemble {source : List Char} {f f' : Function} {inj inj' : Injector}
    {line id : Nat} (hassemble : assemble source = .ok f)
    (hsteady : ∀ b, Block.decode f.code = .ok b → ∀ i ∈ b, i.flow ≠ .suspension)
    (hok : inj.insert f line id = .ok (inj', f')) (hsmall : f'.Small) :
    ∃ b k w inj'' f'', Block.decode f.code = .ok b ∧ k < b.length ∧
      f.offsetOfLine line = .ok (b.start k) ∧ Block.decode f'.code = .ok w ∧
      inj'.remove f' line id = .ok (inj'', f'') ∧ f''.stackDepth = f.stackDepth ∧
      (f''.code = f.code → f''.lines = f.lines) ∧
      (f''.code = f.code ↔
        ∀ c, Relaid b c → Within (w.spliced k callLength []) c → Within b c) := by
  obtain ⟨b, hb, hnarrow, hwell⟩ :=
    wellFormed_of_assemble hassemble (small_of_insert hok hsmall)
  have hf : f.WellFormed b := hwell (hsteady b hb)
  have htight : b.Tight := fun i hi _ => hnarrow i hi
  obtain ⟨k, w, inj'', f'', hk, hline, hw, hremove, hdepth, hlines, hcode⟩ :=
    exists_remove_of_insert hf htight hok hsmall
  exact ⟨b, k, w, inj'', f'', hb, hk, hline, hw, hremove, hdepth, hlines, hcode⟩

/-! ### A jump that stays wide -/

/-- A jump over idle instructions to a return. -/
def Block.longJump (target : UInt32) (width : Nat) : Block :=
  ⟨.jumpAbsolute, target, width⟩ :: (List.replicate 126 (.bare .nop) ++ [.bare .returnValue])

/-- Source text in which a jump leads as far as it can with the least width. -/
def longJumpSource : List Char :=
  ".line 1\njump_absolute end\n.line 2\n".toList ++ (List.replicate 126 "nop\n".toList).flatten ++
    ".label end\nreturn_value\n".toList

/-- The function of that text. -/
def Function.longJump : Function where
  name := "<asm>"
  code := (Block.longJump 254 1).encode
  constants := []
  names := []
  lines := .ofSpans 1 [(2, some 1), (254, some 2)]
  stackDepth := 0

theorem assemble_longJumpSource : assemble longJumpSource = .ok .longJump := by decide +kernel

theorem decode_longJump : Block.decode Function.longJump.code = .ok (.longJump 254 1) :=
  Block.decode_encode (by decide +kernel)

theorem small_longJump : Function.longJump.Small := ⟨by decide +kernel, by decide, by decide⟩

theorem wellFormed_longJump : Function.longJump.WellFormed (.longJump 254 1) := by
  obtain ⟨b, hb, -, hwell⟩ := wellFormed_of_assemble assemble_longJumpSource small_longJump
  rw [decode_longJump] at hb
  cases hb
  exact hwell (by decide +kernel)

/-- The only jump is the first instruction. -/
theorem isJump_of_mem_longJump : ∀ i ∈ List.replicate 126 (Instruction.bare .nop) ++
    [.bare .returnValue], i.flow.isJump = false := by
  decide +kernel

/-- The jump that needs its greater width because it has it. -/
theorem relaid_longJump : Relaid (.longJump 254 1) (.longJump 256 2) where
  resized := .cons ⟨rfl, fun h => by cases h⟩ (List.forall₂_same.2 fun i _ => .refl i)
  tight := by
    intro i hi hjump
    rcases List.mem_cons.1 hi with rfl | hi
    · rfl
    · rw [isJump_of_mem_longJump i hi] at hjump
      cases hjump
  leadsTo j m h := by
    obtain ⟨-, i, hi, hjump, -⟩ := id h
    cases j with
    | zero =>
      have hnarrow : Block.LeadsTo (.longJump 254 1) 0 127 :=
        ⟨by decide +kernel, _, rfl, rfl, by decide +kernel⟩
      obtain rfl := hnarrow.unique wellFormed_longJump.valid.solid h
      exact ⟨by decide +kernel, _, rfl, rfl, by decide +kernel⟩
    | succ j =>
      rw [isJump_of_mem_longJump i (List.mem_of_getElem? hi)] at hjump
      cases hjump

theorem exists_insert_longJump : ∃ inj f,
    (Injector.start .standard).insert .longJump 1 7 = .ok (inj, f) ∧ f.Small ∧
      Block.decode f.code = .ok (callBlock 0 1 0 ++ .longJump 266 2) := by
  -- The check of the targets hashes, so that it is proved and the rest is evaluated.
  have hdraft : (Block.draftInsert (.longJump 254 1) (callBlock 0 1 0) 0 >>= fun d =>
      d.relocated >>= fun p => checkLayout p.2 p.1 >>= fun _ =>
        pure (instructionsOf p.1, p.2, d.removed)) =
      .ok (callBlock 0 1 0 ++ .longJump 266 2, [.before 0 10, .within 0 2], []) := by
    decide +kernel
  obtain ⟨d, hd, hdraft⟩ := bind_eq_ok_iff.1 hdraft
  obtain ⟨⟨out, shifts⟩, hrelocate, hdraft⟩ := bind_eq_ok_iff.1 hdraft
  obtain ⟨_, hlayout, hdraft⟩ := bind_eq_ok_iff.1 hdraft
  simp only [pure_eq_ok_iff, Prod.mk.injEq] at hdraft
  obtain ⟨hout, rfl, hremoved⟩ := hdraft
  have hclosed : Block.Closed (callBlock 0 1 0 ++ .longJump 266 2) := by decide +kernel
  have hinsert : insertAt Function.longJump.code (callBlock 0 1 0) 0 = .ok
      ⟨Block.encode (callBlock 0 1 0 ++ .longJump 266 2), [.before 0 10, .within 0 2], []⟩ := by
    refine insertAt_eq_ok_iff.2 ⟨_, d, Block.ofCode_eq_ok_iff.2
      ⟨decode_longJump, wellFormed_longJump.valid.steady⟩, hd, ?_⟩
    refine Block.finish_eq_ok_iff.2 ⟨out, hrelocate, hlayout, ?_, ?_, hremoved.symm⟩
    · rw [hout]
      exact hclosed
    · rw [hout]
  have hlines : Function.longJump.lines.followed [.before 0 10, .within 0 2] =
      .ok (.ofSpans 1 [(14, some 1), (254, some 2)]) := by
    rw [LineTable.followed, LineTable.follow, LineTable.fallingOrder,
      List.mergeSort_of_pairwise (by decide)]
    rfl
  refine ⟨⟨.standard, ⟨[⟨7, 1, _, _⟩], List.pairwise_singleton ..⟩⟩, _,
    Injector.insert_eq_ok_iff.2 ⟨0, _, _, rfl, by decide +kernel, hinsert, hlines, by decide, rfl,
      rfl, rfl⟩, ?_, Block.decode_encode (by decide +kernel)⟩
  exact ⟨by decide +kernel, by decide, by decide⟩

/-- A breakpoint in front of the jump widens it for good. -/
theorem exists_not_restored : ∃ inj f inj' f',
    (Injector.start .standard).insert .longJump 1 7 = .ok (inj, f) ∧
      inj.remove f 1 7 = .ok (inj', f') ∧ f'.stackDepth = Function.longJump.stackDepth ∧
      f'.code ≠ Function.longJump.code := by
  obtain ⟨inj, f, hinsert, hsmall, hdecode⟩ := exists_insert_longJump
  have hsteady : ∀ b, Block.decode Function.longJump.code = .ok b →
      ∀ i ∈ b, i.flow ≠ .suspension := by
    intro b hb
    rw [decode_longJump] at hb
    cases hb
    exact wellFormed_longJump.valid.steady
  obtain ⟨b, k, w, inj', f', hb, hk, hline, hw, hremove, hdepth, -, hiff⟩ :=
    restored_iff_of_assemble assemble_longJumpSource hsteady hinsert hsmall
  rw [decode_longJump] at hb
  rw [hdecode] at hw
  cases hb
  cases hw
  have hfirst : Function.longJump.offsetOfLine 1 =
      .ok (Block.start (.longJump 254 1) 0) := by decide +kernel
  rw [hfirst] at hline
  have hstart : k = 0 :=
    Block.start_inj wellFormed_longJump.valid.solid hk.le (Nat.zero_le _) (Except.ok.inj hline).symm
  subst hstart
  refine ⟨inj, f, inj', f', hinsert, hremove, hdepth, fun hcode => ?_⟩
  have hsame : Block.spliced (callBlock 0 1 0 ++ .longJump 266 2) 0 callLength [] =
      .longJump 266 2 := rfl
  have hwithin : Within (.longJump 266 2) (.longJump 256 2) :=
    .cons le_rfl (List.forall₂_same.2 fun _ _ => le_rfl)
  have hnarrow : Within (.longJump 254 1) (.longJump 256 2) :=
    hiff.1 hcode _ relaid_longJump (hsame ▸ hwithin)
  cases hnarrow with
  | cons hwidth _ => exact absurd hwidth (by decide)

end Tripwire
