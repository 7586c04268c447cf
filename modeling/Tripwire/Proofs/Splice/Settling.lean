import Tripwire.Proofs.Splice.Insertion
import Tripwire.Proofs.Splice.Removal

/-!
# Edits settle

An edit of code that can be read reaches relocation with jumps of one to four words, each
wide enough for its operand. That is all that the bound on the changes needs: neither the
order of the jumps nor where they lead matters, nor do the instructions put in, whatever
widths they state, since there are no jumps among them.

* `Block.Drafts`: the edits of a block that reach relocation, with `Block.Drafts.exists_splice`;
* `Draft.Settles`: relocation stays within its bounds at every stage, with
  `Draft.Settles.of_splice`;
* `settles_of_edit`: insertions and removals do not fail for want of rounds.
-/

namespace Tripwire

namespace Draft

/-- Whether relocation widens or narrows. -/
def growing (d : Draft) : Bool := decide (0 < d.primary.delta)

/-- Relocation of the draft comes by the stage. -/
def Reaches (d : Draft) (g : Stage) : Prop := (Stage.start d.primary d.slots).Reaches d.growing g

/-- Relocation of the draft comes to an end. At every stage on the way, whether or not it ends
well, there is no more than the edit and three changes for each jump, and jumps have one to four
words. From each stage to a later one only jumps have changed, and their widths all one way. -/
structure Settles (d : Draft) : Prop where
  exists_ends : ∃ g, d.Reaches g ∧ g.Ends d.growing d.relocated
  operandRange : ∀ fault, d.relocated = .error fault →
    ∃ operand opcode origin, fault = .inconsistent (.operandRange operand opcode origin)
  length_applied_le : ∀ g, d.Reaches g → g.applied.length ≤ 1 + 3 * jumpsOf d.slots
  width_bounds : ∀ g, d.Reaches g → ∀ s ∈ g.slots, s.instruction.flow.isJump = true →
    1 ≤ s.instruction.width ∧ s.instruction.width ≤ maximalWidth
  leans : ∀ g g', d.Reaches g → g.Reaches d.growing g' →
    List.Forall₂ (Slot.Leans d.growing) g.slots g'.slots

end Draft

namespace Block

variable {b added : Block} {k count : Nat} {d : Draft}

/-! ### Edits that reach relocation -/

/-- The draft is one of an insertion into the block or of a removal from it. -/
def Drafts (b : Block) (d : Draft) : Prop :=
  (∃ added offset, b.draftInsert added offset = .ok d) ∨
    ∃ offset count, b.draftRemove offset count = .ok d

theorem Drafts.exists_splice (hb : b.Solid) (h : b.Drafts d) : ∃ k count added,
    k + count ≤ b.length ∧ (∀ i ∈ added, i.flow = .other) ∧
      d.slots = b.splicedSlots k count added := by
  rcases h with ⟨added, offset, hdraft⟩ | ⟨offset, count, hdraft⟩
  · obtain ⟨k, hk, -, hother, -, rfl⟩ := (draftInsert_eq_ok_iff hb).1 hdraft
    exact ⟨k, 0, added, hk.le, hother, rfl⟩
  · obtain ⟨k, -, -, hstop, -, -, rfl⟩ := (draftRemove_eq_ok_iff_unentered hb).1 hdraft
    exact ⟨k, count, [], hstop, by simp, rfl⟩

theorem jumpsOf_eq (slots : List Slot) :
    jumpsOf slots = (instructionsOf slots).countP fun i => i.flow.isJump := by
  rw [instructionsOf, List.countP_map]
  rfl

/-- The jumps of a draft are jumps of the block. -/
theorem jumpsOf_splicedSlots_le (b : Block) (k count : Nat)
    (hadded : ∀ i ∈ added, i.flow = .other) :
    jumpsOf (b.splicedSlots k count added) ≤ b.countP fun i => i.flow.isJump := by
  have hnone : added.countP (fun i => i.flow.isJump) = 0 :=
    List.countP_eq_zero.2 fun i hi => by simp [hadded i hi, Flow.isJump]
  have hsplit := congrArg (List.countP fun i => i.flow.isJump)
    (take_append_drop_append_drop b k count)
  rw [List.countP_append, List.countP_append] at hsplit
  rw [jumpsOf_eq, instructionsOf_splicedSlots, spliced, List.countP_append, List.countP_append,
    hnone, hsplit]
  omega

theorem exists_origin_of_isJump {s : Slot} (hk : k + count ≤ b.length)
    (hadded : ∀ i ∈ added, i.flow = .other) (hs : s ∈ b.splicedSlots k count added)
    (hjump : s.instruction.flow.isJump = true) : ∃ o, s.origin = some o := by
  obtain ⟨l, hl⟩ := List.mem_iff_getElem?.1 hs
  rcases exists_of_getElem?_splicedSlots hk hl with ⟨i, hi, rfl⟩ | ⟨m, i, -, -, -, rfl⟩
  · have hflow : (Slot.fresh i).instruction.flow = .other := hadded i hi
    rw [hflow] at hjump
    cases hjump
  · exact ⟨_, rfl⟩

end Block

/-! ### The bounds -/

theorem Draft.Settles.of_splice {b added : Block} {k count : Nat} {d : Draft}
    (hb : ∀ i ∈ b, i.Encodable) (hk : k + count ≤ b.length) (hadded : ∀ i ∈ added, i.flow = .other)
    (hslots : d.slots = b.splicedSlots k count added) : d.Settles := by
  have hfits : ∀ s ∈ d.slots, ∀ o, s.origin = some o → s.Fits := by
    rw [hslots]
    exact fun s hs o ho => Block.fits_of_origin hb hk hs ho
  have horigin : ∀ s ∈ d.slots, s.AtOrigin := by
    rw [hslots]
    exact fun s hs => Block.atOrigin_of_mem_splicedSlots hk hs
  obtain ⟨last, hlast, hends⟩ := @Stage.exists_ends d.primary _ horigin hfits
  refine ⟨⟨last, hlast, hends⟩, fun fault hfault => ?_,
    fun g hg => Stage.length_applied_le horigin hfits hg, fun g hg s hs hjump => ?_,
    fun g g' hg hg' => Stage.leans_of_reaches horigin hfits hg hg'⟩
  · have hrelocate : relocate d.primary d.slots = .error fault := hfault
    rw [hrelocate] at hends
    exact hends.operandRange
  · -- A jump comes from the old code, where its width has suited its operand.
    obtain ⟨s₀, hs₀, hfollow⟩ := exists_of_mem_right hg.follows hs
    obtain ⟨o, ho⟩ := Block.exists_origin_of_isJump hk hadded (hslots ▸ hs₀)
      (hfollow.flow_eq ▸ hjump)
    have hfit := Stage.fits_of_reaches horigin hfits hg s hs o (hfollow.origin_eq.trans ho)
    exact ⟨(one_le_minimalWidth _).trans hfit.minimalWidth_le, hfit.width_le⟩

theorem Block.Drafts.settles {code : List UInt8} {b : Block} {d : Draft}
    (hcode : Block.ofCode code = .ok b) (h : b.Drafts d) : d.Settles := by
  have hencodable := Block.encodable_of_decode (Block.ofCode_eq_ok_iff.1 hcode).1
  obtain ⟨k, count, added, hk, hadded, hslots⟩ :=
    h.exists_splice (Block.solid_of_encodable hencodable)
  exact .of_splice hencodable hk hadded hslots

/-! ### The other ways to fail -/

theorem checkLayout_ne_unsettled (shifts : List Shift) (slots : List Slot) :
    checkLayout shifts slots ≠ .error (.inconsistent .relocationUnsettled) := by
  intro h
  obtain ⟨⟨s, offset⟩, -, hslot⟩ := exists_of_forM_eq_error h
  simp only [checkSlot] at hslot
  split at hslot
  · cases hslot
  · split at hslot
    · split at hslot
      · cases hslot
      · split at hslot
        · cases hslot
        · cases hslot
    · cases hslot

theorem Block.checkTargets_ne_unsettled (b : Block) :
    b.checkTargets ≠ .error (.inconsistent .relocationUnsettled) := by
  intro h
  obtain ⟨⟨i, offset⟩, -, htarget⟩ := exists_of_forM_eq_error h
  simp only [checkTarget] at htarget
  split at htarget
  · split at htarget
    · cases htarget
    · cases htarget
  · cases htarget

theorem Draft.Settles.finish_ne_unsettled {d : Draft} (h : d.Settles) :
    d.finish ≠ .error (.inconsistent .relocationUnsettled) := by
  intro hfinish
  simp only [finish, bind_eq_error_iff] at hfinish
  rcases hfinish with hrelocated | ⟨⟨slots, shifts⟩, -, hlayout | ⟨_, -, htargets | ⟨_, -, hpure⟩⟩⟩
  · obtain ⟨_, _, _, hfault⟩ := h.operandRange _ hrelocated
    cases hfault
  · exact checkLayout_ne_unsettled _ _ hlayout
  · exact Block.checkTargets_ne_unsettled _ htargets
  · cases hpure

namespace Block

theorem ofCode_ne_unsettled (code : List UInt8) :
    ofCode code ≠ .error (.inconsistent .relocationUnsettled) := by
  intro h
  unfold ofCode at h
  split at h
  · cases h
  · split at h
    · cases h
    · cases h

theorem indexAt_ne_unsettled (b : Block) (offset : Nat) :
    b.indexAt offset ≠ .error (.inconsistent .relocationUnsettled) := by
  intro h
  unfold indexAt at h
  split at h
  · cases h
  · cases h

theorem draftInsert_ne_unsettled (b added : Block) (offset : Nat) :
    b.draftInsert added offset ≠ .error (.inconsistent .relocationUnsettled) := by
  intro h
  rw [draftInsert, bind_eq_error_iff] at h
  rcases h with hindex | ⟨k, -, hrest⟩
  · exact indexAt_ne_unsettled _ _ hindex
  · split at hrest
    · cases hrest
    · simp only at hrest
      split at hrest
      · cases hrest
      · cases hrest

theorem draftRemove_ne_unsettled (b : Block) (offset count : Nat) :
    b.draftRemove offset count ≠ .error (.inconsistent .relocationUnsettled) := by
  intro h
  rw [draftRemove, bind_eq_error_iff] at h
  rcases h with hindex | ⟨k, -, hrest⟩
  · exact indexAt_ne_unsettled _ _ hindex
  · simp only at hrest
    split at hrest
    · cases hrest
    · split at hrest
      · split at hrest
        · cases hrest
        · cases hrest
      · cases hrest

end Block

/-! ### Edits of code -/

/-- Every insertion and every removal that reaches relocation settles within the bound, which counts
the jumps that stay, and no edit fails because relocation does not. -/
theorem settles_of_edit (code : List UInt8) :
    (∀ b d, Block.ofCode code = .ok b → b.Drafts d →
      d.Settles ∧ jumpsOf d.slots ≤ b.countP fun i => i.flow.isJump) ∧
    (∀ added offset,
      insertAt code added offset ≠ .error (.inconsistent .relocationUnsettled)) ∧
    ∀ offset count,
      removeAt code offset count ≠ .error (.inconsistent .relocationUnsettled) := by
  refine ⟨fun b d hcode hdraft => ⟨hdraft.settles hcode, ?_⟩, fun added offset h => ?_,
    fun offset count h => ?_⟩
  · have hencodable := Block.encodable_of_decode (Block.ofCode_eq_ok_iff.1 hcode).1
    obtain ⟨k, count, added, -, hadded, hslots⟩ :=
      hdraft.exists_splice (Block.solid_of_encodable hencodable)
    exact hslots ▸ Block.jumpsOf_splicedSlots_le b k count hadded
  · simp only [insertAt, Block.insert, bind_eq_error_iff] at h
    rcases h with hcode | ⟨b, hcode, hdraft | ⟨d, hdraft, hfinish⟩⟩
    · exact Block.ofCode_ne_unsettled _ hcode
    · exact Block.draftInsert_ne_unsettled _ _ _ hdraft
    · have hdrafts : b.Drafts d := .inl ⟨added, offset, hdraft⟩
      exact (hdrafts.settles hcode).finish_ne_unsettled hfinish
  · simp only [removeAt, Block.remove, bind_eq_error_iff] at h
    rcases h with hcode | ⟨b, hcode, hdraft | ⟨d, hdraft, hfinish⟩⟩
    · exact Block.ofCode_ne_unsettled _ hcode
    · exact Block.draftRemove_ne_unsettled _ _ _ hdraft
    · have hdrafts : b.Drafts d := .inr ⟨offset, count, hdraft⟩
      exact (hdrafts.settles hcode).finish_ne_unsettled hfinish

/-- Two jumps to places far behind the code. -/
def Block.cascade : Block := [⟨.jumpForward, 252, 1⟩, ⟨.jumpForward, 254, 1⟩, .bare .returnValue]

/-- An instruction put in behind the jumps. -/
def Draft.cascade : Draft :=
  ⟨[.ofPlaced ⟨.jumpForward, 252, 1⟩ 0, .ofPlaced ⟨.jumpForward, 254, 1⟩ 2, .fresh (.bare .nop),
    .ofPlaced (.bare .returnValue) 4], .before 4 2, []⟩

/-- The second jump is widened by the instruction, and the first one by the second. -/
theorem exists_settles_cascade :
    Block.ofCode (Block.encode .cascade) = .ok .cascade ∧ Block.cascade.Drafts .cascade ∧
      Draft.cascade.Settles ∧ jumpsOf Draft.cascade.slots = 2 ∧
      Draft.cascade.relocated.map Prod.snd =
        .ok [.before 4 2, .within 2 2, .within 0 2] := by
  have hcode : Block.ofCode (Block.encode .cascade) = .ok .cascade :=
    Block.ofCode_eq_ok_iff.2 ⟨Block.decode_encode (by decide), by decide⟩
  have hdraft : Block.cascade.Drafts .cascade := .inl ⟨[.bare .nop], 4, by decide⟩
  exact ⟨hcode, hdraft, ((settles_of_edit _).1 _ _ hcode hdraft).1, by decide, by decide⟩

end Tripwire
