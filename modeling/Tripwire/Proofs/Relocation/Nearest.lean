import Tripwire.Proofs.Relocation.Stage

/-!
# The nearest widths

While code grows relocation only widens jumps, and while it shrinks relocation
only narrows them. A limit is a choice of widths further in that direction whose
operands are settled. As long as changes are pending, no jump has accounted for
more than a limit accounts for, so relocation neither leaves the range of
operands nor passes a limit: it succeeds and ends at the nearest limit.

* `Toward`: the direction of relocation;
* `Slot.Leans`: a slot changed in that direction only;
* `Course`: what holds all along relocation, with `Course.sweep` for one change;
* `Stage.Bounded`: what bounds the changes, with `Stage.Next.bounded` for one of them and
  `Stage.bounded_of_reaches` for all;
* `Limit`: widths that relocation does not pass, with `Limit.sweep`;
* `relocate_induction`: what a sweep keeps on the way holds at the end;
* `Relocated`: the outcome, with `Relocated.of_relocate`, `exists_relocate_of_limit`
  and `leans_of_relocate`.
-/

namespace Tripwire

/-! ### The direction of relocation -/

/-- The number `b` lies in the direction of relocation from `a`: above it while the code grows, else
below it. -/
def Toward (growing : Bool) (a b : Int) : Prop :=
  if growing = true then a ≤ b else b ≤ a

section Toward

variable {growing : Bool} {a b c d : Int}

@[simp] theorem toward_true : Toward true a b ↔ a ≤ b := by
  simp [Toward]

@[simp] theorem toward_false : Toward false a b ↔ b ≤ a := by
  simp [Toward]

theorem Toward.refl (growing : Bool) (a : Int) : Toward growing a a := by
  cases growing <;> simp

theorem Toward.trans (h : Toward growing a b) (h' : Toward growing b c) : Toward growing a c := by
  cases growing
  · rw [toward_false] at *
    omega
  · rw [toward_true] at *
    omega

theorem Toward.antisymm (h : Toward growing a b) (h' : Toward growing b a) : a = b := by
  cases growing
  · rw [toward_false] at *
    omega
  · rw [toward_true] at *
    omega

theorem Toward.add (h : Toward growing a b) (h' : Toward growing c d) :
    Toward growing (a + c) (b + d) := by
  cases growing
  · rw [toward_false] at *
    omega
  · rw [toward_true] at *
    omega

theorem Toward.add_left (c : Int) (h : Toward growing a b) : Toward growing (c + a) (c + b) :=
  (Toward.refl growing c).add h

theorem Shift.tally_toward {q : Site} {shifts : List Shift}
    (h : ∀ s ∈ shifts, Toward growing 0 s.delta) : Toward growing 0 (tally q shifts) := by
  cases growing
  · simp only [toward_false] at h ⊢
    exact tally_nonpos h
  · simp only [toward_true] at h ⊢
    exact tally_nonneg h

theorem minimalWidth_toward {x y : UInt32} (h : Toward growing x.toNat y.toNat) :
    Toward growing (minimalWidth x) (minimalWidth y) := by
  cases growing
  · rw [toward_false] at *
    exact_mod_cast minimalWidth_mono (by exact_mod_cast h)
  · rw [toward_true] at *
    exact_mod_cast minimalWidth_mono (by exact_mod_cast h)

end Toward

namespace Slot

variable {growing : Bool} {change : Shift} {s s' s'' b : Slot} {resized : Option Shift}

/-- The slot `s'` comes from `s`, its width changed in the direction of relocation only. -/
structure Leans (growing : Bool) (s s' : Slot) : Prop where
  follows : s.Follows s'
  toward : Toward growing s.instruction.width s'.instruction.width

namespace Leans

theorem refl (growing : Bool) (s : Slot) : Leans growing s s := ⟨.refl s, .refl growing _⟩

theorem trans (h : Leans growing s s') (h' : Leans growing s' s'') : Leans growing s s'' :=
  ⟨h.follows.trans h'.follows, h.toward.trans h'.toward⟩

theorem growth_toward (h : Leans growing s s') (q : Site) :
    Toward growing (s.growth q) (s'.growth q) := by
  have horigin := h.follows.origin_eq
  have htoward := h.toward
  unfold growth
  rw [horigin]
  cases s.origin with
  | none => exact .refl growing 0
  | some o =>
    by_cases hq : q .within o.offset = true
    · simp only [hq, if_true, Instruction.size, wordSize]
      cases growing
      · rw [toward_false] at *
        omega
      · rw [toward_true] at *
        omega
    · simp only [hq]
      exact .refl growing 0

end Leans

/-- How often the width of a jump can still change in the direction of relocation. -/
def leeway (growing : Bool) (s : Slot) : Nat :=
  if s.instruction.flow.isJump then
    if growing then maximalWidth - s.instruction.width else s.instruction.width - 1
  else 0

theorem leeway_le_three (h : s.Fits) : s.leeway growing ≤ 3 := by
  have h1 := one_le_minimalWidth s.instruction.operand
  have h2 := h.minimalWidth_le
  have h3 := h.width_le
  simp only [maximalWidth] at h3
  unfold leeway maximalWidth
  split
  · split <;> omega
  · omega

/-! ### One slot under one change -/

theorem newWidth_toward {current : Nat} {x y : UInt32} (hx : minimalWidth x ≤ current)
    (h : Toward growing x.toNat y.toNat) : Toward growing current (newWidth growing current y) := by
  have hmin := minimalWidth_toward h
  cases growing
  · rw [toward_false] at *
    simp only [newWidth, Bool.false_eq_true, if_false]
    omega
  · rw [toward_true]
    simp only [newWidth, if_true]
    omega

theorem newWidth_toward_limit {current width : Nat} {y z : UInt32}
    (h : Toward growing y.toNat z.toNat) (hcurrent : Toward growing current width)
    (hz : Toward growing (minimalWidth z) width) :
    Toward growing (newWidth growing current y) width := by
  have hmin := minimalWidth_toward h
  cases growing
  · rw [toward_false] at *
    simp only [newWidth, Bool.false_eq_true, if_false]
    omega
  · rw [toward_true] at *
    simp only [newWidth, if_true]
    omega

theorem fits_moved (h : s.Fits) (operand : UInt32) : (moved growing s operand).Fits := by
  have h1 := h.width_le
  have h2 : minimalWidth operand ≤ maximalWidth := minimalWidth_le_four operand
  cases growing
  · exact ⟨le_rfl, h2⟩
  · exact ⟨le_max_left _ _, max_le h2 h1⟩

theorem fits_of_shift (h : s.Fits) (hshift : shift growing change s = .ok (s', resized)) :
    s'.Fits := by
  rcases shift_spec hshift with ⟨-, rfl, -⟩ | ⟨o, t, operand, -, -, -, rfl, -⟩
  · exact h
  · exact fits_moved h operand

theorem leans_of_shift (h : s.Fits) (hchange : Toward growing 0 change.delta)
    (hshift : shift growing change s = .ok (s', resized)) : Leans growing s s' := by
  refine ⟨follows_of_shift hshift, ?_⟩
  rcases shift_spec hshift with ⟨-, rfl, -⟩ | ⟨o, t, operand, -, -, hop, rfl, -⟩
  · exact .refl growing _
  · refine newWidth_toward h.minimalWidth_le ?_
    rw [hop]
    simpa using hchange.add_left (s.instruction.operand.toNat : Int)

theorem resized_toward (hleans : Leans growing s s')
    (hshift : shift growing change s = .ok (s', resized)) :
    ∀ c ∈ resized, Toward growing 0 c.delta := by
  rintro c hc
  have htoward := hleans.toward
  rcases shift_spec hshift with ⟨-, -, rfl⟩ | ⟨o, t, operand, -, -, -, -, rfl⟩
  · cases hc
  · rw [resizing] at hc
    split at hc
    · cases hc
    · cases hc
      simp only [Shift.within, wordSize]
      cases growing
      · rw [toward_false] at *
        omega
      · rw [toward_true] at *
        omega

theorem length_resized_add_leeway_le (hs : s.Fits) (hs' : s'.Fits) (hleans : Leans growing s s')
    (hshift : shift growing change s = .ok (s', resized)) :
    resized.toList.length + s'.leeway growing ≤ s.leeway growing := by
  rcases shift_spec hshift with ⟨-, rfl, rfl⟩ | ⟨o, t, operand, hj, -, -, hmoved, rfl⟩
  · simp
  · have hflow := hleans.follows.flow_eq
    have htoward := hleans.toward
    have hpos := (one_le_minimalWidth s'.instruction.operand).trans hs'.minimalWidth_le
    have hw := hs'.width_le
    simp only [leeway, hflow, hj.isJump, if_true, resizing]
    split
    · rename_i heq
      simp [heq]
    · rename_i hne
      cases growing
      · rw [toward_false] at htoward
        simp only [Option.toList_some, List.length_singleton, Bool.false_eq_true, if_false]
        omega
      · rw [toward_true] at htoward
        simp only [Option.toList_some, List.length_singleton, if_true]
        omega

end Slot

/-! ### All slots under one change -/

section Sweep

variable {growing : Bool} {change primary : Shift} {applied pending caused : List Shift}
  {slots slots' bound : List Slot}

/-- What holds all along relocation. -/
structure Course (growing : Bool) (primary : Shift) (applied pending : List Shift)
    (slots : List Slot) : Prop where
  balanced : Balanced primary applied pending slots
  along : ∀ c ∈ pending, Toward growing 0 c.delta
  fits : ∀ s ∈ slots, s.Fits

theorem leans_of_sweep (hchange : Toward growing 0 change.delta) (hfits : ∀ s ∈ slots, s.Fits)
    (h : sweep growing change slots = .ok (slots', caused)) :
    List.Forall₂ (Slot.Leans growing) slots slots' := by
  induction slots generalizing slots' caused with
  | nil =>
    obtain ⟨rfl, -⟩ := sweep_nil_eq_ok_iff.1 h
    exact .nil
  | cons s slots ih =>
    obtain ⟨s', resized, rest, caused', hs, hrest, rfl, -⟩ := sweep_cons_eq_ok_iff.1 h
    have hhead := Slot.leans_of_shift (hfits s (List.mem_cons_self ..)) hchange hs
    exact .cons hhead (ih (fun t ht => hfits t (List.mem_cons_of_mem _ ht)) hrest)

theorem caused_toward (hchange : Toward growing 0 change.delta) (hfits : ∀ s ∈ slots, s.Fits)
    (h : sweep growing change slots = .ok (slots', caused)) :
    ∀ c ∈ caused, Toward growing 0 c.delta := by
  obtain ⟨shifted, hall, -, rfl⟩ := sweep_eq_ok_iff.1 h
  intro c hc
  obtain ⟨p, hp, hpc⟩ := List.mem_filterMap.1 hc
  obtain ⟨s, hs, hshift⟩ := exists_of_mem_right hall hp
  exact Slot.resized_toward (Slot.leans_of_shift (hfits s hs) hchange hshift) hshift c hpc

theorem Course.sweep (hc : Course growing primary applied (change :: pending) slots)
    (h : Tripwire.sweep growing change slots = .ok (slots', caused)) :
    Course growing primary (applied ++ [change]) (pending ++ caused) slots' := by
  have hchange := hc.along change (List.mem_cons_self ..)
  refine ⟨hc.balanced.sweep h, fun c hmem => ?_, fun s' hs' => ?_⟩
  · rcases List.mem_append.1 hmem with hmem | hmem
    · exact hc.along c (List.mem_cons_of_mem _ hmem)
    · exact caused_toward hchange hc.fits h c hmem
  · obtain ⟨s, hs, resized, hshift⟩ := exists_of_mem_sweep h hs'
    exact Slot.fits_of_shift (hc.fits s hs) hshift

/-- How many changes of width relocation can still give rise to. -/
def leewayOf (growing : Bool) (slots : List Slot) : Nat :=
  slots.foldr (fun s sum => s.leeway growing + sum) 0

/-- The number of jumps. -/
def jumpsOf (slots : List Slot) : Nat := slots.countP fun s => s.instruction.flow.isJump

theorem leewayOf_le (hfits : ∀ s ∈ slots, s.Fits) : leewayOf growing slots ≤ 3 * jumpsOf slots := by
  induction slots with
  | nil => exact le_rfl
  | cons s slots ih =>
    have hrest := ih fun t ht => hfits t (List.mem_cons_of_mem _ ht)
    have hcons : leewayOf growing (s :: slots) = s.leeway growing + leewayOf growing slots := rfl
    rw [jumpsOf] at hrest
    rw [hcons, jumpsOf, List.countP_cons]
    by_cases hjump : s.instruction.flow.isJump = true
    · have hhead : s.leeway growing ≤ 3 := Slot.leeway_le_three (hfits s (List.mem_cons_self ..))
      rw [if_pos hjump]
      omega
    · have hhead : s.leeway growing = 0 := if_neg hjump
      rw [if_neg hjump]
      omega

/-- Every change that a sweep gives rise to uses up some leeway. -/
theorem length_caused_add_leewayOf_le (hchange : Toward growing 0 change.delta)
    (hfits : ∀ s ∈ slots, s.Fits) (h : sweep growing change slots = .ok (slots', caused)) :
    caused.length + leewayOf growing slots' ≤ leewayOf growing slots := by
  induction slots generalizing slots' caused with
  | nil =>
    obtain ⟨rfl, rfl⟩ := sweep_nil_eq_ok_iff.1 h
    exact le_rfl
  | cons s slots ih =>
    obtain ⟨s', resized, rest, caused', hs, hrest, rfl, rfl⟩ := sweep_cons_eq_ok_iff.1 h
    have hfit := hfits s (List.mem_cons_self ..)
    have hhead := Slot.length_resized_add_leeway_le hfit (Slot.fits_of_shift hfit hs)
      (Slot.leans_of_shift hfit hchange hs) hs
    have htail := ih (fun t ht => hfits t (List.mem_cons_of_mem _ ht)) hrest
    have hcons : ∀ (t : Slot) (ts : List Slot),
        leewayOf growing (t :: ts) = t.leeway growing + leewayOf growing ts := fun _ _ => rfl
    rw [hcons, hcons, List.length_append]
    omega

/-! ### Limits -/

theorem swell_toward (h : List.Forall₂ (Slot.Leans growing) slots bound) (q : Site) :
    Toward growing (swell q slots) (swell q bound) := by
  induction h with
  | nil => exact .refl growing 0
  | cons hs _ ih =>
    rw [swell_cons, swell_cons]
    exact (hs.growth_toward q).add ih

theorem demand_toward (h : List.Forall₂ (Slot.Leans growing) slots bound) (flow : Flow) (o : Origin)
    (target : Nat) : Toward growing (Slot.demand primary slots flow o target)
      (Slot.demand primary bound flow o target) :=
  (swell_toward h _).add_left _

/-- Widths in the direction of relocation whose operands are settled, and which their operands do
not drive further in that direction. -/
structure Limit (growing : Bool) (primary : Shift) (slots bound : List Slot) : Prop where
  leans : List.Forall₂ (Slot.Leans growing) slots bound
  settled : Settled primary bound
  stops : ∀ b ∈ bound, ∀ o t, b.Jumps o t →
    Toward growing (minimalWidth b.instruction.operand) b.instruction.width

/-- While changes are pending, an operand moved by the first of them is within that of the limit. -/
theorem Limit.operand_toward (hl : Limit growing primary slots bound)
    (hc : Course growing primary applied (change :: pending) slots) {s b : Slot} (hs : s ∈ slots)
    (hb : b ∈ bound) (hsb : s.Leans growing b) {o : Origin} {t : Nat} (hj : s.Jumps o t)
    (hspan : Slot.span s.instruction.flow o t change.placement change.offset = true) :
    Toward growing (s.instruction.operand.toNat + change.delta) b.instruction.operand.toNat := by
  have hdemand : Toward growing (Slot.demand primary slots s.instruction.flow o t)
      (Slot.demand primary bound s.instruction.flow o t) := demand_toward hl.leans _ o t
  have hbound := hl.settled b hb o t (hsb.follows.jumps_iff.2 hj)
  rw [hsb.follows.flow_eq] at hbound
  rw [← hbound] at hdemand
  refine Toward.trans ?_ hdemand
  -- The demand of the slot is what this change makes of the operand, and the changes that are still
  -- pending push it further the same way.
  have htracks := hc.balanced.tracks s hs o t hj
  have hbalance := hc.balanced.balance (Slot.span s.instruction.flow o t)
  have hrest : Toward growing 0 (Shift.tally (Slot.span s.instruction.flow o t) pending) :=
    Shift.tally_toward fun c hmem => hc.along c (List.mem_cons_of_mem _ hmem)
  rw [Shift.tally_append, Shift.tally_cons, if_pos hspan] at hbalance
  have hsum : Slot.demand primary slots s.instruction.flow o t =
      s.instruction.operand.toNat + change.delta +
        Shift.tally (Slot.span s.instruction.flow o t) pending := by
    rw [Slot.demand, htracks]
    omega
  rw [hsum]
  simpa using hrest.add_left (s.instruction.operand.toNat + change.delta)

theorem Limit.shift (hl : Limit growing primary slots bound)
    (hc : Course growing primary applied (change :: pending) slots) {s b : Slot} (hs : s ∈ slots)
    (hb : b ∈ bound) (hsb : s.Leans growing b) :
    ∃ s' resized, s.shift growing change = .ok (s', resized) ∧ s'.Leans growing b := by
  by_cases hun : s.Untouched change
  · exact ⟨s, none, Slot.shift_of_untouched hun, hsb⟩
  · simp only [Slot.Untouched, not_forall, Bool.not_eq_false] at hun
    obtain ⟨o, t, hj, hspan⟩ := hun
    have hwithin := hl.operand_toward hc hs hb hsb hj hspan
    have hchange := (hc.along change (List.mem_cons_self ..)).add_left
      (s.instruction.operand.toNat : Int)
    rw [Int.add_zero] at hchange
    have hb_lt := b.instruction.operand.toNat_lt
    have hs_lt := s.instruction.operand.toNat_lt
    -- The moved operand lies between the present one and that of the limit, so it is in range.
    obtain ⟨n, hn⟩ : ∃ n : Nat, (n : Int) = s.instruction.operand.toNat + change.delta := by
      refine ⟨(s.instruction.operand.toNat + change.delta).toNat, Int.toNat_of_nonneg ?_⟩
      cases growing
      · rw [toward_false] at *
        omega
      · rw [toward_true] at *
        omega
    have hn_lt : n < UInt32.size := by
      simp only [UInt32.size]
      cases growing
      · rw [toward_false] at *
        omega
      · rw [toward_true] at *
        omega
    have hop : ((UInt32.ofNat n).toNat : Int) = s.instruction.operand.toNat + change.delta := by
      rw [UInt32.toNat_ofNat_of_lt' hn_lt, hn]
    have hshift : s.shift growing change = .ok (Slot.moved growing s (UInt32.ofNat n),
        Slot.resizing s (Slot.moved growing s (UInt32.ofNat n)) o) :=
      Slot.shift_of_spans hj hspan hop
    refine ⟨_, _, hshift, ⟨hsb.follows.origin_eq, hsb.follows.opcode_eq, ?_⟩, ?_⟩
    · intro hn
      exact absurd ((Slot.follows_of_shift hshift).jumps_iff.2 hj) (hn o t)
    · refine Slot.newWidth_toward_limit ?_ hsb.toward
        (hl.stops b hb o t (hsb.follows.jumps_iff.2 hj))
      rw [hop]
      exact hwithin

/-- No sweep fails before a limit, and none passes it. -/
theorem Limit.sweep (hl : Limit growing primary slots bound)
    (hc : Course growing primary applied (change :: pending) slots) :
    ∃ slots' caused, Tripwire.sweep growing change slots = .ok (slots', caused) ∧
      Limit growing primary slots' bound := by
  have hall : ∀ (l m : List Slot), List.Forall₂ (Slot.Leans growing) l m → l ⊆ slots →
      m ⊆ bound → ∃ l' caused, Tripwire.sweep growing change l = .ok (l', caused) ∧
        List.Forall₂ (Slot.Leans growing) l' m := by
    intro l m h
    induction h with
    | nil => exact fun _ _ => ⟨[], [], sweep_nil_eq_ok_iff.2 ⟨rfl, rfl⟩, .nil⟩
    | cons hsb _ ih =>
      intro hl' hm'
      obtain ⟨hs, hsub⟩ := List.cons_subset.1 hl'
      obtain ⟨hb, hsub'⟩ := List.cons_subset.1 hm'
      obtain ⟨s', resized, hshift, hleans⟩ := hl.shift hc hs hb hsb
      obtain ⟨rest, caused, hrest, hforall⟩ := ih hsub hsub'
      exact ⟨_, _, sweep_cons_eq_ok_iff.2 ⟨s', resized, rest, caused, hshift, hrest, rfl, rfl⟩,
        .cons hleans hforall⟩
  obtain ⟨slots', caused, hsweep, hleans⟩ :=
    hall slots bound hl.leans (List.Subset.refl _) (List.Subset.refl _)
  exact ⟨slots', caused, hsweep, hleans, hl.settled, hl.stops⟩

theorem Limit.of_sweep (hl : Limit growing primary slots bound)
    (hc : Course growing primary applied (change :: pending) slots)
    (h : Tripwire.sweep growing change slots = .ok (slots', caused)) :
    Limit growing primary slots' bound := by
  obtain ⟨out, caused', hsweep, hlimit⟩ := hl.sweep hc
  rw [h] at hsweep
  cases hsweep
  exact hlimit

end Sweep

/-! ### Relocation as a whole -/

namespace Slot

/-- The instruction is what it was before the edit. -/
structure AtOrigin (s : Slot) : Prop where
  size_eq : ∀ o, s.origin = some o → s.instruction.size = o.size
  operand_eq : ∀ o t, s.Jumps o t →
    (s.instruction.operand.toNat : Int) = reach s.instruction.flow o t

/-- A jump is as narrow as its operand allows. -/
def Tight (s : Slot) : Prop :=
  ∀ o t, s.Jumps o t → s.instruction.width = minimalWidth s.instruction.operand

theorem growth_of_atOrigin {s : Slot} (h : s.AtOrigin) (q : Site) : s.growth q = 0 := by
  unfold growth
  cases ho : s.origin with
  | none => rfl
  | some o => simp [h.size_eq o ho]

theorem tight_of_shift {growing : Bool} {change : Shift} {s s' : Slot} {resized : Option Shift}
    (ht : s.Tight) (hchange : Toward growing 0 change.delta)
    (h : shift growing change s = .ok (s', resized)) : s'.Tight := by
  rcases shift_spec h with ⟨-, rfl, -⟩ | ⟨o, t, operand, hj, -, hop, rfl, -⟩
  · exact ht
  · intro _ _ _
    have hmoved : Toward growing s.instruction.operand.toNat operand.toNat := by
      rw [hop]
      simpa using hchange.add_left (s.instruction.operand.toNat : Int)
    have hmin := minimalWidth_toward hmoved
    have hwidth := ht o t hj
    cases growing
    · rfl
    · rw [toward_true] at hmin
      simp only [moved, newWidth, if_true, hwidth]
      exact max_eq_left (by exact_mod_cast hmin)

end Slot

section Relocate

variable {primary : Shift} {shifts : List Shift} {slots slots' bound : List Slot}

theorem swell_of_atOrigin (h : ∀ s ∈ slots, s.AtOrigin) (q : Site) : swell q slots = 0 := by
  induction slots with
  | nil => rfl
  | cons s slots ih =>
    rw [swell_cons, Slot.growth_of_atOrigin (h s (List.mem_cons_self ..)),
      ih fun t ht => h t (List.mem_cons_of_mem _ ht)]
    rfl

theorem toward_delta (primary : Shift) : Toward (decide (0 < primary.delta)) 0 primary.delta := by
  by_cases h : 0 < primary.delta
  · rw [decide_eq_true h, toward_true]
    exact h.le
  · rw [decide_eq_false h, toward_false]
    exact not_lt.1 h

theorem Course.start (ho : ∀ s ∈ slots, s.AtOrigin) (hf : ∀ s ∈ slots, s.Fits) :
    Course (decide (0 < primary.delta)) primary [] [primary] slots := by
  refine ⟨⟨fun s hs o t hj => ?_, fun q => ?_⟩, fun c hc => ?_, hf⟩
  · rw [(ho s hs).operand_eq o t hj, Shift.tally_nil, Int.add_zero]
  · rw [List.nil_append, swell_of_atOrigin ho, Int.add_zero]
  · rw [List.mem_singleton.1 hc]
    exact toward_delta primary

/-- The changes that have been, are or can still become pending are at most a given number. -/
structure Stage.Bounded (growing : Bool) (primary : Shift) (most : Nat) (g : Stage) : Prop where
  course : Course growing primary g.applied g.pending g.slots
  length_le : g.applied.length + g.pending.length + leewayOf growing g.slots ≤ most

theorem Stage.Next.bounded {growing : Bool} {most : Nat} {g g' : Stage} (h : Next growing g g')
    (hb : g.Bounded growing primary most) : g'.Bounded growing primary most := by
  obtain ⟨hsweep⟩ := h
  obtain ⟨hcourse, hlength⟩ := hb
  refine ⟨hcourse.sweep hsweep, ?_⟩
  -- The change leaves the queue, and each one that it causes uses up leeway.
  have hleeway := length_caused_add_leewayOf_le (hcourse.along _ (List.mem_cons_self ..))
    hcourse.fits hsweep
  simp only [List.length_append, List.length_cons, List.length_nil] at hlength hleeway ⊢
  omega

theorem Stage.Next.leans {growing : Bool} {most : Nat} {g g' : Stage} (h : Next growing g g')
    (hb : g.Bounded growing primary most) : List.Forall₂ (Slot.Leans growing) g.slots g'.slots := by
  obtain ⟨hsweep⟩ := h
  exact leans_of_sweep (hb.course.along _ (List.mem_cons_self ..)) hb.course.fits hsweep

/-- There is one change for the edit and three for each jump. -/
theorem Stage.bounded_of_reaches {g : Stage} (ho : ∀ s ∈ slots, s.AtOrigin)
    (hf : ∀ s ∈ slots, s.Fits)
    (h : (start primary slots).Reaches (decide (0 < primary.delta)) g) :
    g.Bounded (decide (0 < primary.delta)) primary (1 + 3 * jumpsOf slots) := by
  refine h.keeps _ (fun hb hnext => hnext.bounded hb) ⟨Course.start ho hf, ?_⟩
  have hleeway : leewayOf (decide (0 < primary.delta)) slots ≤ 3 * jumpsOf slots := leewayOf_le hf
  simp only [start, List.length_nil, List.length_singleton]
  omega

theorem Stage.Bounded.length_applied_lt {growing : Bool} {g : Stage}
    (hb : g.Bounded growing primary (1 + 3 * jumpsOf slots)) :
    g.applied.length < relocationRounds slots := by
  have hlength := hb.length_le
  have hjumps : jumpsOf slots ≤ slots.length := List.countP_le_length
  rw [relocationRounds]
  omega

/-- What a sweep keeps on the way holds at the end of relocation. -/
theorem relocate_induction (P : List Shift → List Shift → List Slot → Prop)
    (hstep : ∀ {applied change pending slots slots' caused},
      Course (decide (0 < primary.delta)) primary applied (change :: pending) slots →
        P applied (change :: pending) slots →
          sweep (decide (0 < primary.delta)) change slots = .ok (slots', caused) →
            P (applied ++ [change]) (pending ++ caused) slots')
    (ho : ∀ s ∈ slots, s.AtOrigin) (hf : ∀ s ∈ slots, s.Fits)
    (h : relocate primary slots = .ok (slots', shifts)) (hP : P [] [primary] slots) :
    Course (decide (0 < primary.delta)) primary shifts [] slots' ∧ P shifts [] slots' := by
  have hrun := settle_induction
    (fun applied pending out =>
      Course (decide (0 < primary.delta)) primary applied pending out ∧ P applied pending out)
    (fun hboth hsweep => ⟨hboth.1.sweep hsweep, hstep hboth.1 hboth.2 hsweep⟩) h
    ⟨Course.start ho hf, hP⟩
  rwa [List.nil_append] at hrun

/-- The outcome of relocation: every jump has the operand that it has to have, and the changes made
are the edit and the growth of the instructions. -/
structure Relocated (primary : Shift) (slots slots' : List Slot) (shifts : List Shift) : Prop where
  leans : List.Forall₂ (Slot.Leans (decide (0 < primary.delta))) slots slots'
  fits : ∀ s ∈ slots', s.Fits
  settled : Settled primary slots'
  tally_eq : ∀ q, Shift.tally q shifts = Shift.tally q [primary] + swell q slots'

theorem Relocated.of_relocate (ho : ∀ s ∈ slots, s.AtOrigin) (hf : ∀ s ∈ slots, s.Fits)
    (h : relocate primary slots = .ok (slots', shifts)) :
    Relocated primary slots slots' shifts := by
  obtain ⟨hcourse, hleans⟩ := relocate_induction
    (fun _ _ out => List.Forall₂ (Slot.Leans (decide (0 < primary.delta))) slots out)
    (fun hc hP hsweep => forall₂_trans (fun _ _ _ h h' => h.trans h') hP
      (leans_of_sweep (hc.along _ (List.mem_cons_self ..)) hc.fits hsweep)) ho hf h
    (List.forall₂_same.2 fun s _ => .refl _ s)
  refine ⟨hleans, hcourse.fits, hcourse.balanced.settled, fun q => ?_⟩
  rw [← hcourse.balanced.balance q, List.append_nil]

theorem tight_of_relocate (ho : ∀ s ∈ slots, s.AtOrigin) (hf : ∀ s ∈ slots, s.Fits)
    (ht : ∀ s ∈ slots, s.Tight) (h : relocate primary slots = .ok (slots', shifts)) :
    ∀ s ∈ slots', s.Tight := by
  refine (relocate_induction (fun _ _ out => ∀ s ∈ out, s.Tight) ?_ ho hf h ht).2
  intro applied change pending out out' caused hc hP hsweep s' hs'
  obtain ⟨s, hs, resized, hshift⟩ := exists_of_mem_sweep hsweep hs'
  exact Slot.tight_of_shift (hP s hs) (hc.along _ (List.mem_cons_self ..)) hshift

/-- Relocation succeeds where a limit exists. -/
theorem exists_relocate_of_limit (ho : ∀ s ∈ slots, s.AtOrigin) (hf : ∀ s ∈ slots, s.Fits)
    (hl : Limit (decide (0 < primary.delta)) primary slots bound) :
    ∃ p, relocate primary slots = .ok p := by
  obtain ⟨g, hreaches, hend⟩ := Stage.exists_ends_of_relocate fun g hreaches =>
    (Stage.bounded_of_reaches ho hf hreaches).length_applied_lt
  obtain ⟨hcourse, hlimit⟩ := hreaches.keeps
    (fun g => Course (decide (0 < primary.delta)) primary g.applied g.pending g.slots ∧
      Limit (decide (0 < primary.delta)) primary g.slots bound)
    (fun hP hnext => by
      obtain ⟨hsweep⟩ := hnext
      exact ⟨hP.1.sweep hsweep, hP.2.of_sweep hP.1 hsweep⟩) ⟨Course.start ho hf, hl⟩
  generalize relocate primary slots = outcome at hend
  cases hend with
  | settled applied out => exact ⟨_, rfl⟩
  | refused hfault =>
    obtain ⟨out', caused, hsweep, -⟩ := hlimit.sweep hcourse
    cases hfault.symm.trans hsweep

/-- Relocation does not pass a limit. -/
theorem leans_of_relocate (ho : ∀ s ∈ slots, s.AtOrigin) (hf : ∀ s ∈ slots, s.Fits)
    (hl : Limit (decide (0 < primary.delta)) primary slots bound)
    (h : relocate primary slots = .ok (slots', shifts)) :
    List.Forall₂ (Slot.Leans (decide (0 < primary.delta))) slots' bound :=
  (relocate_induction (fun _ _ out => Limit (decide (0 < primary.delta)) primary out bound)
    (fun hc hP hsweep => hP.of_sweep hc hsweep) ho hf h hl).2.leans

/-- A change of the width of a jump of the old code, in the direction of relocation. -/
structure Resizing (growing : Bool) (slots : List Slot) (c : Shift) : Prop where
  placement_eq : c.placement = .within
  along : Toward growing 0 c.delta
  site : ∃ s ∈ slots, ∃ o t, s.Jumps o t ∧ c.offset = o.offset

theorem resizing_of_sweep {growing : Bool} {change : Shift} {caused : List Shift}
    (hchange : Toward growing 0 change.delta) (hfits : ∀ s ∈ slots, s.Fits)
    (h : sweep growing change slots = .ok (slots', caused)) :
    ∀ c ∈ caused, Resizing growing slots c := by
  intro c hc
  have halong := caused_toward hchange hfits h c hc
  obtain ⟨shifted, hall, -, rfl⟩ := sweep_eq_ok_iff.1 h
  obtain ⟨⟨s', resized⟩, hp, hpc⟩ := List.mem_filterMap.1 hc
  obtain ⟨s, hs, hshift⟩ := exists_of_mem_right hall hp
  simp only at hpc
  subst hpc
  rcases Slot.shift_spec hshift with ⟨-, -, hnone⟩ | ⟨o, t, operand, hj, -, -, -, hresized⟩
  · cases hnone
  · rw [Slot.resizing] at hresized
    split at hresized
    · cases hresized
    · cases hresized
      exact ⟨rfl, halong, s, hs, o, t, hj, rfl⟩

/-- The changes of a relocation are the edit, followed by changes of the width of jumps. -/
theorem shifts_of_relocate (ho : ∀ s ∈ slots, s.AtOrigin) (hf : ∀ s ∈ slots, s.Fits)
    (h : relocate primary slots = .ok (slots', shifts)) : ∃ rest, shifts = primary :: rest ∧
      ∀ c ∈ rest, Resizing (decide (0 < primary.delta)) slots c := by
  have hrun := relocate_induction
    (fun applied pending out => List.Forall₂ Slot.Follows slots out ∧
      ∃ rest, applied ++ pending = primary :: rest ∧
        ∀ c ∈ rest, Resizing (decide (0 < primary.delta)) slots c)
    (fun {applied change pending out out' caused} hcourse hP hsweep => ?_) ho hf h
    ⟨List.forall₂_same.2 fun s _ => .refl s, [], rfl, by simp⟩
  · obtain ⟨-, -, rest, hrest, hresizing⟩ := hrun
    rw [List.append_nil] at hrest
    exact ⟨rest, hrest, hresizing⟩
  · obtain ⟨hfollows, rest, hrest, hresizing⟩ := hP
    refine ⟨forall₂_trans (fun _ _ _ h h' => h.trans h') hfollows
      (follows_of_sweep hsweep), rest ++ caused, ?_, fun c hc => ?_⟩
    · rw [List.append_assoc, ← List.append_assoc [change], List.singleton_append,
        ← List.append_assoc, hrest, List.cons_append]
    · rcases List.mem_append.1 hc with hc | hc
      · exact hresizing c hc
      · obtain ⟨hplacement, halong, s', hs', o, t, hj, hoffset⟩ := resizing_of_sweep
          (hcourse.along _ (List.mem_cons_self ..)) hcourse.fits hsweep c hc
        obtain ⟨s, hs, hfollow⟩ := exists_of_mem_right hfollows hs'
        exact ⟨hplacement, halong, s, hs, o, t, hfollow.jumps_iff.1 hj, hoffset⟩

end Relocate

end Tripwire
