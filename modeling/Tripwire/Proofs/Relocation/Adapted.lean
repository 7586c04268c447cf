import Tripwire.Proofs.Relocation.Nearest

/-!
# What relocation makes of the old code

Relocation looks at the instructions of the old code only. With other instructions
in place of those that an edit brings in, it makes the same changes. So what holds
of the old instructions when everything fits holds whatever the edit brings in,
also instructions whose widths do not suit their operands.

* `Slot.masked`: the slot with a plain instruction in place of one that the edit brings in;
* `relocate_masked`: relocation of masked slots;
* `Adapted`: the outcome for the old instructions, with `Adapted.of_relocate`;
* `Stage.length_applied_le`, `Stage.fits_of_reaches`, `Stage.leans_of_reaches`: the number of changes
  and the old instructions at every stage;
* `Stage.exists_ends`: relocation comes to an end.
-/

namespace Tripwire

namespace Slot

/-- The slot, with a plain instruction in place of one that the edit brings in. -/
def masked (s : Slot) : Slot :=
  match s.origin with
  | none => fresh (.bare .nop)
  | some _ => s

variable {growing : Bool} {change : Shift} {s s' : Slot} {o : Origin} {resized : Option Shift}

theorem masked_of_origin (h : s.origin = some o) : s.masked = s := by
  rw [masked, h]

theorem masked_of_fresh (h : s.origin = none) : s.masked = fresh (.bare .nop) := by
  rw [masked, h]

@[simp] theorem origin_masked (s : Slot) : s.masked.origin = s.origin := by
  cases h : s.origin with
  | none => rw [masked_of_fresh h]; rfl
  | some o => rw [masked_of_origin h, h]

/-- No jump is masked. -/
theorem masked_of_jumps {t : Nat} (h : s.Jumps o t) : s.masked = s := masked_of_origin h.origin_eq

theorem jumps_masked_iff {t : Nat} : s.masked.Jumps o t ↔ s.Jumps o t := by
  constructor
  · intro h
    have horigin := h.origin_eq
    rw [origin_masked] at horigin
    rwa [masked_of_origin horigin] at h
  · intro h
    rwa [masked_of_jumps h]

@[simp] theorem growth_masked (q : Site) (s : Slot) : s.masked.growth q = s.growth q := by
  cases h : s.origin with
  | none => rw [growth, growth, origin_masked, h]
  | some o => rw [masked_of_origin h]

theorem atOrigin_masked (h : s.AtOrigin) : s.masked.AtOrigin := by
  cases ho : s.origin with
  | none =>
    rw [masked_of_fresh ho]
    exact ⟨fun o ho => (nomatch ho), fun o t hj => (nomatch hj.origin_eq)⟩
  | some o => rwa [masked_of_origin ho]

/-- Masked slots fit where the old instructions do. -/
theorem fits_masked (h : ∀ o, s.origin = some o → s.Fits) : s.masked.Fits := by
  cases ho : s.origin with
  | none =>
    rw [masked_of_fresh ho]
    exact ⟨le_rfl, by decide⟩
  | some o =>
    rw [masked_of_origin ho]
    exact h o ho

theorem leans_of_masked (hfollows : s.Follows s') (h : Leans growing s.masked s'.masked) :
    Leans growing s s' := by
  cases ho : s.origin with
  | none =>
    rw [hfollows.eq_of_not_jumps fun o t hj => by cases ho.symm.trans hj.origin_eq]
    exact .refl _ s
  | some o => rwa [masked_of_origin ho, masked_of_origin (hfollows.origin_eq.trans ho)] at h

theorem shift_masked (h : shift growing change s = .ok (s', resized)) :
    shift growing change s.masked = .ok (s'.masked, resized) := by
  have horigin := (follows_of_shift h).origin_eq
  cases ho : s.origin with
  | none =>
    have huntouched : s.Untouched change := fun o t hj => by
      cases ho.symm.trans hj.origin_eq
    rw [shift_of_untouched huntouched] at h
    cases h
    rw [masked_of_fresh ho]
    rfl
  | some o => rwa [masked_of_origin ho, masked_of_origin (horigin.trans ho)]

end Slot

section Masked

variable {growing : Bool} {change primary : Shift} {rounds : Nat} {slots slots' : List Slot}
  {pending caused shifts : List Shift}

@[simp] theorem swell_masked (q : Site) (slots : List Slot) :
    swell q (slots.map Slot.masked) = swell q slots := by
  induction slots with
  | nil => rfl
  | cons s slots ih => rw [List.map_cons, swell_cons, swell_cons, ih, Slot.growth_masked]

theorem sweep_masked (h : sweep growing change slots = .ok (slots', caused)) :
    sweep growing change (slots.map Slot.masked) = .ok (slots'.map Slot.masked, caused) := by
  induction slots generalizing slots' caused with
  | nil =>
    obtain ⟨rfl, rfl⟩ := sweep_nil_eq_ok_iff.1 h
    exact h
  | cons s slots ih =>
    obtain ⟨s', resized, rest, caused', hs, hrest, rfl, rfl⟩ := sweep_cons_eq_ok_iff.1 h
    exact sweep_cons_eq_ok_iff.2 ⟨_, _, _, _, Slot.shift_masked hs, ih hrest, rfl, rfl⟩

theorem settle_masked (h : settle growing rounds pending slots = .ok (slots', shifts)) :
    settle growing rounds pending (slots.map Slot.masked) =
      .ok (slots'.map Slot.masked, shifts) := by
  induction rounds generalizing pending slots slots' shifts with
  | zero =>
    cases pending with
    | nil =>
      cases h
      rfl
    | cons change pending => cases h
  | succ rounds ih =>
    cases pending with
    | nil =>
      cases h
      rfl
    | cons change pending =>
      simp only [settle, bind_eq_ok_iff, pure_eq_ok_iff, Prod.mk.injEq, Prod.exists] at h ⊢
      obtain ⟨swept, caused, hsweep, out, later, hsettle, rfl, rfl⟩ := h
      exact ⟨_, _, sweep_masked hsweep, _, _, ih hsettle, rfl, rfl⟩

/-- Relocation makes the same changes when other instructions are brought in. -/
theorem relocate_masked (h : relocate primary slots = .ok (slots', shifts)) :
    relocate primary (slots.map Slot.masked) = .ok (slots'.map Slot.masked, shifts) := by
  rw [relocate, relocationRounds, List.length_map]
  exact settle_masked h

theorem follows_of_relocate (h : relocate primary slots = .ok (slots', shifts)) :
    List.Forall₂ Slot.Follows slots slots' :=
  @settle_induction _ _ [] _ _ _ _ (fun _ _ out => List.Forall₂ Slot.Follows slots out)
    (fun hP hsweep => forall₂_trans (fun _ _ _ h h' => h.trans h') hP (follows_of_sweep hsweep)) h
    (List.forall₂_same.2 fun s _ => .refl s)

/-- The outcome of relocation for the instructions of the old code. -/
structure Adapted (primary : Shift) (slots slots' : List Slot) (shifts : List Shift) : Prop where
  leans : List.Forall₂ (Slot.Leans (decide (0 < primary.delta))) slots slots'
  fits : ∀ s ∈ slots', ∀ o, s.origin = some o → s.Fits
  settled : Settled primary slots'
  tally_eq : ∀ q, Shift.tally q shifts = Shift.tally q [primary] + swell q slots'

theorem Adapted.follows (h : Adapted primary slots slots' shifts) :
    List.Forall₂ Slot.Follows slots slots' :=
  h.leans.imp fun _ _ hleans => hleans.follows

/-- Where everything fits, this is the outcome for all instructions. -/
theorem Relocated.adapted (h : Relocated primary slots slots' shifts) :
    Adapted primary slots slots' shifts :=
  ⟨h.leans, fun s hs _ _ => h.fits s hs, h.settled, h.tally_eq⟩

/-- All changes together go in the direction of relocation, wherever they stand. -/
theorem Adapted.tally_toward (h : Adapted primary slots slots' shifts)
    (ho : ∀ s ∈ slots, s.AtOrigin) (q : Site) :
    Toward (decide (0 < primary.delta)) 0 (Shift.tally q shifts) := by
  have hprimary : Toward (decide (0 < primary.delta)) 0 (Shift.tally q [primary]) :=
    Shift.tally_toward fun s hs => List.mem_singleton.1 hs ▸ toward_delta primary
  have hswell := swell_toward h.leans q
  rw [swell_of_atOrigin ho] at hswell
  rw [h.tally_eq]
  exact hprimary.add hswell

theorem Adapted.of_relocate (ho : ∀ s ∈ slots, s.AtOrigin)
    (hf : ∀ s ∈ slots, ∀ o, s.origin = some o → s.Fits)
    (h : relocate primary slots = .ok (slots', shifts)) : Adapted primary slots slots' shifts := by
  have hfollows := follows_of_relocate h
  have hmasked : Relocated primary (slots.map Slot.masked) (slots'.map Slot.masked) shifts := by
    refine .of_relocate ?_ ?_ (relocate_masked h)
    · exact List.forall_mem_map.2 fun s hs => Slot.atOrigin_masked (ho s hs)
    · exact List.forall_mem_map.2 fun s hs => Slot.fits_masked (hf s hs)
  refine ⟨?_, fun s hs o horigin => ?_, fun s hs o t hj => ?_, fun q => ?_⟩
  · have hleans := hmasked.leans
    rw [List.forall₂_map_left_iff, List.forall₂_map_right_iff] at hleans
    exact (forall₂_both hfollows hleans).imp fun s s' hs => Slot.leans_of_masked hs.1 hs.2
  · have hfits := hmasked.fits _ (List.mem_map_of_mem hs)
    rwa [Slot.masked_of_origin horigin] at hfits
  · have hsettled := hmasked.settled _ (List.mem_map_of_mem hs) o t (Slot.jumps_masked_iff.2 hj)
    rwa [Slot.masked_of_jumps hj, Slot.demand, swell_masked] at hsettled
  · rw [hmasked.tally_eq q, swell_masked]

end Masked

/-! ### The stages on the way -/

namespace Stage

variable {growing : Bool} {g g' : Stage} {most : Nat} {primary : Shift} {slots : List Slot}

/-- The stage with its slots masked. -/
def masked (g : Stage) : Stage := { g with slots := g.slots.map Slot.masked }

theorem Next.masked (h : Next growing g g') : Next growing g.masked g'.masked := by
  obtain ⟨hsweep⟩ := h
  exact .apply (sweep_masked hsweep)

theorem Reaches.masked (h : g.Reaches growing g') : g.masked.Reaches growing g'.masked :=
  Relation.ReflTransGen.lift Stage.masked (fun _ _ hnext => hnext.masked) _ _ h

theorem jumpsOf_masked_le (slots : List Slot) :
    jumpsOf (slots.map Slot.masked) ≤ jumpsOf slots := by
  rw [jumpsOf, jumpsOf, List.countP_map]
  refine List.countP_mono_left fun s _ hjump => ?_
  cases ho : s.origin with
  | none =>
    rw [Function.comp_apply, Slot.masked_of_fresh ho] at hjump
    cases hjump
  | some o => rwa [Function.comp_apply, Slot.masked_of_origin ho] at hjump

section Relocate

variable (ho : ∀ s ∈ slots, s.AtOrigin) (hf : ∀ s ∈ slots, ∀ o, s.origin = some o → s.Fits)
include ho hf

theorem bounded_masked (h : (start primary slots).Reaches (decide (0 < primary.delta)) g) :
    g.masked.Bounded (decide (0 < primary.delta)) primary
      (1 + 3 * jumpsOf (slots.map Slot.masked)) :=
  bounded_of_reaches (List.forall_mem_map.2 fun s hs => Slot.atOrigin_masked (ho s hs))
    (List.forall_mem_map.2 fun s hs => Slot.fits_masked (hf s hs)) h.masked

/-- At most one change for the edit and three for each jump have been applied. -/
theorem length_applied_le (h : (start primary slots).Reaches (decide (0 < primary.delta)) g) :
    g.applied.length ≤ 1 + 3 * jumpsOf slots := by
  have hlength := (bounded_masked ho hf h).length_le
  have hjumps := jumpsOf_masked_le slots
  simp only [masked] at hlength
  omega

theorem fits_of_reaches (h : (start primary slots).Reaches (decide (0 < primary.delta)) g) :
    ∀ s ∈ g.slots, ∀ o, s.origin = some o → s.Fits := by
  intro s hs o horigin
  have hmasked := (bounded_masked ho hf h).course.fits _ (List.mem_map_of_mem hs)
  rwa [Slot.masked_of_origin horigin] at hmasked

theorem leans_of_next (h : (start primary slots).Reaches (decide (0 < primary.delta)) g)
    (hnext : Next (decide (0 < primary.delta)) g g') :
    List.Forall₂ (Slot.Leans (decide (0 < primary.delta))) g.slots g'.slots := by
  have hleans := hnext.masked.leans (bounded_masked ho hf h)
  simp only [masked] at hleans
  rw [List.forall₂_map_left_iff, List.forall₂_map_right_iff] at hleans
  exact (forall₂_both hnext.follows hleans).imp fun s s' hs => Slot.leans_of_masked hs.1 hs.2

/-- From one stage to a later one widths change in the direction of relocation only. -/
theorem leans_of_reaches (h : (start primary slots).Reaches (decide (0 < primary.delta)) g)
    (h' : g.Reaches (decide (0 < primary.delta)) g') :
    List.Forall₂ (Slot.Leans (decide (0 < primary.delta))) g.slots g'.slots := by
  induction h' with
  | refl => exact List.forall₂_same.2 fun s _ => .refl _ s
  | tail hreaches hnext ih =>
    exact forall₂_trans (fun _ _ _ h h' => h.trans h') ih
      (leans_of_next ho hf (Relation.ReflTransGen.trans h hreaches) hnext)

/-- Relocation comes to an end before it runs out of rounds. -/
theorem exists_ends : ∃ g, (start primary slots).Reaches (decide (0 < primary.delta)) g ∧
    g.Ends (decide (0 < primary.delta)) (relocate primary slots) := by
  refine exists_ends_of_relocate fun g h => ?_
  have hlength := length_applied_le ho hf h
  have hjumps : jumpsOf slots ≤ slots.length := List.countP_le_length
  rw [relocationRounds]
  omega

end Relocate

end Stage

end Tripwire
