import Tripwire.Proofs.LineTable.Adjust
import Tripwire.Proofs.LineTable.Cover

/-!
# Line tables of code that shrinks

A run that shrinks loses bytes at its end, whichever offset in it was looked up, so
that bytes behind the offset keep their lines, and bytes in front of it do so when
those taken out had one line.

* `LineTable.lineAt?_of_adjust_of_le`, `LineTable.lineAt?_of_adjust_of_lt`,
  `LineTable.lineAt?_of_adjust_of_cut`: the lines after a run has shrunk;
* `LineTable.Stretch`: bytes of one line between two cuts, and what a change leaves of them;
* `Shift.lift`: where the bytes that are left have come from;
* `LineTable.Stretch.adjustAll`, `LineTable.lineAt?_of_adjustAll`: the lines after all changes of
  an edit.
-/

namespace Tripwire

namespace LineTable

/-! ### A run that shrinks -/

section Adjust

variable {t t' : LineTable} {offset count p a : Nat} {delta : Int}

theorem size_of_adjust (hsize : t.size < limit32) (h : t.adjust offset delta = .ok t') :
    (t'.size : Int) = t.size + delta := by
  obtain ⟨pre, run, post, hruns, -, -, hnonneg, -, rfl⟩ := (adjust_eq_ok_iff hsize).1 h
  simp only [size_eq_span, hruns, span_append, span_cons]
  omega

/-- A change that takes bytes out of a run resizes it. -/
theorem exists_resizes_of_shrinking (hsize : t.size < limit32)
    (h : t.adjust offset (-(count : Int)) = .ok t') : ∃ pre run post,
      t.Covers offset pre run post ∧ t.Resizes (-(count : Int)) pre run post t' ∧
        count ≤ run.size := by
  obtain ⟨pre, run, post, hcovers, hresizes⟩ := exists_resizes_of_adjust hsize (by omega) h
  obtain ⟨size, hsum, -⟩ := hresizes.runs_eq
  exact ⟨pre, run, post, hcovers, hresizes, by omega⟩

/-- Behind the offset of a change every byte comes closer and keeps its line. -/
theorem lineAt?_of_adjust_of_le (hsize : t.size < limit32)
    (h : t.adjust offset (-(count : Int)) = .ok t') (hp : offset ≤ p) :
    t'.lineAt? p = t.lineAt? (p + count) := by
  obtain ⟨pre, run, post, hcovers, hresizes, hcount⟩ := exists_resizes_of_shrinking hsize h
  have hstart := hcovers.start_le
  by_cases hin : p + count < span pre + run.size
  · exact hresizes.inside (p + count) p (by omega) hin (by omega) (by omega)
  · exact hresizes.back (p + count) p (by omega) (by omega)

/-- In front of the offset bytes keep their lines when those taken out have one line, also when
they are more than the run has behind the offset. -/
theorem lineAt?_of_adjust_of_lt {line : Option Nat} (hsize : t.size < limit32)
    (h : t.adjust offset (-(count : Int)) = .ok t') (hp : p < offset)
    (hline : ∀ q, offset ≤ q → q < offset + count → t.lineAt? q = line) :
    t'.lineAt? p = t.lineAt? p := by
  obtain ⟨pre, run, post, hcovers, hresizes, hcount⟩ := exists_resizes_of_shrinking hsize h
  have hstart := hcovers.start_le
  have hstop := hcovers.lt_stop
  by_cases hfront : p < span pre
  · exact hresizes.front p hfront
  · by_cases hin : p + count < span pre + run.size
    · exact hresizes.inside p p (by omega) (by omega) (by omega) (by omega)
    · -- The byte gets the line of one that was taken out.
      have hout := hline (p + count) (by omega) (by omega)
      have hfirst := hline offset le_rfl (by omega)
      rw [hresizes.back (p + count) p (by omega) (by omega), hout, ← hfirst]
      exact (hcovers.lineAt?_eq hsize (by omega) (by omega)).symm

/-- Bytes in front of a cut keep their lines when the offset lies at the cut or behind it. -/
theorem lineAt?_of_adjust_of_cut (hsize : t.size < limit32)
    (h : t.adjust offset (-(count : Int)) = .ok t') (ha : a ∈ t.cuts) (hoffset : a ≤ offset)
    (hp : p < a) : t'.lineAt? p = t.lineAt? p := by
  obtain ⟨pre, run, post, hcovers, hresizes, -⟩ := exists_resizes_of_shrinking hsize h
  exact hresizes.front p (hp.trans_le (hcovers.le_of_mem_cuts ha hoffset))

/-- A cut at or in front of the offset of a change stays. -/
theorem mem_cuts_of_adjust (hsize : t.size < limit32) (h : t.adjust offset delta = .ok t')
    (ha : a ∈ t.cuts) (hoffset : a ≤ offset) : a ∈ t'.cuts := by
  obtain ⟨pre, run, post, hruns, -, hlt, -, -, rfl⟩ := (adjust_eq_ok_iff hsize).1 h
  rw [cuts, hruns, mem_cutsFrom_append] at ha
  rw [cuts, mem_cutsFrom_append]
  rcases ha with ha | ha
  · exact .inl ha
  · rcases List.mem_cons.1 ha with rfl | ha
    · exact .inr (mem_cutsFrom_self _ _)
    · have := (le_of_mem_cutsFrom ha).1
      omega

/-- A cut behind the offset of a change comes closer, but not past the start of the run. -/
theorem sub_mem_cuts_of_adjust (hsize : t.size < limit32)
    (h : t.adjust offset (-(count : Int)) = .ok t') (ha : a ∈ t.cuts) (hoffset : offset < a) :
    a - count ∈ t'.cuts := by
  obtain ⟨pre, run, post, hruns, hle, hlt, hnonneg, -, rfl⟩ := (adjust_eq_ok_iff hsize).1 h
  rw [cuts, hruns, mem_cutsFrom_append] at ha
  rw [cuts, mem_cutsFrom_append]
  rcases ha with ha | ha
  · have := (le_of_mem_cutsFrom ha).2
    omega
  · rcases List.mem_cons.1 ha with rfl | ha
    · omega
    · have hback := (le_of_mem_cutsFrom ha).1
      have hstop : 0 + span pre + run.size =
          0 + span pre + (run.size + -(count : Int)).toNat + count := by omega
      have hsub : a = a - count + count := by omega
      rw [hstop, hsub, add_mem_cutsFrom_add] at ha
      exact .inr (List.mem_cons_of_mem _ ha)

/-! ### Bytes of one line -/

/-- The bytes from one cut up to another, which all have one line. -/
structure Stretch (t : LineTable) (line : Option Nat) (start stop : Nat) : Prop where
  le : start ≤ stop
  start_mem : start ∈ t.cuts
  stop_mem : stop ∈ t.cuts
  lineAt?_eq : ∀ p, start ≤ p → p < stop → t.lineAt? p = line

theorem stretch_of_mem_entries {e : LineEntry} (hsize : t.size < limit32) (he : e ∈ t.entries) :
    t.Stretch e.line e.start e.stop where
  le := (stop_of_mem_entries hsize he).2.le
  start_mem := (start_of_mem_entries hsize he).1
  stop_mem := (stop_of_mem_entries hsize he).1
  lineAt?_eq p hp hp' := by
    rw [lineAt?, find?_of_contains hsize he (decide_eq_true ⟨hp, hp'⟩)]
    rfl

/-- A change that takes bytes out in front of a stretch brings it closer, and one inside it makes
it shorter. The bytes that are left keep their line. -/
theorem Stretch.adjust {line : Option Nat} {start stop : Nat} (hs : t.Stretch line start stop)
    (hsize : t.size < limit32) (h : t.adjust offset (-(count : Int)) = .ok t') :
    t'.Stretch line (if offset < start then start - count else start)
      (if offset < stop then stop - count else stop) := by
  obtain ⟨pre, run, post, hcovers, hresizes, hcount⟩ := exists_resizes_of_shrinking hsize h
  have hle := hs.le
  -- The run lies in front of the stretch, in it or behind it, as its ends are cuts.
  by_cases hfront : offset < start
  · have hstart := hcovers.stop_le_of_mem_cuts hs.start_mem hfront
    rw [if_pos hfront, if_pos (hfront.trans_le hle)]
    refine ⟨by omega, sub_mem_cuts_of_adjust hsize h hs.start_mem hfront,
      sub_mem_cuts_of_adjust hsize h hs.stop_mem (hfront.trans_le hle), fun p hp hp' => ?_⟩
    rw [hresizes.back (p + count) p (by omega) (by omega)]
    exact hs.lineAt?_eq _ (by omega) (by omega)
  · rw [if_neg hfront]
    have hfrom := Nat.le_of_not_lt hfront
    have hstart := hcovers.le_of_mem_cuts hs.start_mem hfrom
    by_cases hin : offset < stop
    · have hstop := hcovers.stop_le_of_mem_cuts hs.stop_mem hin
      rw [if_pos hin]
      refine ⟨by omega, mem_cuts_of_adjust hsize h hs.start_mem hfrom,
        sub_mem_cuts_of_adjust hsize h hs.stop_mem hin, fun p hp hp' => ?_⟩
      by_cases hbefore : p < span pre
      · rw [hresizes.front p hbefore]
        exact hs.lineAt?_eq p hp (by omega)
      · by_cases hinside : p + count < span pre + run.size
        · rw [hresizes.inside p p (by omega) (by omega) (by omega) (by omega)]
          exact hs.lineAt?_eq p hp (by omega)
        · rw [hresizes.back (p + count) p (by omega) (by omega)]
          exact hs.lineAt?_eq _ (by omega) (by omega)
    · have hbehind := Nat.le_of_not_lt hin
      have hstop := hcovers.le_of_mem_cuts hs.stop_mem hbehind
      rw [if_neg hin]
      refine ⟨hle, mem_cuts_of_adjust hsize h hs.start_mem hfrom,
        mem_cuts_of_adjust hsize h hs.stop_mem hbehind, fun p hp hp' => ?_⟩
      rw [hresizes.front p (hp'.trans_le hstop)]
      exact hs.lineAt?_eq p hp hp'

end Adjust

end LineTable

/-! ### All changes of an edit -/

namespace Shift

variable {shifts : List Shift} {p q x y : Nat}

/-- Where a byte has come from, when changes have taken out bytes one after the other, each at its
line offset. -/
def lift (shifts : List Shift) (p : Nat) : Nat :=
  shifts.foldr (fun s q => if s.lineOffset ≤ q then q + s.delta.natAbs else q) p

@[simp] theorem lift_nil (p : Nat) : lift [] p = p := rfl

theorem lift_snoc (shifts : List Shift) (s : Shift) (p : Nat) :
    lift (shifts ++ [s]) p =
      lift shifts (if s.lineOffset ≤ p then p + s.delta.natAbs else p) := by
  rw [lift, List.foldr_append]
  rfl

/-- A byte that lies in front of all changes stays. -/
theorem lift_eq_self (h : ∀ s ∈ shifts, p < s.lineOffset) : lift shifts p = p := by
  induction shifts using List.reverseRecOn with
  | nil => rfl
  | append_singleton made s ih =>
    have hs := h s (by simp)
    rw [lift_snoc, if_neg (Nat.not_le_of_lt hs), ih fun s' hs' => h s' (by simp [hs'])]

/-- What lies between two places from one of which to the other there is no change comes from
between them. -/
theorem lift_between (hfalling : shifts.Pairwise fun a b => b.lineOffset ≤ a.lineOffset)
    (hshrink : ∀ s ∈ shifts, s.delta ≤ 0) (hxy : ∀ s ∈ shifts, s.lineOffset ≤ x ∨ y ≤ s.lineOffset)
    (hlt : x < y) (hbehind : ∀ made s, made ++ [s] <+: shifts → s.lineOffset < x →
      (s.lineOffset : Int) ≤ drift (made ++ [s]) x)
    (hle : drift shifts x ≤ p) (hpy : p < drift shifts y) :
    x ≤ lift shifts p ∧ lift shifts p < y := by
  induction shifts using List.reverseRecOn generalizing p with
  | nil =>
    rw [drift_nil] at hle hpy
    exact ⟨Int.ofNat_le.1 hle, Int.ofNat_lt.1 hpy⟩
  | append_singleton made s ih =>
    have hs : s ∈ made ++ [s] := List.mem_append_right _ (List.mem_singleton_self s)
    have hdelta := hshrink s hs
    have hfirst := hbehind made s (List.prefix_refl _)
    have hmade := fun p => ih (p := p) (List.pairwise_append.1 hfalling).1
      (fun s' hs' => hshrink s' (List.mem_append_left _ hs'))
      (fun s' hs' => hxy s' (List.mem_append_left _ hs'))
      fun made' s' hmade' => hbehind made' s' (hmade'.trans (List.prefix_append _ _))
    have hstay : ∀ q ≤ s.lineOffset, drift made q = q := fun q hq =>
      drift_eq_self fun s' hs' => hq.trans
        ((List.pairwise_append.1 hfalling).2.2 s' hs' s (List.mem_singleton_self s))
    rw [drift_snoc] at hle hpy hfirst
    rw [lift_snoc]
    rcases hxy s hs with hsx | hys
    · -- The change is made in front of both places, or at the first one.
      rw [if_pos (show s.lineOffset < y by omega)] at hpy
      rcases hsx.lt_or_eq with hsx | rfl
      · rw [if_pos hsx] at hle hfirst
        have := hfirst hsx
        rw [if_pos (by omega)]
        exact hmade _ (by omega) (by omega)
      · have := hstay _ le_rfl
        rw [if_neg (lt_irrefl _)] at hle
        rw [if_pos (by omega)]
        exact hmade _ (by omega) (by omega)
    · have hx := hstay x (by omega)
      have hy := hstay y hys
      rw [if_neg (by omega)] at hle hpy
      rw [if_neg (by omega)]
      exact hmade _ (by omega) (by omega)

end Shift

namespace LineTable

variable {t t' : LineTable} {shifts : List Shift} {a p : Nat}

theorem size_of_adjustAll (hsize : t.size < limit32) (hshrink : ∀ s ∈ shifts, s.delta ≤ 0)
    (h : t.adjustAll shifts = (t', none)) : t'.size < limit32 := by
  induction shifts using List.reverseRecOn generalizing t' with
  | nil =>
    cases h
    exact hsize
  | append_singleton made s ih =>
    obtain ⟨u, hu, hs⟩ := (adjustAll_snoc t made s).1 h
    have hmade := ih (fun s' hs' => hshrink s' (List.mem_append_left _ hs')) hu
    have hdelta := hshrink s (List.mem_append_right _ (List.mem_singleton_self s))
    have := size_of_adjust hmade hs
    omega

/-- A cut in front of which no change is made stays. -/
theorem mem_cuts_of_adjustAll (hsize : t.size < limit32) (hshrink : ∀ s ∈ shifts, s.delta ≤ 0)
    (h : t.adjustAll shifts = (t', none)) (ha : a ∈ t.cuts)
    (hbehind : ∀ s ∈ shifts, a ≤ s.lineOffset) : a ∈ t'.cuts := by
  induction shifts using List.reverseRecOn generalizing t' with
  | nil =>
    cases h
    exact ha
  | append_singleton made s ih =>
    obtain ⟨u, hu, hs⟩ := (adjustAll_snoc t made s).1 h
    have hmade : ∀ s' ∈ made, s'.delta ≤ 0 := fun s' hs' =>
      hshrink s' (List.mem_append_left _ hs')
    exact mem_cuts_of_adjust (size_of_adjustAll hsize hmade hu) hs
      (ih hmade hu fun s' hs' => hbehind s' (List.mem_append_left _ hs'))
      (hbehind s (List.mem_append_right _ (List.mem_singleton_self s)))

/-- Changes leave a stretch where they move its start, and no shorter than they bring its end
closer. -/
theorem Stretch.adjustAll {line : Option Nat} {start stop : Nat} (hs : t.Stretch line start stop)
    (hsize : t.size < limit32) (hfalling : shifts.Pairwise fun a b => b.lineOffset ≤ a.lineOffset)
    (hshrink : ∀ s ∈ shifts, s.delta ≤ 0)
    (hbehind : ∀ made s, made ++ [s] <+: shifts → s.lineOffset < start →
      (s.lineOffset : Int) ≤ Shift.drift (made ++ [s]) start)
    (h : t.adjustAll shifts = (t', none)) :
    ∃ start' stop', t'.Stretch line start' stop' ∧ (start' : Int) = Shift.drift shifts start ∧
      stop' ≤ stop ∧ Shift.drift shifts stop ≤ stop' := by
  induction shifts using List.reverseRecOn generalizing t' with
  | nil =>
    cases h
    exact ⟨start, stop, hs, by simp, le_rfl, by simp⟩
  | append_singleton made s ih =>
    obtain ⟨u, hu, hlast⟩ := (adjustAll_snoc t made s).1 h
    have hmade : ∀ s' ∈ made, s'.delta ≤ 0 := fun s' hs' =>
      hshrink s' (List.mem_append_left _ hs')
    obtain ⟨start', stop', hs', hstart, hstop, hleft⟩ := ih (List.pairwise_append.1 hfalling).1
      hmade (fun made' s' hmade' => hbehind made' s' (hmade'.trans (List.prefix_append _ _))) hu
    have hdelta : s.delta = -(s.delta.natAbs : Int) := by
      have := hshrink s (List.mem_append_right _ (List.mem_singleton_self s))
      omega
    have hfirst := hbehind made s (List.prefix_refl _)
    have hstay : start ≤ s.lineOffset → Shift.drift made start = start := fun hle =>
      Shift.drift_eq_self fun s' hs' => hle.trans
        ((List.pairwise_append.1 hfalling).2.2 s' hs' s (List.mem_singleton_self s))
    rw [hdelta] at hlast
    refine ⟨_, _, hs'.adjust (size_of_adjustAll hsize hmade hu) hlast, ?_, ?_, ?_⟩
    · -- The change finds the start on the side on which it was before all changes.
      rw [Shift.drift_snoc] at hfirst ⊢
      split <;> split <;> omega
    · split <;> omega
    · rw [Shift.drift_snoc]
      split <;> split <;> omega

/-- Bytes that are left have the lines of the places they have come from, as far as these places
belong to a set `kept`. Each change in front of which such a place lies has to have a cut between
the two, or to take out bytes of one line, which come from the set as well. -/
theorem lineAt?_of_adjustAll {kept : Nat → Prop} (hsize : t.size < limit32)
    (hfalling : shifts.Pairwise fun a b => b.lineOffset ≤ a.lineOffset)
    (hshrink : ∀ s ∈ shifts, s.delta ≤ 0)
    (hkept : ∀ made s, made ++ [s] <+: shifts → ∀ y, kept y → y < s.lineOffset →
      (∃ a ∈ t.cuts, y < a ∧ a ≤ s.lineOffset) ∨
        ∃ line, ∀ q, s.lineOffset ≤ q → q < s.lineOffset + s.delta.natAbs →
          kept (Shift.lift made q) ∧ t.lineAt? (Shift.lift made q) = line)
    (h : t.adjustAll shifts = (t', none)) (hp : kept (Shift.lift shifts p)) :
    t'.lineAt? p = t.lineAt? (Shift.lift shifts p) := by
  induction shifts using List.reverseRecOn generalizing t' p with
  | nil =>
    cases h
    rfl
  | append_singleton made s ih =>
    obtain ⟨u, hu, hs⟩ := (adjustAll_snoc t made s).1 h
    have hdelta : s.delta = -(s.delta.natAbs : Int) := by
      have := hshrink s (List.mem_append_right _ (List.mem_singleton_self s))
      omega
    have hmade : ∀ s' ∈ made, s'.delta ≤ 0 := fun s' hs' =>
      hshrink s' (List.mem_append_left _ hs')
    have husize := size_of_adjustAll hsize hmade hu
    have hafter : ∀ s' ∈ made, s.lineOffset ≤ s'.lineOffset := fun s' hs' =>
      (List.pairwise_append.1 hfalling).2.2 s' hs' s (List.mem_singleton_self s)
    have hbefore : ∀ {q}, kept (Shift.lift made q) →
        u.lineAt? q = t.lineAt? (Shift.lift made q) := fun hq =>
      ih (List.pairwise_append.1 hfalling).1 hmade
        (fun made' s' hmade' => hkept made' s' (hmade'.trans (List.prefix_append _ _))) hu hq
    rw [hdelta] at hs
    rw [Shift.lift_snoc] at hp ⊢
    by_cases hsp : s.lineOffset ≤ p
    · rw [if_pos hsp] at hp ⊢
      rw [lineAt?_of_adjust_of_le husize hs hsp, hbefore hp]
    · have hps := Nat.lt_of_not_le hsp
      rw [if_neg hsp] at hp ⊢
      have hstay : Shift.lift made p = p :=
        Shift.lift_eq_self fun s' hs' => hps.trans_le (hafter s' hs')
      rw [← hbefore hp]
      rw [hstay] at hp
      rcases hkept made s (List.prefix_refl _) p hp hps with ⟨a, ha, hpa, has⟩ | ⟨line, hline⟩
      · have hcut := mem_cuts_of_adjustAll hsize hmade hu ha fun s' hs' => has.trans (hafter s' hs')
        exact lineAt?_of_adjust_of_cut husize hs hcut has hpa
      · have hout : ∀ q, s.lineOffset ≤ q → q < s.lineOffset + s.delta.natAbs →
            u.lineAt? q = line := fun q hsq hq => by
          obtain ⟨hkeptq, hlineq⟩ := hline q hsq hq
          rw [hbefore hkeptq, hlineq]
        exact lineAt?_of_adjust_of_lt husize hs hps hout

end LineTable

end Tripwire
