import Tripwire.Assembly.Builder
import Tripwire.Proofs.Assembly.Layout
import Tripwire.Proofs.LineTable.Spans
import Tripwire.Proofs.Session.Carry

/-!
# Built functions

The code of a built function is its layout, and its line table puts neighbouring
instructions with one line together, so that it covers the code and every entry
begins at an instruction.

* `Builder.finish_eq_ok_iff`: the function of a layout;
* `cut_of_spansOf`: the cuts of spans that have been put together;
* `Function.Laid`: code and line table as a layout makes them;
* `Builder.laid_of_finish`: the function of written items.
-/

namespace Tripwire

section Spans

variable {sized : List (Nat × Option Nat)} {spans : List (Nat × Option Nat)} {p q size : Nat}
  {line : Option Nat}

/-- The offsets at which spans begin and end, the first one at `p`. -/
def cutsOfSpans (p : Nat) : List (Nat × Option Nat) → List Nat
  | [] => [p]
  | span :: spans => p :: cutsOfSpans (p + span.1) spans

theorem cutsFrom_runsOfSpans (first : Nat) :
    LineTable.cutsFrom p (LineTable.runsOfSpans first spans) = cutsOfSpans p spans := by
  induction spans generalizing p first with
  | nil => rfl
  | cons span spans ih =>
    obtain ⟨size, _ | line⟩ := span
    · rw [LineTable.runsOfSpans, LineTable.cutsFrom, ih, cutsOfSpans]
    · rw [LineTable.runsOfSpans, LineTable.cutsFrom, ih, cutsOfSpans]

theorem bytesOfSpans_spanStep : bytesOfSpans (spanStep size line spans) =
    size + bytesOfSpans spans := by
  cases spans with
  | nil => rfl
  | cons span rest =>
    obtain ⟨behind, other⟩ := span
    unfold spanStep
    by_cases h : other = line
    · simp only [if_pos h, bytesOfSpans_cons, Nat.add_assoc]
    · simp only [if_neg h, bytesOfSpans_cons]

theorem mem_cutsOfSpans_self (p : Nat) (spans : List (Nat × Option Nat)) :
    p ∈ cutsOfSpans p spans := by
  cases spans <;> simp [cutsOfSpans]

theorem cut_of_spanStep (h : q ∈ cutsOfSpans p (spanStep size line spans)) :
    q = p ∨ q ∈ cutsOfSpans (p + size) spans := by
  cases spans with
  | nil => simpa [spanStep, cutsOfSpans] using h
  | cons span rest =>
    obtain ⟨behind, other⟩ := span
    unfold spanStep at h
    by_cases hline : other = line
    · simp only [if_pos hline, cutsOfSpans, List.mem_cons, ← Nat.add_assoc] at h
      rcases h with h | h
      · exact .inl h
      · exact .inr (List.mem_cons_of_mem _ h)
    · simp only [if_neg hline] at h
      exact (List.mem_cons.1 h)

theorem bytesOfSpans_spansOf : bytesOfSpans (spansOf sized) = bytesOfSpans sized := by
  induction sized with
  | nil => rfl
  | cons span sized ih =>
    have hstep : spansOf (span :: sized) = spanStep span.1 span.2 (spansOf sized) := rfl
    rw [hstep, bytesOfSpans_spanStep, ih, bytesOfSpans_cons]

/-- Spans that have been put together are cut where they were before. -/
theorem cut_of_spansOf (h : q ∈ cutsOfSpans p (spansOf sized)) : q ∈ cutsOfSpans p sized := by
  induction sized generalizing p with
  | nil => exact h
  | cons span sized ih =>
    have hstep : spansOf (span :: sized) = spanStep span.1 span.2 (spansOf sized) := rfl
    rw [hstep] at h
    rcases cut_of_spanStep h with rfl | h
    · exact mem_cutsOfSpans_self q _
    · exact List.mem_cons_of_mem _ (ih h)

end Spans

/-- The spans of some instructions with the lines of their items. -/
def sizedOf (c : Block) (items : List Item) : List (Nat × Option Nat) :=
  (c.zip items).map fun (i, item) => (i.size, item.line)

section Sized

variable {c : Block} {items : List Item} {p q : Nat}

theorem bytesOfSpans_sizedOf (h : c.length = items.length) :
    bytesOfSpans (sizedOf c items) = c.size := by
  induction c generalizing items with
  | nil => rfl
  | cons i c ih =>
    cases items with
    | nil => simp at h
    | cons item items =>
      have htail : bytesOfSpans (sizedOf c items) = Block.size c := ih (by simpa using h)
      show i.size + bytesOfSpans (sizedOf c items) = _
      rw [htail, Block.size_cons]

theorem start_of_cut (h : c.length = items.length) (hq : q ∈ cutsOfSpans p (sizedOf c items)) :
    ∃ m ≤ c.length, p + c.start m = q := by
  induction c generalizing items p with
  | nil =>
    obtain rfl : q = p := by simpa [sizedOf, cutsOfSpans] using hq
    exact ⟨0, le_rfl, rfl⟩
  | cons i c ih =>
    cases items with
    | nil => simp at h
    | cons item items =>
      have hcons : cutsOfSpans p (sizedOf (i :: c) (item :: items)) =
          p :: cutsOfSpans (p + i.size) (sizedOf c items) := rfl
      rw [hcons] at hq
      rcases List.mem_cons.1 hq with rfl | hq
      · exact ⟨0, Nat.zero_le _, rfl⟩
      · obtain ⟨m, hm, rfl⟩ := ih (by simpa using h) hq
        refine ⟨m + 1, Nat.succ_le_succ hm, ?_⟩
        rw [Block.start_cons_succ, Nat.add_assoc]

end Sized

/-- The code of the function is that of the block `b`, whose instructions have their least widths and
whose jumps lead to instructions. The line table covers the code, and its entries start at
instructions. -/
structure Function.Laid (f : Function) (b : Block) : Prop where
  decode_eq : Block.decode f.code = .ok b
  narrow : ∀ i ∈ b, i.width = minimalWidth i.operand
  targets : b.checkTargets = .ok ()
  size_eq : f.lines.size = f.code.length
  entries : ∀ e ∈ f.lines.entries, e.start ∈ b.offsets

/-- Breakpoints can be set in such a function unless it suspends. -/
theorem Function.Laid.wellFormed {f : Function} {b : Block} (h : f.Laid b) (hsmall : f.Small)
    (hsteady : ∀ i ∈ b, i.flow ≠ .suspension) : f.WellFormed b :=
  ⟨h.decode_eq, hsteady, h.targets, h.size_eq, h.entries, hsmall⟩

theorem Layout.Realizes.encodable {labels : Labels} {items : List Item} {c : Block}
    (h : Layout.Realizes labels items c) (hpadding : ∀ item ∈ items, item.opcode ≠ .extendedArg) :
    ∀ i ∈ c, i.Encodable := by
  intro i hi
  obtain ⟨item, hitem, hopcode⟩ := exists_of_mem_right h.opcodes hi
  have hwidth := h.narrow i hi
  exact ⟨hopcode ▸ hpadding item hitem, hwidth.ge, hwidth ▸ minimalWidth_le_four _⟩

namespace Builder

variable {b : Builder} {f : Function}

theorem finish_eq_ok_iff : b.finish = .ok f ↔ ∃ c, layout b.labels b.items.toList = .ok c ∧
    f = ⟨b.name, c.encode, b.constants, b.names,
      .ofSpans b.startLine (spansOf (sizedOf c b.items.toList)),
      b.stackDepth.getD (straightLineDepth c)⟩ := by
  simp only [finish, bind_eq_ok_iff, pure_eq_ok_iff, sizedOf]
  exact exists_congr fun c => and_congr_right fun _ => eq_comm

/-- The function of written items has the code of its block, and a line table that fits it. -/
theorem laid_of_finish (hwritten : ∀ item ∈ b.items.toList, item.Written)
    (h : b.finish = .ok f) (hsize : f.code.length < limit32) : ∃ c, f.Laid c := by
  obtain ⟨c, hlayout, rfl⟩ := finish_eq_ok_iff.1 h
  have hsmall : c.size < limit32 := (Block.size_le_length_encode c).trans_lt hsize
  have hrealizes := realizes_of_layout hlayout hsmall
  obtain ⟨hlen, hnarrow, hclosed⟩ := layout_spec hwritten hlayout hsmall
  have hencodable := hrealizes.encodable fun item hitem => (hwritten item hitem).ne_extendedArg
  have hbytes := Block.length_encode_of_encodable hencodable
  have hcovers : LineTable.size (.ofSpans b.startLine (spansOf (sizedOf c b.items.toList))) =
      c.size := by
    rw [LineTable.size_eq_span, LineTable.ofSpans, LineTable.span_runsOfSpans,
      bytesOfSpans_spansOf, bytesOfSpans_sizedOf hlen]
  refine
    ⟨c, { decode_eq := Block.decode_encode hencodable
          narrow := hrealizes.narrow
          targets := Block.checkTargets_eq_ok_iff.2 hclosed
          size_eq := hcovers.trans hbytes.symm
          entries := fun e he => ?_ }⟩
  obtain ⟨hcut, hlt⟩ := LineTable.start_of_mem_entries (hcovers ▸ hsmall) he
  rw [LineTable.cuts, LineTable.ofSpans, cutsFrom_runsOfSpans] at hcut
  obtain ⟨m, hm, hstart⟩ := start_of_cut hlen (cut_of_spansOf hcut)
  rw [Nat.zero_add] at hstart
  refine Block.mem_offsets.2 ⟨m, ?_, hstart⟩
  rcases Nat.eq_or_lt_of_le hm with rfl | hm
  · have hinside : e.start < c.size := hlt.trans_eq hcovers
    rw [Block.start_length] at hstart
    omega
  · exact hm

end Builder

end Tripwire
