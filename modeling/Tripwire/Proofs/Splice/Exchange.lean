import Tripwire.Proofs.Splice.Undo

/-!
# Two splices at different places

Two splices that only add instructions, or only take some out, can be exchanged: what
one order can make is what the other one can make. Relocation takes from it what is
nearest in its direction, after each splice anew, so both orders end at the same code.

* `Apart`, `carry_comm`, `Block.spliced_comm`: indices and instructions in both orders;
* `Block.Admits`: a splice in the direction of relocation that leaves every jump a target;
* `Block.Laid.of_between`: layouts of a second splice over a nearer first one;
* `Block.LaidTwice`: layouts of two splices, in whatever order;
* `Block.exists_withdrawn`, `Block.exists_led`: undoing a splice, and leading the jumps anew;
* `Block.LaidTwice.exists_between`, `Block.Laid.exchange`: the layout between the two splices;
* `Block.Nearest.comm`: what relocation makes of the two orders.
-/

namespace Tripwire

/-- The ranges at `k₁` and `k₂` have different starts and no instruction in common. -/
def Apart (k₁ c₁ k₂ c₂ : Nat) : Prop := k₁ ≠ k₂ ∧ (k₁ + c₁ ≤ k₂ ∨ k₂ + c₂ ≤ k₁)

section Apart

variable {k₁ c₁ k₂ c₂ : Nat}

theorem Apart.symm (h : Apart k₁ c₁ k₂ c₂) : Apart k₂ c₂ k₁ c₁ := ⟨h.1.symm, h.2.symm⟩

theorem carry_cases (k count length m : Nat) :
    (m < k + count ∧ carry k count length m = min m k) ∨
      (k + count ≤ m ∧ carry k count length m = m - count + length) := by
  unfold carry
  split <;> omega

theorem carry_comm_of_le (h : k₁ + c₁ ≤ k₂) (hlt : k₁ < k₂) (hzero : c₁ = 0 ↔ c₂ = 0)
    (l₁ l₂ m : Nat) :
    carry (carry k₁ c₁ l₁ k₂) c₂ l₂ (carry k₁ c₁ l₁ m) =
      carry (carry k₂ c₂ l₂ k₁) c₁ l₁ (carry k₂ c₂ l₂ m) := by
  rw [carry_of_le l₁ h, carry_of_lt c₂ l₂ hlt]
  by_cases hm : m < k₂
  · have hindex := carry_cases k₁ c₁ l₁ m
    have houter := carry_cases (k₂ - c₁ + l₁) c₂ l₂ (carry k₁ c₁ l₁ m)
    rw [carry_of_lt c₂ l₂ hm]
    omega
  · rw [carry_of_le l₁ (by omega : k₁ + c₁ ≤ m)]
    rcases carry_cases k₂ c₂ l₂ m with ⟨hlt', hindex⟩ | ⟨hle, hindex⟩
    · rw [hindex, carry, if_pos (by omega), Nat.min_eq_right (by omega),
        Nat.min_eq_right (by omega), carry_of_le l₁ h]
    · rw [hindex, carry_of_le l₂ (by omega), carry_of_le l₁ (by omega)]
      omega

/-- Both orders of the splices take an instruction to the same index. -/
theorem carry_comm (h : Apart k₁ c₁ k₂ c₂) (hzero : c₁ = 0 ↔ c₂ = 0) (l₁ l₂ m : Nat) :
    carry (carry k₁ c₁ l₁ k₂) c₂ l₂ (carry k₁ c₁ l₁ m) =
      carry (carry k₂ c₂ l₂ k₁) c₁ l₁ (carry k₂ c₂ l₂ m) := by
  obtain ⟨hne, h | h⟩ := h
  · exact carry_comm_of_le h (by omega) hzero l₁ l₂ m
  · exact (carry_comm_of_le h (by omega) hzero.symm l₂ l₁ m).symm

/-- An instruction that one splice keeps is kept by the other one before and after it. -/
theorem stays_carry_iff (h : Apart k₁ c₁ k₂ c₂) {j : Nat} (hj : Stays k₁ c₁ j) (l₁ : Nat) :
    Stays (carry k₁ c₁ l₁ k₂) c₂ (carry k₁ c₁ l₁ j) ↔ Stays k₂ c₂ j := by
  have hplace := carry_cases k₁ c₁ l₁ k₂
  have hindex := carry_cases k₁ c₁ l₁ j
  obtain ⟨hne, h⟩ := h
  unfold Stays at *
  omega

/-- Different instructions that stay have different indices. -/
theorem carry_inj {k count length j j' : Nat} (hj : Stays k count j) (hj' : Stays k count j')
    (h : carry k count length j = carry k count length j') : j = j' := by
  have hindex := carry_cases k count length j
  have hindex' := carry_cases k count length j'
  unfold Stays at hj hj'
  omega

/-- A splice spares the targets that it spares before another one. -/
theorem carry_spared (h : Apart k₁ c₁ k₂ c₂) {m : Nat} (hm : m ≤ k₂ ∨ k₂ + c₂ ≤ m) (l₁ : Nat) :
    carry k₁ c₁ l₁ m ≤ carry k₁ c₁ l₁ k₂ ∨ carry k₁ c₁ l₁ k₂ + c₂ ≤ carry k₁ c₁ l₁ m := by
  have hplace := carry_cases k₁ c₁ l₁ k₂
  have hindex := carry_cases k₁ c₁ l₁ m
  obtain ⟨hne, h⟩ := h
  omega

end Apart

namespace Block

variable {growing : Bool} {b added a₁ a₂ c w w' : Block} {k count k₁ c₁ k₂ c₂ : Nat}

theorem spliced_append {p r : Block} (s added : Block) (hp : p.length = k)
    (hr : r.length = count) :
    spliced (p ++ (r ++ s)) k count added = p ++ (added ++ s) := by
  have hlen : (p ++ r).length = k + count := by rw [List.length_append, hp, hr]
  rw [spliced, ← List.append_assoc p r, List.drop_left' hlen, List.append_assoc p r,
    List.take_left' hp, List.append_assoc]

/-- Both orders of the splices give the same instructions. -/
theorem spliced_comm_of_le (b a₁ a₂ : Block) (h : k₁ + c₁ ≤ k₂) (hlt : k₁ < k₂)
    (hk₂ : k₂ + c₂ ≤ b.length) :
    Block.spliced (b.spliced k₁ c₁ a₁) (carry k₁ c₁ a₁.length k₂) c₂ a₂ =
      Block.spliced (b.spliced k₂ c₂ a₂) (carry k₂ c₂ a₂.length k₁) c₁ a₁ := by
  obtain ⟨d, rfl⟩ := Nat.exists_eq_add_of_le h
  obtain ⟨p, r₁, q, r₂, s, rfl, hp, hr₁, hq, hr₂⟩ : ∃ p r₁ q r₂ s : Block,
      b = p ++ (r₁ ++ (q ++ (r₂ ++ s))) ∧ p.length = k₁ ∧ r₁.length = c₁ ∧ q.length = d ∧
        r₂.length = c₂ := by
    refine ⟨b.take k₁, (b.drop k₁).take c₁, (b.drop (k₁ + c₁)).take d,
      (b.drop (k₁ + c₁ + d)).take c₂, b.drop (k₁ + c₁ + d + c₂), ?_, ?_, ?_, ?_, ?_⟩
    · have hpart : ∀ n l, (b.drop n).take l ++ b.drop (n + l) = b.drop n := fun n l => by
        rw [← List.drop_drop, List.take_append_drop]
      rw [hpart, hpart, hpart, List.take_append_drop]
    all_goals
      simp only [List.length_take, List.length_drop]
      omega
  have hk₁ : carry k₁ c₁ a₁.length (k₁ + c₁ + d) = (p ++ a₁ ++ q).length := by
    rw [carry_of_le _ h]
    simp only [List.length_append]
    omega
  have hfirst : spliced (p ++ (r₁ ++ (q ++ (r₂ ++ s)))) k₁ c₁ a₁ =
      (p ++ a₁ ++ q) ++ (r₂ ++ s) := by
    rw [spliced_append _ _ hp hr₁]
    simp only [List.append_assoc]
  have hsecond : spliced (p ++ (r₁ ++ (q ++ (r₂ ++ s)))) (k₁ + c₁ + d) c₂ a₂ =
      p ++ (r₁ ++ (q ++ (a₂ ++ s))) := by
    have hlen : (p ++ r₁ ++ q).length = k₁ + c₁ + d := by
      simp only [List.length_append]
      omega
    have happ := spliced_append s a₂ hlen hr₂
    simpa only [List.append_assoc] using happ
  rw [hfirst, hsecond, hk₁, carry_of_lt _ _ hlt, spliced_append _ _ rfl hr₂,
    spliced_append _ _ hp hr₁]
  simp only [List.append_assoc]

theorem spliced_comm (b a₁ a₂ : Block) (h : Apart k₁ c₁ k₂ c₂) (hk₁ : k₁ + c₁ ≤ b.length)
    (hk₂ : k₂ + c₂ ≤ b.length) :
    Block.spliced (b.spliced k₁ c₁ a₁) (carry k₁ c₁ a₁.length k₂) c₂ a₂ =
      Block.spliced (b.spliced k₂ c₂ a₂) (carry k₂ c₂ a₂.length k₁) c₁ a₁ := by
  obtain ⟨hne, h | h⟩ := h
  · exact spliced_comm_of_le b a₁ a₂ h (by omega) hk₂
  · exact (spliced_comm_of_le b a₂ a₁ h (by omega) hk₁).symm

/-- A splice in the direction of relocation that leaves every jump a target. -/
structure Admits (growing : Bool) (b : Block) (k count : Nat) (added : Block) : Prop where
  addable : added.Addable
  le_length : k + count ≤ b.length
  spares : b.Spares k count
  left : ∀ j m, Stays k count j → b.LeadsTo j m →
    carry k count added.length m < b.length - count + added.length
  oneWay : if growing = true then count = 0 else added = [] ∧ 0 < count

namespace Admits

theorem count_eq_zero_iff (h₁ : Admits growing b k₁ c₁ a₁) (h₂ : Admits growing w k₂ c₂ a₂) :
    c₁ = 0 ↔ c₂ = 0 := by
  have h₁ := h₁.oneWay
  have h₂ := h₂.oneWay
  cases growing <;> simp at h₁ h₂ <;> omega

/-- Wherever it is made, the splice moves what is behind it in the direction of relocation. -/
theorem delta_toward (h : Admits growing b k count added) (w : Block) (l : Nat) :
    Toward growing 0 (w.spliceShift l count added).delta := by
  have hmono : start w l ≤ start w (l + count) := start_mono w (Nat.le_add_right _ _)
  have honeWay := h.oneWay
  cases growing
  · rw [if_neg (by simp)] at honeWay
    rw [toward_false, honeWay.1, spliceShift, size_nil]
    simp only [Shift.before]
    omega
  · rw [if_pos rfl] at honeWay
    rw [toward_true, honeWay, spliceShift, Nat.add_zero]
    simp only [Shift.before]
    omega

/-- The splice makes the code longer only in the growing direction. -/
theorem side (h : Admits growing b k count added) :
    if growing = true then count = 0 else added = [] := by
  have honeWay := h.oneWay
  cases growing
  · exact honeWay.1
  · exact honeWay

theorem size_le (h : Admits growing b k count added) (hshrinking : growing = false) :
    (b.spliced k count added).size ≤ b.size := by
  have hside := h.side
  rw [if_neg (by simp [hshrinking])] at hside
  have hplain := size_spliced_le b k count added
  rwa [hside, size_nil, Nat.add_zero, ← hside] at hplain

end Admits

theorem place_le_length (h : Apart k₁ c₁ k₂ c₂) (hk₁ : k₁ + c₁ ≤ b.length)
    (hk₂ : k₂ + c₂ ≤ b.length) (a₁ : Block) :
    carry k₁ c₁ a₁.length k₂ + c₂ ≤ (b.spliced k₁ c₁ a₁).length := by
  have hplace := carry_cases k₁ c₁ a₁.length k₂
  rw [length_spliced a₁ hk₁]
  obtain ⟨hne, h⟩ := h
  omega

/-! ### Layouts of two splices -/

/-- Instructions with the jumps at the width that lies furthest in the direction of relocation. -/
def stretched (growing : Bool) (b : Block) : Block :=
  b.map fun i => if i.flow.isJump then ⟨i.opcode, i.operand, extreme growing⟩ else i

theorem forall₂_stretched (growing : Bool) (h : ∀ i ∈ b, i.Encodable) :
    List.Forall₂ (fun i i' : Instruction => i.Resized i' ∧ Toward growing i.width i'.width)
      b (stretched growing b) := by
  rw [stretched, List.forall₂_map_right_iff]
  refine List.forall₂_same.2 fun i hi => ?_
  split
  · rename_i hjump
    refine ⟨⟨rfl, fun hn => by simp [hjump] at hn⟩, ?_⟩
    have hpos := (h i hi).one_le_width
    have hle := (h i hi).width_le
    cases growing
    · rw [toward_false]
      exact_mod_cast hpos
    · rw [toward_true]
      exact_mod_cast hle
  · exact ⟨.refl i, .refl growing _⟩

/-- The code `c` is `b` with two splices, the second of them at the place to which the first one has
taken it. It is given by what both splices do together, in whatever order. -/
structure LaidTwice (growing : Bool) (b : Block) (k₁ c₁ : Nat) (a₁ : Block) (k₂ c₂ : Nat)
    (a₂ c : Block) : Prop where
  resized : List.Forall₂ Instruction.Resized
    (Block.spliced (b.spliced k₁ c₁ a₁) (carry k₁ c₁ a₁.length k₂) c₂ a₂) c
  toward : Before growing
    (Block.spliced (b.spliced k₁ c₁ a₁) (carry k₁ c₁ a₁.length k₂) c₂ a₂) c
  leadsTo : ∀ j m, Stays k₁ c₁ j → Stays k₂ c₂ j → b.LeadsTo j m →
    c.LeadsTo (carry (carry k₁ c₁ a₁.length k₂) c₂ a₂.length (carry k₁ c₁ a₁.length j))
      (carry (carry k₁ c₁ a₁.length k₂) c₂ a₂.length (carry k₁ c₁ a₁.length m))
  stops : ∀ i ∈ c, i.flow.isJump = true → Toward growing (minimalWidth i.operand) i.width
  bounded : ∀ i ∈ c, 1 ≤ i.width ∧ i.width ≤ maximalWidth

section Exchange

theorem Laid.exists_of_leadsTo (hb : b.Closed) (hs : Admits growing b k count added)
    (h : Laid growing b k count added c) {j m : Nat} (hjm : c.LeadsTo j m) :
    ∃ j' m', Stays k count j' ∧ b.LeadsTo j' m' ∧
      carry k count added.length j' = j ∧ carry k count added.length m' = m :=
  Block.exists_of_leadsTo hb hs.addable hs.le_length h.resized h.leadsTo h.solid hjm

/-- A layout of a second splice is one over any nearer layout of the first splice. -/
theorem Laid.of_between (hb : b.Closed) (hs : Admits growing b k₁ c₁ a₁)
    (hw : Laid growing b k₁ c₁ a₁ w) (hw' : Laid growing b k₁ c₁ a₁ w')
    (hnear : Before growing w w')
    (hc : Laid growing w' k count added c) : Laid growing w k count added c := by
  refine hc.rebase (resized_trans (resized_symm hw.resized) hw'.resized) (fun j m hjm => ?_) hnear
  obtain ⟨j', m', hj', hjm', rfl, rfl⟩ := hw.exists_of_leadsTo hb hs hjm
  exact hw'.leadsTo j' m' hj' hjm'

/-- Two splices, one after the other. -/
theorem Laid.twice (h : Apart k₁ c₁ k₂ c₂) (hw : Laid growing b k₁ c₁ a₁ w)
    (hc : Laid growing w (carry k₁ c₁ a₁.length k₂) c₂ a₂ c) :
    LaidTwice growing b k₁ c₁ a₁ k₂ c₂ a₂ c where
  resized := resized_trans (forall₂_spliced (fun i _ => .refl i) _ c₂ hw.resized) hc.resized
  toward := Before.trans (forall₂_spliced (fun _ _ => .refl growing _) _ c₂ hw.toward) hc.toward
  leadsTo j m hj₁ hj₂ hjm :=
    hc.leadsTo _ _ ((stays_carry_iff h hj₁ _).2 hj₂) (hw.leadsTo j m hj₁ hjm)
  stops := hc.stops
  bounded := hc.bounded

theorem LaidTwice.symm (h : Apart k₁ c₁ k₂ c₂) (hs₁ : Admits growing b k₁ c₁ a₁)
    (hs₂ : Admits growing b k₂ c₂ a₂) (hc : LaidTwice growing b k₁ c₁ a₁ k₂ c₂ a₂ c) :
    LaidTwice growing b k₂ c₂ a₂ k₁ c₁ a₁ c where
  resized := by
    rw [← spliced_comm b a₁ a₂ h hs₁.le_length hs₂.le_length]
    exact hc.resized
  toward := by
    rw [← spliced_comm b a₁ a₂ h hs₁.le_length hs₂.le_length]
    exact hc.toward
  leadsTo j m hj₂ hj₁ hjm := by
    rw [← carry_comm h (hs₁.count_eq_zero_iff hs₂), ← carry_comm h (hs₁.count_eq_zero_iff hs₂)]
    exact hc.leadsTo j m hj₁ hj₂ hjm
  stops := hc.stops
  bounded := hc.bounded

/-- A splice can be undone in a layout: the instructions that it took out come back as far in the
direction of relocation as can be. -/
theorem exists_withdrawn {x : Block} (hx : ∀ i ∈ x, i.Encodable) (ha : added.Addable)
    (hk : k + count ≤ x.length) (honeWay : if growing = true then count = 0 else added = [])
    (hresized : List.Forall₂ Instruction.Resized (x.spliced k count added) c)
    (htoward : Before growing (x.spliced k count added) c)
    (hbounded : ∀ i ∈ c, 1 ≤ i.width ∧ i.width ≤ maximalWidth)
    (hx32 : growing = false → x.size < limit32) (hc32 : c.size < limit32) :
    ∃ v : Block, List.Forall₂ Instruction.Resized x v ∧
      Before growing x v ∧
      v.spliced k count added = c ∧ v.size < limit32 ∧
      (∀ i ∈ v, 1 ≤ i.width ∧ i.width ≤ maximalWidth) ∧
      ∀ j i, ¬ Stays k count j → v[j]? = some i → i.flow.isJump = true →
        i.width = extreme growing := by
  have hpart : ∀ i ∈ (x.drop k).take count, i.Encodable := fun i hi =>
    hx i (List.mem_of_mem_drop (List.mem_of_mem_take hi))
  have hrange := forall₂_stretched growing hpart
  have hwidth : ∀ i ∈ stretched growing ((x.drop k).take count), i.flow.isJump = true →
      i.width = extreme growing := by
    intro i hi hjump
    obtain ⟨i₀, -, rfl⟩ := List.mem_map.1 hi
    split at hjump <;> simp_all
  generalize stretched growing ((x.drop k).take count) = r at hrange hwidth
  have hlen : r.length = count := by
    rw [← hrange.length_eq, List.length_take, List.length_drop]
    omega
  subst hlen
  have hxv := forall₂_unspliced hk hrange (forall₂_both hresized htoward)
  have hclen := length_spliced added hk
  rw [hresized.length_eq] at hclen
  refine ⟨c.spliced k added.length r, hxv.imp fun _ _ h => h.1, hxv.imp fun _ _ h => h.2,
    spliced_unspliced ha hk hresized, ?_, fun i hi => ?_, fun j i hj hi hjump => ?_⟩
  · cases growing
    · have hwithin : Within x (c.spliced k added.length r) :=
        before_false.1 (hxv.imp fun _ _ h => h.2)
      exact (size_le_of_within hwithin).trans_lt (hx32 rfl)
    · have hnil : r = [] := List.eq_nil_of_length_eq_zero (by simpa using honeWay)
      have hplain := size_spliced_le c k added.length r
      rw [hnil, size_nil] at hplain
      rw [hnil]
      omega
  · rcases mem_of_mem_spliced hi with hi | hi
    · exact hbounded i hi
    · obtain ⟨i₀, hi₀, hsame, -⟩ := exists_of_mem_right hrange hi
      refine hsame.bounded (hpart i₀ hi₀) fun hjump => ?_
      rw [hwidth i hi hjump]
      exact extreme_bounded growing
  · unfold Stays at hj
    obtain ⟨n, rfl⟩ := Nat.exists_eq_add_of_le (m := k) (n := j) (by omega)
    rw [getElem?_spliced_add r (by omega) _ (by omega)] at hi
    exact hwidth i (List.mem_of_getElem? hi) hjump

/-- Whatever widths the instructions of a splice have, the jumps can be led to where their targets
have come. -/
theorem exists_led (hb : b.Valid) (hs : Admits growing b k count added) {v : Block}
    (hv : List.Forall₂ Instruction.Resized (b.spliced k count added) v)
    (hroom : v.size < limit32) :
    ∃ w : Block, List.Forall₂ (fun i i' => i.Resized i' ∧ i'.width = i.width) v w ∧
      ∀ j m, Stays k count j → b.LeadsTo j m →
        w.LeadsTo (carry k count added.length j) (carry k count added.length m) := by
  have hunique : ∀ l n n', (∃ j m, Stays k count j ∧ b.LeadsTo j m ∧
      carry k count added.length j = l ∧ carry k count added.length m = n) →
      (∃ j m, Stays k count j ∧ b.LeadsTo j m ∧
        carry k count added.length j = l ∧ carry k count added.length m = n') → n = n' := by
    rintro l n n' ⟨j, m, hj, hjm, rfl, rfl⟩ ⟨j', m', hj', hjm', heq, rfl⟩
    obtain rfl := carry_inj hj' hj heq
    rw [hjm.unique hb.solid hjm']
  obtain ⟨w, hvw, hleads⟩ := exists_routed hunique hroom (by
    rintro l n ⟨j, m, hj, hjm, rfl, rfl⟩
    obtain ⟨-, i, hi, hjump, -⟩ := id hjm
    have hi₀ : (b.spliced k count added)[carry k count added.length j]? = some i := by
      rw [getElem?_spliced_carry added hs.le_length hj, hi]
    obtain ⟨i', hi', hsame⟩ := exists_getElem?_right hv hi₀
    refine ⟨?_, i', hi', by rwa [hsame.flow_eq], ?_⟩
    · rw [← hv.length_eq, length_spliced added hs.le_length]
      exact hs.left j m hj hjm
    · rw [hsame.flow_eq, base]
      split
      · rename_i hrelative
        exact start_mono v (carry_succ_le hj (hs.spares j m hj hjm)
          (hjm.lt_of_relative hb.solid hi hrelative))
      · exact Nat.zero_le _)
  exact ⟨w, hvw, fun j m hj hjm => hleads _ _ ⟨j, m, hj, hjm, rfl, rfl⟩⟩

/-- The second of two splices can be undone so that the jumps lead to where the first one takes
their targets. -/
theorem LaidTwice.exists_first (hb : b.Valid) (hb32 : b.size < limit32) (hc32 : c.size < limit32)
    (h : Apart k₁ c₁ k₂ c₂) (hs₁ : Admits growing b k₁ c₁ a₁) (hs₂ : Admits growing b k₂ c₂ a₂)
    (hc : LaidTwice growing b k₁ c₁ a₁ k₂ c₂ a₂ c) :
    ∃ w : Block, List.Forall₂ Instruction.Resized (b.spliced k₁ c₁ a₁) w ∧
      Before growing (b.spliced k₁ c₁ a₁) w ∧
      List.Forall₂ (fun i i' : Instruction => i.Resized i' ∧ i'.width = i.width)
        c (w.spliced (carry k₁ c₁ a₁.length k₂) c₂ a₂) ∧
      (∀ i ∈ w, 1 ≤ i.width ∧ i.width ≤ maximalWidth) ∧
      (∀ j i, ¬ Stays (carry k₁ c₁ a₁.length k₂) c₂ j → w[j]? = some i → i.flow.isJump = true →
        i.width = extreme growing) ∧
      ∀ j m, Stays k₁ c₁ j → b.LeadsTo j m →
        w.LeadsTo (carry k₁ c₁ a₁.length j) (carry k₁ c₁ a₁.length m) := by
  have hx : ∀ i ∈ b.spliced k₁ c₁ a₁, i.Encodable := fun i hi =>
    (mem_of_mem_spliced hi).elim (hb.encodable i) (hs₁.addable.encodable i)
  obtain ⟨v, hxv, hvtoward, hvc, hv32, hvbounded, hextreme⟩ := exists_withdrawn hx hs₂.addable
    (place_le_length h hs₁.le_length hs₂.le_length a₁) hs₂.side hc.resized hc.toward hc.bounded
    (fun hshrinking => (hs₁.size_le hshrinking).trans_lt hb32) hc32
  obtain ⟨w, hvw, hleads⟩ := exists_led hb hs₁ hxv hv32
  have hcw := forall₂_spliced (fun i (_ : i ∈ a₂) => ⟨.refl i, rfl⟩)
    (carry k₁ c₁ a₁.length k₂) c₂ hvw
  rw [hvc] at hcw
  refine ⟨w, forall₂_trans (fun _ _ _ h h' => h.trans h'.1) hxv hvw,
    hvtoward.trans (before_of_width_eq (hvw.imp fun _ _ h => h.2)), hcw, fun i hi => ?_,
    fun j i hj hi hjump => ?_, hleads⟩
  · obtain ⟨i', hi', -, hwidth⟩ := exists_of_mem_right hvw hi
    rw [hwidth]
    exact hvbounded i' hi'
  · obtain ⟨i', hi', hsame, hwidth⟩ := exists_getElem?_left hvw hi
    rw [hsame.flow_eq] at hjump
    rw [hwidth]
    exact hextreme j i' hj hi' hjump

/-- Without the second splice the widths stop where they may: those of the jumps that stay are the
same as with it, and the operands lie less far. -/
theorem LaidTwice.stops_first (hb : b.Closed) (h : Apart k₁ c₁ k₂ c₂)
    (hs₁ : Admits growing b k₁ c₁ a₁) (hs₂ : Admits growing b k₂ c₂ a₂)
    (hc : LaidTwice growing b k₁ c₁ a₁ k₂ c₂ a₂ c)
    (hw : List.Forall₂ Instruction.Resized (b.spliced k₁ c₁ a₁) w) (hsolid : w.Solid)
    (hcw : List.Forall₂ (fun i i' : Instruction => i.Resized i' ∧ i'.width = i.width)
      c (w.spliced (carry k₁ c₁ a₁.length k₂) c₂ a₂))
    (hextreme : ∀ j i, ¬ Stays (carry k₁ c₁ a₁.length k₂) c₂ j → w[j]? = some i →
      i.flow.isJump = true → i.width = extreme growing)
    (hleads : ∀ j m, Stays k₁ c₁ j → b.LeadsTo j m →
      w.LeadsTo (carry k₁ c₁ a₁.length j) (carry k₁ c₁ a₁.length m)) :
    ∀ i ∈ w, i.flow.isJump = true → Toward growing (minimalWidth i.operand) i.width := by
  intro i hi hjump
  obtain ⟨l, hl⟩ := List.mem_iff_getElem?.1 hi
  obtain ⟨j, m, hj, rfl, hjm⟩ :=
    exists_jump_of_spliced hb hs₁.addable hs₁.le_length hw hl hjump
  by_cases hj₂ : Stays k₂ c₂ j
  · have hk : carry k₁ c₁ a₁.length k₂ + c₂ ≤ w.length :=
      hw.length_eq ▸ place_le_length h hs₁.le_length hs₂.le_length a₁
    have hstays := (stays_carry_iff h hj a₁.length).2 hj₂
    obtain ⟨i', hi', hsame, hwidth⟩ := exists_getElem?_left hcw
      ((getElem?_spliced_carry a₂ hk hstays).trans hl)
    have hoperand := operand_toward_of_spliced hsolid hk (hs₂.delta_toward w _)
      (fun l => (start_eq_of_width_eq (hcw.imp fun _ _ h => h.2) l).symm) hstays
      (carry_spared h (hs₂.spares j m hj₂ hjm) a₁.length) (hleads j m hj hjm)
      (hc.leadsTo j m hj hj₂ hjm) hl hi' hsame.flow_eq.symm
    rw [hsame.flow_eq] at hjump
    rw [hwidth]
    exact (minimalWidth_toward hoperand).trans (hc.stops i' (List.mem_of_getElem? hi') hjump)
  · rw [hextreme _ i (fun hstays => hj₂ ((stays_carry_iff h hj _).1 hstays)) hl hjump]
    exact minimalWidth_toward_extreme growing _

/-- There is a layout of the first splice over which a layout of both is one of the second. -/
theorem LaidTwice.exists_between (hb : b.Valid) (hb32 : b.size < limit32) (hc32 : c.size < limit32)
    (h : Apart k₁ c₁ k₂ c₂) (hs₁ : Admits growing b k₁ c₁ a₁) (hs₂ : Admits growing b k₂ c₂ a₂)
    (hc : LaidTwice growing b k₁ c₁ a₁ k₂ c₂ a₂ c) :
    ∃ w, Laid growing b k₁ c₁ a₁ w ∧
      Laid growing w (carry k₁ c₁ a₁.length k₂) c₂ a₂ c := by
  obtain ⟨w, hxw, htoward, hcw, hbounded, hextreme, hleads⟩ :=
    hc.exists_first hb hb32 hc32 h hs₁ hs₂
  have hsolid : w.Solid := fun i hi => Nat.mul_pos (hbounded i hi).1 (by decide)
  have hstops := hc.stops_first hb.closed h hs₁ hs₂ hxw hsolid hcw hextreme hleads
  have hw : Laid growing b k₁ c₁ a₁ w := ⟨hxw, htoward, hleads, hstops, hbounded⟩
  refine ⟨w, hw, hcw.flip.imp fun _ _ h => h.1.symm, hcw.flip.imp fun i i' h => ?_,
    fun j m hj hjm => ?_, hc.stops, hc.bounded⟩
  · rw [h.2]
    exact .refl growing _
  · obtain ⟨j', m', hj', hjm', rfl, rfl⟩ := hw.exists_of_leadsTo hb.closed hs₁ hjm
    exact hc.leadsTo j' m' hj' ((stays_carry_iff h hj' _).1 hj) hjm'

/-- What one order of two splices can make, the other order can make. -/
theorem Laid.exchange (hb : b.Valid) (hb32 : b.size < limit32) (hc32 : c.size < limit32)
    (h : Apart k₁ c₁ k₂ c₂) (hs₁ : Admits growing b k₁ c₁ a₁) (hs₂ : Admits growing b k₂ c₂ a₂)
    (hw : Laid growing b k₁ c₁ a₁ w)
    (hc : Laid growing w (carry k₁ c₁ a₁.length k₂) c₂ a₂ c) :
    ∃ u, Laid growing b k₂ c₂ a₂ u ∧ Laid growing u (carry k₂ c₂ a₂.length k₁) c₁ a₁ c :=
  ((hw.twice h hc).symm h hs₁ hs₂).exists_between hb hb32 hc32 h.symm hs₂ hs₁

/-- The jumps after two splices are those that were there before. -/
theorem LaidTwice.exists_of_leadsTo (hb : b.Closed) (h : Apart k₁ c₁ k₂ c₂)
    (hs₁ : Admits growing b k₁ c₁ a₁) (hs₂ : Admits growing b k₂ c₂ a₂)
    (hc : LaidTwice growing b k₁ c₁ a₁ k₂ c₂ a₂ c) {l n : Nat} (hln : c.LeadsTo l n) :
    ∃ j m, Stays k₁ c₁ j ∧ Stays k₂ c₂ j ∧ b.LeadsTo j m ∧
      carry (carry k₁ c₁ a₁.length k₂) c₂ a₂.length (carry k₁ c₁ a₁.length j) = l ∧
      carry (carry k₁ c₁ a₁.length k₂) c₂ a₂.length (carry k₁ c₁ a₁.length m) = n := by
  have hsolid : c.Solid := fun i hi => Nat.mul_pos (hc.bounded i hi).1 (by decide)
  obtain ⟨-, i, hi, hjump, -⟩ := id hln
  obtain ⟨i₀, hi₀, hsame⟩ := exists_getElem?_left hc.resized hi
  rw [hsame.flow_eq] at hjump
  obtain ⟨l', hl', rfl, hi₁⟩ := (exists_of_getElem?_spliced
    (place_le_length h hs₁.le_length hs₂.le_length a₁) hi₀).resolve_left
    fun hmem => by simp [hs₂.addable.isJump_eq hmem] at hjump
  obtain ⟨j, hj, rfl, hib⟩ := (exists_of_getElem?_spliced hs₁.le_length hi₁).resolve_left
    fun hmem => by simp [hs₁.addable.isJump_eq hmem] at hjump
  obtain ⟨m, hjm⟩ := hb j i₀ hib hjump
  have hj₂ := (stays_carry_iff h hj a₁.length).1 hl'
  exact ⟨j, m, hj, hj₂, hjm, rfl, (hc.leadsTo j m hj hj₂ hjm).unique hsolid hln⟩

end Exchange

/-! ### What relocation makes -/

namespace Nearest

variable {u d : Block}

/-- The nearest layout over the nearest layout does not pass any layout of both splices. -/
theorem toward_of_twice (hb : b.Valid) (hb32 : b.size < limit32) (hd32 : d.size < limit32)
    (h : Apart k₁ c₁ k₂ c₂) (hs₁ : Admits growing b k₁ c₁ a₁) (hs₂ : Admits growing b k₂ c₂ a₂)
    (hw : Nearest growing b k₁ c₁ a₁ w)
    (hc : Nearest growing w (carry k₁ c₁ a₁.length k₂) c₂ a₂ c)
    (hd : LaidTwice growing b k₁ c₁ a₁ k₂ c₂ a₂ d) : Before growing c d := by
  obtain ⟨w', hw', hd'⟩ := hd.exists_between hb hb32 hd32 h hs₁ hs₂
  exact hc.toward d (hw.laid.of_between hb.closed hs₁ hw' (hw.toward w' hw') hd')

/-- Both orders of two splices give the same code. -/
theorem comm (hb : b.Valid) (hb32 : b.size < limit32) (hc32 : c.size < limit32)
    (hd32 : d.size < limit32) (hclosed : c.Closed) (h : Apart k₁ c₁ k₂ c₂)
    (hs₁ : Admits growing b k₁ c₁ a₁) (hs₂ : Admits growing b k₂ c₂ a₂)
    (hw : Nearest growing b k₁ c₁ a₁ w)
    (hc : Nearest growing w (carry k₁ c₁ a₁.length k₂) c₂ a₂ c)
    (hu : Nearest growing b k₂ c₂ a₂ u)
    (hd : Nearest growing u (carry k₂ c₂ a₂.length k₁) c₁ a₁ d) : d = c := by
  have hc₁₂ := hw.laid.twice h hc.laid
  have hd₁₂ := (hu.laid.twice h.symm hd.laid).symm h.symm hs₂ hs₁
  have hcd := hw.toward_of_twice hb hb32 hd32 h hs₁ hs₂ hc hd₁₂
  have hdc := hu.toward_of_twice hb hb32 hc32 h.symm hs₂ hs₁ hd (hc₁₂.symm h hs₁ hs₂)
  refine eq_of_routes hclosed (resized_trans (resized_symm hc₁₂.resized) hd₁₂.resized)
    (hcd.width_eq hdc) fun l n hln => ?_
  obtain ⟨j, m, hj₁, hj₂, hjm, rfl, rfl⟩ := hc₁₂.exists_of_leadsTo hb.closed h hs₁ hs₂ hln
  exact hd₁₂.leadsTo j m hj₁ hj₂ hjm

end Nearest

end Block

end Tripwire
