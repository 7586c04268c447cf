import Tripwire.Proofs.Session.Weave
import Tripwire.Proofs.Session.Calls

/-!
# Functions with fronts

A function with breakpoints is the function without them, with fronts: in front of
its instructions stand other ones. Its jumps lead behind the fronts, and its line
table is cut in front of them.

* `Function.WellFormed`: the functions in which breakpoints are set;
* `Carries`: a function is another one with fronts;
* `Carries.exists_recut`: how its line table is cut;
* `Carries.wellFormed`, `Carries.offsetOfLine_eq`: breakpoints can be set in it too, and its lines
  resolve to the fronts;
* `Carries.exists_of_leadsTo`: its jumps are those of the function without fronts;
* `Carries.of_spliced`: a splice within a front.
-/

namespace Tripwire

/-- The sizes of the function are 32-bit numbers. -/
structure Function.Small (f : Function) : Prop where
  code_lt : f.code.length < limit32
  names_lt : f.names.length < limit32
  constants_lt : f.constants.length < limit32

/-- The code of the function is that of the block `b`, which does not suspend and whose jumps lead
to instructions. The line table covers the code, and its entries start at instructions. -/
structure Function.WellFormed (f : Function) (b : Block) : Prop where
  decode_eq : Block.decode f.code = .ok b
  steady : ∀ i ∈ b, i.flow ≠ .suspension
  targets : b.checkTargets = .ok ()
  size_eq : f.lines.size = f.code.length
  entries : ∀ e ∈ f.lines.entries, e.start ∈ b.offsets
  small : f.Small

namespace Function.WellFormed

variable {f : Function} {b : Block}

theorem valid (h : f.WellFormed b) : b.Valid :=
  ⟨Block.encodable_of_decode h.decode_eq, h.steady, Block.checkTargets_eq_ok_iff.1 h.targets⟩

theorem lines_lt (h : f.WellFormed b) : f.lines.size < limit32 := by
  rw [h.size_eq]
  exact h.small.code_lt

theorem aligned (h : f.WellFormed b) : f.lines.Aligned b :=
  LineTable.aligned_of_entries (h.size_eq.trans (Block.size_of_decode h.decode_eq).symm) h.lines_lt
    h.entries

/-- A line resolves to an instruction. -/
theorem exists_of_offsetOfLine (h : f.WellFormed b) {line offset : Nat}
    (hline : f.offsetOfLine line = .ok offset) : ∃ m < b.length, b.start m = offset := by
  unfold Function.offsetOfLine at hline
  split at hline
  · cases hline
  · rw [LineTable.offsetOfLine] at hline
    split at hline
    · rename_i e he
      cases hline
      exact Block.mem_offsets.1 (h.entries e (List.mem_of_find?_eq_some he))
    · cases hline

end Function.WellFormed

/-- The function `fn` is the function `f` with the given fronts in front of the instructions of
`body`, which are those of `b` with new operands and widths for the jumps. -/
structure Carries (f : Function) (b : Block) (front : Nat → Block) (body : Block) (fn : Function) :
    Prop where
  decode_eq : Block.decode fn.code = .ok (weave front 0 body)
  valid : Block.Valid (weave front 0 body)
  resized : List.Forall₂ Instruction.Resized b body
  leadsTo : ∀ k m, b.LeadsTo k m →
    Block.LeadsTo (weave front 0 body) (placeIndex front k) (placeIndex front m)
  lines : ∃ g, f.lines.Keeps g ∧ fn.lines = f.lines.recut g ∧
    ∀ m ≤ b.length, g (b.start m) = Block.start (weave front 0 body) (frontIndex front m)

namespace Carries

variable {f fn fn' : Function} {b body : Block} {front front' : Nat → Block}

theorem frontIndex_le (h : Carries f b front body fn) {m : Nat} (hm : m ≤ b.length) :
    frontIndex front m ≤ (weave front 0 body).length := by
  rw [length_weave, ← h.resized.length_eq]
  exact frontIndex_le_frontIndex hm

theorem placeIndex_lt (h : Carries f b front body fn) {m : Nat} (hm : m < b.length) :
    placeIndex front m < (weave front 0 body).length := by
  rw [length_weave, ← h.resized.length_eq]
  exact placeIndex_lt_frontIndex hm

theorem refl (h : f.WellFormed b) : Carries f b (fun _ => []) b f := by
  have hplace : ∀ m, placeIndex (fun _ => []) m = m := frontIndex_empty
  refine ⟨?_, ?_, List.forall₂_same.2 fun i _ => .refl i, ?_, id, ⟨rfl, fun q _ r _ h => h⟩, ?_, ?_⟩
  · rw [weave_empty]
    exact h.decode_eq
  · rw [weave_empty]
    exact h.valid
  · intro k m hkm
    rwa [weave_empty, hplace, hplace]
  · exact f.lines.recut_id.symm
  · intro m _
    rw [weave_empty, frontIndex_empty]
    rfl

theorem size_eq (h : Carries f b front body fn) :
    Block.size (weave front 0 body) = fn.code.length :=
  Block.size_of_decode h.decode_eq

/-- The line table of a function with fronts is cut in front of the fronts. -/
theorem aligned (hf : f.WellFormed b) (h : Carries f b front body fn) :
    fn.lines.Aligned (weave front 0 body) ∧
      ∀ q ∈ fn.lines.cuts, ∃ m ≤ b.length, Block.start (weave front 0 body) (frontIndex front m) =
        q := by
  obtain ⟨g, hkeeps, hlines, hg⟩ := h.lines
  have hcuts : ∀ q ∈ fn.lines.cuts, ∃ m ≤ b.length,
      Block.start (weave front 0 body) (frontIndex front m) = q := by
    intro q hq
    rw [hlines, LineTable.cuts_recut hkeeps] at hq
    obtain ⟨p, hp, rfl⟩ := List.mem_map.1 hq
    obtain ⟨m, hm, rfl⟩ := hf.aligned.cuts p hp
    exact ⟨m, hm, (hg m hm).symm⟩
  refine ⟨⟨?_, fun q hq => ?_⟩, hcuts⟩
  · rw [hlines, LineTable.size_recut hkeeps, hf.aligned.size_eq, ← Block.start_length b,
      hg b.length le_rfl, h.resized.length_eq, ← length_weave, Block.start_length]
  · obtain ⟨m, hm, heq⟩ := hcuts q hq
    exact ⟨_, h.frontIndex_le hm, heq⟩

/-- The cuts of the line table are where those of the function without fronts have moved. -/
theorem exists_recut (hf : f.WellFormed b) (h : Carries f b front body fn)
    (hsize : fn.code.length < limit32) :
    ∃ g, f.lines.Keeps g ∧ fn.lines = f.lines.recut g ∧ g f.lines.size < limit32 ∧
      ∀ m ≤ b.length, g (b.start m) = Block.start (weave front 0 body) (frontIndex front m) := by
  have hlen := (h.aligned hf).1.size_eq.trans h.size_eq
  obtain ⟨g, hkeeps, hlines, hg⟩ := h.lines
  refine ⟨g, hkeeps, hlines, ?_, hg⟩
  rw [← LineTable.size_recut hkeeps, ← hlines, hlen]
  exact hsize

/-- The entries of a function with fronts begin at the fronts of the instructions at which they
began. -/
theorem entries_eq (hf : f.WellFormed b) (h : Carries f b front body fn) (hsmall : fn.Small) :
    ∃ g, (∀ m ≤ b.length, g (b.start m) = Block.start (weave front 0 body) (frontIndex front m)) ∧
      fn.lines.entries = f.lines.entries.map (LineEntry.moved g) := by
  obtain ⟨g, hkeeps, hlines, hlt, hg⟩ := h.exists_recut hf hsmall.code_lt
  exact ⟨g, hg, hlines ▸ LineTable.entries_recut hkeeps hf.lines_lt hlt⟩

/-- A function with fronts is one in which breakpoints are set. -/
theorem wellFormed (hf : f.WellFormed b) (h : Carries f b front body fn) (hsmall : fn.Small) :
    fn.WellFormed (weave front 0 body) where
  decode_eq := h.decode_eq
  steady := h.valid.steady
  targets := Block.checkTargets_eq_ok_iff.2 h.valid.closed
  size_eq := (h.aligned hf).1.size_eq.trans h.size_eq
  entries e he := by
    obtain ⟨g, hg, hentries⟩ := h.entries_eq hf hsmall
    rw [hentries] at he
    obtain ⟨e, he', rfl⟩ := List.mem_map.1 he
    obtain ⟨m, hm, hstart⟩ := Block.mem_offsets.1 (hf.entries e he')
    have hlt := h.placeIndex_lt hm
    refine Block.mem_offsets.2 ⟨frontIndex front m, ?_, ?_⟩
    · rw [placeIndex] at hlt
      omega
    · rw [LineEntry.moved, ← hstart, hg m hm.le]
  small := hsmall

/-- A line resolves to the front of the instruction that it resolves to without fronts. -/
theorem offsetOfLine_eq (hf : f.WellFormed b) (h : Carries f b front body fn)
    (hsize : fn.code.length < limit32) {line offset : Nat} :
    fn.offsetOfLine line = .ok offset ↔ ∃ m < b.length, f.offsetOfLine line = .ok (b.start m) ∧
      Block.start (weave front 0 body) (frontIndex front m) = offset := by
  obtain ⟨g, hkeeps, hlines, hsize', hg⟩ := h.exists_recut hf hsize
  have hmap : fn.offsetOfLine line = (f.offsetOfLine line).map g := by
    unfold Function.offsetOfLine
    split
    · rfl
    · rw [hlines, LineTable.offsetOfLine_recut hkeeps hf.lines_lt hsize']
  rw [hmap, map_eq_ok_iff]
  constructor
  · rintro ⟨p, hp, rfl⟩
    obtain ⟨m, hm, rfl⟩ := hf.exists_of_offsetOfLine hp
    exact ⟨m, hm, hp, (hg m hm.le).symm⟩
  · rintro ⟨m, hm, hline, rfl⟩
    exact ⟨_, hline, hg m hm.le⟩

/-- The jumps of a function with fronts are those of the function without. -/
theorem exists_of_leadsTo (hb : b.Valid) (h : Carries f b front body fn)
    (hjumps : ∀ j, ∀ i ∈ front j, i.flow.isJump = false) {j l : Nat}
    (hjl : Block.LeadsTo (weave front 0 body) j l) :
    ∃ k m, b.LeadsTo k m ∧ placeIndex front k = j ∧ placeIndex front m = l := by
  obtain ⟨-, i, hi, hjump, -⟩ := id hjl
  rcases exists_of_getElem?_weave hi with ⟨k, hmem⟩ | ⟨k, hk, hplace⟩
  · rw [hjumps k i hmem] at hjump
    cases hjump
  · rw [frontIndex, Nat.zero_add, Nat.zero_add] at hplace
    obtain ⟨i₀, hi₀, hsame⟩ := exists_getElem?_left h.resized hk
    rw [hsame.flow_eq] at hjump
    obtain ⟨m, hkm⟩ := hb.closed k i₀ hi₀ hjump
    refine ⟨k, m, hkm, hplace.symm, ?_⟩
    rw [hplace] at hjl
    exact (h.leadsTo k m hkm).unique h.valid.solid hjl

/-- A splice within a front gives the function with that front changed. -/
theorem of_spliced (h : Carries f b front body fn) {m : Nat} {before old new after c : Block}
    {shifts : List Shift} (hm : m < b.length) (hfront : front m = before ++ old ++ after)
    (hfront' : front' m = before ++ new ++ after) (hsame : ∀ j, j ≠ m → front' j = front j)
    (hjumps : ∀ j, ∀ i ∈ front' j, i.flow.isJump = false)
    (hspliced : Block.Spliced (weave front 0 body) (frontIndex front m + before.length) old.length
      new c shifts)
    (hcode : fn'.code = Block.encode c)
    (hlines : ∃ g, fn.lines.Keeps g ∧ fn'.lines = fn.lines.recut g ∧
      ∀ l ≤ (weave front 0 body).length,
        l ≤ frontIndex front m + before.length ∨
          frontIndex front m + before.length + old.length < l →
        g (Block.start (weave front 0 body) l) =
          Block.start c (carryCut (frontIndex front m + before.length) old.length new.length l)) :
    ∃ body', c = weave front' 0 body' ∧ List.Forall₂ Instruction.Resized body body' ∧
      Carries f b front' body' fn' := by
  have hm' : m < body.length := by rw [← h.resized.length_eq]; exact hm
  have hresized := hspliced.resized
  rw [← weave_eq_spliced hm' hfront hfront' hsame] at hresized
  obtain ⟨body', rfl, hbody⟩ := exists_weave_of_resized hresized hjumps
  refine ⟨body', rfl, hbody, ?_, hspliced.valid,
    forall₂_trans (fun _ _ _ h h' => h.trans h') h.resized hbody, ?_, ?_⟩
  · rw [hcode, Block.decode_encode hspliced.valid.encodable]
  · intro k l hkl
    obtain ⟨hstays, hk⟩ := carry_placeIndex hfront hfront' hsame k
    obtain ⟨-, hl⟩ := carry_placeIndex hfront hfront' hsame l
    have hleads := hspliced.leadsTo _ _ hstays (h.leadsTo k l hkl)
    rwa [hk, hl] at hleads
  · obtain ⟨g, hkeeps, hrecut, hg⟩ := h.lines
    obtain ⟨g', hkeeps', hrecut', hg'⟩ := hlines
    rw [hrecut] at hkeeps' hrecut'
    refine ⟨g' ∘ g, hkeeps.comp hkeeps', ?_, fun l hl => ?_⟩
    · rw [hrecut', LineTable.recut_recut hkeeps]
    · obtain ⟨hclear, hcut⟩ := carryCut_frontIndex hfront hfront' hsame l
      rw [Function.comp, hg l hl, hg' _ (h.frontIndex_le hl) hclear, hcut]

end Carries

end Tripwire
