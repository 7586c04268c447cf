import Tripwire.Proofs.Session.Restore

/-!
# Setting and clearing a breakpoint again and again

Clearing a breakpoint may leave jumps wider than they were at first. Setting it again
makes the same function as the first time nevertheless: the narrowest layout with the
call is the same over all code between the first one and the one with the call. So
neither the code nor the pools drift.

* `Injector.cycle`, `Injector.cycles`: setting and clearing a breakpoint;
* `Cleared`: what comes back when a breakpoint is cleared, with `exists_cleared`;
* `Cleared.exists_insert`, `Cleared.eq_of_insert`: the breakpoint is set again;
* `exists_cycle`: a cycle leads to a function in which the breakpoint is set with the same result;
* `reinserted_of_assemble`: so do any number of cycles.
-/

namespace Tripwire

namespace Injector

/-- Sets a breakpoint and clears it again. -/
def cycle (inj : Injector) (f : Function) (line id : Nat) :
    Except Fault (Injector × Function) := do
  let (inj, f) ← inj.insert f line id
  inj.remove f line id

/-- Sets a breakpoint and clears it again, a number of times. -/
def cycles (inj : Injector) (f : Function) (line id : Nat) :
    Nat → Except Fault (Injector × Function)
  | 0 => pure (inj, f)
  | n + 1 => do
    let (inj, f) ← inj.cycles f line id n
    inj.cycle f line id

end Injector

/-- The function `f'` is `f₁` with the stack budget of `f`, but for the code and its line table. -/
structure Cleared (f f₁ f' : Function) : Prop where
  name_eq : f'.name = f₁.name
  names_eq : f'.names = f₁.names
  constants_eq : f'.constants = f₁.constants
  stackDepth_eq : f'.stackDepth = f.stackDepth

section Cycle

variable {inj inj₁ inj₂ : Injector} {f f₁ f₂ f' : Function} {b r w : Block} {line id m : Nat}

/-! ### Clearing the breakpoint -/

/-- Clearing a breakpoint that has just been set gives the injector back, and the function with
other code. -/
theorem exists_cleared (hf : f.WellFormed b) (htight : b.Tight)
    (hok : inj.insert f line id = .ok (inj₁, f₁)) (hsmall : f₁.Small) (hm : m < b.length)
    (hline : f.offsetOfLine line = .ok (b.start m)) (hw : Block.decode f₁.code = .ok w) :
    ∃ f' r, inj₁.remove f₁ line id = .ok (inj, f') ∧ Cleared f f₁ f' ∧ f'.Small ∧
      Carries f b (fun _ => []) r f' ∧ Block.Widest b (w.spliced m callLength []) r := by
  obtain ⟨inj', f', r, hremove, hdepth, hclear, hwidest⟩ :=
    exists_widest_of_insert hf htight hok hsmall hm hline hw
  obtain ⟨-, -, -, hnone, -, -, -, -, htarget, hactive, -⟩ := Injector.insert_eq_ok_iff.1 hok
  obtain ⟨_, _, _, _, e, _, -, -, -, -, -, -, -, -, rfl, hf'⟩ := Injector.remove_eq_ok_iff.1 hremove
  have hinj : (⟨inj₁.target, inj₁.registry.erase id⟩ : Injector) = inj := by
    rw [htarget, Registry.erase_of_insertById hnone hactive]
  rw [hinj] at hremove
  have hcleared : Cleared f f₁ f' := ⟨by rw [hf'], by rw [hf'], by rw [hf'], hdepth⟩
  have hcode : f'.code.length ≤ f₁.code.length := by
    have hr := hclear.decode_eq
    rw [weave_empty] at hr
    rw [← Block.size_of_decode hr, ← Block.size_of_decode hw]
    exact (Block.size_le_of_within hwidest.within).trans (Block.size_spliced_le w m callLength [])
  refine ⟨f', r, hremove, hcleared, ⟨hcode.trans_lt hsmall.code_lt, ?_, ?_⟩, hclear, hwidest⟩
  · rw [hcleared.names_eq]
    exact hsmall.names_lt
  · rw [hcleared.constants_eq]
    exact hsmall.constants_lt

/-! ### Setting it again -/

/-- The pools hold already what the call refers to: it is the same call, and they do not grow
again. -/
theorem Cleared.callFor_eq (h : Cleared f f₁ f') (hok : inj.insert f line id = .ok (inj₁, f₁)) :
    inj.callFor f' id = inj.callFor f id ∧ Pool.merge f'.names inj.callNames = f₁.names ∧
      Pool.merge f'.constants [.int id] = f₁.constants := by
  obtain ⟨-, e, lines, -, -, -, -, -, -, -, hf₁⟩ := Injector.insert_eq_ok_iff.1 hok
  have hnames : f'.names = Pool.merge f.names inj.callNames := by rw [h.names_eq, hf₁]
  have hconstants : f'.constants = Pool.merge f.constants [.int id] := by
    rw [h.constants_eq, hf₁]
  obtain ⟨hpooled, hcall⟩ := Injector.callFor_merged rfl hnames hconstants
  obtain ⟨hnames', hconstants'⟩ := Injector.merge_of_pooled hpooled
  exact ⟨hcall, hnames'.trans h.names_eq, hconstants'.trans h.constants_eq⟩

/-- The breakpoint can be set again, as there is room for its call in the code with the call, and
that is the code which is made. -/
theorem Cleared.exists_insert (h : Cleared f f₁ f') (hf : f.WellFormed b) (htight : b.Tight)
    (hok : inj.insert f line id = .ok (inj₁, f₁)) (hsmall : f₁.Small) (hm : m < b.length)
    (hline : f.offsetOfLine line = .ok (b.start m)) (hw : Block.decode f₁.code = .ok w)
    (hcode : f₁.code = w.encode) (hnear : Block.Nearest true b m 0 (inj.callFor f id) w)
    (hsmall' : f'.Small) (hclear : Carries f b (fun _ => []) r f')
    (hwidest : Block.Widest b (w.spliced m callLength []) r) :
    ∃ inj₂ f₂, inj.insert f' line id = .ok (inj₂, f₂) ∧ f₂.code = f₁.code := by
  obtain ⟨-, -, -, hnone, -, -, -, hdepth, -⟩ := Injector.insert_eq_ok_iff.1 hok
  obtain ⟨hcall, -⟩ := h.callFor_eq hok
  have hadd := inj.addable_callFor f id
  have hr : f'.WellFormed r := by
    have hwell := hclear.wellFormed hf hsmall'
    rwa [weave_empty] at hwell
  have hmr : m < r.length := by rwa [← hwidest.relaid.resized.length_eq]
  have hliner : f'.offsetOfLine line = .ok (r.start m) := by
    refine (hclear.offsetOfLine_eq hf hsmall'.code_lt).2 ⟨m, hm, hline, ?_⟩
    rw [weave_empty, frontIndex_empty]
  have hfitted : r.Fitted m (inj.callFor f' id) w := by
    rw [hcall]
    exact (hwidest.laid hm.le hnear hf.valid hadd hr.valid.solid).fitted hr.valid hadd
  obtain ⟨⟨inj₂, f₂⟩, hagain⟩ : ∃ p, inj.insert f' line id = .ok p := by
    refine (Carries.refl hr).exists_insert hr hsmall' hmr hliner hnone ?_ (c := w) ?_ ?_
    · rw [hcall, h.stackDepth_eq]
      exact hdepth
    · rwa [weave_empty, frontIndex_empty]
    · rw [Block.size_of_decode hw]
      exact hsmall.code_lt
  obtain ⟨w₂, -, -, hcode₂, -, -, hnear₂⟩ := exists_nearest_of_insert hr hagain hmr hliner
  rw [hcall] at hnear₂
  obtain rfl := hwidest.nearest_eq hm.le hnear hf.valid htight hadd hr.valid.solid hnear₂
  exact ⟨inj₂, f₂, hagain, hcode₂.trans hcode.symm⟩

/-- Both functions carry the call in the same front, so that their line tables are the same. -/
theorem Cleared.lines_eq (h : Cleared f f₁ f') (hf : f.WellFormed b)
    (hok : inj.insert f line id = .ok (inj₁, f₁)) (hsmall : f₁.Small) (hsmall' : f'.Small)
    (hclear : Carries f b (fun _ => []) r f') (hagain : inj.insert f' line id = .ok (inj₂, f₂))
    (hcode : f₂.code = f₁.code) : f₂.lines = f₁.lines := by
  obtain ⟨hcall, hnames, hconstants⟩ := h.callFor_eq hok
  obtain ⟨m, body, hm, hline, hset⟩ := exists_lone_of_insert hf hsmall hok
  have hsmall₂ : f₂.Small := by
    obtain ⟨-, e, lines, -, -, -, -, -, -, -, hf₂⟩ := Injector.insert_eq_ok_iff.1 hagain
    rw [hnames, hconstants] at hf₂
    exact ⟨hcode ▸ hsmall.code_lt, by rw [hf₂]; exact hsmall.names_lt,
      by rw [hf₂]; exact hsmall.constants_lt⟩
  obtain ⟨m₂, hm₂, hline₂, hfront⟩ := hclear.insert hf hsmall' hsmall₂ hagain
  rw [hline] at hline₂
  obtain rfl := Block.start_inj hf.valid.solid hm.le hm₂.le (Except.ok.inj hline₂)
  obtain ⟨body₂, hset₂⟩ := hfront (lone m (inj.callFor f id))
    (by rw [lone_self, hcall, List.append_nil]) (fun j hj => lone_of_ne hj)
    (isJump_of_mem_lone fun i hi => Injector.isJump_of_mem_callFor hi)
  exact hset.lines_eq hf hset₂ hcode

/-- The breakpoint is set again with the same result when the code and its line table are the
same. -/
theorem Cleared.eq_of_insert (h : Cleared f f₁ f') (hok : inj.insert f line id = .ok (inj₁, f₁))
    (hagain : inj.insert f' line id = .ok (inj₂, f₂)) (hcode : f₂.code = f₁.code)
    (hlines : f₂.lines = f₁.lines) : inj₂ = inj₁ ∧ f₂ = f₁ := by
  obtain ⟨hcall, hnames, hconstants⟩ := h.callFor_eq hok
  obtain ⟨-, e, lines, -, -, -, -, -, htarget, hactive, hf₁⟩ := Injector.insert_eq_ok_iff.1 hok
  obtain ⟨-, e₂, lines₂, -, -, -, -, -, htarget₂, hactive₂, hf₂⟩ :=
    Injector.insert_eq_ok_iff.1 hagain
  rw [hcall] at hactive₂
  rw [hnames, hconstants, hcall, h.name_eq, h.stackDepth_eq] at hf₂
  have hregistry : inj₂.registry = inj₁.registry :=
    Registry.eq_of_active_eq (hactive₂.trans hactive.symm)
  have hdepth : f₂.stackDepth = f₁.stackDepth := by rw [hf₂, hf₁]
  constructor
  · rw [← htarget] at htarget₂
    cases inj₁
    cases inj₂
    cases hregistry
    cases htarget₂
    rfl
  · subst hf₂
    cases f₁
    cases hcode
    cases hlines
    cases hdepth
    rfl

/-- After a breakpoint has been set and cleared it can be set again, with the same result. -/
theorem exists_cycle (hf : f.WellFormed b) (htight : b.Tight)
    (hok : inj.insert f line id = .ok (inj₁, f₁)) (hsmall : f₁.Small) :
    ∃ f', inj₁.remove f₁ line id = .ok (inj, f') ∧ inj.insert f' line id = .ok (inj₁, f₁) := by
  obtain ⟨m, body, hm, hline, -⟩ := exists_lone_of_insert hf hsmall hok
  obtain ⟨w, shifts, hw, hwcode, -, -, hnear⟩ := exists_nearest_of_insert hf hok hm hline
  obtain ⟨f', r, hremove, hcleared, hsmall', hclear, hwidest⟩ :=
    exists_cleared hf htight hok hsmall hm hline hw
  obtain ⟨inj₂, f₂, hagain, hcode⟩ := hcleared.exists_insert hf htight hok hsmall hm hline hw hwcode
    hnear hsmall' hclear hwidest
  have hlines := hcleared.lines_eq hf hok hsmall hsmall' hclear hagain hcode
  obtain ⟨rfl, rfl⟩ := hcleared.eq_of_insert hok hagain hcode hlines
  exact ⟨f', hremove, hagain⟩

/-- After any number of cycles the breakpoint can be set with the same result. -/
theorem exists_cycles (hf : f.WellFormed b) (htight : b.Tight)
    (hok : inj.insert f line id = .ok (inj₁, f₁)) (hsmall : f₁.Small) (n : Nat) :
    ∃ p, inj.cycles f line id n = .ok p ∧ p.1.insert p.2 line id = .ok (inj₁, f₁) := by
  obtain ⟨f', hremove, hagain⟩ := exists_cycle hf htight hok hsmall
  induction n with
  | zero => exact ⟨(inj, f), rfl, hok⟩
  | succ n ih =>
    obtain ⟨⟨injₙ, fₙ⟩, hcycles, hinsert⟩ := ih
    refine ⟨(inj, f'), ?_, hagain⟩
    rw [Injector.cycles, hcycles]
    show injₙ.cycle fₙ line id = _
    rw [Injector.cycle, hinsert]
    exact hremove

end Cycle

/-- A breakpoint that can be set in an assembled function can be cleared and set again any number of
times, and setting it gives the same code, pools, line table and stack budget as the first time. -/
theorem reinserted_of_assemble {source : List Char} {f f₁ : Function} {inj inj₁ : Injector}
    {line id : Nat} (hassemble : assemble source = .ok f)
    (hsteady : ∀ b, Block.decode f.code = .ok b → ∀ i ∈ b, i.flow ≠ .suspension)
    (hok : inj.insert f line id = .ok (inj₁, f₁)) (hsmall : f₁.Small) (n : Nat) :
    ∃ p, inj.cycles f line id n = .ok p ∧ p.1.insert p.2 line id = .ok (inj₁, f₁) := by
  obtain ⟨b, hb, hnarrow, hwell⟩ :=
    wellFormed_of_assemble hassemble (small_of_insert hok hsmall)
  exact exists_cycles (hwell (hsteady b hb)) (fun i hi _ => hnarrow i hi) hok hsmall n

/-- A breakpoint that widens a jump for good is set with the same result again. -/
theorem exists_reinserted_longJump : ∃ inj f inj' f',
    (Injector.start .standard).insert .longJump 1 7 = .ok (inj, f) ∧
      (Injector.start .standard).cycles .longJump 1 7 2 = .ok (inj', f') ∧
      inj'.insert f' 1 7 = .ok (inj, f) := by
  obtain ⟨inj, f, hinsert, hsmall, -⟩ := exists_insert_longJump
  have hsteady : ∀ b, Block.decode Function.longJump.code = .ok b →
      ∀ i ∈ b, i.flow ≠ .suspension := by
    intro b hb
    rw [decode_longJump] at hb
    cases hb
    exact wellFormed_longJump.valid.steady
  obtain ⟨⟨inj', f'⟩, hcycles, hagain⟩ :=
    reinserted_of_assemble assemble_longJumpSource hsteady hinsert hsmall 2
  exact ⟨inj, f, inj', f', hinsert, hcycles, hagain⟩

end Tripwire
