import Tripwire.Proofs.Block.Path
import Tripwire.Proofs.Session.Invariant

/-!
# The stack budget of sessions

A path through the code with the calls is a path through the original code that
runs through the calls in front of the instructions. A call leaves the operand
stack as it was, so that a path is higher than the original one by what part of
one front rises.

* `Shadows`: a path with calls, and the original one that it follows;
* `Carries.shadows_of_edge`: one step of control;
* `Carries.shadows_of_reaches`: all the paths;
* `Session.rise_take_front_le`: what part of a front rises, against the budget;
* `depthAtMost_of_reachable`: the stack budget holds along every path in every session.
-/

namespace Tripwire

/-- The effect of an instruction does not change when it is laid out anew. -/
theorem Instruction.Resized.stackEffect_eq {i i' : Instruction} (h : i.Resized i') (taken : Bool) :
    i'.stackEffect taken = i.stackEffect taken := by
  by_cases hjump : i.flow.isJump = true
  · rw [Instruction.stackEffect, Instruction.stackEffect, h.opcode_eq]
    exact Opcode.stackEffect_of_isJump hjump _ _ taken
  · rw [h.eq_of_not_isJump (by simpa using hjump)]

/-- The offset `p` lies behind the first `t` instructions of the front of number `m`. A path through
`b` reaches the instruction of that number, and these `t` raise its depth to `depth`. -/
structure Shadows (b : Block) (front : Nat → Block) (w : Block) (p : Nat) (depth : Int)
    (m t : Nat) : Prop where
  start_eq : w.start (frontIndex front m + t) = p
  le_length : t ≤ (front m).length
  inside : m < b.length ∨ m = b.length ∧ t = 0
  reaches : b.Reaches (b.start m) (depth - Block.rise ((front m).take t))

namespace Carries

variable {f fn : Function} {b body : Block} {front : Nat → Block} {p q m t : Nat}
  {depth effect : Int}

theorem index_le (h : Carries f b front body fn)
    (hs : Shadows b front (weave front 0 body) p depth m t) :
    frontIndex front m + t ≤ (weave front 0 body).length := by
  rcases hs.inside with hm | ⟨rfl, rfl⟩
  · have hplace := h.placeIndex_lt hm
    have hle := hs.le_length
    rw [placeIndex] at hplace
    omega
  · exact h.frontIndex_le le_rfl

/-- A step of control leaves the instruction at which the path stands. -/
theorem exists_instruction (h : Carries f b front body fn)
    (hs : Shadows b front (weave front 0 body) p depth m t)
    (he : Block.Edge (weave front 0 body) p effect q) :
    m < b.length ∧ ∃ i, (weave front 0 body)[frontIndex front m + t]? = some i ∧
      (i.opcode.Falls ∧ effect = i.stackEffect false ∧
          q = Block.start (weave front 0 body) (frontIndex front m + t + 1) ∨
        ∃ l, Block.LeadsTo (weave front 0 body) (frontIndex front m + t) l ∧
          effect = i.stackEffect true ∧ q = Block.start (weave front 0 body) l) := by
  obtain ⟨l, i, hi, hstart, hcases⟩ := he.exists_index h.valid.closed
  have hl : l < (weave front 0 body).length := (List.getElem?_eq_some_iff.1 hi).1
  obtain rfl : l = frontIndex front m + t :=
    Block.start_inj h.valid.solid hl.le (h.index_le hs) (hstart.trans hs.start_eq.symm)
  refine ⟨?_, i, hi, hcases⟩
  rcases hs.inside with hm | ⟨rfl, rfl⟩
  · exact hm
  · rw [length_weave, h.resized.length_eq, Nat.add_zero] at hl
    exact absurd hl (lt_irrefl _)

/-- A step of control within a front stays there, and one of an instruction behind its front is one
of the function without fronts. -/
theorem shadows_of_edge (hf : f.WellFormed b) (h : Carries f b front body fn)
    (hjumps : ∀ j, ∀ i ∈ front j, i.flow.isJump = false)
    (hflat : ∀ j, Block.rise (front j) = 0)
    (hs : Shadows b front (weave front 0 body) p depth m t)
    (he : Block.Edge (weave front 0 body) p effect q) :
    ∃ m' t', Shadows b front (weave front 0 body) q (depth + effect) m' t' := by
  obtain ⟨hm, i, hi, hcases⟩ := h.exists_instruction hs he
  have hbody : m < body.length := h.resized.length_eq ▸ hm
  rcases Nat.lt_or_eq_of_le hs.le_length with ht | rfl
  · -- The instruction stands in the front.
    have hifront := hi
    rw [getElem?_weave_front front hbody ht] at hifront
    rcases hcases with ⟨-, rfl, rfl⟩ | ⟨l, hjump, -⟩
    · refine ⟨m, t + 1, rfl, ht, .inl hm, ?_⟩
      rw [Block.rise_take_succ hifront, add_sub_add_right_eq_sub]
      exact hs.reaches
    · have hflow := (hjump.target?_eq hi).1
      rw [hjumps m i (List.mem_of_getElem? hifront)] at hflow
      cases hflow
  · -- The instruction stands behind its front, which leaves the stack as it was.
    have hreaches := hs.reaches
    rw [List.take_length, hflat, Int.sub_zero] at hreaches
    rw [← placeIndex, getElem?_weave_place front hbody] at hi
    obtain ⟨i₀, hi₀, hresized⟩ := exists_getElem?_left h.resized hi
    rcases hcases with ⟨hfalls, rfl, rfl⟩ | ⟨l, hjump, rfl, rfl⟩
    · rw [hresized.opcode_eq] at hfalls
      refine ⟨m + 1, 0, by rw [frontIndex_succ, placeIndex, Nat.add_zero], Nat.zero_le _, ?_, ?_⟩
      · omega
      · rw [List.take_zero, Block.rise_nil, Int.sub_zero, hresized.stackEffect_eq]
        exact hreaches.step (Block.edge_fall hi₀ hfalls)
    · obtain ⟨k, m', hkm, hk, rfl⟩ := h.exists_of_leadsTo hf.valid hjumps hjump
      obtain rfl := placeIndex_inj hk
      refine ⟨m', (front m').length, rfl, le_rfl, .inl hkm.1, ?_⟩
      rw [List.take_length, hflat, Int.sub_zero, hresized.stackEffect_eq]
      exact hreaches.step (Block.edge_jump hi₀ hkm)

/-- Every path through a function with fronts follows one through the function without them. -/
theorem shadows_of_reaches (hf : f.WellFormed b) (h : Carries f b front body fn)
    (hjumps : ∀ j, ∀ i ∈ front j, i.flow.isJump = false)
    (hflat : ∀ j, Block.rise (front j) = 0)
    (hreaches : Block.Reaches (weave front 0 body) p depth) :
    ∃ m t, Shadows b front (weave front 0 body) p depth m t := by
  induction hreaches with
  | start => exact ⟨0, 0, rfl, Nat.zero_le _, by omega, .start⟩
  | step _ he ih =>
    obtain ⟨m, t, hs⟩ := ih
    exact h.shadows_of_edge hf hjumps hflat hs he

end Carries

/-! ### Calls -/

theorem rise_callBlock (module callback argument : UInt32) :
    Block.rise (callBlock module callback argument) = 0 := rfl

namespace Session

theorem front_eq (s : Session) (f : Function) (b : Block) (m : Nat) :
    s.front f b m = ((marksAt f b s.marks m).map fun k => s.call k.id).flatten :=
  List.flatMap_def ..

/-- The calls in front of an instruction leave the operand stack as it was. -/
theorem rise_front (s : Session) (f : Function) (b : Block) (m : Nat) :
    Block.rise (s.front f b m) = 0 := by
  rw [front_eq]
  refine Block.rise_flatten fun a ha => ?_
  obtain ⟨k, -, rfl⟩ := List.mem_map.1 ha
  exact rise_callBlock _ _ _

/-- Part of the calls in front of an instruction rise no higher than the budget of all
breakpoints. -/
theorem rise_take_front_le (s : Session) (f : Function) (b : Block) (m t : Nat) :
    Block.rise ((s.front f b m).take t) ≤ s.budget := by
  have hpart := Block.rise_take_flatten_le ((marksAt f b s.marks m).map fun k => s.call k.id) t
  have hsum : ((marksAt f b s.marks m).map fun k => (s.call k.id).stackGrowth).sum ≤ s.budget :=
    (List.filter_sublist.map _).sum_le_sum fun _ _ => Nat.zero_le _
  rw [List.map_map] at hpart
  rw [front_eq]
  exact hpart.trans (Int.ofNat_le.2 hsum)

end Session

/-! ### Every path -/

/-- When the stack budget of a function holds along every path through its code, it does so in every
session: along every path through the code with the calls the operand stack rises no higher than the
budget of the function as it is. -/
theorem depthAtMost_of_reachable {target : CallTarget} {f : Function} {b : Block} {s : Session}
    (hf : f.WellFormed b) (hbudget : b.DepthAtMost f.stackDepth) (h : Reachable target f s) :
    ∃ w, Block.decode s.function.code = .ok w ∧ w.DepthAtMost s.function.stackDepth := by
  have hkept := kept_of_reachable hf h
  obtain ⟨body, hcarries⟩ := hkept.carries
  refine ⟨_, hcarries.decode_eq, fun p depth hreaches => ?_⟩
  obtain ⟨m, t, hs⟩ := hcarries.shadows_of_reaches hf (fun j i hi => Kept.isJump_of_mem_front hi)
    (s.rise_front f b) hreaches
  have hdepth := hbudget _ _ hs.reaches
  have hrise := s.rise_take_front_le f b m t
  rw [hkept.stackDepth_eq]
  push_cast
  omega

/-- No path through the function of two lines pushes anything. -/
theorem depthAtMost_twoLines :
    Block.DepthAtMost [⟨.jumpAbsolute, 2, 1⟩, .bare .returnValue] 0 := by
  have hplaced : Block.placed [⟨.jumpAbsolute, 2, 1⟩, .bare .returnValue] =
      [(⟨.jumpAbsolute, 2, 1⟩, 0), (.bare .returnValue, 2)] := rfl
  intro p depth hreaches
  induction hreaches with
  | start => exact le_rfl
  | step _ he ih =>
    cases he with
    | fall hmem hfalls =>
      rw [hplaced] at hmem
      simp only [List.mem_cons, Prod.mk.injEq, List.not_mem_nil, or_false] at hmem
      rcases hmem with ⟨rfl, -⟩ | ⟨rfl, -⟩
      · exact absurd hfalls (by decide)
      · exact absurd hfalls (by decide)
    | jump hmem htarget =>
      rw [hplaced] at hmem
      simp only [List.mem_cons, Prod.mk.injEq, List.not_mem_nil, or_false] at hmem
      rcases hmem with ⟨rfl, -⟩ | ⟨rfl, -⟩
      · exact (Int.add_zero _).trans_le ih
      · cases htarget

/-- A breakpoint raises the budget of the function of two lines from nothing to what its call
needs. -/
theorem exists_depthAtMost_twoLines : ∃ s, Reachable .standard .twoLines s ∧ s.marks = [⟨7, 2⟩] ∧
    s.function.stackDepth = 3 ∧
    ∃ w, Block.decode s.function.code = .ok w ∧ w.DepthAtMost s.function.stackDepth := by
  obtain ⟨inj, fn, hok, hsmall⟩ := exists_insert_twoLines
  have hreachable : Reachable .standard .twoLines ⟨inj, fn, [⟨7, 2⟩]⟩ :=
    Reachable.start.after_of_ok (r := .insert 2 7) trivial hsmall hok
  have hdepth := (kept_of_reachable wellFormed_twoLines hreachable).stackDepth_eq
  exact ⟨_, hreachable, rfl, hdepth,
    depthAtMost_of_reachable wellFormed_twoLines depthAtMost_twoLines hreachable⟩

end Tripwire
