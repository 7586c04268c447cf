import Tripwire.Proofs.Session.Carry

/-!
# Setting and clearing in a function with fronts

Setting a breakpoint puts its call at the head of the front of the first
instruction of a line, and clearing it takes the call out of that front again.
Nothing else of the function changes, but for the operands and widths of its
jumps, and its line table follows.

* `Carries.insertion`: putting a call into the code, with the line table that follows;
* `Carries.insert`: a breakpoint that is set;
* `Carries.exists_insert`: when a breakpoint can be set;
* `Stands`: the call of a breakpoint behind the calls of others;
* `Carries.locateCall_eq`: the look-up finds it;
* `Carries.removal`: taking it out of the code, with the line table that follows;
* `Carries.remove`: a breakpoint that is cleared;
* `Carries.exists_remove`: a breakpoint that is set can be cleared.
-/

namespace Tripwire

/-- The call of the breakpoint `id` stands in the front of number `m`, behind the calls of the
breakpoints `ids`. -/
structure Stands (inj : Injector) (fn : Function) (front : Nat → Block) (m id : Nat)
    (ids : List Nat) (after : Block) : Prop where
  others : ∀ a ∈ ids, a ≠ id
  pooled : ∀ a, a = id ∨ a ∈ ids → Pooled inj.target fn a
  front_eq : front m = ids.flatMap (inj.callFor fn) ++ inj.callFor fn id ++ after

/-- The index of an instruction in the front of number `m`, behind the calls of `ids`. -/
def callIndex (inj : Injector) (fn : Function) (front : Nat → Block) (m : Nat) (ids : List Nat) :
    Nat :=
  frontIndex front m + (ids.flatMap (inj.callFor fn)).length

theorem frontIndex_le_callIndex (inj : Injector) (fn : Function) (front : Nat → Block) (m : Nat)
    (ids : List Nat) : frontIndex front m ≤ callIndex inj fn front m ids :=
  Nat.le_add_right _ _

/-- The call lies within its front. -/
theorem Stands.callIndex_add_le_placeIndex {inj : Injector} {fn : Function} {front : Nat → Block}
    {m id : Nat} {ids : List Nat} {after : Block} (h : Stands inj fn front m id ids after) :
    callIndex inj fn front m ids + callLength ≤ placeIndex front m := by
  unfold placeIndex callIndex
  rw [h.front_eq, List.length_append, List.length_append, Injector.length_callFor]
  omega

namespace Carries

variable {f fn fn' : Function} {b body : Block} {front front' : Nat → Block}
  {inj inj' : Injector} {line id m : Nat} {ids : List Nat} {after : Block}

/-- What splicing a call in at the head of a front makes of the code, and the line table that
follows. -/
theorem insertion (hf : f.WellFormed b) (h : Carries f b front body fn) (hm : m < b.length)
    {e : Edit} (hinsert : insertAt fn.code (inj.callFor fn id)
      (Block.start (weave front 0 body) (frontIndex front m)) = .ok e)
    (hsize : e.code.length < limit32) :
    ∃ out lines g, e.code = Block.encode (instructionsOf out) ∧
      Block.Spliced (weave front 0 body) (frontIndex front m) 0 (inj.callFor fn id)
        (instructionsOf out) e.shifts ∧
      fn.lines.followed e.shifts = .ok lines ∧ fn.lines.Keeps g ∧ lines = fn.lines.recut g ∧
      ∀ l ≤ (weave front 0 body).length, g (Block.start (weave front 0 body) l) =
        Block.start (instructionsOf out)
          (carryCut (frontIndex front m) 0 (inj.callFor fn id).length l) := by
  have hadd : Block.Addable (inj.callFor fn id) := inj.addable_callFor fn id
  obtain ⟨k, out, hk, hstart, -, hrelocate, hrelocated, hcode, hspliced⟩ :=
    exists_out_of_insertAt h.decode_eq h.valid hadd.encodable hinsert
  obtain rfl : k = frontIndex front m :=
    Block.start_inj h.valid.solid hk.le (h.frontIndex_le hm.le) hstart
  have hshifts := Block.exists_resizing_of_insertion h.valid.encodable
    (fun i hi => (hadd.encodable i hi).fits_fresh) hk.le (inj.size_callFor_pos fn id) hrelocate
  rw [hcode, Block.length_encode_of_encodable hspliced.valid.encodable] at hsize
  obtain ⟨haligned, -⟩ := h.aligned hf
  obtain ⟨g, hg⟩ := Block.exists_on_starts h.valid.solid fun l =>
    Block.start (instructionsOf out)
      (carryCut (frontIndex front m) 0 (inj.callFor fn id).length l)
  obtain ⟨lines, hlines⟩ := Block.exists_followed_insertion h.valid.solid hk haligned hrelocated
    hshifts hsize
  obtain ⟨hrecut, hkeeps⟩ := Block.recut_of_insertion h.valid.solid hk haligned hrelocated
    hshifts hsize hlines hg
  exact ⟨out, lines, g, hcode, hspliced, hlines, hkeeps, hrecut, hg⟩

/-- A breakpoint that is set puts its call at the head of the front of its line. -/
theorem insert (hf : f.WellFormed b)
    (h : Carries f b front body fn) (hsmall : fn.Small) (hsmall' : fn'.Small)
    (hok : inj.insert fn line id = .ok (inj', fn')) :
    ∃ m < b.length, f.offsetOfLine line = .ok (b.start m) ∧ ∀ front' : Nat → Block,
      front' m = inj.callFor fn id ++ front m → (∀ j, j ≠ m → front' j = front j) →
      (∀ j, ∀ i ∈ front' j, i.flow.isJump = false) → ∃ body', Carries f b front' body' fn' := by
  obtain ⟨offset, e, lines, -, hline, hinsert, hlines, -, -, -, hfn'⟩ :=
    Injector.insert_eq_ok_iff.1 hok
  obtain ⟨m, hm, hfline, rfl⟩ := (h.offsetOfLine_eq hf hsmall.code_lt).1 hline
  refine ⟨m, hm, hfline, fun front' hfront' hsame hjumps => ?_⟩
  have hsize : e.code.length < limit32 := by
    have hlt := hsmall'.code_lt
    rwa [hfn'] at hlt
  obtain ⟨out, lines', g, hcode, hspliced, hlines', hkeeps, hrecut, hg⟩ :=
    h.insertion hf hm hinsert hsize
  rw [hlines] at hlines'
  cases hlines'
  have hcode' : fn'.code = Block.encode (instructionsOf out) := by rw [hfn']; exact hcode
  have htable : fn'.lines = lines := by rw [hfn']
  have hempty : front m = [] ++ [] ++ front m := rfl
  obtain ⟨body', -, -, hcarries⟩ := h.of_spliced hm hempty hfront' hsame hjumps hspliced hcode'
    ⟨g, hkeeps, htable.trans hrecut, fun l hl _ => hg l hl⟩
  exact ⟨body', hcarries⟩

/-- A breakpoint can be set when its number is free, its line has code, the code with its call can
be laid out, and the stack budget stays in range. -/
theorem exists_insert (hf : f.WellFormed b) (h : Carries f b front body fn) (hsmall : fn.Small)
    (hm : m < b.length) (hline : f.offsetOfLine line = .ok (b.start m))
    (hnone : inj.registry.get? id = none)
    (hdepth : fn.stackDepth + (inj.callFor fn id).stackGrowth < limit32)
    {c : Block} (hc : Block.Fitted (weave front 0 body) (frontIndex front m) (inj.callFor fn id) c)
    (hroom : c.size < limit32) : ∃ p, inj.insert fn line id = .ok p := by
  have hadd : Block.Addable (inj.callFor fn id) := inj.addable_callFor fn id
  have hlt : frontIndex front m < (weave front 0 body).length :=
    (Nat.le_add_right _ _).trans_lt (h.placeIndex_lt hm)
  obtain ⟨e, he, hlength⟩ := exists_insertAt_of_laid h.decode_eq h.valid hadd.placeable
    (inj.size_callFor_pos fn id) (inj.size_callFor_lt fn id) hlt hc.laid hroom
  have hsize : e.code.length < limit32 := hlength.trans_lt hroom
  obtain ⟨-, lines, -, -, -, hlines, -⟩ := h.insertion hf hm he hsize
  obtain ⟨registry, hactive⟩ : ∃ r : Registry, r.active = insertById
      ⟨id, line, (inj.callFor fn id).size, (inj.callFor fn id).stackGrowth⟩ inj.registry.active :=
    ⟨⟨_, pairwise_insertById (Registry.get?_eq_none_iff.1 hnone) inj.registry.sorted⟩, rfl⟩
  exact ⟨(⟨inj.target, registry⟩, _), Injector.insert_eq_ok_iff.2 ⟨_, e, lines, hnone,
    (h.offsetOfLine_eq hf hsmall.code_lt).2 ⟨m, hm, hline, rfl⟩, he, hlines, hdepth, rfl, hactive,
    rfl⟩⟩

theorem callIndex_add_le (h : Carries f b front body fn) (hm : m < b.length)
    (hs : Stands inj fn front m id ids after) :
    callIndex inj fn front m ids + callLength < (weave front 0 body).length := by
  exact hs.callIndex_add_le_placeIndex.trans_lt (h.placeIndex_lt hm)

/-- The code from the call on. -/
theorem drop_callIndex (h : Carries f b front body fn) (hm : m < b.length)
    (hs : Stands inj fn front m id ids after) : ∃ rest,
    (weave front 0 body).drop (frontIndex front m) =
      ids.flatMap (inj.callFor fn) ++ (inj.callFor fn id ++ rest) ∧
    (weave front 0 body).drop (callIndex inj fn front m ids) = inj.callFor fn id ++ rest := by
  have hm' : m < body.length := by
    rw [← h.resized.length_eq]
    exact hm
  have hdrop := drop_frontIndex_weave front (List.getElem?_eq_getElem hm')
  rw [hs.front_eq, List.append_assoc, List.append_assoc] at hdrop
  refine ⟨_, hdrop, ?_⟩
  rw [callIndex, ← List.drop_drop, hdrop, List.drop_left]

/-- The look-up of a call finds it within the front of its line. -/
theorem locateCall_eq (h : Carries f b front body fn) (hsmall : fn.Small) (hm : m < b.length)
    (hs : Stands inj fn front m id ids after) :
    inj.locateCall fn (weave front 0 body)
      (Block.start (weave front 0 body) (frontIndex front m)) line id =
        .ok (Block.start (weave front 0 body) (callIndex inj fn front m ids)) := by
  obtain ⟨rest, hdrop, -⟩ := h.drop_callIndex hm hs
  have hpooled := hs.pooled id (.inl rfl)
  have hcalls : ids.flatMap (inj.callFor fn) = ids.flatMap fun a : Nat =>
      callBlock (Injector.operandOf fn.names inj.target.module)
        (Injector.operandOf fn.names inj.target.callback)
        (Injector.operandOf fn.constants (.int a)) :=
    List.flatMap_congr fun a ha => Injector.callFor_of_pooled (hs.pooled a (.inr ha))
  have hnumbers : ∀ a, a = id ∨ a ∈ ids →
      fn.constants[(Injector.operandOf fn.constants (.int a)).toNat]? = some (.int a) :=
    fun a ha => Injector.getElem?_operandOf (hs.pooled a ha).number_mem hsmall.constants_lt
  have hfound := @findCall_eq_some (Injector.operandOf fn.names inj.target.module)
    (Injector.operandOf fn.names inj.target.callback) fn.constants
    (Block.start (weave front 0 body) (frontIndex front m)) id
    (fun a => Injector.operandOf fn.constants (.int a)) ids rest hs.others hnumbers
  have hstart : Block.start (weave front 0 body) (callIndex inj fn front m ids) =
      Block.start (weave front 0 body) (frontIndex front m) +
        Block.size (ids.flatMap (inj.callFor fn)) := by
    rw [callIndex, Block.start_add, hdrop, Block.start_append_of_le _ le_rfl, Block.start_length]
  have hlt := h.callIndex_add_le hm hs
  unfold callIndex at hlt
  refine (Injector.locateCall_eq_ok_iff h.valid.solid).2 ⟨frontIndex front m, by omega, rfl,
    hpooled.module_mem, hpooled.callback_mem, ?_⟩
  rw [hdrop, hstart, hcalls, Injector.callFor_of_pooled hpooled, hfound]

/-- What taking the call out makes of the code, and the line table that follows. -/
theorem removal (hf : f.WellFormed b) (h : Carries f b front body fn) (hsmall : fn.Small)
    (hm : m < b.length) (hs : Stands inj fn front m id ids after) {e : Edit}
    (hremove : removeAt fn.code
      (Block.start (weave front 0 body) (callIndex inj fn front m ids)) callLength = .ok e) :
    ∃ out lines g, e.code = Block.encode (instructionsOf out) ∧ e.removed = inj.callFor fn id ∧
      Block.Spliced (weave front 0 body) (callIndex inj fn front m ids) callLength []
        (instructionsOf out) e.shifts ∧
      fn.lines.followed e.shifts = .ok lines ∧ fn.lines.Keeps g ∧ lines = fn.lines.recut g ∧
      ∀ l ≤ (weave front 0 body).length, g (Block.start (weave front 0 body) l) =
        Block.start (instructionsOf out)
          (carryCut (callIndex inj fn front m ids) callLength 0 l) := by
  obtain ⟨k, out, hk, hstart, hstop, -, hrelocate, hrelocated, hcode, hremoved, hspliced⟩ :=
    exists_out_of_removeAt h.decode_eq h.valid hremove
  have hlt := h.callIndex_add_le hm hs
  have hindex : k = callIndex inj fn front m ids :=
    Block.start_inj h.valid.solid hk.le (by omega) hstart
  obtain ⟨rest, -, hdrop⟩ := h.drop_callIndex hm hs
  have hshifts := Block.exists_resizing_of_removal h.valid.encodable hstop hrelocate
  obtain ⟨haligned, hcuts⟩ := h.aligned hf
  -- The cuts lie in front of the fronts, so that none is taken out with the call.
  have hclear : ∀ l ≤ (weave front 0 body).length,
      Block.start (weave front 0 body) l ∈ fn.lines.cuts → l ≤ k ∨ k + callLength < l := by
    intro l hl hcut
    obtain ⟨j, hj, hstartj⟩ := hcuts _ hcut
    rw [← Block.start_inj h.valid.solid (h.frontIndex_le hj) hl hstartj, hindex, callIndex]
    have hkeep : Function.update front m (ids.flatMap (inj.callFor fn) ++ [] ++ after) m =
        ids.flatMap (inj.callFor fn) ++ [] ++ after := Function.update_self ..
    exact (carryCut_frontIndex hs.front_eq hkeep (fun j hj => Function.update_of_ne hj ..) j).1
  have hsize : Block.size (weave front 0 body) < limit32 := by
    rw [h.size_eq]
    exact hsmall.code_lt
  obtain ⟨g, hg⟩ := Block.exists_on_starts h.valid.solid fun l =>
    Block.start (instructionsOf out) (carryCut k callLength 0 l)
  obtain ⟨lines, hlines⟩ := Block.exists_followed_removal h.valid hk hstop haligned hclear hsize
    hrelocated hshifts
  obtain ⟨hrecut, hkeeps⟩ := Block.recut_of_removal h.valid hk hstop haligned hclear hsize
    hrelocated hshifts hlines fun l hl _ => hg l hl
  subst hindex
  refine ⟨out, lines, g, hcode, ?_, hspliced, hlines, hkeeps, hrecut, hg⟩
  rw [hremoved, hdrop]
  exact List.take_left' (inj.length_callFor fn id)

/-- A breakpoint that is cleared takes its call out of the front of its line. -/
theorem remove (hf : f.WellFormed b) (h : Carries f b front body fn) (hsmall : fn.Small)
    (hm : m < b.length) (hline : f.offsetOfLine line = .ok (b.start m))
    (hs : Stands inj fn front m id ids after)
    (hfront' : front' m = ids.flatMap (inj.callFor fn) ++ [] ++ after)
    (hsame : ∀ j, j ≠ m → front' j = front j)
    (hjumps : ∀ j, ∀ i ∈ front' j, i.flow.isJump = false)
    (hok : inj.remove fn line id = .ok (inj', fn')) : ∃ body', Carries f b front' body' fn' := by
  obtain ⟨bp, offset, w, start, e, lines, -, hfnline, hw, hlocate, hremove, -, hlines, -, -,
    hfn'⟩ := Injector.remove_eq_ok_iff.1 hok
  rw [Block.ofCode_eq_ok_iff, h.decode_eq] at hw
  obtain ⟨heq, -⟩ := hw
  cases heq
  rw [(h.offsetOfLine_eq hf hsmall.code_lt).2 ⟨m, hm, hline, rfl⟩] at hfnline
  cases hfnline
  rw [h.locateCall_eq hsmall hm hs] at hlocate
  cases hlocate
  obtain ⟨out, lines', g, hcode, -, hspliced, hlines', hkeeps, hrecut, hg⟩ :=
    h.removal hf hsmall hm hs hremove
  rw [hlines] at hlines'
  cases hlines'
  have hcode' : fn'.code = Block.encode (instructionsOf out) := by rw [hfn']; exact hcode
  have htable : fn'.lines = lines := by rw [hfn']
  obtain ⟨body', -, -, hcarries⟩ := h.of_spliced hm hs.front_eq hfront' hsame hjumps hspliced hcode'
    ⟨g, hkeeps, htable.trans hrecut, fun l hl _ => hg l hl⟩
  exact ⟨body', hcarries⟩

/-- A breakpoint that is set can be cleared. -/
theorem exists_remove (hf : f.WellFormed b) (h : Carries f b front body fn) (hsmall : fn.Small)
    (hm : m < b.length) (hline : f.offsetOfLine line = .ok (b.start m))
    (hs : Stands inj fn front m id ids after) (hjumps : ∀ j, ∀ i ∈ front j, i.flow.isJump = false)
    {bp : Breakpoint} (hbp : inj.registry.get? id = some bp)
    (hsize : (inj.callFor fn id).size = bp.injectedSize) (hdepth : bp.stackGrowth ≤ fn.stackDepth) :
    ∃ p, inj.remove fn line id = .ok p := by
  have hlt := h.callIndex_add_le hm hs
  obtain ⟨rest, -, hdrop⟩ := h.drop_callIndex hm hs
  have hcall : ((weave front 0 body).drop (callIndex inj fn front m ids)).take callLength =
      inj.callFor fn id := by
    rw [hdrop]
    exact List.take_left' (inj.length_callFor fn id)
  have hplace := hs.callIndex_add_le_placeIndex
  have hfront := frontIndex_le_callIndex inj fn front m ids
  -- Every jump leads behind a front.
  have hland : ∀ j l, Block.LeadsTo (weave front 0 body) j l →
      l < frontIndex front m ∨ placeIndex front m ≤ l := by
    intro j l hjl
    obtain ⟨k', m', -, -, rfl⟩ := h.exists_of_leadsTo hf.valid hjumps hjl
    by_cases hlt : m' < m
    · exact .inl (placeIndex_lt_frontIndex hlt)
    · refine .inr ?_
      rcases Nat.eq_or_lt_of_le (Nat.le_of_not_lt hlt) with rfl | hlt
      · exact le_rfl
      · exact Nat.le_trans (placeIndex_lt_frontIndex hlt).le (Nat.le_add_right _ _)
  have hspares : Block.Spares (weave front 0 body) (callIndex inj fn front m ids) callLength := by
    intro j l _ hjl
    have := hland j l hjl
    omega
  have hremoved : Block.size (((weave front 0 body).drop (callIndex inj fn front m ids)).take
      callLength) < limit32 / 2 := by
    rw [hcall]
    exact inj.size_callFor_lt fn id
  obtain ⟨e, he⟩ := exists_removeAt h.decode_eq h.valid (by omega) hlt.le hspares
    (fun hend => by omega) hremoved (by rw [h.size_eq]; exact hsmall.code_lt)
  obtain ⟨out, lines, g, -, hremoved, -, hlines, -⟩ := h.removal hf hsmall hm hs he
  refine ⟨_, Injector.remove_eq_ok_iff.2 ⟨bp, _, weave front 0 body, _, e, lines, hbp,
    (h.offsetOfLine_eq hf hsmall.code_lt).2 ⟨m, hm, hline, rfl⟩,
    Block.ofCode_eq_ok_iff.2 ⟨h.decode_eq, h.valid.steady⟩, h.locateCall_eq hsmall hm hs, he, ?_,
    hlines, hdepth, rfl, rfl⟩⟩
  rw [hremoved, hsize]

end Carries

end Tripwire
