import Tripwire.Proofs.Assembly.Pools
import Tripwire.Proofs.Session.Invariant

/-!
# Which call the look-up finds

Calls are recognized by their shape, and a program may hold calls of that shape of
its own. The look-up starts at the first call in front of an instruction and goes
from one call to the next, so what it passes and what it finds are calls of
breakpoints, whole ones, or calls of the program.

* `Block.Begins`: a block that begins with a call;
* `exists_of_findCall`: the calls that the look-up passes, and the one that it finds;
* `exists_of_begins_place`: a call that begins with an instruction of the program is all of the
  program;
* `Function.Calls`, `Function.Bridged`: the calls of the program itself;
* `Kept.exists_walk`: where the look-up comes by;
* `Kept.exists_of_remove`: the call that is cleared.
-/

namespace Tripwire

/-- The block begins with a call of the given names, the argument being the constant with the given
index. Widths do not matter. -/
def Block.Begins (module callback argument : UInt32) (b : Block) : Prop :=
  ∃ load method loading call drop rest, b = load :: method :: loading :: call :: drop :: rest ∧
    matchCall? module callback load method loading call drop = some argument

section Find

variable {module callback argument : UInt32} {constants : List Constant} {wanted : Constant}
  {offset start : Nat} {b : Block}

theorem matchCall?_eq_some_iff {load method loading call drop : Instruction} :
    matchCall? module callback load method loading call drop = some argument ↔
      (load.opcode = .loadGlobal ∧ load.operand = module ∧ method.opcode = .loadMethod ∧
        method.operand = callback ∧ loading.opcode = .loadConst ∧ call.opcode = .callMethod ∧
        call.operand = 1 ∧ drop.opcode = .popTop) ∧ loading.operand = argument := by
  unfold matchCall?
  by_cases hshape : load.opcode = .loadGlobal ∧ load.operand = module ∧
      method.opcode = .loadMethod ∧ method.operand = callback ∧ loading.opcode = .loadConst ∧
      call.opcode = .callMethod ∧ call.operand = 1 ∧ drop.opcode = .popTop
  · rw [if_pos hshape, Option.some.injEq, and_iff_right hshape]
  · rw [if_neg hshape]
    simp [hshape]

/-- The look-up goes from call to call, and the last one has the argument that is wanted. -/
theorem exists_of_findCall
    (h : findCall module callback constants wanted offset b = .ok (some start)) :
    ∃ n, start = offset + b.start (n * callLength) ∧ ∀ j ≤ n, ∃ argument found,
      constants[argument.toNat]? = some found ∧
        Block.Begins module callback argument (b.drop (j * callLength)) ∧
        (j = n → found = wanted) := by
  induction offset, b using findCall.induct module callback constants wanted with
  | case1 offset load method loading call drop rest hmatch =>
    simp [findCall, hmatch] at h
  | case2 offset load method loading call drop rest index hmatch hnone =>
    simp [findCall, hmatch, hnone] at h
  | case3 offset load method loading call drop rest index hmatch hfound =>
    simp only [findCall, hmatch, hfound, if_true, Except.ok.injEq, Option.some.injEq] at h
    refine ⟨0, by rw [Nat.zero_mul, Block.start_zero, ← h, Nat.add_zero], fun j hj => ?_⟩
    obtain rfl : j = 0 := Nat.le_zero.1 hj
    exact ⟨index, wanted, hfound, ⟨_, _, _, _, _, _, rfl, hmatch⟩, fun _ => rfl⟩
  | case4 offset load method loading call drop rest index hmatch found hfound hne ih =>
    simp only [findCall, hmatch, hfound, if_neg hne] at h
    obtain ⟨n, hstart, hall⟩ := ih h
    have hsplit : load :: method :: loading :: call :: drop :: rest =
        [load, method, loading, call, drop] ++ rest := rfl
    have hlen : [load, method, loading, call, drop].length = callLength := rfl
    have hnext : ∀ j, (j + 1) * callLength =
        [load, method, loading, call, drop].length + j * callLength := by
      intro j
      rw [hlen, Nat.succ_mul, Nat.add_comm]
    refine ⟨n + 1, ?_, fun j hj => ?_⟩
    · rw [hstart, hsplit, hnext, Block.start_append_add, Nat.add_assoc]
    · cases j with
      | zero =>
        refine ⟨index, found, hfound, ⟨_, _, _, _, _, rest, ?_, hmatch⟩, fun hzero => by omega⟩
        rw [Nat.zero_mul, List.drop_zero]
      | succ j =>
        obtain ⟨argument, found', hfound', hbegins, hlast⟩ := hall j (by omega)
        refine ⟨argument, found', hfound', ?_, fun heq => hlast (by omega)⟩
        rwa [hsplit, hnext, List.drop_length_add_append]
  | case5 offset b hshort =>
    rw [findCall] at h
    · cases h
    · exact hshort

theorem begins_callBlock {module' callback' argument' : UInt32} {rest : Block}
    (h : Block.Begins module callback argument (callBlock module' callback' argument' ++ rest)) :
    argument = argument' := by
  obtain ⟨load, method, loading, call, drop, rest', heq, hmatch⟩ := h
  simp only [callBlock, List.cons_append, List.nil_append, List.cons.injEq] at heq
  obtain ⟨-, -, rfl, -, -, -⟩ := heq
  exact (matchCall?_eq_some_iff.1 hmatch).2.symm

end Find

/-! ### Calls of the program itself -/

section Place

variable {front : Nat → Block} {m : Nat} {i : Instruction} {c rest : Block}
  {module callback argument : UInt32}

/-- Behind an instruction that does not begin a call there is no call. -/
theorem exists_of_weave_eq_cons (hheads : ∀ j i rest, front j = i :: rest → i.opcode = .loadGlobal)
    (h : weave front m c = i :: rest) (hi : i.opcode ≠ .loadGlobal) :
    ∃ c', c = i :: c' ∧ front m = [] ∧ rest = weave front (m + 1) c' := by
  cases c with
  | nil => cases h
  | cons i' c =>
    rw [weave_cons] at h
    cases hfront : front m with
    | nil =>
      rw [hfront, List.nil_append] at h
      cases h
      exact ⟨c, rfl, rfl, rfl⟩
    | cons head tail =>
      rw [hfront] at h
      cases h
      exact absurd (hheads m i tail hfront) hi

/-- A call that begins with an instruction of the program is a call of the program: nothing stands
in between. -/
theorem exists_of_begins_place
    (hheads : ∀ j i rest, front j = i :: rest → i.opcode = .loadGlobal)
    (h : Block.Begins module callback argument (i :: weave front (m + 1) c)) :
    Block.Begins module callback argument (i :: c) ∧
      (i :: weave front (m + 1) c).take callLength = (i :: c).take callLength ∧
      frontIndex front (m + callLength) = placeIndex front m + callLength := by
  obtain ⟨load, method, loading, call, drop, rest, heq, hmatch⟩ := h
  obtain ⟨-, -, hmethod, -, hloading, hcall, -, hdrop⟩ := (matchCall?_eq_some_iff.1 hmatch).1
  obtain ⟨rfl, h₁⟩ := List.cons.inj heq
  obtain ⟨c, rfl, hfront₁, h₂⟩ := exists_of_weave_eq_cons hheads h₁ (by simp [hmethod])
  obtain ⟨c, rfl, hfront₂, h₃⟩ := exists_of_weave_eq_cons hheads h₂.symm (by simp [hloading])
  obtain ⟨c, rfl, hfront₃, h₄⟩ := exists_of_weave_eq_cons hheads h₃.symm (by simp [hcall])
  obtain ⟨c, rfl, hfront₄, -⟩ := exists_of_weave_eq_cons hheads h₄.symm (by simp [hdrop])
  refine ⟨⟨_, _, _, _, _, _, rfl, hmatch⟩, by rw [h₁]; rfl, ?_⟩
  show frontIndex front (m + 1 + 1 + 1 + 1 + 1) = _
  simp only [frontIndex_succ, placeIndex, hfront₁, hfront₂, hfront₃, hfront₄, List.length_nil,
    callLength]

/-- None of the instructions of a call jumps, so that resizing jumps keeps them. -/
theorem begins_of_resized {b body : Block} (hresized : List.Forall₂ Instruction.Resized b body)
    (h : body.Begins module callback argument) :
    b.Begins module callback argument ∧ body.take callLength = b.take callLength := by
  obtain ⟨load, method, loading, call, drop, rest, rfl, hmatch⟩ := h
  obtain ⟨hload, -, hmethod, -, hloading, hcall, -, hdrop⟩ := (matchCall?_eq_some_iff.1 hmatch).1
  have hplain : ∀ {i i' : Instruction}, i.Resized i' → i'.opcode.flow.isJump = false → i = i' :=
    fun hi hjump => hi.symm.eq_of_not_isJump hjump
  rcases hresized with _ | ⟨h₁, _ | ⟨h₂, _ | ⟨h₃, _ | ⟨h₄, _ | ⟨h₅, -⟩⟩⟩⟩⟩
  obtain rfl := hplain h₁ (by rw [hload]; rfl)
  obtain rfl := hplain h₂ (by rw [hmethod]; rfl)
  obtain rfl := hplain h₃ (by rw [hloading]; rfl)
  obtain rfl := hplain h₄ (by rw [hcall]; rfl)
  obtain rfl := hplain h₅ (by rw [hdrop]; rfl)
  exact ⟨⟨_, _, _, _, _, _, rfl, hmatch⟩, rfl⟩

end Place

/-- The block begins with a call of the callback, as the pools of the function have it, with the
argument `value`. -/
def Function.Calls (f : Function) (target : CallTarget) (value : Constant) (b : Block) : Prop :=
  ∃ module callback argument : UInt32, f.names[module.toNat]? = some target.module ∧
    f.names[callback.toNat]? = some target.callback ∧
    f.constants[argument.toNat]? = some value ∧ b.Begins module callback argument

/-- From the instruction of number `m` up to that of number `m'` the program does nothing but call
the callback. -/
inductive Function.Bridged (f : Function) (target : CallTarget) (b : Block) (m : Nat) : Nat → Prop
  | refl : f.Bridged target b m m
  | call {m' : Nat} {value : Constant} : f.Bridged target b m m' →
      f.Calls target value (b.drop m') → f.Bridged target b m (m' + callLength)

theorem Function.Bridged.le {f : Function} {target : CallTarget} {b : Block} {m m' : Nat}
    (h : f.Bridged target b m m') : m ≤ m' := by
  induction h with
  | refl => exact le_rfl
  | call _ _ ih => exact ih.trans (Nat.le_add_right _ _)

section FlatMap

variable {call : Nat → Block} {ks : List Mark} {r : Nat}

theorem length_flatMap_call (hcall : ∀ id, (call id).length = callLength) (ks : List Mark) :
    (ks.flatMap fun k => call k.id).length = ks.length * callLength := by
  induction ks with
  | nil => simp
  | cons k ks ih =>
    rw [List.flatMap_cons, List.length_append, ih, hcall, List.length_cons, Nat.succ_mul,
      Nat.add_comm]

/-- Behind some of the calls stand the others. -/
theorem drop_flatMap_call (hcall : ∀ id, (call id).length = callLength) (ks : List Mark) (r : Nat) :
    (ks.flatMap fun k => call k.id).drop (r * callLength) =
      (ks.drop r).flatMap fun k => call k.id := by
  induction r generalizing ks with
  | zero => simp
  | succ r ih =>
    cases ks with
    | nil => simp
    | cons k ks =>
      rw [List.flatMap_cons, Nat.succ_mul, Nat.add_comm, ← List.drop_drop, List.drop_left' (hcall _),
        ih, List.drop_succ_cons]

theorem Session.length_front (s : Session) (f : Function) (b : Block) (m : Nat) :
    (s.front f b m).length = (marksAt f b s.marks m).length * callLength :=
  length_flatMap_call (fun _ => rfl) _

end FlatMap

namespace Kept

variable {target : CallTarget} {f fn' : Function} {b body : Block} {s : Session} {inj' : Injector}
  {line id m r : Nat} {k : Mark} {i : Instruction} {found : Constant} {argument : UInt32}

/-- The code from one of the calls in a front on, or from the instruction behind them. -/
theorem drop_front (f : Function) (b : Block) (s : Session) (hi : body[m]? = some i)
    (hr : r ≤ (marksAt f b s.marks m).length) :
    (weave (s.front f b) 0 body).drop (frontIndex (s.front f b) m + r * callLength) =
      ((marksAt f b s.marks m).drop r).flatMap (fun k => s.call k.id) ++
        i :: weave (s.front f b) (m + 1) (body.drop (m + 1)) := by
  have hdrop : (s.front f b m).drop (r * callLength) =
      ((marksAt f b s.marks m).drop r).flatMap fun k => s.call k.id :=
    drop_flatMap_call (fun _ => rfl) _ r
  rw [← List.drop_drop, drop_frontIndex_weave _ hi, List.drop_append_of_le_length, hdrop]
  rw [s.length_front]
  exact Nat.mul_le_mul_right _ hr

/-- Every front begins with the instruction with which calls begin. -/
theorem opcode_of_front_eq_cons {j : Nat} {rest : Block} (h : s.front f b j = i :: rest) :
    i.opcode = .loadGlobal := by
  unfold Session.front frontOf at h
  cases hmarks : marksAt f b s.marks j with
  | nil =>
    rw [hmarks] at h
    cases h
  | cons k ks =>
    rw [hmarks] at h
    cases h
    rfl

/-- The operands of the program referred to entries of its pools when they did not hold those of the
calls yet. -/
theorem calls_of_begins (h : Kept target f b s) (hbacked : f.Backed b)
    (hmodule : target.module ∈ s.function.names) (hcallback : target.callback ∈ s.function.names)
    (hfound : s.function.constants[argument.toNat]? = some found)
    (hbegins : Block.Begins (Injector.operandOf s.function.names target.module)
      (Injector.operandOf s.function.names target.callback) argument (b.drop m)) :
    f.Calls target found (b.drop m) := by
  obtain ⟨load, method, loading, call, drop, rest, heq, hmatch⟩ := id hbegins
  obtain ⟨⟨hload, hmoduleOp, hmethod, hcallbackOp, hloading, -⟩, hargument⟩ :=
    matchCall?_eq_some_iff.1 hmatch
  have hmem : ∀ i ∈ [load, method, loading], i ∈ b := by
    intro i hi
    apply List.mem_of_mem_drop (i := m)
    rw [heq]
    simp only [List.mem_cons, List.not_mem_nil, or_false] at hi ⊢
    tauto
  have hname : ∀ (i : Instruction) (name : String), i ∈ b → i.opcode.operandKind = .name →
      name ∈ s.function.names → i.operand = Injector.operandOf s.function.names name →
        f.names[(Injector.operandOf s.function.names name).toNat]? = some name := by
    intro i name hi hkind hname hoperand
    have hlt := (hbacked i hi).2 hkind
    obtain ⟨added, hnames⟩ := h.names
    have hget := Injector.getElem?_operandOf hname h.small.names_lt
    rwa [← hoperand, ← hnames, List.getElem?_append_left hlt, hoperand] at hget
  refine ⟨_, _, argument, hname load _ (hmem _ (by simp)) (by rw [hload]; rfl) hmodule hmoduleOp,
    hname method _ (hmem _ (by simp)) (by rw [hmethod]; rfl) hcallback hcallbackOp, ?_, hbegins⟩
  have hlt := (hbacked loading (hmem _ (by simp))).1 (by rw [hloading]; rfl)
  obtain ⟨added, hconstants⟩ := h.constants
  rwa [← hargument, ← hconstants, List.getElem?_append_left hlt, hargument] at hfound

/-- A call of a breakpoint is recognized by its number. -/
theorem id_eq_of_begins (h : Kept target f b s) (hk : k ∈ s.marks) {module callback : UInt32}
    {rest : Block} (hnumber : s.function.constants[argument.toNat]? = some (.int id))
    (hbegins : Block.Begins module callback argument (s.call k.id ++ rest)) : k.id = id := by
  have hpooled := h.pooled k hk
  rw [← h.target_eq] at hpooled
  rw [Session.call, Injector.callFor_of_pooled hpooled] at hbegins
  rw [begins_callBlock hbegins,
    Injector.getElem?_operandOf hpooled.number_mem h.small.constants_lt] at hnumber
  simpa using hnumber

/-- The look-up that starts at a front and goes from call to call comes by calls in fronts and by
calls of the program. -/
theorem exists_walk (h : Kept target f b s) (hbacked : f.Backed b)
    (hcarries : Carries f b (s.front f b) body s.function) (hmodule : target.module ∈ s.function.names)
    (hcallback : target.callback ∈ s.function.names) {m₀ n : Nat} (hm₀ : m₀ < b.length)
    (hall : ∀ j ≤ n, ∃ (argument : UInt32) (found : Constant),
      s.function.constants[argument.toNat]? = some found ∧
        Block.Begins (Injector.operandOf s.function.names target.module)
          (Injector.operandOf s.function.names target.callback) argument
          ((weave (s.front f b) 0 body).drop (frontIndex (s.front f b) m₀ + j * callLength))) :
    ∃ m r, f.Bridged target b m₀ m ∧ m < b.length ∧ r ≤ (marksAt f b s.marks m).length ∧
      frontIndex (s.front f b) m₀ + n * callLength = frontIndex (s.front f b) m + r * callLength := by
  induction n with
  | zero => exact ⟨m₀, 0, .refl, hm₀, Nat.zero_le _, rfl⟩
  | succ n ih =>
    obtain ⟨m, r, hbridged, hm, hr, hplace⟩ := ih fun j hj => hall j (hj.trans (Nat.le_succ n))
    rcases hr.lt_or_eq with hr | rfl
    · refine ⟨m, r + 1, hbridged, hm, hr, ?_⟩
      rw [Nat.succ_mul, Nat.succ_mul, ← Nat.add_assoc, hplace, Nat.add_assoc]
    · -- Behind the calls of a front the look-up comes to an instruction of the program.
      have hbody : m < body.length := by
        rw [← hcarries.resized.length_eq]
        exact hm
      have hi := List.getElem?_eq_getElem hbody
      obtain ⟨argument, found, hfound, hbegins⟩ := hall n (Nat.le_succ n)
      rw [hplace, drop_front f b s hi le_rfl, List.drop_length, List.flatMap_nil,
        List.nil_append] at hbegins
      obtain ⟨hown, -, hnext⟩ :=
        exists_of_begins_place (fun j i rest => opcode_of_front_eq_cons) hbegins
      rw [← List.drop_eq_getElem_cons hbody] at hown
      have hcalls := h.calls_of_begins hbacked hmodule hcallback hfound
        (begins_of_resized (List.forall₂_drop m hcarries.resized) hown).1
      have hplace' : frontIndex (s.front f b) m₀ + (n + 1) * callLength =
          frontIndex (s.front f b) (m + callLength) := by
        rw [hnext, placeIndex, s.length_front, ← hplace, Nat.succ_mul, Nat.add_assoc]
      refine ⟨m + callLength, 0, .call hbridged hcalls, ?_, Nat.zero_le _, ?_⟩
      · -- The code does not end here, since another call begins.
        obtain ⟨-, -, -, load, method, loading, call, drop, rest, heq, -⟩ := hall (n + 1) le_rfl
        rw [hplace'] at heq
        by_contra hend
        have hle : (weave (s.front f b) 0 body).length ≤
            frontIndex (s.front f b) (m + callLength) := by
          rw [length_weave, ← hcarries.resized.length_eq]
          exact frontIndex_le_frontIndex (Nat.le_of_not_lt hend)
        rw [List.drop_eq_nil_of_le hle] at heq
        cases heq
      · rw [hplace', Nat.zero_mul, Nat.add_zero]

/-- What is taken out of the code when a breakpoint is cleared: a call with its number, in a front
or of the program, to which the line leads. -/
theorem exists_of_remove (hf : f.WellFormed b) (h : Kept target f b s) (hbacked : f.Backed b)
    (hcarries : Carries f b (s.front f b) body s.function)
    (hok : s.injector.remove s.function line id = .ok (inj', fn')) :
    ∃ m₀ m r e, m₀ < b.length ∧ f.offsetOfLine line = .ok (b.start m₀) ∧
      f.Bridged target b m₀ m ∧ m < b.length ∧
      s.injector.locateCall s.function (weave (s.front f b) 0 body)
        (Block.start (weave (s.front f b) 0 body) (frontIndex (s.front f b) m₀)) line id =
          .ok (Block.start (weave (s.front f b) 0 body)
            (frontIndex (s.front f b) m + r * callLength)) ∧
      removeAt s.function.code (Block.start (weave (s.front f b) 0 body)
        (frontIndex (s.front f b) m + r * callLength)) callLength = .ok e ∧ fn'.code = e.code ∧
      ((∃ k, (marksAt f b s.marks m)[r]? = some k ∧ k.id = id) ∨
        r = (marksAt f b s.marks m).length ∧ f.Calls target (.int id) (b.drop m) ∧
          ((weave (s.front f b) 0 body).drop (frontIndex (s.front f b) m + r * callLength)).take
            callLength = (b.drop m).take callLength) := by
  obtain ⟨bp, offset, w, start, e, lines, -, hline, hw, hlocate, hremove, -, -, -, -, rfl⟩ :=
    Injector.remove_eq_ok_iff.1 hok
  rw [Block.ofCode_eq_ok_iff, hcarries.decode_eq] at hw
  obtain ⟨heq, -⟩ := hw
  cases heq
  obtain ⟨m₀, hm₀, hfline, rfl⟩ := (hcarries.offsetOfLine_eq hf h.small.code_lt).1 hline
  obtain ⟨k₀, hk₀, hstart, hmodule, hcallback, hfound⟩ :=
    (Injector.locateCall_eq_ok_iff hcarries.valid.solid).1 hlocate
  obtain rfl : k₀ = frontIndex (s.front f b) m₀ :=
    Block.start_inj hcarries.valid.solid hk₀.le (hcarries.frontIndex_le hm₀.le) hstart
  rw [h.target_eq] at hmodule hcallback hfound
  obtain ⟨n, hstart', hall⟩ := exists_of_findCall hfound
  rw [← Block.start_add] at hstart'
  have hwalk : ∀ j ≤ n, ∃ (argument : UInt32) (found : Constant),
      s.function.constants[argument.toNat]? = some found ∧
        Block.Begins (Injector.operandOf s.function.names target.module)
          (Injector.operandOf s.function.names target.callback) argument
          ((weave (s.front f b) 0 body).drop (frontIndex (s.front f b) m₀ + j * callLength)) := by
    intro j hj
    obtain ⟨argument, found, hfound, hbegins, -⟩ := hall j hj
    rw [List.drop_drop] at hbegins
    exact ⟨argument, found, hfound, hbegins⟩
  obtain ⟨m, r, hbridged, hm, hr, hplace⟩ :=
    h.exists_walk hbacked hcarries hmodule hcallback hm₀ hwalk
  rw [hplace] at hstart'
  subst hstart'
  refine ⟨m₀, m, r, e, hm₀, hfline, hbridged, hm, hlocate, hremove, rfl, ?_⟩
  obtain ⟨argument, found, hnumber, hbegins, hwanted⟩ := hall n le_rfl
  obtain rfl := hwanted rfl
  have hbody : m < body.length := by
    rw [← hcarries.resized.length_eq]
    exact hm
  have hdrop := drop_front f b s (List.getElem?_eq_getElem hbody) hr
  rw [List.drop_drop, hplace, hdrop] at hbegins
  rcases hr.lt_or_eq with hr | rfl
  · refine .inl ⟨_, List.getElem?_eq_getElem hr, ?_⟩
    rw [List.drop_eq_getElem_cons hr, List.flatMap_cons, List.append_assoc] at hbegins
    exact h.id_eq_of_begins (List.mem_of_mem_filter (List.getElem_mem hr)) hnumber hbegins
  · rw [List.drop_length, List.flatMap_nil, List.nil_append] at hbegins hdrop
    obtain ⟨hown, htake, -⟩ :=
      exists_of_begins_place (fun j i rest => opcode_of_front_eq_cons) hbegins
    rw [← hdrop, ← List.drop_eq_getElem_cons hbody] at htake
    rw [← List.drop_eq_getElem_cons hbody] at hown
    obtain ⟨horiginal, hsame⟩ := begins_of_resized (List.forall₂_drop m hcarries.resized) hown
    exact .inr ⟨rfl, h.calls_of_begins hbacked hmodule hcallback hnumber horiginal,
      htake.trans hsame⟩

end Kept

end Tripwire
