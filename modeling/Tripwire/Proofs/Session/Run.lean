import Tripwire.Proofs.Session.Requests

/-!
# Sessions

A session is one injector, without breakpoints at first, and one function on which
it is called any number of times. Beside the two it remembers which breakpoints
have been set and not cleared, the latest first.

* `Request`: a call on the injector;
* `Mark`: a breakpoint that was set;
* `Session.after`: the session after a request, granted or refused;
* `Reachable`: the sessions on a function;
* `marksAt`: the breakpoints that belong in front of an instruction;
* `frontOf`: their calls.
-/

namespace Tripwire

/-- A call on the injector. -/
inductive Request
  | insert (line id : Nat)
  | remove (line id : Nat)
  deriving DecidableEq, Repr

/-- A breakpoint that was set, with the line that was asked for. -/
structure Mark where
  id : Nat
  line : Nat
  deriving DecidableEq, Repr

/-- One injector and one function, with the breakpoints set and not cleared, the latest first. -/
structure Session where
  injector : Injector
  function : Function
  marks : List Mark
  deriving DecidableEq, Repr

namespace Request

/-- Carries the request out. -/
def run (inj : Injector) (f : Function) : Request → Except Fault (Injector × Function)
  | insert line id => inj.insert f line id
  | remove line id => inj.remove f line id

/-- The breakpoints that are set once the request is granted. -/
def track (marks : List Mark) : Request → List Mark
  | insert line id => ⟨id, line⟩ :: marks
  | remove _ id => marks.filter fun k => k.id ≠ id

end Request

namespace Session

/-- A session before its first request. -/
def start (target : CallTarget) (f : Function) : Session := ⟨.start target, f, []⟩

/-- The session after a request. A refused one changes nothing. -/
def after (s : Session) (r : Request) : Session :=
  match r.run s.injector s.function with
  | .ok (inj, f) => ⟨inj, f, r.track s.marks⟩
  | .error _ => s

theorem after_of_ok {s : Session} {r : Request} {inj : Injector} {f : Function}
    (h : r.run s.injector s.function = .ok (inj, f)) : s.after r = ⟨inj, f, r.track s.marks⟩ := by
  rw [after, h]

theorem after_of_error {s : Session} {r : Request} {fault : Fault}
    (h : r.run s.injector s.function = .error fault) : s.after r = s := by
  rw [after, h]

/-- A request to clear a breakpoint that is set names the line it was set at. -/
def Admits (s : Session) : Request → Prop
  | .insert _ _ => True
  | .remove line id => ∀ k ∈ s.marks, k.id = id → k.line = line

end Session

/-- The sessions on a function, as long as its sizes are 32-bit numbers. -/
inductive Reachable (target : CallTarget) (f : Function) : Session → Prop
  | start : Reachable target f (.start target f)
  | after {s : Session} (r : Request) : Reachable target f s → s.Admits r →
      (s.after r).function.Small → Reachable target f (s.after r)

/-- The session after a request that is granted. -/
theorem Reachable.after_of_ok {target : CallTarget} {f fn' : Function} {s : Session} {r : Request}
    {inj' : Injector} (h : Reachable target f s) (hadmits : s.Admits r) (hsmall : fn'.Small)
    (hok : r.run s.injector s.function = .ok (inj', fn')) :
    Reachable target f ⟨inj', fn', r.track s.marks⟩ := by
  have hafter := Session.after_of_ok hok
  rw [← hafter]
  apply h.after r hadmits
  rw [hafter]
  exact hsmall

/-! ### Fronts of calls -/

/-- The breakpoints whose lines resolve to the instruction of number `m`. -/
def marksAt (f : Function) (b : Block) (marks : List Mark) (m : Nat) : List Mark :=
  marks.filter fun k => (f.offsetOfLine k.line).toOption = some (b.start m)

/-- The calls of the breakpoints whose lines resolve to the instruction of number `m`. -/
def frontOf (f : Function) (b : Block) (call : Nat → Block) (marks : List Mark) (m : Nat) : Block :=
  (marksAt f b marks m).flatMap fun k => call k.id

section Front

variable {f : Function} {b : Block} {call call' : Nat → Block} {marks before after : List Mark}
  {k : Mark} {m j : Nat}

theorem mem_marksAt :
    k ∈ marksAt f b marks m ↔ k ∈ marks ∧ f.offsetOfLine k.line = .ok (b.start m) := by
  unfold marksAt
  rw [List.mem_filter]
  cases f.offsetOfLine k.line <;> simp [Except.toOption]

theorem frontOf_congr (h : ∀ k ∈ marks, call' k.id = call k.id) (m : Nat) :
    frontOf f b call' marks m = frontOf f b call marks m :=
  List.flatMap_congr fun k hk => h k (List.mem_of_mem_filter hk)

theorem frontOf_append (f : Function) (b : Block) (call : Nat → Block) (before after : List Mark)
    (m : Nat) : frontOf f b call (before ++ after) m =
      frontOf f b call before m ++ frontOf f b call after m := by
  rw [frontOf, marksAt, List.filter_append, List.flatMap_append]
  rfl

theorem frontOf_cons_of_resolves (hk : f.offsetOfLine k.line = .ok (b.start m)) :
    frontOf f b call (k :: marks) m = call k.id ++ frontOf f b call marks m := by
  rw [frontOf, marksAt, List.filter_cons_of_pos (by simp [hk, Except.toOption]), List.flatMap_cons]
  rfl

theorem frontOf_cons_of_ne (hb : b.Solid) (hm : m < b.length)
    (hk : f.offsetOfLine k.line = .ok (b.start m)) (hjm : j ≠ m) :
    frontOf f b call (k :: marks) j = frontOf f b call marks j := by
  have hne : b.start m ≠ b.start j := by
    rcases Nat.lt_or_gt_of_ne hjm with hlt | hlt
    · exact (Block.start_lt_start hb hlt (hlt.trans hm)).ne'
    · exact (Block.start_lt_start hb hlt hm).ne
  rw [frontOf, marksAt, List.filter_cons_of_neg (by simp [hk, Except.toOption, hne])]
  rfl

end Front

end Tripwire
