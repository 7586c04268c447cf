import Mathlib.Tactic
import Tripwire.Command.Options

/-!
# Arguments in any order

The arguments come in groups: a flag, a flag with its value, or a path. A value is read
with its flag whatever it looks like. What groups ask for depends on the order within
each kind of group only, as every kind sets fields of its own. A second path is refused
when it is met and other faults are found at the end, but no group hides a fault of
another one that is met before it.

* `Text.nat32?_toDigits`, `Text.colon_notMem_of_nat32?`: numerals and what they are made of;
* `Spells`, `Group`: groups of arguments, with `Group.words`, `Group.kind` and `Group.applyTo`;
* `Options.read_words_append`: one group is read;
* `Options.gather`, `readOptions_flatMap_words`: what is read of a list of groups;
* `Alike`: lists that agree in the order within each kind;
* `readOptions_eq_of_alike`: what is read of them.
-/

namespace Tripwire

/-! ### Numerals -/

namespace Text

variable {cs : List Char} {ds : List Nat} {n : Nat}

theorem digits?_eq_some_iff : digits? cs = some ds ↔
    (∀ c ∈ cs, c.isDigit = true) ∧ cs.map (fun c => c.toNat - '0'.toNat) = ds := by
  induction cs generalizing ds with
  | nil => simp [digits?]
  | cons c cs ih =>
    have hcons : digits? (c :: cs) =
        (digitValue? c).bind fun d => (digits? cs).bind fun ds => some (d :: ds) :=
      List.mapM_cons
    by_cases hc : c.isDigit = true
    · rw [hcons, digitValue?, if_pos hc, Option.bind_some, Option.bind_eq_some_iff]
      constructor
      · rintro ⟨rest, hrest, hds⟩
        obtain ⟨hdigits, rfl⟩ := ih.1 hrest
        exact ⟨List.forall_mem_cons.2 ⟨hc, hdigits⟩, Option.some.inj hds⟩
      · rintro ⟨hdigits, rfl⟩
        exact ⟨_, ih.2 ⟨(List.forall_mem_cons.1 hdigits).2, rfl⟩, rfl⟩
    · simp [hcons, digitValue?, hc]

theorem isDigit_of_digitsBelow? {limit : Nat} (h : digitsBelow? limit cs = some n) :
    ∀ c ∈ cs, c.isDigit = true := by
  unfold digitsBelow? at h
  split at h
  · cases h
  · obtain ⟨hspelled, -⟩ := Option.filter_eq_some_iff.1 h
    obtain ⟨ds, hds, -⟩ := Option.map_eq_some_iff.1 hspelled
    exact (digits?_eq_some_iff.1 hds).1

/-- A number ends in front of a colon. -/
theorem colon_notMem_of_nat32? (h : nat32? cs = some n) : ':' ∉ cs := by
  intro hmem
  have hcolon : ':'.isDigit ≠ true := by decide
  unfold nat32? at h
  split at h
  · rename_i rest
    have hrest : ':' ∈ rest := by simpa using hmem
    exact hcolon (isDigit_of_digitsBelow? h _ hrest)
  · exact hcolon (isDigit_of_digitsBelow? h _ hmem)

/-- The decimal digits of a number are read as that number. -/
theorem nat32?_toDigits (h : n < 0x100000000) : nat32? (Nat.toDigits 10 n) = some n := by
  have hdigit : ∀ c ∈ Nat.toDigits 10 n, c.isDigit = true :=
    fun c hc => Nat.isDigit_of_mem_toDigits (by decide) (by decide) hc
  have hspell : spell 0 ((Nat.toDigits 10 n).map fun c => c.toNat - '0'.toNat) = n := by
    rw [spell, List.foldl_map]
    exact Nat.ofDigitChars_toDigits (by decide) (by decide)
  have hbelow : digitsBelow? 0x100000000 (Nat.toDigits 10 n) = some n := by
    have hsome := digits?_eq_some_iff.2 ⟨hdigit, rfl⟩
    have hread := (spellUpTo_of_lt (hspell.trans_lt h)).trans hspell
    rw [digitsBelow?, hsome, Option.map_some, hread]
    simp [Nat.toDigits_ne_nil, h]
  unfold nat32?
  split
  · rename_i rest hplus
    have hsign := hdigit '+' (by simp [hplus])
    exact absurd hsign (by decide)
  · exact hbelow

end Text

namespace Command

/-! ### Groups -/

/-- A value that gives a line and a number. -/
def Spells (value : String) (x : LineId) : Prop :=
  ∃ line id, value.toList = line ++ ':' :: id ∧
    Text.nat32? line = some x.line ∧ Text.nat32? id = some x.id

/-- All numbers below `2 ^ 32` can be given, by their decimal digits. -/
theorem spells_toString {x : LineId} (hline : x.line < 0x100000000) (hid : x.id < 0x100000000) :
    Spells s!"{x.line}:{x.id}" x :=
  ⟨_, _, by simp [toString], Text.nat32?_toDigits hline, Text.nat32?_toDigits hid⟩

theorem Spells.readLineId_eq {value : String} {x : LineId} (h : Spells value x) (flag : String) :
    readLineId flag value = .ok x := by
  obtain ⟨line, id, hvalue, hline, hid⟩ := h
  have hcolon : ∀ c ∈ line, (c != ':') = true := by
    intro c hc
    rw [bne_iff_ne]
    rintro rfl
    exact Text.colon_notMem_of_nat32? hline hc
  have hfront : value.toList.takeWhile (fun c => c != ':') = line := by
    rw [hvalue, List.takeWhile_append_of_pos hcolon, List.takeWhile_cons_of_neg (by simp),
      List.append_nil]
  have hback : value.toList.dropWhile (fun c => c != ':') = ':' :: id := by
    rw [hvalue, List.dropWhile_append_of_pos hcolon, List.dropWhile_cons_of_neg (by simp)]
  simp only [readLineId, hfront, hback, hline, hid]

/-- Arguments that belong together. -/
inductive Group
  | set (value : String) (x : LineId) (spells : Spells value x)
  | clear (value : String) (x : LineId) (spells : Spells value x)
  | module (name : String)
  | callback (name : String)
  | json
  | console
  | help (long : Bool)
  | path (source : String) (bare : source.toList.head? ≠ some '-')

/-- What a group is for. -/
inductive Kind
  | set
  | clear
  | module
  | callback
  | json
  | console
  | help
  | path
  deriving DecidableEq, Repr

namespace Group

/-- The arguments of a group. -/
def words : Group → List String
  | .set value _ _ => ["--break", value]
  | .clear value _ _ => ["--clear", value]
  | .module name => ["--module", name]
  | .callback name => ["--callback", name]
  | .json => ["--json"]
  | .console => ["--repl"]
  | .help long => [if long then "--help" else "-h"]
  | .path source _ => [source]

/-- Both words for help are of one kind. -/
def kind : Group → Kind
  | .set .. => .set
  | .clear .. => .clear
  | .module _ => .module
  | .callback _ => .callback
  | .json => .json
  | .console => .console
  | .help _ => .help
  | .path .. => .path

/-- The breakpoint that a group sets. -/
def set? : Group → Option LineId
  | .set _ x _ => some x
  | _ => none

/-- The breakpoint that a group clears. -/
def clear? : Group → Option LineId
  | .clear _ x _ => some x
  | _ => none

/-- The module that a group names. -/
def module? : Group → Option String
  | .module name => some name
  | _ => none

/-- The callback that a group names. -/
def callback? : Group → Option String
  | .callback name => some name
  | _ => none

/-- The path that a group is. -/
def path? : Group → Option String
  | .path source _ => some source
  | _ => none

/-- What a group adds. -/
def applyTo (o : Options) : Group → Except UsageFault Options
  | .set _ x _ => .ok { o with breaks := o.breaks ++ [x] }
  | .clear _ x _ => .ok { o with clears := o.clears ++ [x] }
  | .module name => .ok { o with module := some name }
  | .callback name => .ok { o with callback := some name }
  | .json => .ok { o with json := true }
  | .console => .ok { o with console := true }
  | .help _ => .ok { o with help := true }
  | .path source _ => o.withSource source

end Group

namespace Options

theorem read_path (o : Options) {source : String} (hbare : source.toList.head? ≠ some '-')
    (rest : List String) :
    o.read (source :: rest) = (o.withSource source).bind fun o => o.read rest := by
  rw [read, if_neg hbare]
  · cases o.withSource source <;> rfl
  -- A path is none of the flags, as these begin with a dash.
  all_goals
    intros
    subst_vars
    exact hbare rfl

/-- A group is read for itself, whatever its value looks like. -/
theorem read_words_append (o : Options) (g : Group) (rest : List String) :
    o.read (g.words ++ rest) = (g.applyTo o).bind fun o => o.read rest := by
  cases g with
  | set value x spells =>
    simp only [Group.words, List.cons_append, List.nil_append, read, spells.readLineId_eq]
    rfl
  | clear value x spells =>
    simp only [Group.words, List.cons_append, List.nil_append, read, spells.readLineId_eq]
    rfl
  | module name => rfl
  | callback name => rfl
  | json => rfl
  | console => rfl
  | help long => cases long <;> rfl
  | path source bare => exact read_path o bare rest

/-- The paths, the one that is there already included. -/
def sources (o : Options) (gs : List Group) : List String :=
  o.source.toList ++ gs.filterMap Group.path?

/-- What groups ask for beside what is asked for already. -/
def gather (o : Options) (gs : List Group) : Options where
  source := (o.sources gs).head?
  breaks := o.breaks ++ gs.filterMap Group.set?
  clears := o.clears ++ gs.filterMap Group.clear?
  module := (gs.filterMap Group.module?).getLast?.or o.module
  callback := (gs.filterMap Group.callback?).getLast?.or o.callback
  json := o.json || gs.any fun g => g.kind = .json
  console := o.console || gs.any fun g => g.kind = .console
  help := o.help || gs.any fun g => g.kind = .help

variable {o o' : Options} {g : Group} {gs : List Group}

theorem gather_nil : o.gather [] = o := by
  simp [gather, sources]

theorem sources_of_applyTo (h : g.applyTo o = .ok o') : o'.sources gs = o.sources (g :: gs) := by
  cases g with
  | path source bare =>
    cases hsource : o.source with
    | none =>
      simp only [Group.applyTo, withSource, hsource, Except.ok.injEq] at h
      subst h
      simp [sources, hsource, Group.path?]
    | some path => simp [Group.applyTo, withSource, hsource] at h
  | _ =>
    cases h
    rfl

/-- A group adds what it asks for to what is gathered. -/
theorem gather_of_applyTo (h : g.applyTo o = .ok o') : o'.gather gs = o.gather (g :: gs) := by
  have hsources : o'.sources gs = o.sources (g :: gs) := sources_of_applyTo h
  cases g with
  | path source bare =>
    simp only [Group.applyTo, withSource] at h
    split at h
    · cases h
    · cases h
      simp [gather, hsources, List.filterMap_cons, Group.set?, Group.clear?, Group.module?,
        Group.callback?, Group.kind]
  | _ =>
    cases h
    simp [gather, hsources, List.filterMap_cons, List.getLast?_cons, -List.getLast?_filterMap,
      Group.set?, Group.clear?, Group.module?, Group.callback?, Group.kind]

/-- Only a path is refused, when there is another one. -/
theorem eq_multipleSources_of_applyTo {fault : UsageFault} (h : g.applyTo o = .error fault) :
    fault = .multipleSources ∧ 1 < (o.sources (g :: gs)).length := by
  cases g with
  | path source bare =>
    cases hsource : o.source with
    | none => simp [Group.applyTo, withSource, hsource] at h
    | some path =>
      simp only [Group.applyTo, withSource, hsource, Except.error.injEq] at h
      exact ⟨h.symm, by simp [sources, hsource, Group.path?]⟩
  | _ => cases h

/-- Groups are read one after the other until there is a second path. -/
theorem read_flatMap_words (o : Options) (gs : List Group) : o.read (gs.flatMap Group.words) =
    if 1 < (o.sources gs).length then .error .multipleSources else .ok (o.gather gs) := by
  induction gs generalizing o with
  | nil =>
    have hone : ¬ 1 < (o.sources []).length := by cases h : o.source <;> simp [sources, h]
    rw [if_neg hone, gather_nil]
    rfl
  | cons g gs ih =>
    rw [List.flatMap_cons, read_words_append]
    cases happly : g.applyTo o with
    | error fault =>
      have hmultiple : fault = .multipleSources ∧ 1 < (o.sources (g :: gs)).length :=
        eq_multipleSources_of_applyTo happly
      obtain ⟨rfl, hsources⟩ := hmultiple
      rw [if_pos hsources]
      rfl
    | ok o' =>
      rw [← sources_of_applyTo happly, ← gather_of_applyTo happly]
      exact ih o'

theorem eq_of_check_eq_ok (h : o.check = .ok o') : o = o' := by
  unfold check at h
  split_ifs at h
  all_goals exact Except.ok.inj h

end Options

/-- Two paths are refused whatever stands around them, help included. Everything else is left to the
checks at the end. -/
theorem readOptions_flatMap_words (gs : List Group) : readOptions (gs.flatMap Group.words) =
    if 1 < (gs.filterMap Group.path?).length then .error .multipleSources
    else (Options.none.gather gs).check := by
  have hsources : Options.none.sources gs = gs.filterMap Group.path? := rfl
  rw [readOptions, Options.read_flatMap_words, hsources]
  split <;> rfl

/-! ### Order -/

/-- Lists of groups that agree in each kind, the order within the kind included. So one is the other
reordered, without a change to the order of two groups of one kind. -/
def Alike (gs gs' : List Group) : Prop :=
  ∀ kind, (gs.filter fun g => g.kind = kind) = gs'.filter fun g => g.kind = kind

namespace Alike

variable {gs gs' : List Group}

/-- What is taken from groups of one kind does not depend on the others. -/
theorem filterMap_eq {α : Type} {f : Group → Option α} (kind : Kind)
    (hf : ∀ g, (f g).isSome → g.kind = kind) (h : Alike gs gs') :
    gs.filterMap f = gs'.filterMap f := by
  have honly : ∀ gs : List Group,
      (gs.filter fun g => g.kind = kind).filterMap f = gs.filterMap f := by
    intro gs
    rw [List.filterMap_filter]
    refine List.filterMap_congr fun g _ => ?_
    by_cases hkind : g.kind = kind
    · simp [hkind]
    · have hnone : f g = none := by
        rw [← Option.not_isSome_iff_eq_none]
        exact fun hsome => hkind (hf g hsome)
      simp [hkind, hnone]
  rw [← honly gs, h kind, honly gs']

/-- Whether there is a group of some kind does not depend on the others. -/
theorem any_eq (h : Alike gs gs') (kind : Kind) :
    (gs.any fun g => g.kind = kind) = gs'.any fun g => g.kind = kind := by
  have hempty : ∀ gs : List Group,
      (gs.any fun g => g.kind = kind) = !(gs.filter fun g => g.kind = kind).isEmpty := by
    intro gs
    rw [Bool.eq_iff_iff]
    simp [List.any_eq_true]
  rw [hempty gs, h kind, ← hempty gs']

theorem paths_eq (h : Alike gs gs') : gs.filterMap Group.path? = gs'.filterMap Group.path? := by
  refine h.filterMap_eq .path fun g hg => ?_
  cases g <;> first | rfl | cases hg

/-- What is gathered depends on the groups of each kind only. -/
theorem gather_eq (h : Alike gs gs') (o : Options) : o.gather gs = o.gather gs' := by
  have hset : gs.filterMap Group.set? = gs'.filterMap Group.set? := by
    refine h.filterMap_eq .set fun g hg => ?_
    cases g <;> first | rfl | cases hg
  have hclear : gs.filterMap Group.clear? = gs'.filterMap Group.clear? := by
    refine h.filterMap_eq .clear fun g hg => ?_
    cases g <;> first | rfl | cases hg
  have hmodule : gs.filterMap Group.module? = gs'.filterMap Group.module? := by
    refine h.filterMap_eq .module fun g hg => ?_
    cases g <;> first | rfl | cases hg
  have hcallback : gs.filterMap Group.callback? = gs'.filterMap Group.callback? := by
    refine h.filterMap_eq .callback fun g hg => ?_
    cases g <;> first | rfl | cases hg
  simp only [Options.gather, Options.sources, h.paths_eq, hset, hclear, hmodule, hcallback,
    h.any_eq]

end Alike

/-- Arguments mean the same in every order that keeps the order within each kind of group, or are
refused with the same fault. If they are accepted, the breakpoints to set and to clear are those
given, in order, and of several modules or callbacks the last one counts. -/
theorem readOptions_eq_of_alike {gs gs' : List Group} (h : Alike gs gs') :
    readOptions (gs'.flatMap Group.words) = readOptions (gs.flatMap Group.words) ∧
      ∀ o, readOptions (gs.flatMap Group.words) = .ok o →
        o.breaks = gs.filterMap Group.set? ∧ o.clears = gs.filterMap Group.clear? ∧
          o.module = (gs.filterMap Group.module?).getLast? ∧
          o.callback = (gs.filterMap Group.callback?).getLast? := by
  refine ⟨?_, fun o ho => ?_⟩
  · rw [readOptions_flatMap_words, readOptions_flatMap_words, h.paths_eq, h.gather_eq]
  · rw [readOptions_flatMap_words] at ho
    split at ho
    · cases ho
    · obtain rfl := Options.eq_of_check_eq_ok ho
      simp only [Options.gather, Options.none, List.nil_append, Option.or_none, and_self]

/-- Values that look like flags and a numeral with a sign, in two orders. -/
theorem exists_alike_read : ∃ gs gs', Alike gs gs' ∧
    gs.flatMap Group.words = ["demo.lha", "--break", "3:7", "--module", "--json", "--clear", "3:7",
      "--break", "+05:8", "--callback", "-h", "--module", "--repl", "--json"] ∧
    gs'.flatMap Group.words = ["--json", "--module", "--json", "--callback", "-h", "--break", "3:7",
      "--module", "--repl", "--break", "+05:8", "demo.lha", "--clear", "3:7"] ∧
    readOptions (gs'.flatMap Group.words) = readOptions (gs.flatMap Group.words) ∧
    readOptions (gs.flatMap Group.words) =
      .ok ⟨some "demo.lha", [⟨3, 7⟩, ⟨5, 8⟩], [⟨3, 7⟩], some "--repl", some "-h", true, false,
        false⟩ := by
  have h37 : Spells "3:7" ⟨3, 7⟩ := ⟨['3'], ['7'], by decide, by decide, by decide⟩
  have h58 : Spells "+05:8" ⟨5, 8⟩ := ⟨['+', '0', '5'], ['8'], by decide, by decide, by decide⟩
  have hbare : "demo.lha".toList.head? ≠ some '-' := by decide
  have halike : Alike
      [.path "demo.lha" hbare, .set "3:7" _ h37, .module "--json", .clear "3:7" _ h37,
        .set "+05:8" _ h58, .callback "-h", .module "--repl", .json]
      [.json, .module "--json", .callback "-h", .set "3:7" _ h37, .module "--repl",
        .set "+05:8" _ h58, .path "demo.lha" hbare, .clear "3:7" _ h37] := by
    intro kind
    cases kind <;> rfl
  have hread : readOptions ["demo.lha", "--break", "3:7", "--module", "--json", "--clear", "3:7",
      "--break", "+05:8", "--callback", "-h", "--module", "--repl", "--json"] =
      .ok ⟨some "demo.lha", [⟨3, 7⟩, ⟨5, 8⟩], [⟨3, 7⟩], some "--repl", some "-h", true, false,
        false⟩ := by
    decide
  exact ⟨_, _, halike, rfl, rfl, (readOptions_eq_of_alike halike).1, hread⟩

end Command

end Tripwire
