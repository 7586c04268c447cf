import Tripwire.LineTable.Compact
import Tripwire.Proofs.LineTable.Recode

/-!
# Line tables in their stored form

A stored table recodes the one that it was written from: a large step goes to empty
runs in front, and a long run is cut into runs of at most 254 bytes. So reading it
back loses nothing that a look-up could find. A pair is written as it was read
unless it covers 255 bytes, one more than pairs are written with.

* `LineTable.recoded_runPairs`: the runs of the pairs that a run is written as;
* `LineTable.runPairs_runOfPair`: how the run of a pair is written;
* `LineTable.ofBytes_toBytes_spec`: what is written is read back;
* `LineTable.toBytes_ofBytes_spec`: what is read is written back.
-/

namespace Tripwire.LineTable

/-! ### Signed bytes -/

section Signed

variable {n : Int}

theorem toNat_signedByte (n : Int) : (signedByte n).toNat = (n.emod 256).toNat := by
  have hnonneg := Int.emod_nonneg n (show (256 : Int) ≠ 0 by decide)
  have hlt := Int.emod_lt_of_pos n (show (0 : Int) < 256 by decide)
  rw [signedByte, UInt8.toNat_ofNat']
  show (n % 256).toNat % 2 ^ 8 = (n % 256).toNat
  omega

theorem signedValue_signedByte (hlow : -128 ≤ n) (hhigh : n ≤ 127) :
    signedValue (signedByte n) = n := by
  have hbyte := toNat_signedByte n
  change _ = (n % 256).toNat at hbyte
  rw [signedValue, hbyte]
  split <;> omega

theorem signedByte_signedValue (b : UInt8) : signedByte (signedValue b) = b := by
  have hlt := b.toNat_lt
  apply UInt8.toNat_inj.1
  rw [toNat_signedByte]
  change (signedValue b % 256).toNat = _
  rw [signedValue]
  split <;> omega

theorem signedByte_ne_noLine (hlow : -127 ≤ n) (hhigh : n ≤ 127) : signedByte n ≠ noLine := by
  intro h
  have hvalue := signedValue_signedByte (show -128 ≤ n by omega) hhigh
  have hnoLine : signedValue noLine = -128 := by decide
  rw [h, hnoLine] at hvalue
  omega

theorem signedValue_bounds {b : UInt8} (h : b ≠ noLine) :
    -127 ≤ signedValue b ∧ signedValue b ≤ 127 := by
  have hlt := b.toNat_lt
  have hne : b.toNat ≠ 128 := fun h' => h (UInt8.toNat_inj.1 h')
  rw [signedValue]
  split <;> omega

end Signed

/-! ### The pairs of a run -/

theorem runOfPair_noLine (size : UInt8) : runOfPair (size, noLine) = ⟨size.toNat, none⟩ := by
  rw [runOfPair, if_pos rfl]

theorem runOfPair_signedByte {step : Int} (hlow : -127 ≤ step) (hhigh : step ≤ 127)
    (size : UInt8) : runOfPair (size, signedByte step) = ⟨size.toNat, some step⟩ := by
  rw [runOfPair, if_neg (signedByte_ne_noLine hlow hhigh),
    signedValue_signedByte (by omega) hhigh]

/-- The sizes of the parts that follow the first one of a run. -/
def continuationSizes (size : Nat) : List Nat :=
  List.replicate (size / longestRun) longestRun ++
    if size % longestRun = 0 then [] else [size % longestRun]

theorem sum_continuationSizes (size : Nat) : (continuationSizes size).sum = size := by
  have hdivide := Nat.div_add_mod size longestRun
  rw [Nat.mul_comm] at hdivide
  rw [continuationSizes, List.sum_append, List.sum_replicate, smul_eq_mul]
  split
  · simp only [List.sum_nil]
    omega
  · simp only [List.sum_singleton]
    omega

theorem le_of_mem_continuationSizes {size part : Nat} (h : part ∈ continuationSizes size) :
    part ≤ longestRun := by
  have hmod := Nat.mod_lt size (show 0 < longestRun by decide)
  rcases List.mem_append.1 h with h | h
  · exact (List.eq_of_mem_replicate h).le
  · split at h
    · cases h
    · rw [List.mem_singleton.1 h]
      exact hmod.le

theorem continuationPairs_eq (marker : UInt8) (size : Nat) :
    continuationPairs marker size =
      (continuationSizes size).map fun part => (UInt8.ofNat part, marker) := by
  rw [continuationPairs, continuationSizes, List.map_append, List.map_replicate]
  split
  · simp
  · simp

theorem toNat_ofNat_of_le {size : Nat} (h : size ≤ longestRun) :
    (UInt8.ofNat size).toNat = size := by
  simp only [longestRun] at h
  rw [UInt8.toNat_ofNat']
  omega

theorem map_runOfPair_continuationPairs {marker : UInt8} {step : Option Int}
    (h : ∀ size, runOfPair (size, marker) = ⟨size.toNat, step⟩) (size : Nat) :
    (continuationPairs marker size).map runOfPair =
      (continuationSizes size).map fun part => ⟨part, step⟩ := by
  rw [continuationPairs_eq, List.map_map]
  refine List.map_congr_left fun part hpart => ?_
  rw [Function.comp_apply, h, toNat_ofNat_of_le (le_of_mem_continuationSizes hpart)]

/-- The runs of the pairs that carry a step and the bytes of a run cut the run. -/
theorem recoded_continuationPairs {first marker : UInt8} {size : Nat} {step : Option Int}
    (hfirst : runOfPair (UInt8.ofNat (min size longestRun), first) =
      ⟨min size longestRun, step⟩)
    (h : ∀ size, runOfPair (size, marker) = ⟨size.toNat, step.map fun _ => 0⟩) :
    Recoded [⟨size, step⟩] (((UInt8.ofNat (min size longestRun), first) ::
      continuationPairs marker (size - min size longestRun)).map runOfPair) := by
  have hcuts := recoded_cuts step (min size longestRun)
    (continuationSizes (size - min size longestRun))
  rw [sum_continuationSizes, Nat.add_sub_cancel' (Nat.min_le_left ..)] at hcuts
  rw [List.map_cons, hfirst, map_runOfPair_continuationPairs h]
  exact hcuts

/-! ### The pairs of a step -/

/-- The number of pairs in front that a step takes. -/
def paces (step : Int) : Nat := (step.natAbs - 1) / largestStep

/-- The part of a step that each of its pairs makes. -/
def pace (step : Int) : Int := if step < 0 then -largestStep else largestStep

theorem pace_bounds (step : Int) : -127 ≤ pace step ∧ pace step ≤ 127 := by
  simp only [pace, largestStep]
  split <;> omega

theorem stepPairs_eq (step : Int) :
    stepPairs step = List.replicate (paces step) (0, signedByte (pace step)) := by
  rw [stepPairs, paces, pace]
  split <;> rfl

theorem paces_mul_pace_add_lastStep (step : Int) :
    (paces step : Int) * pace step + lastStep step = step := by
  rw [paces, pace, lastStep]
  split
  · push_cast
    ring
  · push_cast
    ring

theorem lastStep_bounds (step : Int) : -127 ≤ lastStep step ∧ lastStep step ≤ 127 := by
  have hdivide := Nat.div_add_mod (step.natAbs - 1) largestStep
  have hmod := Nat.mod_lt (step.natAbs - 1) (show 0 < largestStep by decide)
  simp only [lastStep, largestStep] at hdivide hmod ⊢
  split <;> omega

theorem map_runOfPair_stepPairs (step : Int) :
    (stepPairs step).map runOfPair = List.replicate (paces step) ⟨0, some (pace step)⟩ := by
  have hpace := pace_bounds step
  rw [stepPairs_eq, List.map_replicate, runOfPair_signedByte hpace.1 hpace.2]
  rfl

/-- The runs of the pairs that a run is written as are the run with its step made in parts and its
bytes divided. -/
theorem recoded_runPairs (run : LineRun) : Recoded [run] ((runPairs run).map runOfPair) := by
  obtain ⟨size, step⟩ := run
  have hfirst : (UInt8.ofNat (min size longestRun)).toNat = min size longestRun :=
    toNat_ofNat_of_le (Nat.min_le_right ..)
  cases step with
  | none =>
    refine recoded_continuationPairs ?_ runOfPair_noLine
    rw [runOfPair_noLine, hfirst]
  | some step =>
    have hlast := lastStep_bounds step
    have hpaces := recoded_paces size (paces step) (pace step) (lastStep step)
    have hzero : ∀ size, runOfPair (size, signedByte 0) = ⟨size.toNat, some 0⟩ :=
      runOfPair_signedByte (by decide) (by decide)
    rw [paces_mul_pace_add_lastStep] at hpaces
    rw [runPairs, List.map_append, map_runOfPair_stepPairs]
    refine hpaces.trans (.append_left _ (recoded_continuationPairs ?_ hzero))
    rw [runOfPair_signedByte hlast.1 hlast.2, hfirst]

theorem recoded_flatMap_runPairs (runs : List LineRun) :
    Recoded runs ((runs.flatMap runPairs).map runOfPair) := by
  induction runs with
  | nil => exact .refl _
  | cons run runs ih =>
    rw [List.flatMap_cons, List.map_append]
    exact (recoded_runPairs run).append ih

/-! ### Writing what was read -/

/-- A pair as it is written again. Pairs are written with at most 254 bytes, so that of 255 bytes
is followed by another one for the last of them. -/
def canonicalPairs (pair : Word) : List Word :=
  if pair.1 = 255 then [(254, pair.2), (1, if pair.2 = noLine then noLine else 0)] else [pair]

theorem continuationPairs_zero (marker : UInt8) : continuationPairs marker 0 = [] := rfl

theorem stepPairs_of_bounds {step : Int} (hlow : -127 ≤ step) (hhigh : step ≤ 127) :
    stepPairs step = [] ∧ lastStep step = step := by
  have hpaces : paces step = 0 := by
    rw [paces]
    exact Nat.div_eq_of_lt (by simp only [largestStep]; omega)
  refine ⟨by rw [stepPairs_eq, hpaces]; rfl, ?_⟩
  have hstep := paces_mul_pace_add_lastStep step
  rw [hpaces] at hstep
  simpa using hstep

/-- The run of a pair is written as that pair or, if it covers 255 bytes, as two. -/
theorem runPairs_runOfPair (pair : Word) : runPairs (runOfPair pair) = canonicalPairs pair := by
  obtain ⟨size, step⟩ := pair
  have hlt := size.toNat_lt
  -- The first pair and the one behind it, for whatever step they carry.
  have hbytes : ∀ marker : UInt8, (UInt8.ofNat (min size.toNat longestRun), step) ::
      continuationPairs marker (size.toNat - min size.toNat longestRun) =
        if size = 255 then [(254, step), (1, marker)] else [(size, step)] := by
    intro marker
    by_cases hfull : size = 255
    · subst hfull
      rfl
    · have hle : size.toNat ≤ longestRun := by
        have hne : size.toNat ≠ 255 := fun h => hfull (UInt8.toNat_inj.1 h)
        simp only [longestRun]
        omega
      rw [Nat.min_eq_left hle, Nat.sub_self, continuationPairs_zero, if_neg hfull,
        UInt8.ofNat_toNat]
  rw [canonicalPairs, runOfPair, runPairs]
  by_cases hline : step = noLine
  · subst hline
    simp only [if_true]
    exact hbytes noLine
  · have hbounds := signedValue_bounds hline
    obtain ⟨hpairs, hlast⟩ := stepPairs_of_bounds hbounds.1 hbounds.2
    simp only [if_neg hline, hpairs, hlast, signedByte_signedValue, List.nil_append]
    exact hbytes 0

theorem flatMap_runPairs_map_runOfPair (pairs : List Word) :
    (pairs.map runOfPair).flatMap runPairs = pairs.flatMap canonicalPairs := by
  rw [List.flatMap_map]
  exact List.flatMap_congr fun pair _ => runPairs_runOfPair pair

theorem length_flatMap_canonicalPairs (pairs : List Word) :
    (pairs.flatMap canonicalPairs).length =
      pairs.length + pairs.countP fun pair => pair.1 = 255 := by
  induction pairs with
  | nil => rfl
  | cons pair pairs ih =>
    rw [List.flatMap_cons, List.length_append, ih, List.length_cons, List.countP_cons,
      canonicalPairs]
    by_cases hfull : pair.1 = 255
    · simp only [hfull, if_true, List.length_cons, List.length_nil, decide_true]
      omega
    · simp only [hfull, if_false, List.length_singleton, decide_false, Bool.false_eq_true]
      omega

/-- Pairs are written as they were read exactly when none of them covers 255 bytes. -/
theorem flatMap_canonicalPairs_eq_self_iff {pairs : List Word} :
    pairs.flatMap canonicalPairs = pairs ↔ ∀ pair ∈ pairs, pair.1 ≠ 255 := by
  constructor
  · intro h
    have hlength := length_flatMap_canonicalPairs pairs
    rw [h] at hlength
    have hcount : pairs.countP (fun pair => pair.1 = 255) = 0 := by omega
    simpa [List.countP_eq_zero] using hcount
  · intro h
    have hsingle : ∀ pair ∈ pairs, canonicalPairs pair = [pair] := fun pair hpair => by
      rw [canonicalPairs, if_neg (h pair hpair)]
    rw [List.flatMap_congr hsingle, List.flatMap_singleton']

theorem ofNat_ne_of_le {size : Nat} (h : size ≤ longestRun) : UInt8.ofNat size ≠ 255 := by
  intro hfull
  have hsize := toNat_ofNat_of_le h
  rw [hfull] at hsize
  simp only [longestRun, UInt8.reduceToNat] at h hsize
  omega

/-- No pair is written with 255 bytes. -/
theorem ne_of_mem_runPairs {run : LineRun} {pair : Word} (h : pair ∈ runPairs run) :
    pair.1 ≠ 255 := by
  have hcontinued : ∀ marker size, pair ∈ continuationPairs marker size → pair.1 ≠ 255 := by
    intro marker size hmem
    rw [continuationPairs_eq] at hmem
    obtain ⟨part, hpart, rfl⟩ := List.mem_map.1 hmem
    exact ofNat_ne_of_le (le_of_mem_continuationSizes hpart)
  have hfirst := ofNat_ne_of_le (Nat.min_le_right run.size longestRun)
  obtain ⟨size, step⟩ := run
  cases step with
  | none =>
    rcases List.mem_cons.1 h with rfl | h
    · exact hfirst
    · exact hcontinued _ _ h
  | some step =>
    rcases List.mem_append.1 h with h | h
    · rw [stepPairs_eq] at h
      rw [List.eq_of_mem_replicate h]
      show (0 : UInt8) ≠ 255
      decide
    · rcases List.mem_cons.1 h with rfl | h
      · exact hfirst
      · exact hcontinued _ _ h

/-! ### The stored form -/

theorem ofBytes_bytesOf (firstLine : Nat) (pairs : List Word) :
    ofBytes firstLine (bytesOf pairs) = .ok ⟨firstLine, pairs.map runOfPair⟩ := by
  have heven : (bytesOf pairs).length % wordSize = 0 := by
    rw [length_bytesOf]
    exact Nat.mul_mod_left _ _
  rw [ofBytes, if_pos heven, wordsOf_bytesOf]

/-- What is written of a table is read back as a table with the same size and the same look-ups,
which is written as the same bytes. -/
theorem ofBytes_toBytes_spec (t : LineTable) : ∃ t', ofBytes t.firstLine t.toBytes = .ok t' ∧
    t'.size = t.size ∧ (∀ offset, t'.lineAt? offset = t.lineAt? offset) ∧
    (∀ line, t'.offsetOfLine line = t.offsetOfLine line) ∧ t'.toBytes = t.toBytes := by
  have hrecoded := recoded_flatMap_runPairs t.runs
  refine ⟨_, ofBytes_bytesOf _ _, hrecoded.size_eq, hrecoded.lineAt?_eq,
    hrecoded.offsetOfLine_eq, ?_⟩
  have hsame : (t.runs.flatMap runPairs).flatMap canonicalPairs = t.runs.flatMap runPairs := by
    refine flatMap_canonicalPairs_eq_self_iff.2 fun pair hpair => ?_
    obtain ⟨run, -, hrun⟩ := List.mem_flatMap.1 hpair
    exact ne_of_mem_runPairs hrun
  rw [toBytes, flatMap_runPairs_map_runOfPair, hsame, toBytes]

theorem getElem?_bytesOf_even (pairs : List Word) (index : Nat) :
    (bytesOf pairs)[2 * index]? = pairs[index]?.map Prod.fst := by
  induction pairs generalizing index with
  | nil => rfl
  | cons pair pairs ih =>
    cases index with
    | zero => rfl
    | succ index => exact ih index

theorem bytesOf_inj {pairs pairs' : List Word} : bytesOf pairs = bytesOf pairs' ↔ pairs = pairs' := by
  refine ⟨fun h => ?_, congrArg bytesOf⟩
  rw [← wordsOf_bytesOf pairs, h, wordsOf_bytesOf]

/-- The bytes in front of each pair are those with an even index. -/
theorem forall_fst_ne_iff {pairs : List Word} {size : UInt8} :
    (∀ pair ∈ pairs, pair.1 ≠ size) ↔ ∀ index, (bytesOf pairs)[2 * index]? ≠ some size := by
  simp only [getElem?_bytesOf_even, ne_eq, Option.map_eq_some_iff, not_exists, not_and]
  constructor
  · intro h index pair hpair
    exact h pair (List.mem_of_getElem? hpair)
  · intro h pair hpair
    obtain ⟨index, hindex⟩ := List.mem_iff_getElem?.1 hpair
    exact h index pair hindex

/-- Pairs that have been read are written back as they were exactly when no byte with an even index
is 255. In any case a pair that covers 255 bytes is written as two: one with the step for 254 of
them, and one for the last byte, without a step or without a line. -/
theorem toBytes_ofBytes_spec (firstLine : Nat) {bytes : List UInt8}
    (even : bytes.length % 2 = 0) : ∃ t, ofBytes firstLine bytes = .ok t ∧
    (t.toBytes = bytes ↔ ∀ index, bytes[2 * index]? ≠ some 255) ∧
    t.toBytes = bytesOf ((wordsOf bytes).flatMap canonicalPairs) := by
  have hbytes := bytesOf_wordsOf bytes even
  have hread := ofBytes_bytesOf firstLine (wordsOf bytes)
  have hwritten : toBytes ⟨firstLine, (wordsOf bytes).map runOfPair⟩ =
      bytesOf ((wordsOf bytes).flatMap canonicalPairs) :=
    congrArg bytesOf (flatMap_runPairs_map_runOfPair _)
  have hsame := @forall_fst_ne_iff (wordsOf bytes) 255
  rw [hbytes] at hread hsame
  refine ⟨_, hread, ?_, hwritten⟩
  rw [← hsame, ← flatMap_canonicalPairs_eq_self_iff, hwritten, ← bytesOf_inj, hbytes]

/-- Bytes with and without a line, 255 of them each. -/
theorem exists_toBytes_ofBytes_full : [0xFF, 0x03, 0xFF, noLine].length % 2 = 0 ∧
    ∃ t, ofBytes 1 [0xFF, 0x03, 0xFF, noLine] = .ok t ∧
      t.toBytes = [0xFE, 0x03, 0x01, 0x00, 0xFE, noLine, 0x01, noLine] := by
  obtain ⟨t, hread, -, hwritten⟩ := toBytes_ofBytes_spec 1
    (show [0xFF, 0x03, 0xFF, noLine].length % 2 = 0 by decide)
  exact ⟨by decide, t, hread, hwritten⟩

end Tripwire.LineTable
