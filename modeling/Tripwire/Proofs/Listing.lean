import Mathlib.Data.List.TakeWhile
import Tripwire.Listing
import Tripwire.Proofs.Block.Slice
import Tripwire.Proofs.LineTable.Tiling
import Tripwire.Proofs.Listing.Lines

/-!
# What listings show

A listing goes through the instructions and the line entries at once, and prints the
marker of an entry when it comes to the first instruction that does not start before the
entry. Entries need not begin at instructions, and several may begin before one is
reached; the marker printed last is that of the entry which covers the instruction.

* `Row.instruction?`, `Row.marker?`: what a row shows;
* `instructions_rowsFrom`: the rows of instructions are those that were read, with their own bytes;
* `flatten_hexColumn?`: the hexadecimal columns, which show those bytes;
* `LineTable.Marks`: rows below markers with their lines, with `marks_rowsFrom`;
* `listing_spec`: the listing of a function, as its text is read.
-/

namespace Tripwire

/-! ### What a row shows -/

/-- The offset, the bytes and the words of an instruction. -/
def Row.instruction? : Row → Option (Nat × List UInt8 × String)
  | .marker _ => none
  | .code offset bytes text => some (offset, bytes, text)

/-- The line that a marker shows. -/
def Row.marker? : Row → Option (Option Nat)
  | .marker line => some line
  | .code .. => none

/-- The bytes of an instruction, and none of a marker. -/
def Row.bytes : Row → List UInt8
  | .marker _ => []
  | .code _ bytes _ => bytes

section Rows

variable {f : Function} {b : Block} {offset : Nat} {bytes : List UInt8}
  {lines passed begun : List LineEntry} {rows : List Row}

/-! ### Instructions -/

/-- The rows of instructions are those of a block in its order, with the bytes at their offsets. -/
theorem instructions_rowsFrom :
    (rowsFrom f offset (f.code.drop offset) lines b).filterMap Row.instruction? =
      (b.zip (b.offsetsFrom offset)).map fun (i, q) =>
        (q, (f.code.drop q).take i.size, describe f i q) := by
  induction b generalizing offset lines with
  | nil => rfl
  | cons i b ih =>
    have hmarkers : ∀ begun : List LineEntry,
        (begun.map fun e => Row.marker e.line).filterMap Row.instruction? = [] := by
      intro begun
      simp [Row.instruction?]
    rw [rowsFrom, List.filterMap_append, hmarkers, List.nil_append, List.drop_drop]
    simp only [List.filterMap_cons, Row.instruction?, ih, Block.offsetsFrom_cons,
      List.zip_cons_cons, List.map_cons]

/-- The bytes at the offset of an instruction that was read are its own. -/
theorem instructions_rowsOf (h : Block.decode f.code = .ok b) :
    (rowsOf f b).filterMap Row.instruction? =
      b.placed.map fun (i, q) => (q, Block.encode [i], describe f i q) := by
  have hrows : (rowsFrom f 0 (f.code.drop 0) f.lines.entries b).filterMap Row.instruction? = _ :=
    instructions_rowsFrom
  rw [rowsOf]
  refine hrows.trans ?_
  refine List.map_congr_left fun p hp => ?_
  obtain ⟨i, q⟩ := p
  obtain ⟨k, hi, rfl⟩ := Block.mem_placed.1 hp
  simp only [Block.take_drop_of_decode h hi]

theorem flatMap_bytes (rows : List Row) :
    rows.flatMap Row.bytes = (rows.filterMap Row.instruction?).flatMap fun row => row.2.1 := by
  induction rows with
  | nil => rfl
  | cons row rows ih =>
    cases row with
    | marker line => exact ih
    | code offset bytes text => simp [Row.bytes, Row.instruction?, ih]

theorem Block.flatMap_encode (b : Block) : (b.flatMap fun i => encode [i]) = encode b := by
  induction b with
  | nil => rfl
  | cons i b ih => rw [List.flatMap_cons, ih, ← encode_append, List.singleton_append]

/-- The bytes of the rows one after the other are the code. -/
theorem flatMap_bytes_rowsOf (h : Block.decode f.code = .ok b) :
    (rowsOf f b).flatMap Row.bytes = f.code := by
  have hfst : b.placed.map Prod.fst = b := List.map_fst_zip (by simp)
  have hencode : (b.placed.flatMap fun p => Block.encode [p.1]) = Block.encode b := by
    rw [← Block.flatMap_encode]
    conv_rhs => rw [← hfst]
    rw [List.flatMap_map]
  rw [flatMap_bytes, instructions_rowsOf h, List.flatMap_map]
  exact hencode.trans (Block.encode_of_decode h)

theorem hexText_append (a b : List UInt8) : hexText (a ++ b) = hexText a ++ hexText b := by
  rw [hexText, List.map_append, String.join_append]
  rfl

/-- The hexadecimal columns one after the other show the bytes of the rows. -/
theorem flatten_hexColumn? (rows : List Row) :
    ((rows.map Row.line).filterMap Row.hexColumn?).flatten =
      (hexText (rows.flatMap Row.bytes)).toList := by
  induction rows with
  | nil => rfl
  | cons row rows ih =>
    rw [List.map_cons, List.flatMap_cons, hexText_append, String.toList_append, ← ih]
    cases row with
    | marker shown =>
      rw [List.filterMap_cons_none (Row.hexColumn?_line_marker shown)]
      rfl
    | code offset bytes words =>
      rw [List.filterMap_cons_some (Row.hexColumn?_line_code offset bytes words)]
      rfl

/-! ### Markers -/

/-- Every instruction among the rows stands below a marker with the line of its offset. In front of
the rows the marker printed last is the one that shows `shown`. -/
def LineTable.Marks (t : LineTable) : Option (Option Nat) → List Row → Prop
  | _, [] => True
  | _, .marker line :: rows => t.Marks (some line) rows
  | shown, .code offset _ _ :: rows => shown = some (t.lineAt? offset) ∧ t.Marks shown rows

namespace LineTable

variable {t : LineTable} {shown : Option (Option Nat)}

theorem marks_append (begun : List LineEntry) :
    t.Marks shown (begun.map (fun e => Row.marker e.line) ++ rows) ↔
      t.Marks ((begun.getLast?.map LineEntry.line).or shown) rows := by
  induction begun generalizing shown with
  | nil => simp
  | cons e begun ih =>
    rw [List.map_cons, List.cons_append, Marks, ih, List.getLast?_cons]
    cases begun.getLast? <;> simp

/-- The marker printed last in front of an instruction shows the line of its offset. -/
theorem Marks.last_eq {before after : List Row} {text : String}
    (h : t.Marks shown (before ++ .code offset bytes text :: after)) :
    ((before.filterMap Row.marker?).getLast?).or shown = some (t.lineAt? offset) := by
  induction before generalizing shown with
  | nil => simpa using h.1
  | cons row before ih =>
    cases row with
    | marker line =>
      have hlast := ih h
      simp only [List.filterMap_cons, Row.marker?, List.getLast?_cons]
      cases hmarkers : (before.filterMap Row.marker?).getLast? <;> simpa [hmarkers] using hlast
    | code offset' bytes' text' => simpa [Row.marker?] using ih h.2

end LineTable

/-- The entries that have been passed are those that had begun at the instruction in front. From
there on every instruction stands below the marker of its line. -/
theorem marks_rowsFrom (hsolid : b.Solid) (hentries : f.lines.entries = passed ++ lines)
    (hpassed : ∀ e ∈ passed, e.start ≤ offset) (hcover : offset + b.size ≤ f.lines.size)
    (hlimit : offset + b.size < limit32) :
    f.lines.Marks (passed.getLast?.map LineEntry.line) (rowsFrom f offset bytes lines b) := by
  induction b generalizing offset bytes lines passed with
  | nil => trivial
  | cons i b ih =>
    have hpos : 0 < i.size := hsolid i (List.mem_cons_self ..)
    rw [Block.size_cons] at hcover hlimit
    have hsplit : f.lines.entries = (passed ++ lines.takeWhile fun e => e.start ≤ offset) ++
        lines.dropWhile fun e => e.start ≤ offset := by
      rw [List.append_assoc, List.takeWhile_append_dropWhile, hentries]
    have hbegun : ∀ e ∈ passed ++ lines.takeWhile fun e => e.start ≤ offset,
        e.start ≤ offset := by
      intro e he
      rcases List.mem_append.1 he with he | he
      · exact hpassed e he
      · simpa using List.mem_takeWhile_imp he
    have hrest : ∀ e ∈ (lines.dropWhile fun e => e.start ≤ offset).head?, offset < e.start := by
      intro e he
      have hnot := List.head?_dropWhile_not (fun e : LineEntry => e.start ≤ offset) lines
      simp only [Option.mem_def] at he
      simpa [he] using hnot
    obtain ⟨e, hlast, hline⟩ :=
      LineTable.exists_last_begun hsplit hbegun hrest (by omega) (by omega)
    have hbehind : ∀ e ∈ passed ++ lines.takeWhile fun e => e.start ≤ offset,
        e.start ≤ offset + i.size :=
      fun e he => (hbegun e he).trans (Nat.le_add_right offset i.size)
    rw [rowsFrom, LineTable.marks_append, ← Option.map_or, ← List.getLast?_append]
    refine ⟨by rw [hlast, Option.map_some, hline], ?_⟩
    exact ih (fun j hj => hsolid j (List.mem_cons_of_mem _ hj)) hsplit hbehind (by omega) (by omega)

end Rows

/-! ### The listing -/

section Listing

variable {f : Function} {b : Block}

/-- A listing is the lines of its heading and the lines of its rows. -/
theorem toList_of_listing (h : Block.decode f.code = .ok b) : ∃ text, listing f = .ok text ∧
    text.toList = (f.heading ++ (rowsOf f b).map Row.line).flatMap (· ++ ['\n']) := by
  refine ⟨_, by rw [listing, h]; rfl, ?_⟩
  have hrows : (String.join ((rowsOf f b).map Row.text)).toList =
      ((rowsOf f b).map Row.line).flatMap (· ++ ['\n']) := by
    rw [String.toList_join, List.flatMap_map, List.flatMap_map]
    exact List.flatMap_congr fun row _ => row.toList_text
  have hheading : (s!"function {f.name} (stack {f.stackDepth}):\n" ++
      poolListing "constants" Constant.text f.constants ++
      poolListing "names" (fun name => name) f.names ++
      s!"code ({f.code.length} bytes):\n").toList = f.heading.flatMap (· ++ ['\n']) := by
    simp [Function.heading, toList_poolListing, toString]
  rw [String.toList_append, hheading, hrows, List.flatMap_append]

/-- In the rows, line feeds come from the names that instructions refer to. -/
theorem newline_notMem_rowsOf (h : Block.decode f.code = .ok b)
    (hnames : ∀ name ∈ f.names, '\n' ∉ name.toList) :
    ∀ line ∈ (rowsOf f b).map Row.line, '\n' ∉ line := by
  intro line hline
  obtain ⟨row, hrow, rfl⟩ := List.mem_map.1 hline
  cases row with
  | marker shown => exact newline_notMem_line_marker shown
  | code offset bytes words =>
    have hinstruction : (offset, bytes, words) ∈ (rowsOf f b).filterMap Row.instruction? :=
      List.mem_filterMap.2 ⟨_, hrow, rfl⟩
    rw [instructions_rowsOf h] at hinstruction
    obtain ⟨⟨i, q⟩, -, hp⟩ := List.mem_map.1 hinstruction
    obtain ⟨-, -, rfl⟩ := hp
    rw [newline_mem_line_code, newline_mem_describe]
    rintro ⟨name, hname, hfeed⟩
    exact hnames name (mem_names_of_name? hname) hfeed

/-- Code that can be read is listed below a heading: one row for each instruction, in order, at its
offset and with its own bytes, which make up the code, and below the marker of the line that its
offset has, wherever the line entries begin. All of this is read off the text, whose lines are those
of the heading and of the rows unless a name has line feeds. -/
theorem listing_spec (h : Block.decode f.code = .ok b) (hcover : f.code.length ≤ f.lines.size)
    (hsize : f.code.length < limit32) :
    ∃ (text : String) (printed : List (List Char)) (rows : List Row), listing f = .ok text ∧
      text.toList = (f.heading ++ printed).flatMap (· ++ ['\n']) ∧
      (Text.linesOf text.toList = f.heading ++ printed ++ [[]] ↔
        ∀ name ∈ f.name :: f.names, '\n' ∉ name.toList) ∧
      printed.map Row.read? = rows.map some ∧
      rows.filterMap Row.instruction? =
        b.placed.map (fun (i, q) => (q, Block.encode [i], describe f i q)) ∧
      (∀ i ∈ b, ∀ q, readWords? (describe f i q).toList =
        some (i.opcode, if i.opcode.operandKind = .none then none else some i.operand.toNat)) ∧
      (printed.filterMap Row.hexColumn?).flatten = (hexText f.code).toList ∧
      rows.flatMap Row.bytes = f.code ∧
      ∀ before after offset bytes words, rows = before ++ .code offset bytes words :: after →
        (before.filterMap Row.marker?).getLast? = some (f.lines.lineAt? offset) := by
  have hsolid : b.Solid := fun i hi => (Block.encodable_of_decode h i hi).size_pos
  have hbytes : b.size = f.code.length := Block.size_of_decode h
  have hnone : ∀ e ∈ ([] : List LineEntry), e.start ≤ 0 := by simp
  have hmarks : f.lines.Marks none (rowsOf f b) :=
    marks_rowsFrom hsolid (List.nil_append _).symm hnone (by omega) (by omega)
  obtain ⟨text, hlisting, htext⟩ := toList_of_listing h
  refine ⟨text, (rowsOf f b).map Row.line, rowsOf f b, hlisting, htext, ?_, ?_,
    instructions_rowsOf h, fun i _ q => readWords?_describe f i q, ?_, flatMap_bytes_rowsOf h, ?_⟩
  · rw [htext, Text.linesOf_flatMap, List.append_left_inj, Text.flatMap_linesOf_eq_self_iff,
      List.forall_mem_append, newline_notMem_heading]
    exact ⟨And.left, fun hclean =>
      ⟨hclean, newline_notMem_rowsOf h fun name hname => hclean name (List.mem_cons_of_mem _ hname)⟩⟩
  · rw [List.map_map]
    exact List.map_congr_left fun row _ => row.read?_line
  · rw [flatten_hexColumn?, flatMap_bytes_rowsOf h]
  · intro before after offset bytes words hrows
    rw [hrows] at hmarks
    simpa using hmarks.last_eq

end Listing

/-- The instructions of a function with a padded one in front. -/
def Block.padded : Block := [⟨.loadConst, 0, 2⟩, .bare .nop, .bare .returnValue]

/-- A function in whose line table entries begin inside instructions, two of them in front of the
second one, and an empty run moves the counter. -/
def Function.straddled : Function where
  name := "f"
  code := Block.encode .padded
  constants := [.int 7]
  names := []
  lines := ⟨1, [⟨3, some 0⟩, ⟨1, none⟩, ⟨0, some 4⟩, ⟨1, some 1⟩, ⟨1, some 1⟩, ⟨2, none⟩]⟩
  stackDepth := 1

/-- The lines of its rows. -/
def Function.straddledLines : List (List Char) :=
  ["      ; line 1", "0000\t7f001000      \tload_const 0 ; 7", "      ; line -", "      ; line 6",
    "0004\t0000          \tnop", "      ; line 7", "      ; line -",
    "0006\t0800          \treturn_value"].map String.toList

/-- Of five markers the first, the third and the last stand right above instructions. -/
theorem listing_straddled : Block.decode Function.straddled.code = .ok .padded ∧
    Function.straddled.code.length ≤ Function.straddled.lines.size ∧
    Function.straddled.code.length < limit32 ∧
    Block.padded.offsets.map Function.straddled.lines.lineAt? = [some 1, some 6, none] ∧
    ∃ (text : String) (rows : List Row), listing .straddled = .ok text ∧
      Text.linesOf text.toList =
        Function.straddled.heading ++ Function.straddledLines ++ [[]] ∧
      Function.straddledLines.map Row.read? = rows.map some ∧
      rows.flatMap Row.bytes = Function.straddled.code := by
  have hdecode : Block.decode Function.straddled.code = .ok .padded :=
    Block.decode_encode (by decide)
  have hcover : Function.straddled.code.length ≤ Function.straddled.lines.size := by decide
  have hsize : Function.straddled.code.length < limit32 := by decide
  obtain ⟨text, printed, rows, hlisting, -, hlines, hread, -, -, -, hbytes, -⟩ :=
    listing_spec hdecode hcover hsize
  have hclean := hlines.2 (by decide)
  have hrows : (rowsOf .straddled .padded).map Row.line = Function.straddledLines := by
    decide +kernel
  have hshown : Text.linesOf text.toList =
      Function.straddled.heading ++ Function.straddledLines ++ [[]] := by
    obtain ⟨text', hlisting', htext⟩ := toList_of_listing hdecode
    obtain rfl : text = text' := Except.ok.inj (hlisting.symm.trans hlisting')
    have hfree : ∀ line ∈ Function.straddled.heading ++ Function.straddledLines, '\n' ∉ line := by
      rw [List.forall_mem_append, newline_notMem_heading, ← hrows]
      exact ⟨by decide, newline_notMem_rowsOf hdecode (by decide)⟩
    rw [htext, hrows, Text.linesOf_flatMap, Text.flatMap_linesOf_eq_self_iff.2 hfree]
  obtain rfl : printed = Function.straddledLines :=
    List.append_cancel_left (List.append_cancel_right (hclean.symm.trans hshown))
  exact ⟨hdecode, hcover, hsize, by decide, text, rows, hlisting, hclean, hread, hbytes⟩

/-- A function that refers to a name which goes on like a marker behind a line feed. -/
def Function.forging : Function where
  name := "f"
  code := Block.encode [⟨.loadGlobal, 0, 1⟩, .bare .returnValue]
  constants := []
  names := ["x\n      ; line 9"]
  lines := ⟨1, [⟨4, some 0⟩]⟩
  stackDepth := 1

/-- Of its rows one is a marker, but two lines read as markers. -/
example : ((rowsOf .forging [⟨.loadGlobal, 0, 1⟩, .bare .returnValue]).flatMap fun row =>
    Text.linesOf row.line).filterMap (fun line => (Row.read? line).bind Row.marker?) =
      [some 1, some 9] := by decide +kernel

end Tripwire
