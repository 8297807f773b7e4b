import Mos6510.Proofs.Hexadecimal
import Mos6510.Proofs.Rows

/-!
# What a listing shows of a region

The lines of a region are read back as a reader of the listing does: an address in four
digits, and a column of bytes in hex, with placeholders where a line of data has no byte
of its row.

* `line_shows`: a line shows the bytes of its row at their address;
* `region_shown`: so the listing shows every byte of a region once, at its place, and
  each label of data in front of the row that it starts.
-/

namespace Mos6510

namespace Listing

/-! ## Reading lines -/

/-- The cells of a column in hex: bytes, and placeholders. -/
def readCells : List Char → Option (List (Option UInt8))
  | [] => some []
  | [c] => if c = ' ' then some [] else none
  | c :: d :: cs =>
    if c = ' ' then readCells (d :: cs)
    else if c = '.' ∧ d = '.' then (readCells cs).map (none :: ·)
    else
      match Text.digitIn? 16 c, Text.digitIn? 16 d with
      | some x, some y => (readCells cs).map (some (UInt8.ofNat (16 * x + y)) :: ·)
      | _, _ => none

/-- Where the column of bytes starts in a line, and how wide it is. -/
def column : RegionKind → Nat × Nat
  | .code => (7, 8)
  | .data => (6, 48)

/-- The address in front of a line. -/
def shownAddress? (line : String) : Option Nat :=
  (Text.readDigits 16 false 0 ((line.toList.drop 1).take 4)).toOption

def shownCells? (kind : RegionKind) (line : String) : Option (List (Option UInt8)) :=
  readCells ((line.toList.drop (column kind).1).take (column kind).2)

def shownBytes (kind : RegionKind) (line : String) : List UInt8 :=
  ((shownCells? kind line).getD []).filterMap id

/-- The address of the first byte of a line: a placeholder in front of it stands for an
address, too. -/
def firstAddress? (kind : RegionKind) (line : String) : Option Nat :=
  (shownAddress? line).map (· + (((shownCells? kind line).getD []).takeWhile Option.isNone).length)

/-! ## Columns -/

theorem readCells_blank (cs : List Char) : readCells (' ' :: cs) = readCells cs := by
  cases cs <;> rfl

theorem readCells_blanks (n : Nat) : readCells (List.replicate n ' ') = some [] := by
  induction n with
  | zero => rfl
  | succ n ih => rw [List.replicate_succ, readCells_blank, ih]

/-- The characters of a cell in a line of data. -/
def cellChars : Option UInt8 → List Char
  | none => ['.', '.', ' ']
  | some b => (hexByte b).toList ++ [' ']

theorem toList_hexByte (b : UInt8) :
    (hexByte b).toList = [Text.upperDigit (b.toNat / 16), Text.upperDigit (b.toNat % 16)] := by
  have hb : b.toNat < 16 ^ 2 := b.toNat_lt
  have hhigh : b.toNat / 16 % 16 = b.toNat / 16 := Nat.mod_eq_of_lt (by omega)
  rw [hexByte, Text.toList_hex (by decide) hb, Text.hexDigits, Text.hexDigits, Text.hexDigits, hhigh]
  rfl

theorem readCells_byte (b : UInt8) (cs : List Char) :
    readCells ((hexByte b).toList ++ cs) = (readCells cs).map (some b :: ·) := by
  have hdigit : ∀ d < 16, Text.upperDigit d ≠ ' ' ∧ Text.upperDigit d ≠ '.' := by decide
  have hlow : b.toNat % 16 < 16 := Nat.mod_lt _ (by decide)
  have hhigh : b.toNat / 16 < 16 := by
    have := b.toNat_lt
    omega
  have hvalue : UInt8.ofNat (16 * (b.toNat / 16) + b.toNat % 16) = b := by
    rw [Nat.div_add_mod, UInt8.ofNat_toNat]
  rw [toList_hexByte, List.cons_append, List.cons_append, List.nil_append, readCells,
    if_neg (hdigit _ hhigh).1, if_neg fun h => (hdigit _ hhigh).2 h.1,
    Text.digitIn?_upperDigit_hex hhigh, Text.digitIn?_upperDigit_hex hlow]
  simp only [hvalue]

/-- A column of cells reads back as the cells. -/
theorem readCells_cells (cells : List (Option UInt8)) :
    readCells (cells.flatMap cellChars) = some cells := by
  induction cells with
  | nil => rfl
  | cons cell cells ih =>
      rw [List.flatMap_cons]
      cases cell with
      | none =>
          show readCells ('.' :: '.' :: ' ' :: cells.flatMap cellChars) = _
          rw [readCells, if_neg (by decide), if_pos ⟨rfl, rfl⟩, readCells_blank, ih]
          rfl
      | some b =>
          rw [cellChars, List.append_assoc, readCells_byte, List.singleton_append, readCells_blank,
            ih]
          rfl

theorem length_cells (cells : List (Option UInt8)) :
    (cells.flatMap cellChars).length = 3 * cells.length := by
  induction cells with
  | nil => rfl
  | cons cell cells ih =>
      have hcell : (cellChars cell).length = 3 := by
        cases cell with
        | none => rfl
        | some b => rw [cellChars, toList_hexByte]; rfl
      rw [List.flatMap_cons, List.length_append, hcell, ih, List.length_cons]
      omega

/-- Bytes with blanks between them. -/
def spaced (bytes : List UInt8) : String := " ".intercalate (bytes.map hexByte)

theorem spaced_cons_cons (b c : UInt8) (bytes : List UInt8) :
    spaced (b :: c :: bytes) = hexByte b ++ " " ++ spaced (c :: bytes) :=
  String.intercalate_cons_cons

theorem readCells_spaced (bytes : List UInt8) (cs : List Char) :
    readCells ((spaced bytes).toList ++ cs) = (readCells cs).map (bytes.map some ++ ·) := by
  induction bytes with
  | nil => exact Option.map_id'.symm
  | cons b bytes ih =>
      cases bytes with
      | nil => exact readCells_byte b cs
      | cons c bytes =>
          rw [spaced_cons_cons, String.toList_append, String.toList_append, List.append_assoc,
            List.append_assoc, readCells_byte]
          show (readCells (' ' :: ((spaced (c :: bytes)).toList ++ cs))).map _ = _
          rw [readCells_blank, ih, Option.map_map]
          rfl

theorem length_spaced (b : UInt8) (bytes : List UInt8) :
    (spaced (b :: bytes)).length = 3 * bytes.length + 2 := by
  have hbyte : ∀ b, (hexByte b).length = 2 := by
    intro b
    rw [← String.length_toList, toList_hexByte]
    rfl
  induction bytes generalizing b with
  | nil => exact hbyte b
  | cons c bytes ih =>
      rw [spaced_cons_cons, String.length_append, String.length_append, hbyte, ih, List.length_cons]
      show 2 + 1 + _ = _
      omega

/-! ## Lines -/

/-- The column of some text between others. -/
theorem take_drop_append {lead cs tail : List Char} {n w : Nat} (hlead : lead.length = n)
    (hcs : cs.length = w) : ((lead ++ (cs ++ tail)).drop n).take w = cs := by
  rw [List.drop_left' hlead, List.take_left' hcs]

/-- Four digits after a blank show an address. -/
theorem shownAddress?_eq {line : String} {a : Nat} {tail : List Char} (ha : a < 0x10000)
    (h : line.toList = [' '] ++ (Text.hexDigits 4 a ++ tail)) : shownAddress? line = some a := by
  have hroom : a < UInt64.size := Nat.lt_trans ha (by decide)
  have hdigits : (line.toList.drop 1).take 4 = Text.hexDigits 4 a := by
    rw [h]
    exact take_drop_append rfl (Text.length_hexDigits 4 a)
  rw [shownAddress?, hdigits, Text.readDigits_hexDigits ha hroom]
  rfl

/-- A line of code shows the bytes of its row at their address. -/
theorem codeLine_shows (l : Listing) {row : Row} (haddress : row.address < 0x10000)
    (hne : row.bytes ≠ []) (hlength : row.bytes.length ≤ 3) :
    shownAddress? (l.codeLine row) = some row.address ∧
      shownCells? .code (l.codeLine row) = some (row.bytes.map some) := by
  let padded := (Text.padRight 8 (spaced row.bytes)).toList
  have hpadded : padded.length = 8 ∧ readCells padded = some (row.bytes.map some) := by
    obtain ⟨b, bytes, hbytes⟩ := List.exists_cons_of_ne_nil hne
    -- three bytes with two spaces between them fill the eight columns
    have hwidth : (spaced row.bytes).length ≤ 8 := by
      rw [hbytes, length_spaced]
      rw [hbytes, List.length_cons] at hlength
      omega
    constructor
    · simp only [padded, Text.padRight, String.toList_append, String.toList_ofList, List.length_append,
        List.length_replicate, String.length_toList]
      omega
    · simp only [padded, Text.padRight, String.toList_append, String.toList_ofList, readCells_spaced,
        readCells_blanks, Option.map_some, List.append_nil]
  have haddress' : row.address < 16 ^ 4 := haddress
  have hdigits := Text.toList_hex (by decide) haddress'
  have hline : ∃ tail, (l.codeLine row).toList =
      [' '] ++ (Text.hexDigits 4 row.address ++ ([' ', ' '] ++ (padded ++ tail))) := by
    simp only [codeLine, String.toList_append, hdigits, List.append_assoc]
    exact ⟨_, rfl⟩
  obtain ⟨tail, hline⟩ := hline
  refine ⟨shownAddress?_eq haddress hline, ?_⟩
  -- the address and three spaces stand before the column of bytes
  have hlead : ([' '] ++ (Text.hexDigits 4 row.address ++ [' ', ' '])).length = 7 := by
    simp only [List.length_append, List.length_cons, List.length_nil, Text.length_hexDigits]
  have hcolumn : ((l.codeLine row).toList.drop 7).take 8 = padded := by
    rw [hline, ← List.append_assoc (Text.hexDigits 4 row.address), ← List.append_assoc [' ']]
    exact take_drop_append hlead hpadded.1
  exact (congrArg readCells hcolumn).trans hpadded.2

/-- The cells of a row of data: its bytes, and placeholders around them. -/
def dataCells (row : Row) : List (Option UInt8) :=
  List.replicate (row.address % 16) none ++ (row.bytes.map some ++
    List.replicate (16 - row.bytes.length - row.address % 16) none)

theorem toList_repeated (n : Nat) :
    (repeated n ".. ").toList = (List.replicate n none).flatMap cellChars := by
  rw [repeated, String.toList_join, List.flatMap_replicate, List.flatMap_replicate]
  rfl

theorem toList_dataBytes (bytes : List UInt8) :
    (String.join (bytes.map fun b => hexByte b ++ " ")).toList =
      (bytes.map some).flatMap cellChars := by
  simp only [String.toList_join, List.flatMap_map, String.toList_append]
  rfl

/-- A line of data shows sixteen cells at an address that sixteen divides. -/
theorem dataLine_shows {row : Row} (haddress : row.address < 0x10000)
    (hfits : row.address % 16 + row.bytes.length ≤ 16) :
    shownAddress? (dataLine row) = some (row.address - row.address % 16) ∧
      shownCells? .data (dataLine row) = some (dataCells row) := by
  have hbase : row.address - row.address % 16 < 16 ^ 4 := Nat.lt_of_le_of_lt (Nat.sub_le _ _) haddress
  have hdigits := Text.toList_hex (by decide) hbase
  have hline : ∃ tail, (dataLine row).toList =
      [' '] ++ (Text.hexDigits 4 (row.address - row.address % 16) ++
        ([' '] ++ ((dataCells row).flatMap cellChars ++ tail))) := by
    simp only [dataLine, String.toList_append, hdigits, toList_repeated, toList_dataBytes, dataCells,
      List.flatMap_append, List.append_assoc]
    exact ⟨_, rfl⟩
  obtain ⟨tail, hline⟩ := hline
  refine ⟨shownAddress?_eq hbase hline, ?_⟩
  have hlead : ([' '] ++ (Text.hexDigits 4 (row.address - row.address % 16) ++ [' '])).length = 6 := by
    simp only [List.length_append, List.length_cons, List.length_nil, Text.length_hexDigits]
  have hcells : ((dataCells row).flatMap cellChars).length = 48 := by
    rw [length_cells, dataCells, List.length_append, List.length_append, List.length_replicate,
      List.length_map, List.length_replicate]
    omega
  have hcolumn : ((dataLine row).toList.drop 6).take 48 = (dataCells row).flatMap cellChars := by
    rw [hline, ← List.append_assoc (Text.hexDigits 4 _), ← List.append_assoc [' ']]
    exact take_drop_append hlead hcells
  exact (congrArg readCells hcolumn).trans (readCells_cells _)

/-! ## Regions -/

section

variable {kind : RegionKind} {line : String} {skip more : Nat} {bytes : List UInt8}

theorem shownBytes_eq (h : shownCells? kind line =
      some (List.replicate skip none ++ (bytes.map some ++ List.replicate more none))) :
    shownBytes kind line = bytes := by
  simp [shownBytes, h]

theorem firstAddress?_eq {a : Nat} (ha : shownAddress? line = some a) (hne : bytes ≠ [])
    (h : shownCells? kind line =
      some (List.replicate skip none ++ (bytes.map some ++ List.replicate more none))) :
    firstAddress? kind line = some (a + skip) := by
  obtain ⟨b, bytes, rfl⟩ := List.exists_cons_of_ne_nil hne
  have hall : ∀ cell ∈ List.replicate skip (none : Option UInt8), cell.isNone = true := by
    intro cell hcell
    rw [List.eq_of_mem_replicate hcell]
    rfl
  rw [firstAddress?, ha, h, Option.getD_some, List.takeWhile_append_of_pos hall, List.map_cons,
    List.cons_append, List.takeWhile_cons_of_neg (by simp), List.append_nil, List.length_replicate]
  rfl

end

/-- A line of data has sixteen cells from an address on that sixteen divides: its bytes,
with placeholders before and after them. -/
def HasSixteen (line : String) : Prop :=
  ∃ a skip more, shownAddress? line = some a ∧ a % 16 = 0 ∧
    skip + (shownBytes .data line).length + more = 16 ∧
    shownCells? .data line = some (List.replicate skip none ++
      ((shownBytes .data line).map some ++ List.replicate more none))

/-- How the rows of a kind of region are cut. -/
def cut (l : Listing) : RegionKind → Nat → UInt8 → List UInt8 → Nat
  | .code => moreCode
  | .data => moreData l.labels

theorem regionRows_eq (l : Listing) (r : Region) :
    l.regionRows r = rows (l.cut r.kind) r.start.toNat r.bytes.toList := by
  unfold regionRows
  cases r.kind <;> rfl

theorem flatMap_regionRows (l : Listing) (r : Region) :
    (l.regionRows r).flatMap Row.bytes = r.bytes.toList := by
  rw [regionRows_eq, flatMap_rows]

/-- The line of a row shows the bytes of the row at their address. -/
structure LineShows (kind : RegionKind) (line : String) (row : Row) : Prop where
  bytes : shownBytes kind line = row.bytes
  address : firstAddress? kind line = some row.address
  sixteen : kind = .data → HasSixteen line

theorem lineShows_code (l : Listing) {row : Row} (haddress : row.address < 0x10000)
    (hne : row.bytes ≠ []) (hlength : row.bytes.length ≤ 3) :
    LineShows .code (l.codeLine row) row := by
  obtain ⟨hshown, hcells⟩ := codeLine_shows l haddress hne hlength
  have hcells' : shownCells? .code (l.codeLine row) =
      some (List.replicate 0 none ++ (row.bytes.map some ++ List.replicate 0 none)) := by
    rw [hcells, List.replicate_zero, List.nil_append, List.append_nil]
  exact ⟨shownBytes_eq hcells', firstAddress?_eq hshown hne hcells', nofun⟩

theorem lineShows_data {row : Row} (haddress : row.address < 0x10000) (hne : row.bytes ≠ [])
    (hfits : row.address % 16 + row.bytes.length ≤ 16) : LineShows .data (dataLine row) row := by
  obtain ⟨hshown, hcells⟩ := dataLine_shows haddress hfits
  have hbytes := shownBytes_eq hcells
  have hbase : row.address - row.address % 16 + row.address % 16 = row.address := by omega
  have haddress := firstAddress?_eq hshown hne hcells
  rw [hbase] at haddress
  refine ⟨hbytes, haddress, fun _ => ?_⟩
  rw [HasSixteen, hbytes]
  exact ⟨_, row.address % 16, 16 - row.bytes.length - row.address % 16, hshown, by omega, by omega,
    hcells⟩

/-- Every row has bytes, and its line shows them at their address. -/
theorem line_shows (l : Listing) {r : Region} (hstop : r.stop ≤ 0x10000) {row : Row}
    (h : row ∈ l.regionRows r) : row.bytes ≠ [] ∧ LineShows r.kind (l.line r.kind row) row := by
  obtain ⟨before, after, hrows⟩ := List.append_of_mem h
  have hall := congrArg List.length (l.flatMap_regionRows r)
  rw [hrows, List.flatMap_append, List.flatMap_cons, List.length_append, List.length_append] at hall
  have hsize : r.bytes.toList.length = r.bytes.size := Array.length_toList
  rw [regionRows_eq] at hrows
  obtain ⟨haddress, b, rest, hbytes⟩ := rows_eq_append hrows
  have hne : row.bytes ≠ [] := by
    rw [hbytes]
    exact List.cons_ne_nil _ _
  refine ⟨hne, ?_⟩
  -- the row ends where the region ends, or before
  have hlow : row.address < 0x10000 := by
    have hpos := List.length_pos_iff.mpr hne
    rw [Region.stop, Region.size] at hstop
    omega
  have hlength := congrArg List.length hbytes
  rw [List.length_cons, List.length_take] at hlength
  cases hkind : r.kind with
  | code =>
      rw [hkind] at hlength
      have hmore : l.cut .code row.address b rest ≤ 2 := moreCode_le row.address b rest
      exact lineShows_code l hlow hne (by omega)
  | data =>
      rw [hkind] at hlength
      have hmore : l.cut .data row.address b rest ≤ 15 - row.address % 16 :=
        moreData_le l.labels row.address b rest
      exact lineShows_data hlow hne (by omega)

/-- What a listing shows of a region. -/
structure Shown (l : Listing) (r : Region) : Prop where
  /-- The text is a heading and a line for each row, with the label of its address in
  front. -/
  text : l.regionText r = "; " ++ r.render ++ "\n" ++
    String.join ((l.regionRows r).map fun row =>
      l.labelLine row.address ++ l.line r.kind row ++ "\n") ++ "\n"
  /-- The columns together show the bytes of the region. -/
  bytes : ((l.regionRows r).flatMap fun row => shownBytes r.kind (l.line r.kind row)) =
    r.bytes.toList
  /-- Every line shows bytes, the first of them at the address that the lines before it
  leave; a line of data does so among sixteen cells. -/
  lines : ∀ before row after, l.regionRows r = before ++ row :: after →
    shownBytes r.kind (l.line r.kind row) ≠ [] ∧
      firstAddress? r.kind (l.line r.kind row) = some row.address ∧
      row.address = r.start.toNat +
        (before.flatMap fun row => shownBytes r.kind (l.line r.kind row)).length ∧
      (r.kind = .data → HasSixteen (l.line r.kind row))
  /-- In data, a single line starts at the address of a label, and has the label in
  front. -/
  labels : r.kind = .data → ∀ a name, r.contains a = true → l.labels a = some name →
    ∃ before row after, l.regionRows r = before ++ row :: after ∧
      firstAddress? r.kind (l.line r.kind row) = some a.toNat ∧
      l.labelLine row.address = name ++ ":\n" ∧
      ∀ row' ∈ before ++ after, firstAddress? r.kind (l.line r.kind row') ≠ some a.toNat

/-- A listing shows every byte of a region once, at its place. -/
theorem region_shown (l : Listing) (r : Region) (hstop : r.stop ≤ 0x10000) : Shown l r := by
  have hshows : ∀ row ∈ l.regionRows r, row.bytes ≠ [] ∧ LineShows r.kind (l.line r.kind row) row :=
    fun row h => line_shows l hstop h
  have hbytes : ∀ {rows : List Row}, (∀ row ∈ rows, row ∈ l.regionRows r) →
      (rows.flatMap fun row => shownBytes r.kind (l.line r.kind row)) = rows.flatMap Row.bytes := by
    intro rows hrows
    induction rows with
    | nil => rfl
    | cons row rows ih =>
        have hline := (hshows row (hrows row List.mem_cons_self)).2
        rw [List.flatMap_cons, List.flatMap_cons, hline.bytes,
          ih fun row h => hrows row (List.mem_cons_of_mem _ h)]
  refine ⟨rfl, ?_, ?_, ?_⟩
  · rw [hbytes fun row h => h, flatMap_regionRows]
  · intro before row after hrows
    have hrow : row ∈ l.regionRows r := by
      rw [hrows]
      simp
    obtain ⟨hne, hline⟩ := hshows row hrow
    rw [hbytes fun row h => by rw [hrows]; simp [h], hline.bytes]
    have hsplit := hrows
    rw [regionRows_eq] at hsplit
    exact ⟨hne, hline.address, (rows_eq_append hsplit).1, hline.sixteen⟩
  · intro hkind a name hcontains hname
    obtain ⟨hlow, hhigh⟩ := Bool.and_eq_true_iff.mp hcontains
    have hlow := UInt16.le_iff_toNat_le.mp (of_decide_eq_true hlow)
    have hhigh := of_decide_eq_true hhigh
    rw [Region.stop, Region.size, ← Array.length_toList] at hhigh
    have hlabel : l.labels (UInt16.ofNat a.toNat) = some name := by rw [UInt16.ofNat_toNat, hname]
    have hrows : l.regionRows r = rows (moreData l.labels) r.start.toNat r.bytes.toList := by
      rw [regionRows_eq, hkind]
      rfl
    obtain ⟨row, hrow, haddress⟩ := label_starts_row l.labels
      (by rw [hlabel]; exact Option.some_ne_none name) hlow hhigh
    obtain ⟨before, after, hsplit⟩ := List.append_of_mem hrow
    -- the rows before have lower addresses, and those after have higher ones
    have hpairwise : (before ++ row :: after).Pairwise fun row row' => row.address < row'.address :=
      hsplit ▸ rows_pairwise r.start.toNat r.bytes.toList
    obtain ⟨-, hafter, hbefore⟩ := List.pairwise_append.mp hpairwise
    have hothers : ∀ row' ∈ before ++ after, row'.address ≠ row.address := by
      intro row' hrow'
      rcases List.mem_append.mp hrow' with h | h
      · exact Nat.ne_of_lt (hbefore row' h row List.mem_cons_self)
      · exact Nat.ne_of_gt (List.rel_of_pairwise_cons hafter h)
    rw [← hrows] at hrow hsplit
    refine ⟨before, row, after, hsplit, ?_, ?_, ?_⟩
    · rw [(hshows row hrow).2.address, haddress]
    · rw [labelLine, haddress, hlabel]
    · intro row' hrow' heq
      have hmem : row' ∈ l.regionRows r := by
        rw [hsplit]
        rcases List.mem_append.mp hrow' with h | h <;> simp [h]
      rw [(hshows row' hmem).2.address, ← haddress] at heq
      exact hothers row' hrow' (Option.some.inj heq)

/-- A label in the middle of some data. -/
def messageListing : Listing :=
  { regions := []
    labels := fun a => if a = 0x0806 then some "MSG" else none
    source := fun _ => none
    symbols := none }

/-- Data that starts and ends within a line of sixteen bytes. -/
def message : Region := ⟨0x0805, .data, #[0x41, 0x42, 0x01]⟩

theorem region_shown_message :
    message.stop ≤ 0x10000 ∧ messageListing.Shown message ∧
      ∃ before row after, messageListing.regionRows message = before ++ row :: after ∧
        firstAddress? .data (messageListing.line .data row) = some 0x0806 ∧
        messageListing.labelLine row.address = "MSG:\n" := by
  have hstop : message.stop ≤ 0x10000 := by decide
  have hshown := region_shown messageListing message hstop
  obtain ⟨before, row, after, hrows, haddress, hlabel, -⟩ :=
    hshown.labels rfl 0x0806 "MSG" (by decide) rfl
  exact ⟨hstop, hshown, before, row, after, hrows, haddress, hlabel⟩

end Listing

end Mos6510
