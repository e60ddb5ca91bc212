import SqlOptimizer.Integration.Framing
import SqlOptimizer.Storage.Loading

/-! Tables that were written to CSV files with every field in quotes, and what
`load_table_from_csv` makes of them. -/

namespace SqlOptimizer

open Integration (bytesText textBytes bytesText_textBytes stoInt stoInt_intText)

/-- Characters that are one byte each. -/
def OneByte (text : List Char) : Prop := ∀ c ∈ text, c.toNat < 256

theorem oneByte_of_all {text : List Char} (h : text.all (·.toNat < 256) = true) : OneByte text :=
  fun c hc => of_decide_eq_true (List.all_eq_true.mp h c hc)

/-- The value that an empty text stands for is NULL. -/
def Literal.blankToNull (v : Literal) : Literal := if v = .str "" then .null else v

theorem map_eq_self_iff {α : Type} {f : α → α} {l : List α} :
    l.map f = l ↔ ∀ a ∈ l, f a = a := by
  simpa using List.map_inj_left (f := f) (g := id) (l := l)

theorem Literal.blankToNull_eq_self {v : Literal} : v.blankToNull = v ↔ v ≠ .str "" := by
  unfold Literal.blankToNull
  split
  case isTrue h => simp [h]
  case isFalse h => simp [h]

/-- The table with NULL for each empty text. -/
def Table.blankToNull (table : Table) : Table where
  columnNames := table.columnNames
  rows := table.rows.map (·.map Literal.blankToNull)
  width row hrow := by
    obtain ⟨r, hr, rfl⟩ := List.mem_map.mp hrow
    rw [List.length_map, table.width r hr]

theorem Table.blankToNull_eq_self {table : Table} :
    table.blankToNull = table ↔ ∀ row ∈ table.rows, .str "" ∉ row := by
  obtain ⟨columnNames, rows, width⟩ := table
  simp only [Table.blankToNull, Table.mk.injEq, true_and]
  rw [map_eq_self_iff]
  refine forall₂_congr fun row _ => ?_
  rw [map_eq_self_iff]
  constructor
  · exact fun h hmem => Literal.blankToNull_eq_self.mp (h _ hmem) rfl
  · exact fun h v hv => Literal.blankToNull_eq_self.mpr fun hblank => h (hblank ▸ hv)

section

variable [NumberText]

/-- The text of a value in a file.  NULL has none. -/
def Literal.fieldText : Literal → Bytes
  | .integer n => intText n.toInt
  | .floating x => textBytes (numberText x)
  | .str s => textBytes s.toList
  | .boolean b => if b then ascii "true" else ascii "false"
  | .null => []

/-- A value whose text can stand in a file: a string of bytes, a double that `std::stod` gives
back. -/
def Literal.Writable : Literal → Prop
  | .floating x =>
    numberText x ≠ [] ∧ OneByte (numberText x) ∧ NumberText.stod (numberText x) = .ok x
  | .str s => OneByte s.toList
  | _ => True

/-! ### Fields -/

theorem parseField_integer (n : Int64) (h : (Literal.integer n).OfType .int) :
    parseField (intText n.toInt) .int = .ok ⟨.integer n, h⟩ := by
  have hread : stoInt "stoll" 64 (intText n.toInt) = .ok n.toInt :=
    stoInt_intText (Int64.le_toInt n) (Int64.toInt_lt n)
  have hne : intText n.toInt ≠ [] := by
    intro hempty
    rw [hempty] at hread
    cases hread
  rw [parseField, if_neg hne]
  simp only [hread, Except.ok_bind, Int64.ofInt_toInt]
  rfl

theorem parseField_floating {x : Binary64} (hx : (Literal.floating x).Writable)
    (h : (Literal.floating x).OfType .float) :
    parseField (textBytes (numberText x)) .float = .ok ⟨.floating x, h⟩ := by
  obtain ⟨hne, hbytes, hread⟩ := hx
  have hempty : textBytes (numberText x) ≠ [] := by simpa [textBytes] using hne
  rw [parseField, if_neg hempty]
  simp only [bytesText_textBytes hbytes, hread]

theorem parseField_str {s : String} (hs : (Literal.str s).Writable) (hne : s ≠ "")
    (h : (Literal.str s).OfType .text) :
    parseField (textBytes s.toList) .text = .ok ⟨.str s, h⟩ := by
  have hempty : textBytes s.toList ≠ [] := by simpa [textBytes] using hne
  rw [parseField, if_neg hempty]
  simp only [bytesText_textBytes hs, String.ofList_toList]

theorem parseField_boolean (b : Bool) (h : (Literal.boolean b).OfType .boolean) :
    parseField (Literal.boolean b).fieldText .boolean = .ok ⟨.boolean b, h⟩ := by
  have hne : (if b then ascii "true" else ascii "false") ≠ [] := by
    cases b <;> decide +kernel
  have hread : ((if b then ascii "true" else ascii "false") == ascii "true" ||
      (if b then ascii "true" else ascii "false") == ascii "1" ||
        (if b then ascii "true" else ascii "false") == ascii "TRUE") = b := by
    cases b <;> decide +kernel
  rw [Literal.fieldText, parseField, if_neg hne]
  simp only [hread]

/-- The text of a value is read as the value, an empty text as NULL. -/
theorem parseField_fieldText {v : Literal} {type : DataType} (htype : v.OfType type)
    (hv : v.Writable) : ∃ h, parseField v.fieldText type = .ok ⟨v.blankToNull, h⟩ := by
  by_cases hblank : v = .str ""
  · subst hblank
    exact ⟨trivial, rfl⟩
  · rw [Literal.blankToNull_eq_self.mpr hblank]
    refine ⟨htype, ?_⟩
    cases v with
    | null => rfl
    | integer n =>
      cases type with
      | int => exact parseField_integer n htype
      | float | text | boolean => exact htype.elim
    | floating x =>
      cases type with
      | float => exact parseField_floating hv htype
      | int | text | boolean => exact htype.elim
    | str s =>
      cases type with
      | text => exact parseField_str hv (fun hs => hblank (congrArg _ hs)) htype
      | int | float | boolean => exact htype.elim
    | boolean b =>
      cases type with
      | boolean => exact parseField_boolean b htype
      | int | float | text => exact htype.elim

theorem parseFields_fieldText {header : Header} {row : Row}
    (htyped : List.Forall₂ (fun v (column : String × DataType) => v.OfType column.2) row header)
    (hrow : ∀ v ∈ row, v.Writable) (hlen : (row.map Literal.fieldText).length = header.length) :
    ∃ h, parseFields header (row.map Literal.fieldText) hlen =
      .ok ⟨row.map Literal.blankToNull, h⟩ := by
  induction htyped with
  | nil => exact ⟨.nil, rfl⟩
  | @cons v column row header hv _ ih =>
    obtain ⟨hfirst, hparse⟩ := parseField_fieldText hv (hrow v List.mem_cons_self)
    obtain ⟨hrest, hparses⟩ := ih (fun w hw => hrow w (List.mem_cons_of_mem _ hw))
      (by simpa using hlen)
    refine ⟨.cons hfirst hrest, ?_⟩
    simp only [List.map_cons, parseFields, hparse, Except.ok_bind, hparses]
    rfl

/-! ### Files -/

theorem mapM_loadRow (path : String) {header : Header} {rows : List Row}
    (htyped : ∀ row ∈ rows,
      List.Forall₂ (fun v (column : String × DataType) => v.OfType column.2) row header)
    (hrows : ∀ row ∈ rows, ∀ v ∈ row, v.Writable) (k : Nat) :
    ∃ typed, ((rows.map (·.map Literal.fieldText)).zipIdx k).mapM (loadRow path header) =
      .ok typed ∧ typed.map (·.1) = rows.map (·.map Literal.blankToNull) := by
  induction rows generalizing k with
  | nil => exact ⟨[], rfl, rfl⟩
  | cons row rows ih =>
    have hlen : (row.map Literal.fieldText).length = header.length := by
      rw [List.length_map, (htyped row List.mem_cons_self).length_eq]
    obtain ⟨hfirst, hparse⟩ := parseFields_fieldText (htyped row List.mem_cons_self)
      (hrows row List.mem_cons_self) hlen
    obtain ⟨typed, hload, hvalues⟩ := ih (fun r hr => htyped r (List.mem_cons_of_mem _ hr))
      (fun r hr => hrows r (List.mem_cons_of_mem _ hr)) (k + 1)
    refine ⟨⟨row.map Literal.blankToNull, hfirst⟩ :: typed,
      Except.mapM_cons_eq_ok.mpr ⟨_, _, ?_, hload, rfl⟩, ?_⟩
    · rw [loadRow, dif_pos hlen, hparse]
    · rw [List.map_cons, List.map_cons, hvalues]

/-- Columns of the schema, in any order, with values of their types. -/
structure Table.Writable (table : Table) (schema : TableSchema) : Prop where
  columns : ∀ name ∈ table.columnNames,
    (∃ col, schema.getColumn name = some col) ∧ OneByte name.toList
  typed : table.Typed schema
  values : ∀ row ∈ table.rows, ∀ v ∈ row, v.Writable

omit [NumberText] in
theorem exists_loadHeader (path : String) {schema : TableSchema} {columns : List String}
    (h : ∀ name ∈ columns, (∃ col, schema.getColumn name = some col) ∧ OneByte name.toList) :
    ∃ header, loadHeader path schema (columns.map (textBytes ·.toList)) = .ok header ∧
      header.map (·.1) = columns := by
  induction columns with
  | nil => exact ⟨[], rfl, rfl⟩
  | cons name columns ih =>
    obtain ⟨⟨col, hcol⟩, hname⟩ := h name List.mem_cons_self
    obtain ⟨header, hload, hnames⟩ := ih fun n hn => h n (List.mem_cons_of_mem _ hn)
    refine ⟨(name, col.dataType) :: header,
      Except.mapM_cons_eq_ok.mpr ⟨_, _, ?_, hload, rfl⟩, by rw [List.map_cons, hnames]⟩
    simp only [bytesText_textBytes hname, String.ofList_toList, hcol]

/-- A table whose records, each ended by LF or CR LF, have every field in quotes is loaded with NULL
for each empty text, and so as it was exactly when it has none. -/
theorem loadTableFromCsv_text {files : FileSystem} {path : String} {schema : TableSchema}
    {table : Table} {lines : List (Csv.Record × Csv.LineEnd)}
    (hopen : files.contents path = some (Csv.File.text ⟨lines, none⟩))
    (hlines : lines.map (·.1.1) = table.columnNames.map (textBytes ·.toList) ::
      table.rows.map (·.map Literal.fieldText))
    (hwritable : table.Writable schema) :
    loadTableFromCsv files path schema = .ok table.blankToNull ∧
      (loadTableFromCsv files path schema = .ok table ↔ ∀ row ∈ table.rows, .str "" ∉ row) := by
  have hread : Csv.readCsv files.contents path = .ok (lines.map (·.1.1)) := by
    rw [Csv.readCsv, hopen]
    simp only [Csv.File.text, Csv.read_lines]
    simp [Csv.Reader.read, Csv.Reader.finish]
  obtain ⟨header, hheader, hnames⟩ := exists_loadHeader path hwritable.columns
  have htyped : ∀ row ∈ table.rows, List.Forall₂
      (fun v (column : String × DataType) => v.OfType column.2) row header := by
    intro row hrow
    have htyped := hwritable.typed row hrow
    rw [← hnames] at htyped
    exact (typed_iff_header fun _ => getColumn_of_loadHeader hheader).mp htyped
  obtain ⟨typed, hrows, hvalues⟩ := mapM_loadRow path htyped hwritable.values 1
  have hload : loadTableFromCsv files path schema = .ok (.ofTyped header typed) := by
    rw [loadTableFromCsv, hread, hlines]
    simp only [Except.ok_bind, hheader, hrows]
    rfl
  have hblank : Table.ofTyped header typed = table.blankToNull :=
    Table.mk.injEq .. ▸ ⟨hnames, hvalues⟩
  rw [hload, hblank]
  exact ⟨rfl, by rw [Except.ok.injEq, Table.blankToNull_eq_self]⟩

end

section

attribute [local instance] Integration.noNumbers

def namesSchema : TableSchema :=
  ⟨[⟨"id", .int, false⟩, ⟨"name", .text, true⟩], ⟨2, 16⟩, []⟩

/-- The columns in another order than in the schema, an empty name, a name with a comma, and no
id. -/
def namesTable : Table := ⟨["name", "id"], [[.str "", .integer 7], [.str "b,", .null]], by decide⟩

def namesLines : List (Csv.Record × Csv.LineEnd) :=
  [(⟨[[110, 97, 109, 101], [105, 100]], by simp⟩, .lf), (⟨[[], [55]], by simp⟩, .crlf),
    (⟨[[98, 44], []], by simp⟩, .lf)]

theorem writable_names : namesTable.Writable namesSchema where
  columns name hname := by
    rcases List.mem_pair.mp hname with rfl | rfl
    · exact ⟨⟨_, rfl⟩, oneByte_of_all (by decide +kernel)⟩
    · exact ⟨⟨_, rfl⟩, oneByte_of_all (by decide +kernel)⟩
  typed row hrow := by
    rcases List.mem_pair.mp hrow with rfl | rfl
    · exact .cons ⟨_, rfl, trivial⟩ (.cons ⟨_, rfl, trivial⟩ .nil)
    · exact .cons ⟨_, rfl, trivial⟩ (.cons ⟨_, rfl, trivial⟩ .nil)
  values row hrow v hv := by
    rcases List.mem_pair.mp hrow with rfl | rfl
    · rcases List.mem_pair.mp hv with rfl | rfl
      · exact show OneByte "".toList from oneByte_of_all (by decide +kernel)
      · exact trivial
    · rcases List.mem_pair.mp hv with rfl | rfl
      · exact show OneByte "b,".toList from oneByte_of_all (by decide +kernel)
      · exact trivial

theorem loadTableFromCsv_text_names :
    loadTableFromCsv ⟨fun _ => true, fun _ => some (Csv.File.text ⟨namesLines, none⟩)⟩ "t.csv"
      namesSchema = .ok namesTable.blankToNull :=
  (loadTableFromCsv_text rfl (by decide +kernel) writable_names).1

end

end SqlOptimizer
