import SqlOptimizer.Library.Decimal
import SqlOptimizer.Library.Delimited

/-! `storage/csv_reader.cpp`: the records of a CSV file, and what a file gives whose fields are all
quoted. -/

namespace SqlOptimizer.Csv

/-- The variables of the loop in `read_csv`. -/
structure Reader where
  rows : List (List Bytes)
  currentRow : List Bytes
  field : Bytes
  inQuotes : Bool

def Reader.endField (r : Reader) : Reader :=
  { r with currentRow := r.currentRow ++ [r.field], field := [] }

def Reader.endRow (r : Reader) : Reader :=
  { r.endField with rows := r.rows ++ [r.endField.currentRow], currentRow := [] }

def Reader.push (r : Reader) (c : UInt8) : Reader := { r with field := r.field ++ [c] }

/-- A byte outside quotes. -/
def Reader.plain (r : Reader) (c : UInt8) : Reader :=
  if c = 34 then { r with inQuotes := true }
  else if c = 44 then r.endField
  else if c = 13 then r
  else if c = 10 then r.endRow
  else r.push c

/-- The loop. -/
def Reader.read (r : Reader) : Bytes → Reader
  | [] => r
  | c :: text =>
    if r.inQuotes then
      if c = 34 then
        match text with
        | [] => { r with inQuotes := false }
        | d :: text =>
          -- Two quotes are one in the field.
          if d = 34 then (r.push 34).read text
          else Reader.read { r with inQuotes := false } (d :: text)
      else (r.push c).read text
    else (r.plain c).read text

/-- The last line may have no newline. -/
def Reader.finish (r : Reader) : List (List Bytes) :=
  if r.field ≠ [] ∨ r.currentRow ≠ [] then r.endRow.rows else r.rows

/-- `read_csv`; `files` holds what can be opened. -/
def readCsv (files : String → Option Bytes) (path : String) : Except String (List (List Bytes)) :=
  match files path with
  | none => .error ("csv: could not open file: " ++ path)
  | some text => .ok (Reader.read ⟨[], [], [], false⟩ text).finish

/-! ### Files with quoted fields -/

inductive LineEnd where
  | lf
  | crlf

def LineEnd.text : LineEnd → Bytes
  | .lf => [10]
  | .crlf => [13, 10]

/-- A record has a field. -/
abbrev Record := { fields : List Bytes // fields ≠ [] }

def doubleQuotes (field : Bytes) : Bytes := field.flatMap fun b => if b = 34 then [34, 34] else [b]

def quoted (field : Bytes) : Bytes := 34 :: (doubleQuotes field ++ [34])

def Record.text (record : Record) : Bytes := [44].intercalate (record.1.map quoted)

/-- A file: records with their line ends, and a last one that has none. -/
structure File where
  lines : List (Record × LineEnd)
  last : Option Record

def File.text (file : File) : Bytes :=
  file.lines.flatMap (fun line => line.1.text ++ line.2.text) ++ file.last.elim [] Record.text

def File.records (file : File) : List (List Bytes) :=
  file.lines.map (·.1.1) ++ file.last.elim [] fun record => [record.1]

/-! ### The loop on them -/

variable (rows : List (List Bytes)) (currentRow : List Bytes)

theorem read_plain (field : Bytes) (c : UInt8) (text : Bytes) :
    Reader.read ⟨rows, currentRow, field, false⟩ (c :: text) =
      (Reader.plain ⟨rows, currentRow, field, false⟩ c).read text := by
  cases text <;> rfl

theorem read_push (field : Bytes) {c : UInt8} (hc : c ≠ 34) (text : Bytes) :
    Reader.read ⟨rows, currentRow, field, true⟩ (c :: text) =
      Reader.read ⟨rows, currentRow, field ++ [c], true⟩ text := by
  cases text <;> exact if_neg hc

theorem read_quote (field : Bytes) {rest : Bytes} (hrest : rest.head? ≠ some 34) :
    Reader.read ⟨rows, currentRow, field, true⟩ (34 :: rest) =
      Reader.read ⟨rows, currentRow, field, false⟩ rest := by
  cases rest with
  | nil => rfl
  | cons d rest =>
    have hd : d ≠ 34 := fun h => hrest (by rw [h]; rfl)
    exact if_neg hd

/-- What is left of a field is read up to its closing quote. -/
theorem read_doubleQuotes (pre field : Bytes) {rest : Bytes} (hrest : rest.head? ≠ some 34) :
    Reader.read ⟨rows, currentRow, pre, true⟩ (doubleQuotes field ++ 34 :: rest) =
      Reader.read ⟨rows, currentRow, pre ++ field, false⟩ rest := by
  induction field generalizing pre with
  | nil =>
    rw [List.append_nil]
    exact read_quote rows currentRow pre hrest
  | cons b field ih =>
    have hpre : pre ++ b :: field = pre ++ [b] ++ field := by simp
    rw [hpre, ← ih]
    by_cases hb : b = 34
    · subst hb
      rfl
    · have htext : doubleQuotes (b :: field) ++ 34 :: rest =
          b :: (doubleQuotes field ++ 34 :: rest) := by simp [doubleQuotes, hb]
      rw [htext, read_push rows currentRow pre hb]

theorem read_quoted (field : Bytes) {rest : Bytes} (hrest : rest.head? ≠ some 34) :
    Reader.read ⟨rows, currentRow, [], false⟩ (quoted field ++ rest) =
      Reader.read ⟨rows, currentRow, field, false⟩ rest := by
  have htext : quoted field ++ rest = 34 :: (doubleQuotes field ++ 34 :: rest) := by simp [quoted]
  rw [htext, read_plain]
  exact read_doubleQuotes rows currentRow [] field hrest

/-- After a record its last field is still open. -/
theorem read_record (record : Record) {rest : Bytes} (hrest : rest.head? ≠ some 34) :
    ∃ init last, init ++ [last] = record.1 ∧
      Reader.read ⟨rows, [], [], false⟩ (record.text ++ rest) =
        Reader.read ⟨rows, init, last, false⟩ rest := by
  obtain ⟨fields, hne⟩ := record
  obtain ⟨field, fields, rfl⟩ := List.exists_cons_of_ne_nil hne
  have hfields : ∀ (fields init : List Bytes) (last : Bytes), ∃ init' last',
      init' ++ [last'] = init ++ last :: fields ∧
        Reader.read ⟨rows, init, last, false⟩ ((fields.map quoted).flatMap ([44] ++ ·) ++ rest) =
          Reader.read ⟨rows, init', last', false⟩ rest := by
    intro fields
    induction fields with
    | nil => exact fun init last => ⟨init, last, rfl, rfl⟩
    | cons field fields ih =>
      intro init last
      obtain ⟨init', last', hall, hread⟩ := ih (init ++ [last]) field
      refine ⟨init', last', by rw [hall]; simp, ?_⟩
      rw [← hread, ← read_quoted rows _ field]
      · rw [List.map_cons, List.flatMap_cons, List.append_assoc, List.append_assoc]
        exact read_plain rows init last 44 _
      · cases fields with
        | nil => exact hrest
        | cons _ _ => simp
  obtain ⟨init, last, hall, hread⟩ := hfields fields [] field
  refine ⟨init, last, hall, ?_⟩
  rw [← hread, Record.text, List.map_cons, Delimited.intercalate_cons, List.append_assoc]
  refine read_quoted rows [] field ?_
  cases fields with
  | nil => exact hrest
  | cons _ _ => simp

theorem read_lineEnd (field rest : Bytes) (lineEnd : LineEnd) :
    Reader.read ⟨rows, currentRow, field, false⟩ (lineEnd.text ++ rest) =
      Reader.read ⟨rows ++ [currentRow ++ [field]], [], [], false⟩ rest := by
  cases lineEnd with
  | lf => exact read_plain rows currentRow field 10 rest
  | crlf =>
    have hcr := read_plain rows currentRow field 13 (10 :: rest)
    exact hcr.trans (read_plain rows currentRow field 10 rest)

theorem read_lines (lines : List (Record × LineEnd)) (rest : Bytes) :
    Reader.read ⟨rows, [], [], false⟩
        (lines.flatMap (fun line => line.1.text ++ line.2.text) ++ rest) =
      Reader.read ⟨rows ++ lines.map (·.1.1), [], [], false⟩ rest := by
  induction lines generalizing rows with
  | nil => simp
  | cons line lines ih =>
    obtain ⟨record, lineEnd⟩ := line
    have hhead : ∀ text, (lineEnd.text ++ text).head? ≠ some 34 := by
      intro text
      cases lineEnd <;> simp [LineEnd.text]
    rw [List.flatMap_cons, List.append_assoc, List.append_assoc]
    obtain ⟨init, last, hall, hread⟩ := read_record rows record (hhead _)
    rw [hread, read_lineEnd, hall, ih]
    simp

/-- A file with quoted fields gives its records back, unless its last line has no newline and is one
empty field. -/
theorem readCsv_text_iff {files : String → Option Bytes} {path : String} {file : File}
    (hopen : files path = some file.text) :
    readCsv files path = .ok file.records ↔ ∀ record ∈ file.last, record.1 ≠ [[]] := by
  obtain ⟨lines, last⟩ := file
  rw [readCsv, hopen]
  simp only [Except.ok.injEq, File.text, File.records, read_lines, List.nil_append]
  cases last with
  | none => simp [Reader.read, Reader.finish]
  | some record =>
    have hnil : ([] : Bytes).head? ≠ some 34 := nofun
    obtain ⟨init, field, hall, hread⟩ := read_record (lines.map (·.1.1)) record hnil
    rw [List.append_nil] at hread
    simp only [Option.elim, hread, Option.mem_def, Option.some.injEq, forall_eq', Reader.read,
      Reader.finish, Reader.endRow, Reader.endField, ← hall]
    by_cases hempty : field = [] ∧ init = []
    · obtain ⟨rfl, rfl⟩ := hempty
      simp
    · have hne : init ++ [field] ≠ [[]] := by
        intro h
        cases init with
        | nil => exact hempty ⟨by simpa using h, rfl⟩
        | cons _ _ => simp at h
      rw [if_pos (by tauto)]
      exact ⟨fun _ => hne, fun _ => rfl⟩

/-- A record with a quote, a comma and a newline, one empty field with CR LF, and two empty fields
without newline. -/
theorem readCsv_text_quotes :
    readCsv (fun _ => some
      [34, 97, 34, 34, 44, 10, 34, 44, 34, 34, 10, 34, 34, 13, 10, 34, 34, 44, 34, 34]) "data.csv" =
      .ok [[[97, 34, 44, 10], []], [[]], [[], []]] :=
  (@readCsv_text_iff _ "data.csv"
    ⟨[(⟨[[97, 34, 44, 10], []], by simp⟩, .lf), (⟨[[]], by simp⟩, .crlf)],
      some ⟨[[], []], by simp⟩⟩ rfl).mpr (by simp)

/-- One empty field without newline is no record. -/
theorem readCsv_empty_field :
    ¬ ∀ (files : String → Option Bytes) (path : String) (file : File),
      files path = some file.text → readCsv files path = .ok file.records := by
  intro h
  have hread := h (fun _ => some [34, 34]) "data.csv" ⟨[], some ⟨[[]], by simp⟩⟩ rfl
  simp [readCsv, Reader.read, Reader.plain, Reader.finish, File.records] at hread

end SqlOptimizer.Csv
