import SqlOptimizer.Cache.Resp.Codec
import SqlOptimizer.Library.Failure
import Mathlib.Data.List.TakeWhile

/-! The parser reads back what the encoder writes. -/

namespace SqlOptimizer.Cache

/-! ### Lines -/

/-- A text that survives as a line: it has no LF, and no CR at its end. -/
structure OneLine (s : Bytes) : Prop where
  noLF : 10 ∉ s
  noCR : s.getLast? ≠ some 13

theorem takeWhile_append_of_notMem {s r : Bytes} (h : 10 ∉ s) :
    (s ++ 10 :: r).takeWhile (· != 10) = s ∧ (s ++ 10 :: r).dropWhile (· != 10) = 10 :: r := by
  have hall : ∀ b ∈ s, (b != 10) = true := by
    intro b hb
    rw [bne_iff_ne]
    rintro rfl
    exact h hb
  rw [List.takeWhile_append_of_pos hall, List.dropWhile_append_of_pos hall]
  simp

theorem trimRight_crlf {s : Bytes} (h : OneLine s) : trimRight (s ++ [13, 10]) = s := by
  rw [trimRight, List.reverse_append]
  simp only [List.reverse_cons, List.reverse_nil, List.nil_append, List.cons_append, List.dropWhile_cons]
  cases hs : s.reverse with
  | nil =>
    rw [List.reverse_eq_nil_iff] at hs
    simp [hs]
  | cons b bs =>
    have hrev : s = (b :: bs).reverse := by rw [← hs, List.reverse_reverse]
    have hCR : b ≠ 13 := by
      rintro rfl
      exact h.noCR (by simp [hrev])
    have hLF : b ≠ 10 := by
      rintro rfl
      exact h.noLF (by simp [hrev])
    simp [hrev, hCR, hLF]

/-- A line comes back without its end. -/
theorem readLine_crlf {s : Bytes} (h : OneLine s) (rest : Bytes) :
    readLine (s ++ crlf ++ rest) = .ok (s, rest) := by
  have hLF : (10 : UInt8) ∉ s ++ [13] := by
    simp [h.noLF]
  have hsplit : s ++ crlf ++ rest = (s ++ [13]) ++ 10 :: rest := by simp [crlf]
  rw [hsplit, readLine, (takeWhile_append_of_notMem hLF).1, (takeWhile_append_of_notMem hLF).2]
  dsimp only
  rw [List.append_assoc, List.singleton_append, trimRight_crlf h]

theorem OneLine.of_forall {s : Bytes} (h : ∀ b ∈ s, b ≠ 10 ∧ b ≠ 13) : OneLine s :=
  ⟨fun hmem => (h _ hmem).1 rfl, fun hlast => (h _ (List.mem_of_getLast? hlast)).2 rfl⟩

/-- A text without any CR or LF, as a test. -/
def plain (s : Bytes) : Bool := s.all fun b => b != 10 && b != 13

theorem plain_append {s t : Bytes} (hs : plain s = true) (ht : plain t = true) :
    plain (s ++ t) = true := by
  rw [plain, List.all_append, Bool.and_eq_true]
  exact ⟨hs, ht⟩

theorem OneLine.of_plain {s : Bytes} (h : plain s = true) : OneLine s := by
  refine .of_forall fun b hb => ?_
  have hne := List.all_eq_true.mp h b hb
  simpa using hne

theorem ne_of_isDigitByte {b : UInt8} (h : isDigitByte b = true) : b ≠ 10 ∧ b ≠ 13 := by
  constructor <;> rintro rfl <;> exact absurd h (by decide)

theorem mem_intText {n : Int} {b : UInt8} (h : b ∈ intText n) : b = 45 ∨ isDigitByte b = true := by
  unfold intText at h
  split at h
  · rcases List.mem_cons.mp h with rfl | h
    · exact .inl rfl
    · exact .inr (isDigitByte_of_mem_natText h)
  · exact .inr (isDigitByte_of_mem_natText h)

/-- Numbers are one line, also behind a type byte. -/
theorem oneLine_intText {kind : UInt8} (hkind : kind ≠ 10 ∧ kind ≠ 13) (n : Int) :
    OneLine (kind :: intText n) := by
  apply OneLine.of_forall
  intro b hb
  rcases List.mem_cons.mp hb with rfl | hb
  · exact hkind
  · rcases mem_intText hb with rfl | hb
    · decide
    · exact ne_of_isDigitByte hb

theorem intText_natCast (n : Nat) : intText (n : Int) = natText n := by
  rw [intText, if_neg (by omega), Int.natAbs_natCast]

theorem OneLine.cons {kind : UInt8} {s : Bytes} (hkind : kind ≠ 10 ∧ kind ≠ 13) (h : OneLine s) :
    OneLine (kind :: s) := by
  refine ⟨?_, ?_⟩
  · rw [List.mem_cons, not_or]
    exact ⟨hkind.1.symm, h.noLF⟩
  · cases s with
    | nil =>
      intro hlast
      cases hlast
      exact hkind.2 rfl
    | cons b bs =>
      rw [List.getLast?_cons_cons]
      exact h.noCR

theorem readLine_header {kind : UInt8} (hkind : kind ≠ 10 ∧ kind ≠ 13) (n : Nat) (rest : Bytes) :
    readLine (header kind n ++ rest) = .ok (kind :: natText n, rest) := by
  rw [header, ← intText_natCast]
  exact readLine_crlf (oneLine_intText hkind n) rest

/-! ### Nesting -/

theorem length_of_readLine {r line rest : Bytes} (h : readLine r = .ok (line, rest)) :
    rest.length < r.length := by
  have happend := congrArg List.length (List.takeWhile_append_dropWhile (p := (· != 10)) (l := r))
  rw [List.length_append] at happend
  unfold readLine at h
  split at h
  case h_1 => cases h
  case h_2 nl tail htail =>
    cases h
    rw [htail, List.length_cons] at happend
    omega

theorem length_of_readPayload {n : Nat} {r b rest : Bytes} (h : readPayload n r = .ok (b, rest)) :
    rest.length ≤ r.length := by
  unfold readPayload at h
  split at h
  · cases h
    rw [List.length_drop]
    omega
  · cases h

/-- A parser that leaves less than it is given. -/
def Shrinks (parse : Bytes → Except RespError (RespValue × Bytes)) : Prop :=
  ∀ {r v rest}, parse r = .ok (v, rest) → rest.length < r.length

theorem length_of_parseItems {parse : Bytes → Except RespError (RespValue × Bytes)}
    (hparse : Shrinks parse) {n : Nat} {r rest : Bytes} {items : List RespValue}
    (h : parseItems parse n r = .ok (items, rest)) : rest.length ≤ r.length := by
  induction n generalizing r items with
  | zero =>
    cases h
    exact le_rfl
  | succ n ih =>
    obtain ⟨⟨v, r1⟩, hv, h⟩ := Except.bind_eq_ok.mp h
    obtain ⟨⟨vs, r2⟩, hvs, h⟩ := Except.bind_eq_ok.mp h
    cases h
    have := hparse hv
    have := ih hvs
    omega

/-- What a value is read from, once its line is split into the type byte and `text`. -/
inductive Parsed (depth : Nat) (text r : Bytes) : RespValue → Bytes → Prop
  | simpleString : Parsed depth text r (.simpleString text) r
  | error : Parsed depth text r (.error text) r
  | integer {n : Int} (h : readInt64 text = some n) : Parsed depth text r (.integer n) r
  | bulk {n : Nat} {b rest : Bytes} (hn : (n : Int) ≤ maxBulkLength)
      (h : readPayload n r = .ok (b, rest)) : Parsed depth text r (.bulk b) rest
  | array {n : Nat} {items : List RespValue} {rest : Bytes} (hn : (n : Int) ≤ maxArrayLength)
      (h : parseItems (parseValue depth) n r = .ok (items, rest)) :
      Parsed depth text r (.array items) rest
  | null : Parsed depth text r .null r

/-- The same, with the type byte and the text of a number. -/
inductive ParsedAs (depth : Nat) (text r : Bytes) : UInt8 → RespValue → Bytes → Prop
  | simpleString : ParsedAs depth text r 43 (.simpleString text) r
  | error : ParsedAs depth text r 45 (.error text) r
  | integer {n : Int} (h : readInt64 text = some n) : ParsedAs depth text r 58 (.integer n) r
  | bulk {n : Nat} {b rest : Bytes} (htext : readInt64 text = some (n : Int))
      (hn : (n : Int) ≤ maxBulkLength) (h : readPayload n r = .ok (b, rest)) :
      ParsedAs depth text r 36 (.bulk b) rest
  | array {n : Nat} {items : List RespValue} {rest : Bytes}
      (htext : readInt64 text = some (n : Int)) (hn : (n : Int) ≤ maxArrayLength)
      (h : parseItems (parseValue depth) n r = .ok (items, rest)) :
      ParsedAs depth text r 42 (.array items) rest
  | null {kind : UInt8} (hkind : kind = 36 ∨ kind = 42) (htext : readInt64 text = some (-1)) :
      ParsedAs depth text r kind .null r

theorem ParsedAs.parsed {depth : Nat} {text r rest : Bytes} {kind : UInt8} {v : RespValue}
    (h : ParsedAs depth text r kind v rest) : Parsed depth text r v rest := by
  cases h with
  | simpleString => exact .simpleString
  | error => exact .error
  | integer h => exact .integer h
  | bulk _ hn h => exact .bulk hn h
  | array _ hn h => exact .array hn h
  | null => exact .null

theorem parsedAs_of_parseValue {depth : Nat} {r rest : Bytes} {v : RespValue}
    (h : parseValue (depth + 1) r = .ok (v, rest)) :
    ∃ kind text r1, readLine r = .ok (kind :: text, r1) ∧ ParsedAs depth text r1 kind v rest := by
  obtain ⟨⟨line, r1⟩, hline, h⟩ := Except.bind_eq_ok.mp h
  cases line with
  | nil => cases h
  | cons kind text =>
    refine ⟨kind, text, r1, hline, ?_⟩
    dsimp only at h
    split at h
    case isTrue hkind =>
      cases h
      exact hkind ▸ .simpleString
    split at h
    case isTrue hkind =>
      cases h
      exact hkind ▸ .error
    split at h
    case isTrue hkind =>
      split at h
      case h_1 => cases h
      case h_2 n hn =>
        cases h
        exact hkind ▸ .integer hn
    split at h
    case isTrue hkind =>
      split at h
      case h_1 => cases h
      case h_2 n hn =>
        split at h
        · cases h
        split at h
        case isTrue hnull =>
          cases h
          exact .null (.inl hkind) (hnull ▸ hn)
        split at h
        · cases h
        · obtain ⟨⟨b, r2⟩, hb, h⟩ := Except.bind_eq_ok.mp h
          cases h
          exact hkind ▸ .bulk (by rw [hn]; congr 1; omega) (by omega) hb
    split at h
    case isTrue hkind =>
      split at h
      case h_1 => cases h
      case h_2 n hn =>
        split at h
        · cases h
        split at h
        case isTrue hnull =>
          cases h
          exact .null (.inr hkind) (hnull ▸ hn)
        split at h
        · cases h
        · obtain ⟨⟨items, r2⟩, hitems, h⟩ := Except.bind_eq_ok.mp h
          cases h
          exact hkind ▸ .array (by rw [hn]; congr 1; omega) (by omega) hitems
    · cases h

theorem parsed_of_parseValue {depth : Nat} {r rest : Bytes} {v : RespValue}
    (h : parseValue (depth + 1) r = .ok (v, rest)) :
    ∃ kind text r1, readLine r = .ok (kind :: text, r1) ∧ Parsed depth text r1 v rest := by
  obtain ⟨kind, text, r1, hline, hparsed⟩ := parsedAs_of_parseValue h
  exact ⟨kind, text, r1, hline, hparsed.parsed⟩

theorem shrinks_parseValue (depth : Nat) : Shrinks (parseValue depth) := by
  induction depth with
  | zero => exact fun h => nomatch h
  | succ depth ih =>
    intro r v rest h
    obtain ⟨kind, text, r1, hline, hparsed⟩ := parsed_of_parseValue h
    have hlt := length_of_readLine hline
    cases hparsed with
    | simpleString | error | integer | null => exact hlt
    | bulk _ hb => exact (length_of_readPayload hb).trans_lt hlt
    | array _ hitems => exact (length_of_parseItems ih hitems).trans_lt hlt

theorem parseItems_congr {parse parse' : Bytes → Except RespError (RespValue × Bytes)}
    (hparse : Shrinks parse) {bound : Nat}
    (heq : ∀ r : Bytes, r.length < bound → parse r = parse' r) (n : Nat) {r : Bytes}
    (hr : r.length < bound) : parseItems parse n r = parseItems parse' n r := by
  induction n generalizing r with
  | zero => rfl
  | succ n ih =>
    rw [parseItems, parseItems, ← heq r hr]
    cases hv : parse r with
    | error e => rfl
    | ok vr =>
      have hlt : vr.2.length < r.length := hparse hv
      have hrest : parseItems parse n vr.2 = parseItems parse' n vr.2 := ih (by omega)
      simp only [Except.ok_bind, hrest]

/-- A greater depth than the bytes need changes nothing. -/
theorem parseValue_of_length_lt {depth depth' : Nat} {r : Bytes} (h : r.length < depth)
    (h' : r.length < depth') : parseValue depth r = parseValue depth' r := by
  induction depth generalizing depth' r with
  | zero => omega
  | succ depth ih =>
    obtain ⟨depth', rfl⟩ : ∃ d, depth' = d + 1 := ⟨depth' - 1, by omega⟩
    rw [parseValue, parseValue]
    cases hline : readLine r with
    | error e => rfl
    | ok lr =>
      have hlt : lr.2.length < r.length := length_of_readLine hline
      have hitems : ∀ n, parseItems (parseValue depth) n lr.2 =
          parseItems (parseValue depth') n lr.2 := fun n =>
        parseItems_congr (shrinks_parseValue depth)
          (fun r hr => ih (by omega) (by omega)) n hlt
      simp only [Except.ok_bind, hitems]

/-! ### Values -/

/-- The values that survive: numbers in the 64-bit range, lengths within the limits of the parser,
and lines that are one line. -/
inductive Transmissible : RespValue → Prop
  | simpleString {s : Bytes} (h : OneLine s) : Transmissible (.simpleString s)
  | error {msg : Bytes} (h : OneLine msg) : Transmissible (.error msg)
  | integer {n : Int} (h : -2 ^ 63 ≤ n) (h' : n < 2 ^ 63) : Transmissible (.integer n)
  | bulk {b : Bytes} (h : (b.length : Int) ≤ maxBulkLength) : Transmissible (.bulk b)
  | array {items : List RespValue} (h : (items.length : Int) ≤ maxArrayLength)
      (hitems : ∀ v ∈ items, Transmissible v) : Transmissible (.array items)
  | null : Transmissible .null

theorem readPayload_append (b rest : Bytes) :
    readPayload b.length (b ++ crlf ++ rest) = .ok (b, rest) := by
  have hdrop : (b ++ crlf ++ rest).drop (b.length + 2) = rest := by
    rw [show b.length + 2 = (b ++ crlf).length by simp [crlf], List.drop_left]
  rw [readPayload, if_pos (by simp [crlf]), hdrop, List.append_assoc, List.take_left]

/-- Items that are each read back are read back one after the other. -/
theorem parseItems_write {parse : Bytes → Except RespError (RespValue × Bytes)}
    {items : List RespValue}
    (h : ∀ v ∈ items, ∀ rest, parse (writeRESP v ++ rest) = .ok (v, rest)) (rest : Bytes) :
    parseItems parse items.length (writeItems items ++ rest) = .ok (items, rest) := by
  induction items with
  | nil => simp [parseItems, writeItems]
  | cons v vs ih =>
    rw [List.length_cons, writeItems, List.append_assoc, parseItems, h v List.mem_cons_self,
      Except.ok_bind]
    dsimp only
    rw [ih fun v' hv => h v' (List.mem_cons_of_mem _ hv)]
    rfl

theorem length_write_le_of_mem {items : List RespValue} {v : RespValue} (h : v ∈ items) :
    (writeRESP v).length ≤ (writeItems items).length := by
  induction items with
  | nil => cases h
  | cons v' vs ih =>
    rw [writeItems, List.length_append]
    rcases List.mem_cons.mp h with rfl | h
    · omega
    · have := ih h
      omega

theorem maxBulkLength_eq : maxBulkLength = 536870912 := rfl

theorem maxArrayLength_eq : maxArrayLength = 1048576 := rfl

/-- A value is read back, and nothing after it is touched. -/
theorem parseValue_write {v : RespValue} (h : Transmissible v) {depth : Nat}
    (hdepth : (writeRESP v).length ≤ depth) (rest : Bytes) :
    parseValue (depth + 1) (writeRESP v ++ rest) = .ok (v, rest) := by
  induction h generalizing depth rest with
  | simpleString hs =>
    rw [parseValue, writeRESP, readLine_crlf (hs.cons (by decide)), Except.ok_bind]
    rfl
  | error hs =>
    rw [parseValue, writeRESP, readLine_crlf (hs.cons (by decide)), Except.ok_bind]
    rfl
  | @integer n hlow hhigh =>
    rw [parseValue, writeRESP, readLine_crlf (oneLine_intText (by decide) n), Except.ok_bind]
    simp [readInt64_intText hlow hhigh]
  | @bulk b hb =>
    have hmax := maxBulkLength_eq
    have hread : readInt64 (natText b.length) = some (b.length : Int) := by
      rw [← intText_natCast]
      exact readInt64_intText (by omega) (by omega)
    rw [parseValue, writeRESP, List.append_assoc, List.append_assoc,
      readLine_header (by decide), Except.ok_bind]
    simp only [hread]
    rw [if_neg (by decide), if_neg (by decide), if_neg (by decide), if_pos trivial, if_neg (by omega),
      if_neg (by omega), if_neg (by omega), Int.toNat_natCast, ← List.append_assoc,
      readPayload_append]
    rfl
  | @array items hlen hitems ih =>
    have hmax := maxArrayLength_eq
    have hread : readInt64 (natText items.length) = some (items.length : Int) := by
      rw [← intText_natCast]
      exact readInt64_intText (by omega) (by omega)
    have hinner : ∀ v ∈ items, ∀ rest, parseValue depth (writeRESP v ++ rest) = .ok (v, rest) := by
      intro v hv rest
      have hle := length_write_le_of_mem hv
      rw [writeRESP, List.length_append] at hdepth
      have hheader : 0 < (header 42 items.length).length := by simp [header]
      obtain ⟨d, rfl⟩ : ∃ d, depth = d + 1 := ⟨depth - 1, by omega⟩
      exact ih v hv (by omega) rest
    rw [parseValue, writeRESP, List.append_assoc, readLine_header (by decide), Except.ok_bind]
    simp only [hread]
    rw [if_neg (by decide), if_neg (by decide), if_neg (by decide), if_neg (by decide),
      if_pos trivial,
      if_neg (by omega), if_neg (by omega), if_neg (by omega), Int.toNat_natCast,
      parseItems_write hinner]
    rfl
  | null =>
    have hline : OneLine (ascii "$-1") := .of_plain (by decide)
    rw [parseValue, writeRESP, readLine_crlf hline, Except.ok_bind]
    rfl

theorem parseRESP_write {v : RespValue} (h : Transmissible v) (rest : Bytes) :
    parseRESP (writeRESP v ++ rest) = .ok (v, rest) :=
  parseValue_write h (by simp) rest

/-- The parser never returns a line that holds a line feed or ends with a carriage return. -/
theorem oneLine_of_readLine {r line rest : Bytes} (h : readLine r = .ok (line, rest)) :
    OneLine line := by
  unfold readLine at h
  split at h
  case h_1 => cases h
  case h_2 nl tail htail =>
    cases h
    have hhead := List.head?_dropWhile_not (fun b : UInt8 => b != 10) r
    rw [htail] at hhead
    obtain rfl : nl = 10 := by simpa using hhead
    have htrim : trimRight (r.takeWhile (· != 10) ++ [10]) =
        ((r.takeWhile (· != 10)).reverse.dropWhile fun b => b == 13 || b == 10).reverse := by
      rw [trimRight, List.reverse_concat, List.dropWhile_cons_of_pos (by decide)]
    have hlast := List.head?_dropWhile_not (fun b : UInt8 => b == 13 || b == 10)
      (r.takeWhile (· != 10)).reverse
    rw [htrim]
    constructor
    · intro hLF
      have hline := (List.dropWhile_sublist _).subset (List.mem_reverse.mp hLF)
      have hne := List.mem_takeWhile_imp (List.mem_reverse.mp hline)
      exact absurd hne (by decide)
    · intro hCR
      rw [List.getLast?_reverse] at hCR
      rw [hCR] at hlast
      exact absurd hlast (by decide)

theorem OneLine.of_cons {kind : UInt8} {s : Bytes} (h : OneLine (kind :: s)) : OneLine s := by
  refine ⟨fun hLF => h.noLF (List.mem_cons_of_mem _ hLF), fun hCR => h.noCR ?_⟩
  rw [List.getLast?_cons, hCR]
  rfl

theorem forall_of_parseItems {parse : Bytes → Except RespError (RespValue × Bytes)}
    {P : RespValue → Prop} (hparse : ∀ {r v rest}, parse r = .ok (v, rest) → P v) {n : Nat}
    {r rest : Bytes} {items : List RespValue} (h : parseItems parse n r = .ok (items, rest)) :
    items.length = n ∧ ∀ v ∈ items, P v := by
  induction n generalizing r items with
  | zero =>
    cases h
    exact ⟨rfl, fun _ hv => nomatch hv⟩
  | succ n ih =>
    obtain ⟨⟨v, r1⟩, hv, h⟩ := Except.bind_eq_ok.mp h
    obtain ⟨⟨vs, r2⟩, hvs, h⟩ := Except.bind_eq_ok.mp h
    cases h
    obtain ⟨hlength, hall⟩ := ih hvs
    exact ⟨congrArg (· + 1) hlength, List.forall_mem_cons.mpr ⟨hparse hv, hall⟩⟩

/-- Whatever the parser returns could be sent again. -/
theorem transmissible_of_parseValue {depth : Nat} {r rest : Bytes} {v : RespValue}
    (h : parseValue depth r = .ok (v, rest)) : Transmissible v := by
  induction depth generalizing r v rest with
  | zero => cases h
  | succ depth ih =>
    obtain ⟨kind, text, r1, hline, hparsed⟩ := parsed_of_parseValue h
    have htext := (oneLine_of_readLine hline).of_cons
    cases hparsed with
    | simpleString => exact .simpleString htext
    | error => exact .error htext
    | integer hn =>
      obtain ⟨-, hrange⟩ := Option.filter_eq_some_iff.mp hn
      have hrange := of_decide_eq_true hrange
      exact .integer hrange.1 hrange.2
    | @bulk n b rest hn hb =>
      refine .bulk ?_
      unfold readPayload at hb
      split at hb
      · cases hb
        rw [List.length_take]
        omega
      · cases hb
    | array hn hitems =>
      obtain ⟨rfl, hall⟩ := forall_of_parseItems ih hitems
      exact .array hn hall
    | null => exact .null

/-- A value comes back from its frame exactly when it keeps the limits. -/
theorem parseRESP_write_iff {v : RespValue} {rest : Bytes} :
    parseRESP (writeRESP v ++ rest) = .ok (v, rest) ↔ Transmissible v :=
  ⟨transmissible_of_parseValue, fun h => parseRESP_write h rest⟩

theorem mapM_commandArg (args : List Bytes) : (args.map .bulk).mapM commandArg = .ok args := by
  induction args with
  | nil => rfl
  | cons a args ih =>
    rw [List.map_cons, List.mapM_cons, ih]
    rfl

/-- A command that keeps the limits is read back. -/
theorem parseCommand_write {args : List Bytes} (hlen : (args.length : Int) ≤ maxArrayLength)
    (hargs : ∀ a ∈ args, (a.length : Int) ≤ maxBulkLength) (rest : Bytes) :
    parseCommand (writeRESP (respCommand args) ++ rest) = .ok (args, rest) := by
  have hsend : Transmissible (respCommand args) := by
    refine .array (by simpa using hlen) fun v hv => ?_
    obtain ⟨a, ha, rfl⟩ := List.mem_map.mp hv
    exact .bulk (hargs a ha)
  rw [parseCommand, parseRESP_write hsend, Except.ok_bind]
  simp only [respCommand, mapM_commandArg]
  rfl

/-- A command that was read keeps the limits. -/
theorem length_of_parseCommand {r rest : Bytes} {args : List Bytes}
    (h : parseCommand r = .ok (args, rest)) :
    (args.length : Int) ≤ maxArrayLength ∧ ∀ a ∈ args, (a.length : Int) ≤ maxBulkLength := by
  obtain ⟨⟨v, r1⟩, hv, h⟩ := Except.bind_eq_ok.mp h
  have hsend := transmissible_of_parseValue hv
  cases hsend with
  | @array items hlength hitems =>
    obtain ⟨as, has, h⟩ := Except.bind_eq_ok.mp h
    obtain ⟨rfl, -⟩ := Prod.mk.inj (Except.ok.inj h)
    have hall := Except.mapM_eq_ok.mp has
    refine ⟨hall.length_eq ▸ hlength, fun a ha => ?_⟩
    obtain ⟨i, hi, rfl⟩ := List.getElem_of_mem ha
    have hi' : i < items.length := hall.length_eq ▸ hi
    have harg : commandArg items[i] = .ok as[i] := hall.get hi' hi
    have hsend := hitems items[i] (List.getElem_mem hi')
    generalize items[i] = v at harg hsend
    cases hsend with
    | bulk hb =>
      cases harg
      exact hb
    | _ => cases harg
  | _ => cases h

end SqlOptimizer.Cache
