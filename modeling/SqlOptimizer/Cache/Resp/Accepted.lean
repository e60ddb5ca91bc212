import SqlOptimizer.Cache.Resp.RoundTrip
import SqlOptimizer.Library.Spellings

/-! The bytes that the parser takes for a value: more than the encodings of RESP. -/

namespace SqlOptimizer.Cache

/-- A line as `readLine` takes it: a text, then any number of CR, then LF. -/
def looseLine (text : Bytes) (crs : Nat) : Bytes := text ++ List.replicate crs 13 ++ [10]

/-- What `ParseRESP` takes for a value.  Only the two bytes after a payload are not looked at. -/
inductive Accepts : RespValue → Bytes → Prop
  | simpleString {s : Bytes} (h : OneLine s) (crs : Nat) :
      Accepts (.simpleString s) (looseLine (43 :: s) crs)
  | error {msg : Bytes} (h : OneLine msg) (crs : Nat) :
      Accepts (.error msg) (looseLine (45 :: msg) crs)
  | integer {n : Int} {text : Bytes} (h : SpellsInt text n) (hn : -2 ^ 63 ≤ n ∧ n < 2 ^ 63)
      (crs : Nat) : Accepts (.integer n) (looseLine (58 :: text) crs)
  | bulk {b text after : Bytes} (h : SpellsInt text b.length) (hb : b.length ≤ maxBulkLength)
      (hafter : after.length = 2) (crs : Nat) :
      Accepts (.bulk b) (looseLine (36 :: text) crs ++ b ++ after)
  | array {items : List (RespValue × Bytes)} {text : Bytes} (h : SpellsInt text items.length)
      (hitems : items.length ≤ maxArrayLength) (heach : ∀ item ∈ items, Accepts item.1 item.2)
      (crs : Nat) :
      Accepts (.array (items.map (·.1))) (looseLine (42 :: text) crs ++ items.flatMap (·.2))
  | null {kind : UInt8} {text : Bytes} (hkind : kind = 36 ∨ kind = 42) (h : SpellsInt text (-1))
      (crs : Nat) : Accepts .null (looseLine (kind :: text) crs)

/-- The encodings of RESP2: lines end in CR LF and have no other CR, numbers are canonical, and
CR LF follows a payload. -/
inductive Strict : RespValue → Bytes → Prop
  | simpleString {s : Bytes} (h : plain s = true) : Strict (.simpleString s) (43 :: s ++ crlf)
  | error {msg : Bytes} (h : plain msg = true) : Strict (.error msg) (45 :: msg ++ crlf)
  | integer (n : Int) : Strict (.integer n) (58 :: intText n ++ crlf)
  | bulk (b : Bytes) : Strict (.bulk b) (header 36 b.length ++ b ++ crlf)
  | array {items : List (RespValue × Bytes)} (heach : ∀ item ∈ items, Strict item.1 item.2) :
      Strict (.array (items.map (·.1))) (header 42 items.length ++ items.flatMap (·.2))
  | null {kind : UInt8} (hkind : kind = 36 ∨ kind = 42) : Strict .null (kind :: ascii "-1" ++ crlf)

/-! ### Lines -/

/-- The bytes that `trimRight` removes. -/
def isLineEnd (b : UInt8) : Bool := b == 13 || b == 10

theorem trimRight_append {s t : Bytes} (hs : OneLine s) (ht : ∀ b ∈ t, isLineEnd b = true) :
    trimRight (s ++ t) = s := by
  have hdrop : s.reverse.dropWhile isLineEnd = s.reverse := by
    cases hrev : s.reverse with
    | nil => rfl
    | cons b bs =>
      have hlast : s.getLast? = some b := by
        rw [← List.head?_reverse, hrev]
        rfl
      have hCR : b ≠ 13 := by
        rintro rfl
        exact hs.noCR hlast
      have hLF : b ≠ 10 := by
        rintro rfl
        exact hs.noLF (List.mem_of_getLast? hlast)
      exact List.dropWhile_cons_of_neg (by simp [isLineEnd, hCR, hLF])
  show ((s ++ t).reverse.dropWhile isLineEnd).reverse = s
  rw [List.reverse_append,
    List.dropWhile_append_of_pos fun b hb => ht b (List.mem_reverse.mp hb), hdrop,
    List.reverse_reverse]

theorem readLine_looseLine {text : Bytes} (h : OneLine text) (crs : Nat) (rest : Bytes) :
    readLine (looseLine text crs ++ rest) = .ok (text, rest) := by
  have hLF : (10 : UInt8) ∉ text ++ List.replicate crs 13 := by
    simp [h.noLF, List.mem_replicate]
  have hsplit : looseLine text crs ++ rest = (text ++ List.replicate crs 13) ++ 10 :: rest := by
    simp [looseLine]
  have hend : ∀ b ∈ List.replicate crs (13 : UInt8) ++ [10], isLineEnd b = true := by
    intro b hb
    rcases List.mem_append.mp hb with hb | hb
    · rw [List.eq_of_mem_replicate hb]
      rfl
    · rw [List.mem_singleton.mp hb]
      rfl
  rw [hsplit, readLine, (takeWhile_append_of_notMem hLF).1, (takeWhile_append_of_notMem hLF).2]
  dsimp only
  rw [List.append_assoc, trimRight_append h hend]

/-- What is left of a text without its CRs at the end, and the CRs. -/
theorem trimRight_snoc {t : Bytes} (h : 10 ∉ t) :
    ∃ crs, t = trimRight (t ++ [10]) ++ List.replicate crs 13 ∧
      OneLine (trimRight (t ++ [10])) := by
  have htrim : trimRight (t ++ [10]) = (t.reverse.dropWhile isLineEnd).reverse := by
    show ((t ++ [10]).reverse.dropWhile isLineEnd).reverse = _
    rw [List.reverse_append]
    rfl
  have hcrs : ∀ b ∈ t.reverse.takeWhile isLineEnd, b = 13 := by
    intro b hb
    have hend := List.mem_takeWhile_imp hb
    have hmem : b ∈ t := List.mem_reverse.mp ((List.takeWhile_sublist _).mem hb)
    rw [isLineEnd, Bool.or_eq_true, beq_iff_eq, beq_iff_eq] at hend
    refine hend.resolve_right ?_
    rintro rfl
    exact h hmem
  have hparts : t = (t.reverse.dropWhile isLineEnd).reverse ++
      (t.reverse.takeWhile isLineEnd).reverse := by
    rw [← List.reverse_append, List.takeWhile_append_dropWhile, List.reverse_reverse]
  rw [htrim]
  refine ⟨(t.reverse.takeWhile isLineEnd).length, ?_, fun hmem => h ?_, ?_⟩
  · have hreplicate : (t.reverse.takeWhile isLineEnd).reverse =
        List.replicate (t.reverse.takeWhile isLineEnd).length 13 :=
      List.eq_replicate_iff.mpr ⟨List.length_reverse, fun b hb => hcrs b (List.mem_reverse.mp hb)⟩
    rw [← hreplicate]
    exact hparts
  · exact List.mem_reverse.mp ((List.dropWhile_sublist _).mem (List.mem_reverse.mp hmem))
  · rw [List.getLast?_reverse]
    intro hhead
    have hnot := List.head?_dropWhile_not isLineEnd t.reverse
    rw [hhead] at hnot
    exact absurd hnot (by decide)

/-- A line that is read is such a line. -/
theorem looseLine_of_readLine {r line rest : Bytes} (h : readLine r = .ok (line, rest)) :
    ∃ crs, r = looseLine line crs ++ rest ∧ OneLine line := by
  unfold readLine at h
  split at h
  case h_1 => cases h
  case h_2 nl tail htail =>
    cases h
    have hnl : nl = 10 := by
      have hnot := List.head?_dropWhile_not (fun b : UInt8 => b != 10) r
      rw [htail] at hnot
      simpa using hnot
    have hLF : (10 : UInt8) ∉ r.takeWhile (· != 10) := by
      intro hmem
      have hne := List.mem_takeWhile_imp hmem
      exact absurd hne (by decide)
    subst hnl
    obtain ⟨crs, hcrs, hline⟩ := trimRight_snoc hLF
    refine ⟨crs, ?_, hline⟩
    rw [looseLine, ← hcrs, List.append_assoc, List.singleton_append, ← htail,
      List.takeWhile_append_dropWhile]

theorem oneLine_of_spellsInt {text : Bytes} {n : Int} (h : SpellsInt text n) : OneLine text := by
  obtain ⟨sign, z, rfl, hsign⟩ := h
  have hplain : ∀ b ∈ sign, b ≠ 10 ∧ b ≠ 13 := by
    intro b hb
    rcases hsign with ⟨rfl, -⟩ | ⟨rfl | rfl, -⟩
    · rw [List.mem_singleton.mp hb]
      decide
    · rw [List.mem_singleton.mp hb]
      decide
    · cases hb
  apply OneLine.of_forall
  intro b hb
  rw [List.append_assoc] at hb
  rcases List.mem_append.mp hb with hb | hb
  · exact hplain b hb
  · exact ne_of_isDigitByte (isDigitByte_of_mem_zeros hb)

/-! ### What is parsed is accepted -/

theorem accepts_of_parseItems {parse : Bytes → Except RespError (RespValue × Bytes)}
    (hparse : ∀ {r v rest}, parse r = .ok (v, rest) → ∃ c, r = c ++ rest ∧ Accepts v c)
    {n : Nat} {r rest : Bytes} {vs : List RespValue} (h : parseItems parse n r = .ok (vs, rest)) :
    ∃ items : List (RespValue × Bytes), items.length = n ∧ vs = items.map (·.1) ∧
      r = items.flatMap (·.2) ++ rest ∧ ∀ item ∈ items, Accepts item.1 item.2 := by
  induction n generalizing r vs with
  | zero =>
    cases h
    exact ⟨[], rfl, rfl, rfl, nofun⟩
  | succ n ih =>
    obtain ⟨⟨v, r1⟩, hv, h⟩ := Except.bind_eq_ok.mp h
    obtain ⟨⟨vs', r2⟩, hvs, h⟩ := Except.bind_eq_ok.mp h
    cases h
    obtain ⟨c, rfl, hc⟩ := hparse hv
    obtain ⟨items, rfl, rfl, rfl, hitems⟩ := ih hvs
    refine ⟨(v, c) :: items, rfl, rfl, ?_, List.forall_mem_cons.mpr ⟨hc, hitems⟩⟩
    rw [List.flatMap_cons, List.append_assoc]

theorem accepts_of_parseValue {depth : Nat} {r rest : Bytes} {v : RespValue}
    (h : parseValue depth r = .ok (v, rest)) : ∃ c, r = c ++ rest ∧ Accepts v c := by
  induction depth generalizing r v rest with
  | zero => cases h
  | succ depth ih =>
    obtain ⟨kind, text, r1, hline, hparsed⟩ := parsedAs_of_parseValue h
    obtain ⟨crs, rfl, hone⟩ := looseLine_of_readLine hline
    cases hparsed with
    | simpleString => exact ⟨_, rfl, .simpleString hone.of_cons crs⟩
    | error => exact ⟨_, rfl, .error hone.of_cons crs⟩
    | integer htext =>
      obtain ⟨hspells, hrange⟩ := readInt64_eq_some.mp htext
      exact ⟨_, rfl, .integer hspells hrange crs⟩
    | null hkind htext => exact ⟨_, rfl, .null hkind (readInt64_eq_some.mp htext).1 crs⟩
    | @bulk n b _ htext hn hpayload =>
      unfold readPayload at hpayload
      split at hpayload
      case isFalse => cases hpayload
      case isTrue hlen =>
        cases hpayload
        have hb : (r1.take n).length = n := List.length_take_of_le (by omega)
        have hafter : ((r1.drop n).take 2).length = 2 := by
          rw [List.length_take, List.length_drop]
          omega
        refine ⟨_, ?_, @Accepts.bulk (r1.take n) text ((r1.drop n).take 2) ?_ ?_ hafter crs⟩
        · rw [List.append_assoc, List.append_assoc, ← List.drop_drop, List.take_append_drop,
            List.take_append_drop]
        · rw [hb]
          exact (readInt64_eq_some.mp htext).1
        · rw [hb]
          exact hn
    | @array n items _ htext hn hitems =>
      obtain ⟨parts, rfl, rfl, rfl, hparts⟩ := accepts_of_parseItems ih hitems
      refine ⟨_, ?_, .array (readInt64_eq_some.mp htext).1 hn hparts crs⟩
      rw [List.append_assoc]

/-! ### What is accepted is parsed -/

theorem parseItems_of_forall {parse : Bytes → Except RespError (RespValue × Bytes)} {bound : Nat}
    {items : List (RespValue × Bytes)} (hparse : ∀ item ∈ items, ∀ rest : Bytes,
      (item.2 ++ rest).length < bound → parse (item.2 ++ rest) = .ok (item.1, rest))
    {rest : Bytes} (hlen : (items.flatMap (·.2) ++ rest).length < bound) :
    parseItems parse items.length (items.flatMap (·.2) ++ rest) =
      .ok (items.map (·.1), rest) := by
  induction items with
  | nil => rfl
  | cons item items ih =>
    rw [List.flatMap_cons, List.append_assoc] at hlen ⊢
    have hrest : (items.flatMap (·.2) ++ rest).length < bound := by
      rw [List.length_append] at hlen
      omega
    have hitems := ih (fun i hi => hparse i (List.mem_cons_of_mem _ hi)) hrest
    rw [List.length_cons, parseItems, hparse item List.mem_cons_self _ hlen]
    simp only [Except.ok_bind, hitems]
    rfl

theorem parseValue_of_accepts {v : RespValue} {c : Bytes} (h : Accepts v c) :
    ∀ {depth : Nat} {rest : Bytes}, (c ++ rest).length < depth →
      parseValue depth (c ++ rest) = .ok (v, rest) := by
  have hdepth : ∀ {d k : Nat}, k < d → ∃ d', d = d' + 1 :=
    fun {d _} hlt => ⟨d - 1, by omega⟩
  induction h with
  | simpleString h crs =>
    intro depth rest hlt
    obtain ⟨depth, rfl⟩ := hdepth hlt
    rw [parseValue, readLine_looseLine (h.cons (by decide))]
    rfl
  | error h crs =>
    intro depth rest hlt
    obtain ⟨depth, rfl⟩ := hdepth hlt
    rw [parseValue, readLine_looseLine (h.cons (by decide))]
    rfl
  | integer h hn crs =>
    intro depth rest hlt
    obtain ⟨depth, rfl⟩ := hdepth hlt
    rw [parseValue, readLine_looseLine ((oneLine_of_spellsInt h).cons (by decide))]
    simp only [Except.ok_bind, readInt64_eq_some.mpr ⟨h, hn⟩]
    rfl
  | @bulk b text after h hb hafter crs =>
    intro depth rest hlt
    obtain ⟨depth, rfl⟩ := hdepth hlt
    have hmax : maxBulkLength = 536870912 := rfl
    have htext : readInt64 text = some (b.length : Int) :=
      readInt64_eq_some.mpr ⟨h, by omega, by omega⟩
    have hpayload : readPayload b.length (b ++ (after ++ rest)) = .ok (b, rest) := by
      have hlen : b.length + 2 ≤ (b ++ (after ++ rest)).length := by
        simp only [List.length_append]
        omega
      rw [readPayload, if_pos hlen, List.take_left, ← List.drop_drop, List.drop_left, ← hafter,
        List.drop_left]
    rw [List.append_assoc, List.append_assoc, parseValue,
      readLine_looseLine ((oneLine_of_spellsInt h).cons (by decide))]
    simp only [Except.ok_bind, htext]
    rw [if_neg (by decide), if_neg (by decide), if_neg (by decide), if_pos trivial,
      if_neg (by omega), if_neg (by omega), if_neg (by omega), Int.toNat_natCast, hpayload]
    rfl
  | @array items text h hmany heach crs ih =>
    intro depth rest hlt
    obtain ⟨depth, rfl⟩ := hdepth hlt
    have hmax : maxArrayLength = 1048576 := rfl
    have htext : readInt64 text = some (items.length : Int) :=
      readInt64_eq_some.mpr ⟨h, by omega, by omega⟩
    have hitems : parseItems (parseValue depth) items.length (items.flatMap (·.2) ++ rest) =
        .ok (items.map (·.1), rest) := by
      refine parseItems_of_forall (fun item hitem rest hrest => ih item hitem hrest) ?_
      simp only [looseLine, List.length_append, List.length_cons] at hlt ⊢
      omega
    rw [List.append_assoc, parseValue,
      readLine_looseLine ((oneLine_of_spellsInt h).cons (by decide))]
    simp only [Except.ok_bind, htext]
    rw [if_neg (by decide), if_neg (by decide), if_neg (by decide), if_neg (by decide),
      if_pos trivial, if_neg (by omega), if_neg (by omega), if_neg (by omega),
      Int.toNat_natCast, hitems]
    rfl
  | @null kind text hkind h crs =>
    intro depth rest hlt
    obtain ⟨depth, rfl⟩ := hdepth hlt
    have htext : readInt64 text = some (-1) := readInt64_eq_some.mpr ⟨h, by decide⟩
    rcases hkind with rfl | rfl
    · rw [parseValue, readLine_looseLine ((oneLine_of_spellsInt h).cons (by decide))]
      simp only [Except.ok_bind, htext]
      rfl
    · rw [parseValue, readLine_looseLine ((oneLine_of_spellsInt h).cons (by decide))]
      simp only [Except.ok_bind, htext]
      rfl

/-- The parser takes the bytes that are accepted for a value, all of them and nothing else. -/
theorem parseRESP_accepts {r rest : Bytes} {v : RespValue} :
    parseRESP r = .ok (v, rest) ↔ ∃ c, r = c ++ rest ∧ Accepts v c := by
  constructor
  · exact accepts_of_parseValue
  · rintro ⟨c, rfl, hc⟩
    exact parseValue_of_accepts hc (Nat.lt_succ_self _)

/-- No accepted bytes go on as others do: a stream is read in one way. -/
theorem Accepts.unique {v v' : RespValue} {c c' rest rest' : Bytes} (h : Accepts v c)
    (h' : Accepts v' c') (heq : c ++ rest = c' ++ rest') : v = v' ∧ c = c' := by
  have hparse := parseValue_of_accepts h (Nat.lt_succ_self (c ++ rest).length)
  have hparse' := parseValue_of_accepts h' (Nat.lt_succ_self (c' ++ rest').length)
  rw [heq, hparse'] at hparse
  cases hparse
  exact ⟨rfl, List.append_cancel_right heq⟩

/-- A line without CR, one with two and a number with a sign and a zero, and a payload in front of
other bytes are taken for the same values as their encodings. -/
theorem parseRESP_loose :
    (parseRESP (ascii ":5\n") = .ok (.integer 5, []) ∧ ¬ Strict (.integer 5) (ascii ":5\n")) ∧
    (parseRESP (ascii ":+05\r\r\n") = .ok (.integer 5, []) ∧
      ¬ Strict (.integer 5) (ascii ":+05\r\r\n")) ∧
    (parseRESP (ascii "$1\r\naXY") = .ok (.bulk (ascii "a"), []) ∧
      ¬ Strict (.bulk (ascii "a")) (ascii "$1\r\naXY")) := by
  have hinteger : ∀ {n : Int} {c : Bytes}, Strict (.integer n) c → c = 58 :: intText n ++ crlf := by
    intro n c h
    cases h
    rfl
  have hbulk : ∀ {b c : Bytes}, Strict (.bulk b) c → c = header 36 b.length ++ b ++ crlf := by
    intro b c h
    cases h
    rfl
  refine ⟨⟨rfl, fun h => ?_⟩, ⟨rfl, fun h => ?_⟩, ⟨rfl, fun h => ?_⟩⟩
  · exact absurd (hinteger h) (by decide)
  · exact absurd (hinteger h) (by decide)
  · exact absurd (hbulk h) (by decide)

end SqlOptimizer.Cache
