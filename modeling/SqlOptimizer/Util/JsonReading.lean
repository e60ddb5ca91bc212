import SqlOptimizer.Util.JsonTokens

/-! The parser and the grammar over its tokens: what the parser takes for a phrase is one, and it
takes every phrase. -/

namespace SqlOptimizer

open JsonGrammar

section

variable [NumberText]

/-! ### What the parser does at a value -/

omit [NumberText] in
theorem exists_blank (text : List Char) :
    ∃ a, Blank isSpace a ∧ text = a ++ skipWhitespace text :=
  ⟨text.takeWhile isSpace, fun _ hc => List.mem_takeWhile_imp hc,
    (List.takeWhile_append_dropWhile).symm⟩

omit [NumberText] in
theorem skipWhitespace_blank {a : List Char} (ha : Blank isSpace a) (text : List Char) :
    skipWhitespace (a ++ text) = skipWhitespace text :=
  List.dropWhile_append_of_pos ha

omit [NumberText] in
theorem skipWhitespace_idem (text : List Char) :
    skipWhitespace (skipWhitespace text) = skipWhitespace text := by
  obtain ⟨a, ha, heq⟩ := exists_blank text
  conv_rhs => rw [heq, skipWhitespace_blank ha]

variable {size fuel : Nat} {text rest : List Char}

omit [NumberText] in
theorem expect_eq_ok {c : Char} (hc : c ≠ Char.ofNat 0) :
    expect size c text = .ok rest ↔ text = c :: rest := by
  unfold expect
  constructor
  · intro h
    split at h
    · next hpeek =>
      cases h
      exact (cons_tail_of_peek hpeek hc).symm
    · cases h
  · rintro rfl
    exact if_pos rfl

omit [NumberText] in
theorem parseRawString_eq_ok {s : String} (h : parseRawString size text = .ok (s, rest)) :
    Quoted Unquoted text rest := by
  obtain ⟨u, hu, h⟩ := Except.bind_eq_ok.mp h
  obtain ⟨⟨t, rest'⟩, ht, h⟩ := Except.bind_eq_ok.mp h
  cases h
  obtain ⟨b, hb, rfl⟩ := unquoted_of_parseStringBody ht
  rw [(expect_eq_ok (by decide)).mp hu]
  exact .intro hb rest

omit [NumberText] in
theorem parseRawString_of_quoted (size : Nat) (h : Quoted Unquoted text rest) :
    ∃ s, parseRawString size text = .ok (s, rest) := by
  obtain ⟨h, rest⟩ := h
  obtain ⟨t, ht⟩ := parseStringBody_of_unquoted h rest
  exact ⟨String.ofList t, Except.bind_eq_ok.mpr ⟨_, rfl, Except.bind_eq_ok.mpr ⟨_, ht, rfl⟩⟩⟩

theorem parseValue_bracket (fuel : Nat) (h : skipWhitespace text = '[' :: rest) :
    parseValue size (fuel + 1) text =
      if peek (skipWhitespace rest) = ']' then .ok (.array [], (skipWhitespace rest).tail)
      else do
        let (elements, r) ← parseElements size fuel (skipWhitespace rest)
        return (.array elements, ← expect size ']' (skipWhitespace r)) := by
  rw [parseValue, h]
  rfl

theorem parseValue_brace (fuel : Nat) (h : skipWhitespace text = '{' :: rest) :
    parseValue size (fuel + 1) text =
      if peek (skipWhitespace rest) = '}' then .ok (.object [], (skipWhitespace rest).tail)
      else do
        let (entries, r) ← parseEntries size fuel [] (skipWhitespace rest)
        return (.object entries, ← expect size '}' (skipWhitespace r)) := by
  rw [parseValue, h]
  rfl

theorem parseValue_quote (fuel : Nat) (h : skipWhitespace text = '"' :: rest) :
    parseValue size (fuel + 1) text = do
      let (s, r) ← parseRawString size ('"' :: rest)
      return (.string s, r) := by
  rw [parseValue, h]
  rfl

theorem parseValue_startsNumber (fuel : Nat) (h : StartsNumber (peek (skipWhitespace text))) :
    parseValue size (fuel + 1) text = parseNumber size (skipWhitespace text) := by
  have hne : ∀ d ∈ ['{', '[', ']', '"', 't', 'f', 'n'], peek (skipWhitespace text) ≠ d :=
    fun d hd => h.ne hd
  simp only [List.forall_mem_cons, List.not_mem_nil, false_implies, implies_true] at hne
  obtain ⟨h1, h2, -, h3, h4, h5, h6, -⟩ := hne
  rw [parseValue]
  simp only [h1, h2, h3, h4, h5, h6, or_self, if_false]

theorem parseNumber_eq {n : List Char} (hscan : scanNumber text = (n, rest)) (hne : n ≠ []) :
    parseNumber size text =
      (NumberText.stod n).mapError .stod >>= fun x => .ok (.number x, rest) := by
  simp only [parseNumber, hscan, hne, if_false]
  rfl

/-! ### What the parser takes, the grammar has -/

/-- The grammar has what a result of the parser says: the phrase that was read, or the number that
`std::stod` refused. -/
def ReadAs {α : Type} (symbol : Symbol) (text : List Char) : Except JsonError (α × List Char) → Prop
  | .ok (_, rest) => Derives scanned symbol text rest
  | .error (.stod _) => Stuck scanned Refused symbol text
  | .error (.runtimeError _) => True

variable {α β : Type} {symbol symbol' : Symbol} {text' : List Char}

theorem ReadAs.bind {x : Except JsonError (α × List Char)}
    {f : α × List Char → Except JsonError (β × List Char)} (hx : ReadAs symbol text x)
    (hstuck : Stuck scanned Refused symbol text → Stuck scanned Refused symbol' text')
    (hok : ∀ a rest, Derives scanned symbol text rest → ReadAs symbol' text' (f (a, rest))) :
    ReadAs symbol' text' (x >>= f) := by
  match x, hx with
  | .ok (a, rest), hx => exact hok a rest hx
  | .error (.stod e), hx => exact hstuck hx
  | .error (.runtimeError what), hx => trivial

/-- What only throws `std::runtime_error`. -/
def OnlyRuntimeErrors (x : Except JsonError α) : Prop := ∀ e, x ≠ .error (.stod e)

theorem OnlyRuntimeErrors.bind {x : Except JsonError α} (hx : OnlyRuntimeErrors x)
    {f : α → Except JsonError (β × List Char)} (hok : ∀ a, x = .ok a → ReadAs symbol text (f a)) :
    ReadAs symbol text (x >>= f) := by
  match x, hx with
  | .ok a, _ => exact hok a rfl
  | .error (.stod e), hx => exact absurd rfl (hx e)
  | .error (.runtimeError what), _ => trivial

omit [NumberText] in
theorem onlyRuntimeErrors_expect (size : Nat) (c : Char) (text : List Char) :
    OnlyRuntimeErrors (expect size c text) := by
  intro e h
  unfold expect at h
  split at h <;> cases h

omit [NumberText] in
theorem onlyRuntimeErrors_parseStringBody (text : List Char) :
    OnlyRuntimeErrors (parseStringBody text) := by
  intro e h
  fun_induction parseStringBody text with
  | case1 | case2 | case3 => cases h
  | case4 esc text hq ih | case5 c text hq hb ih =>
    rcases Except.bind_eq_error.mp h with h | ⟨a, -, h⟩
    · exact ih h
    · cases h

omit [NumberText] in
theorem onlyRuntimeErrors_parseRawString (size : Nat) (text : List Char) :
    OnlyRuntimeErrors (parseRawString size text) := by
  intro e h
  rcases Except.bind_eq_error.mp h with h | ⟨rest, -, h⟩
  · exact onlyRuntimeErrors_expect size '"' text e h
  · rcases Except.bind_eq_error.mp h with h | ⟨a, -, h⟩
    · exact onlyRuntimeErrors_parseStringBody rest e h
    · cases h

theorem padded_of_value (h : Derives scanned .value (skipWhitespace text) rest) :
    Derives scanned .padded text (skipWhitespace rest) := by
  obtain ⟨a, ha, heq⟩ := exists_blank text
  obtain ⟨b, hb, heq'⟩ := exists_blank rest
  rw [heq]
  exact .padded ha hb (heq' ▸ h)

theorem stuck_padded (h : Stuck scanned Refused .value (skipWhitespace text)) :
    Stuck scanned Refused .padded text := by
  obtain ⟨a, ha, heq⟩ := exists_blank text
  rw [heq]
  exact .padded ha h

theorem ReadAs.of_skip {x : Except JsonError (α × List Char)} (hsymbol : symbol ≠ .value)
    (h : ReadAs symbol (skipWhitespace text) x) : ReadAs symbol text x := by
  obtain ⟨a, ha, heq⟩ := exists_blank text
  rw [heq]
  match x, h with
  | .ok _, h => exact h.blank_append ha hsymbol
  | .error (.stod _), h => exact h.blank_append ha hsymbol
  | .error (.runtimeError _), _ => trivial

/-- One round of the loop over the elements. -/
theorem readAs_parseElements (hvalue : ∀ text,
      ReadAs .value (skipWhitespace text) (parseValue size fuel text))
    (helements : ∀ text, ReadAs .elements text (parseElements size fuel text)) (text : List Char) :
    ReadAs .elements text (parseElements size (fuel + 1) text) := by
  rw [parseElements]
  refine (hvalue text).bind (fun h => .element (stuck_padded h)) fun v rest h => ?_
  have hpadded := padded_of_value h
  dsimp only
  split
  · next hcomma =>
    rw [← cons_tail_of_peek hcomma (by decide)] at hpadded
    have hmore : ReadAs .elements (skipWhitespace rest).tail
        (parseElements size fuel (skipWhitespace (skipWhitespace rest).tail)) :=
      (helements _).of_skip (by simp)
    exact hmore.bind (.laterElement hpadded) fun vs rest hs => .nextElement hpadded hs
  · exact .lastElement hpadded

/-- One round of the loop over the members. -/
theorem readAs_parseEntries (hvalue : ∀ text,
      ReadAs .value (skipWhitespace text) (parseValue size fuel text))
    (hentries : ∀ es text, ReadAs .members text (parseEntries size fuel es text))
    (es : List (String × JsonValue)) (text : List Char) :
    ReadAs .members text (parseEntries size (fuel + 1) es text) := by
  rw [parseEntries]
  refine (onlyRuntimeErrors_parseRawString size _).bind ?_
  rintro ⟨key, afterKey⟩ hkey
  refine (onlyRuntimeErrors_expect size ':' _).bind fun v hcolon => ?_
  have hk : Key scanned text v := by
    obtain ⟨a, ha, heq⟩ := exists_blank text
    obtain ⟨b, hb, heq'⟩ := exists_blank afterKey
    rw [(expect_eq_ok (by decide)).mp hcolon] at heq'
    rw [heq]
    exact .intro ha hb (heq' ▸ parseRawString_eq_ok hkey)
  refine (hvalue v).bind (fun h => .member hk (stuck_padded h)) fun w rest h => ?_
  have hpadded := padded_of_value h
  dsimp only
  split
  · next hcomma =>
    rw [← cons_tail_of_peek hcomma (by decide)] at hpadded
    have hrest := hentries (JsonValue.setEntry es key w) (skipWhitespace rest).tail
    rw [← Except.bind_ok (parseEntries size fuel _ _)]
    exact hrest.bind (.laterMember hk hpadded) fun vs rest hs => .nextMember hk hpadded hs
  · exact .lastMember hk hpadded

theorem derives_skip {symbol : Symbol} {c : Char} {r r' : List Char} (hsymbol : symbol ≠ .value)
    (h : Derives scanned symbol text r) (hr : skipWhitespace r = c :: r') :
    Derives scanned symbol text (c :: r') := by
  obtain ⟨b, hb, heq⟩ := exists_blank r
  rw [heq, hr] at h
  exact h.append_blank hb hsymbol

theorem readAs_parseNumber (size : Nat) (text : List Char) :
    ReadAs .value text (parseNumber size text) := by
  obtain ⟨n, rest, hscan⟩ : ∃ n rest, scanNumber text = (n, rest) := ⟨_, _, rfl⟩
  by_cases hne : n = []
  · rw [parseNumber, hscan]
    dsimp only
    rw [if_pos hne]
    trivial
  · rw [parseNumber_eq hscan hne]
    cases hstod : NumberText.stod n with
    | ok x =>
      have hnumber : scanned.number text rest := ⟨n, x, hscan, hne, hstod⟩
      exact Derives.number hnumber
    | error e =>
      have hrefused : Refused text := ⟨n, rest, e, hscan, hne, hstod⟩
      exact Stuck.bad hrefused

theorem readAs_parseBool (size : Nat) (text : List Char) :
    ReadAs .value text (parseBool size text) := by
  unfold parseBool
  split
  · next h =>
    obtain ⟨rest, rfl⟩ := List.isPrefixOf_iff_prefix.mp h
    exact Derives.trueName rest
  · split
    · next h =>
      obtain ⟨rest, rfl⟩ := List.isPrefixOf_iff_prefix.mp h
      exact Derives.falseName rest
    · trivial

theorem readAs_parseNull (size : Nat) (text : List Char) :
    ReadAs .value text (parseNull size text) := by
  unfold parseNull
  split
  · next h =>
    obtain ⟨rest, rfl⟩ := List.isPrefixOf_iff_prefix.mp h
    exact Derives.nullName rest
  · trivial

/-- One value. -/
theorem readAs_parseValue (helements : ∀ text, ReadAs .elements text (parseElements size fuel text))
    (hentries : ∀ es text, ReadAs .members text (parseEntries size fuel es text))
    (text : List Char) :
    ReadAs .value (skipWhitespace text) (parseValue size (fuel + 1) text) := by
  by_cases hbrace : peek (skipWhitespace text) = '{'
  · obtain ⟨rest, hskip⟩ := exists_cons_of_peek hbrace (by decide)
    rw [parseValue_brace fuel hskip, hskip]
    split
    · next hclose =>
      obtain ⟨r, hr⟩ := exists_cons_of_peek hclose (by decide)
      obtain ⟨a, ha, heq⟩ := exists_blank rest
      rw [hr] at heq ⊢
      rw [heq]
      exact Derives.emptyObject (L := scanned) ha _
    · have hmembers : ReadAs .members rest (parseEntries size fuel [] (skipWhitespace rest)) :=
        (hentries _ _).of_skip nofun
      refine hmembers.bind .object fun es r h => ?_
      refine (onlyRuntimeErrors_expect size '}' _).bind fun r' hclose => ?_
      exact Derives.object (derives_skip nofun h ((expect_eq_ok (by decide)).mp hclose))
  by_cases hbracket : peek (skipWhitespace text) = '['
  · obtain ⟨rest, hskip⟩ := exists_cons_of_peek hbracket (by decide)
    rw [parseValue_bracket fuel hskip, hskip]
    split
    · next hclose =>
      obtain ⟨r, hr⟩ := exists_cons_of_peek hclose (by decide)
      obtain ⟨a, ha, heq⟩ := exists_blank rest
      rw [hr] at heq ⊢
      rw [heq]
      exact Derives.emptyArray (L := scanned) ha _
    · have helements : ReadAs .elements rest (parseElements size fuel (skipWhitespace rest)) :=
        (helements _).of_skip nofun
      refine helements.bind .array fun vs r h => ?_
      refine (onlyRuntimeErrors_expect size ']' _).bind fun r' hclose => ?_
      exact Derives.array (derives_skip nofun h ((expect_eq_ok (by decide)).mp hclose))
  by_cases hquote : peek (skipWhitespace text) = '"'
  · obtain ⟨rest, hskip⟩ := exists_cons_of_peek hquote (by decide)
    rw [parseValue_quote fuel hskip, hskip]
    refine (onlyRuntimeErrors_parseRawString size _).bind fun ⟨s, r⟩ hs => ?_
    exact Derives.string (parseRawString_eq_ok hs)
  rw [parseValue]
  simp only [hbrace, hbracket, hquote, if_false]
  split
  · exact readAs_parseBool size _
  · split
    · exact readAs_parseNull size _
    · exact readAs_parseNumber size _

theorem readAs_parse (size fuel : Nat) :
    (∀ text, ReadAs .value (skipWhitespace text) (parseValue size fuel text)) ∧
      (∀ text, ReadAs .elements text (parseElements size fuel text)) ∧
      ∀ es text, ReadAs .members text (parseEntries size fuel es text) := by
  induction fuel with
  | zero => exact ⟨fun _ => trivial, fun _ => trivial, fun _ _ => trivial⟩
  | succ fuel ih =>
    obtain ⟨hvalue, helements, hentries⟩ := ih
    exact ⟨readAs_parseValue helements hentries, readAs_parseElements hvalue helements,
      readAs_parseEntries hvalue hentries⟩

/-! ### What the grammar has, the parser takes -/

theorem startsNumber_of_scanned (h : scanned.number text rest) : StartsNumber (peek text) := by
  obtain ⟨n, x, hscan, hne, -⟩ := h
  refine startsNumber_peek ?_
  rw [hscan]
  exact hne

theorem length_lt_of_scanned (h : Derives scanned symbol text rest) : rest.length < text.length := by
  refine h.length_lt fun {text rest} hnumber => ?_
  obtain ⟨n, x, hscan, hne, -⟩ := hnumber
  have hsplit : n ++ rest = text := by
    have h := splits_scanNumber text
    rwa [hscan] at h
  have hpos := List.length_pos_iff.mpr hne
  rw [← hsplit, List.length_append]
  omega

/-- No value starts with white space or a closing bracket. -/
theorem value_head (h : Derives scanned .value text rest) :
    ∃ c t, text = c :: t ∧ isSpace c = false ∧ c ≠ ']' := by
  cases h with
  | number h =>
    have hstart := startsNumber_of_scanned h
    cases text with
    | nil =>
      rcases hstart with h | h | h | h | h <;> exact absurd h (by decide)
    | cons c t => exact ⟨c, t, rfl, hstart.isSpace, hstart.ne (by simp)⟩
  | string h =>
    obtain ⟨h, _⟩ := h
    exact ⟨'"', _, rfl, by decide, by decide⟩
  | nullName => exact ⟨'n', _, rfl, by decide, by decide⟩
  | trueName => exact ⟨'t', _, rfl, by decide, by decide⟩
  | falseName => exact ⟨'f', _, rfl, by decide, by decide⟩
  | emptyArray | array => exact ⟨'[', _, rfl, by decide, by decide⟩
  | emptyObject | object => exact ⟨'{', _, rfl, by decide, by decide⟩

theorem skipWhitespace_value (h : Derives scanned .value text rest) :
    skipWhitespace text = text := by
  obtain ⟨c, t, rfl, hspace, -⟩ := value_head h
  exact skipWhitespace_cons hspace t

theorem skipWhitespace_key (h : Key scanned text rest) : ∃ t, skipWhitespace text = '"' :: t := by
  obtain ⟨ha, hb, h⟩ := h
  obtain ⟨h, _⟩ := h
  rw [skipWhitespace_blank ha]
  exact ⟨_, skipWhitespace_cons (by decide) _⟩

theorem peek_padded (h : Derives scanned .padded text rest) : peek (skipWhitespace text) ≠ ']' := by
  cases h with
  | padded ha hb h =>
    obtain ⟨c, t, hc, -, hne⟩ := value_head h
    rw [skipWhitespace_blank ha, skipWhitespace_value h, hc]
    exact hne

theorem peek_elements (h : Derives scanned .elements text rest) :
    peek (skipWhitespace text) ≠ ']' := by
  cases h with
  | lastElement h => exact peek_padded h
  | nextElement h => exact peek_padded h

theorem peek_key (h : Key scanned text rest) : peek (skipWhitespace text) ≠ '}' := by
  obtain ⟨t, ht⟩ := skipWhitespace_key h
  rw [ht]
  exact show '"' ≠ '}' by decide

theorem peek_members (h : Derives scanned .members text rest) :
    peek (skipWhitespace text) ≠ '}' := by
  cases h with
  | lastMember hk => exact peek_key hk
  | nextMember hk => exact peek_key hk

theorem parseValue_skip (size fuel : Nat) (text : List Char) :
    parseValue size fuel (skipWhitespace text) = parseValue size fuel text := by
  cases fuel with
  | zero => rfl
  | succ fuel => rw [parseValue, parseValue, skipWhitespace_idem]

theorem parseElements_skip (size fuel : Nat) (text : List Char) :
    parseElements size fuel (skipWhitespace text) = parseElements size fuel text := by
  cases fuel with
  | zero => rfl
  | succ fuel => rw [parseElements, parseElements, parseValue_skip]

theorem parseEntries_skip (size fuel : Nat) (es : List (String × JsonValue)) (text : List Char) :
    parseEntries size fuel es (skipWhitespace text) = parseEntries size fuel es text := by
  cases fuel with
  | zero => rfl
  | succ fuel => rw [parseEntries, parseEntries, skipWhitespace_idem]

/-- The loop over the members after the key of one. -/
theorem parseEntries_of_key (size : Nat) {v : List Char} (hk : Key scanned text v) (fuel : Nat)
    (es : List (String × JsonValue)) :
    ∃ key, parseEntries size (fuel + 1) es text = (do
      let (w, rest) ← parseValue size fuel v
      let es := JsonValue.setEntry es key w
      let rest := skipWhitespace rest
      if peek rest = ',' then parseEntries size fuel es rest.tail else return (es, rest)) := by
  obtain ⟨ha, hb, h⟩ := hk
  obtain ⟨key, hkey⟩ := parseRawString_of_quoted size h
  obtain ⟨h, _⟩ := h
  have hcolon : skipWhitespace (':' :: v) = ':' :: v := skipWhitespace_cons (by decide) v
  refine ⟨key, ?_⟩
  rw [parseEntries, skipWhitespace_blank ha, skipWhitespace_cons (by decide), hkey, Except.ok_bind]
  dsimp only
  rw [skipWhitespace_blank hb, hcolon, (expect_eq_ok (by decide)).mpr rfl, Except.ok_bind]

/-- With fuel for the text, the parser reads the phrase and stops where the phrase ends; the loops
stop in front of their closing bracket. -/
def Parsed (size : Nat) : Symbol → List Char → List Char → Prop
  | .value, text, rest => ∀ fuel, 2 * text.length + 2 ≤ fuel →
      ∃ v, parseValue size fuel text = .ok (v, rest)
  | .padded, text, rest => ∀ fuel, 2 * text.length + 2 ≤ fuel →
      ∃ v b, Blank isSpace b ∧ parseValue size fuel text = .ok (v, b ++ rest)
  | .elements, text, rest => (∃ tail, rest = ']' :: tail) →
      ∀ fuel, 2 * text.length + 3 ≤ fuel → ∃ vs, parseElements size fuel text = .ok (vs, rest)
  | .members, text, rest => (∃ tail, rest = '}' :: tail) → ∀ fuel, 2 * text.length + 3 ≤ fuel →
      ∀ es, ∃ es', parseEntries size fuel es text = .ok (es', rest)

omit [NumberText] in
theorem skipWhitespace_stop {b : List Char} (hb : Blank isSpace b) {c : Char}
    (hc : isSpace c = false) (rest : List Char) : skipWhitespace (b ++ c :: rest) = c :: rest := by
  rw [skipWhitespace_blank hb, skipWhitespace_cons hc]

theorem parsed_of_derives (size : Nat) (h : Derives scanned symbol text rest) :
    Parsed size symbol text rest := by
  have hfuel : ∀ {k fuel : Nat}, k + 1 ≤ fuel → ∃ f, fuel = f + 1 ∧ k ≤ f :=
    fun {k fuel} h => ⟨fuel - 1, by omega, by omega⟩
  induction h with
  | nullName rest | trueName rest | falseName rest =>
    intro fuel hle
    obtain ⟨fuel, rfl, -⟩ := hfuel hle
    exact ⟨_, rfl⟩
  | number h =>
    intro fuel hle
    obtain ⟨fuel, rfl, -⟩ := hfuel hle
    have hskip := skipWhitespace_value (.number h)
    have hstart := startsNumber_of_scanned h
    obtain ⟨n, x, hscan, hne, hstod⟩ := h
    rw [parseValue_startsNumber fuel (by rwa [hskip]), hskip, parseNumber_eq hscan hne, hstod]
    exact ⟨_, rfl⟩
  | string h =>
    intro fuel hle
    obtain ⟨fuel, rfl, -⟩ := hfuel hle
    have hskip := skipWhitespace_value (.string h)
    obtain ⟨s, hs⟩ := parseRawString_of_quoted size h
    obtain ⟨h, _⟩ := h
    rw [parseValue_quote fuel hskip, hs]
    exact ⟨_, rfl⟩
  | emptyArray ha rest =>
    intro fuel hle
    obtain ⟨fuel, rfl, -⟩ := hfuel hle
    rw [parseValue_bracket fuel (skipWhitespace_cons (by decide) _),
      skipWhitespace_stop ha (by decide), peek_cons, if_pos rfl]
    exact ⟨_, rfl⟩
  | emptyObject ha rest =>
    intro fuel hle
    obtain ⟨fuel, rfl, -⟩ := hfuel hle
    rw [parseValue_brace fuel (skipWhitespace_cons (by decide) _),
      skipWhitespace_stop ha (by decide), peek_cons, if_pos rfl]
    exact ⟨_, rfl⟩
  | array h ih =>
    intro fuel hle
    obtain ⟨fuel, rfl, hle⟩ := hfuel hle
    rw [List.length_cons] at hle
    obtain ⟨vs, hvs⟩ := ih ⟨_, rfl⟩ fuel (by omega)
    rw [parseValue_bracket fuel (skipWhitespace_cons (by decide) _), if_neg (peek_elements h),
      parseElements_skip, hvs, Except.ok_bind]
    dsimp only
    rw [skipWhitespace_cons (by decide), (expect_eq_ok (by decide)).mpr rfl]
    exact ⟨_, rfl⟩
  | object h ih =>
    intro fuel hle
    obtain ⟨fuel, rfl, hle⟩ := hfuel hle
    rw [List.length_cons] at hle
    obtain ⟨es, hes⟩ := ih ⟨_, rfl⟩ fuel (by omega) []
    rw [parseValue_brace fuel (skipWhitespace_cons (by decide) _), if_neg (peek_members h),
      parseEntries_skip, hes, Except.ok_bind]
    dsimp only
    rw [skipWhitespace_cons (by decide), (expect_eq_ok (by decide)).mpr rfl]
    exact ⟨_, rfl⟩
  | padded ha hb h ih =>
    intro fuel hle
    rw [List.length_append] at hle
    obtain ⟨v, hv⟩ := ih fuel (by omega)
    rw [← parseValue_skip, skipWhitespace_blank ha, skipWhitespace_value h, hv]
    exact ⟨v, _, hb, rfl⟩
  | lastElement h ih =>
    rintro ⟨tail, rfl⟩ fuel hle
    obtain ⟨fuel, rfl, hle⟩ := hfuel hle
    obtain ⟨v, b, hb, hv⟩ := ih fuel (by omega)
    rw [parseElements, hv, Except.ok_bind]
    dsimp only
    rw [skipWhitespace_stop hb (by decide)]
    exact ⟨_, rfl⟩
  | nextElement h hs ih ihs =>
    rintro hclose fuel hle
    obtain ⟨fuel, rfl, hle⟩ := hfuel hle
    have hlt := length_lt_of_scanned h
    rw [List.length_cons] at hlt
    obtain ⟨v, b, hb, hv⟩ := ih fuel (by omega)
    obtain ⟨vs, hvs⟩ := ihs hclose fuel (by omega)
    rw [parseElements, hv, Except.ok_bind]
    dsimp only
    rw [skipWhitespace_stop hb (by decide), peek_cons, if_pos rfl, List.tail_cons, parseElements_skip, hvs]
    exact ⟨_, rfl⟩
  | lastMember hk h ih =>
    rintro ⟨tail, rfl⟩ fuel hle es
    obtain ⟨fuel, rfl, hle⟩ := hfuel hle
    have hlt := hk.length_lt
    obtain ⟨key, hkey⟩ := parseEntries_of_key size hk fuel es
    obtain ⟨v, b, hb, hv⟩ := ih fuel (by omega)
    rw [hkey, hv, Except.ok_bind]
    dsimp only
    rw [skipWhitespace_stop hb (by decide)]
    exact ⟨_, rfl⟩
  | nextMember hk h hs ih ihs =>
    rintro hclose fuel hle es
    obtain ⟨fuel, rfl, hle⟩ := hfuel hle
    have hlt := hk.length_lt
    have hlt' := length_lt_of_scanned h
    rw [List.length_cons] at hlt'
    obtain ⟨key, hkey⟩ := parseEntries_of_key size hk fuel es
    obtain ⟨v, b, hb, hv⟩ := ih fuel (by omega)
    rw [hkey, hv, Except.ok_bind]
    dsimp only
    rw [skipWhitespace_stop hb (by decide), peek_cons, if_pos rfl, List.tail_cons]
    exact ihs hclose fuel (by omega) _

/-- With fuel for the text, the parser comes to the number that `std::stod` refuses. -/
def Throws (size : Nat) : Symbol → List Char → Prop
  | .value, text | .padded, text => ∀ fuel, 2 * text.length + 2 ≤ fuel →
      ∃ e, parseValue size fuel text = .error (.stod e)
  | .elements, text => ∀ fuel, 2 * text.length + 3 ≤ fuel →
      ∃ e, parseElements size fuel text = .error (.stod e)
  | .members, text => ∀ fuel, 2 * text.length + 3 ≤ fuel →
      ∀ es, ∃ e, parseEntries size fuel es text = .error (.stod e)

theorem startsNumber_of_refused (h : Refused text) : StartsNumber (peek text) := by
  obtain ⟨n, rest, e, hscan, hne, -⟩ := h
  refine startsNumber_peek ?_
  rw [hscan]
  exact hne

/-- A value that gets stuck does not start with white space or a closing bracket either. -/
theorem stuck_head (h : Stuck scanned Refused .value text) :
    ∃ c t, text = c :: t ∧ isSpace c = false ∧ c ≠ ']' := by
  cases h with
  | bad h =>
    have hstart := startsNumber_of_refused h
    cases text with
    | nil =>
      rcases hstart with h | h | h | h | h <;> exact absurd h (by decide)
    | cons c t => exact ⟨c, t, rfl, hstart.isSpace, hstart.ne (by simp)⟩
  | array => exact ⟨'[', _, rfl, by decide, by decide⟩
  | object => exact ⟨'{', _, rfl, by decide, by decide⟩

theorem skipWhitespace_stuck (h : Stuck scanned Refused .value text) :
    skipWhitespace text = text := by
  obtain ⟨c, t, rfl, hspace, -⟩ := stuck_head h
  exact skipWhitespace_cons hspace t

theorem peek_stuckElements (h : Stuck scanned Refused .elements text) :
    peek (skipWhitespace text) ≠ ']' := by
  cases h with
  | element h =>
    cases h with
    | padded ha h =>
      obtain ⟨c, t, hc, -, hne⟩ := stuck_head h
      rw [skipWhitespace_blank ha, skipWhitespace_stuck h, hc]
      exact hne
  | laterElement h => exact peek_padded h

theorem peek_stuckMembers (h : Stuck scanned Refused .members text) :
    peek (skipWhitespace text) ≠ '}' := by
  cases h with
  | member hk => exact peek_key hk
  | laterMember hk => exact peek_key hk

theorem throws_of_stuck (size : Nat) (h : Stuck scanned Refused symbol text) :
    Throws size symbol text := by
  have hfuel : ∀ {k fuel : Nat}, k + 1 ≤ fuel → ∃ f, fuel = f + 1 ∧ k ≤ f :=
    fun {k fuel} h => ⟨fuel - 1, by omega, by omega⟩
  induction h with
  | bad h =>
    intro fuel hle
    obtain ⟨fuel, rfl, -⟩ := hfuel hle
    have hstart := startsNumber_of_refused h
    have hskip := skipWhitespace_stuck (.bad h)
    obtain ⟨n, rest, e, hscan, hne, hstod⟩ := h
    rw [parseValue_startsNumber fuel (by rwa [hskip]), hskip, parseNumber_eq hscan hne, hstod]
    exact ⟨e, rfl⟩
  | array h ih =>
    intro fuel hle
    obtain ⟨fuel, rfl, hle⟩ := hfuel hle
    rw [List.length_cons] at hle
    obtain ⟨e, he⟩ := ih fuel (by omega)
    rw [parseValue_bracket fuel (skipWhitespace_cons (by decide) _), if_neg (peek_stuckElements h),
      parseElements_skip, he]
    exact ⟨e, rfl⟩
  | object h ih =>
    intro fuel hle
    obtain ⟨fuel, rfl, hle⟩ := hfuel hle
    rw [List.length_cons] at hle
    obtain ⟨e, he⟩ := ih fuel (by omega) []
    rw [parseValue_brace fuel (skipWhitespace_cons (by decide) _), if_neg (peek_stuckMembers h),
      parseEntries_skip, he]
    exact ⟨e, rfl⟩
  | padded ha h ih =>
    intro fuel hle
    rw [List.length_append] at hle
    obtain ⟨e, he⟩ := ih fuel (by omega)
    rw [← parseValue_skip, skipWhitespace_blank ha, skipWhitespace_stuck h]
    exact ⟨e, he⟩
  | element h ih =>
    intro fuel hle
    obtain ⟨fuel, rfl, hle⟩ := hfuel hle
    obtain ⟨e, he⟩ := ih fuel (by omega)
    rw [parseElements, he]
    exact ⟨e, rfl⟩
  | laterElement h hs ihs =>
    intro fuel hle
    obtain ⟨fuel, rfl, hle⟩ := hfuel hle
    have hlt := length_lt_of_scanned h
    rw [List.length_cons] at hlt
    obtain ⟨v, b, hb, hv⟩ := parsed_of_derives size h fuel (by omega)
    obtain ⟨e, he⟩ := ihs fuel (by omega)
    rw [parseElements, hv, Except.ok_bind]
    dsimp only
    rw [skipWhitespace_stop hb (by decide), peek_cons, if_pos rfl, List.tail_cons,
      parseElements_skip, he]
    exact ⟨e, rfl⟩
  | member hk h ih =>
    intro fuel hle es
    obtain ⟨fuel, rfl, hle⟩ := hfuel hle
    have hlt := hk.length_lt
    obtain ⟨key, hkey⟩ := parseEntries_of_key size hk fuel es
    obtain ⟨e, he⟩ := ih fuel (by omega)
    rw [hkey, he]
    exact ⟨e, rfl⟩
  | laterMember hk h hs ihs =>
    intro fuel hle es
    obtain ⟨fuel, rfl, hle⟩ := hfuel hle
    have hlt := hk.length_lt
    have hlt' := length_lt_of_scanned h
    rw [List.length_cons] at hlt'
    obtain ⟨key, hkey⟩ := parseEntries_of_key size hk fuel es
    obtain ⟨v, b, hb, hv⟩ := parsed_of_derives size h fuel (by omega)
    rw [hkey, hv, Except.ok_bind]
    dsimp only
    rw [skipWhitespace_stop hb (by decide), peek_cons, if_pos rfl, List.tail_cons]
    exact ihs fuel (by omega) _

end

end SqlOptimizer
