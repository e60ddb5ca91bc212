import SqlOptimizer.Util.JsonReading

/-! Which texts `parse_json` takes: more than the documents of RFC 8259. -/

namespace SqlOptimizer

open JsonGrammar

section

variable [NumberText] {size : Nat} {symbol : Symbol} {text rest : List Char}

/-! ### Documents -/

/-- RFC 8259, with the white space of `std::isspace`. -/
def rfc : Lexis := rfc8259 isSpace

/-- A phrase of RFC 8259 is one to the parser, unless a number in it is refused. -/
theorem scanned_or_stuck (h : Derives rfc symbol text rest) (hrest : Delimited rest) :
    Derives scanned symbol text rest ∨ Stuck scanned Refused symbol text := by
  refine Derives.or_stuck (L := rfc) (M := scanned) (fun _ hc => hc) (fun _ => Unquoted.of_chars)
    (fun {text rest} hn hrest => ?_) h hrest
  obtain ⟨n, hn, rfl⟩ := hn
  have hscan : scanNumber (n ++ rest) = (n, rest) := by
    rw [stops_scanNumber n rest hrest, scanNumber_of_number hn]
    rfl
  cases hstod : NumberText.stod n with
  | ok x => exact .inl ⟨n, x, hscan, number_ne_nil hn, hstod⟩
  | error e => exact .inr ⟨n, rest, e, hscan, number_ne_nil hn, hstod⟩

/-- The parser reads the whole value of a document. -/
theorem blank_of_document (h : Document rfc text) {v : JsonValue}
    (hparse : parseValue size (2 * text.length + 2) text = .ok (v, rest)) :
    Blank isSpace rest := by
  cases h with
  | @padded a b value _ ha hb hvalue =>
    rw [List.append_nil] at hvalue
    have hdelimited : Delimited b := by
      have h := Follows.blank_append hb (Follows.nil isSpace)
      rwa [List.append_nil] at h
    have hscanned : Derives scanned .value value b := by
      refine (scanned_or_stuck hvalue hdelimited).resolve_right fun hstuck => ?_
      obtain ⟨e, he⟩ := throws_of_stuck size (.padded ha hstuck) _ le_rfl
      rw [hparse] at he
      cases he
    have hskip : skipWhitespace (a ++ value) = value := by
      rw [skipWhitespace_blank ha, skipWhitespace_value hscanned]
    obtain ⟨w, hw⟩ := parsed_of_derives size hscanned (2 * (a ++ value).length + 2) (by
      rw [List.length_append]
      omega)
    rw [← parseValue_skip, hskip, hw] at hparse
    cases hparse
    exact hb

/-- The parser returns a value for the documents of RFC 8259, and throws `std::runtime_error` for
every other text. -/
def AcceptsExactly (text : List Char) : Prop :=
  match parseJson text with
  | .ok _ => Document rfc text
  | .error (.runtimeError _) => ¬ Document rfc text
  | .error (.stod _) => False

end

/-! ### The strings and numbers of a text -/

inductive JsonToken where
  | number (p : NumberParts)
  /-- what stands between the quotes -/
  | string (body : List Char)

/-- A string of RFC 8259 has only its escapes and no control character. -/
def JsonToken.Standard : JsonToken → Prop
  | number p => p.Standard
  | string body => Chars body

/-- What stands before the closing quote, and what after it. -/
def stringBody : List Char → List Char × List Char
  | [] => ([], [])
  | c :: rest =>
    if c = '"' then ([], rest)
    else if c = '\\' then
      match rest with
      | [] => ([c], [])
      | esc :: rest => (c :: esc :: (stringBody rest).1, (stringBody rest).2)
    else (c :: (stringBody rest).1, (stringBody rest).2)

theorem stringBody_length (text : List Char) : (stringBody text).2.length ≤ text.length := by
  fun_induction stringBody text with
  | case1 => exact le_rfl
  | case2 => exact Nat.le_succ _
  | case3 => exact Nat.zero_le _
  | case4 esc rest hq ih | case5 c rest hq hb ih =>
    simp only [List.length_cons]
    omega

theorem stringBody_unquoted {body : List Char} (h : Unquoted body) (rest : List Char) :
    stringBody (body ++ '"' :: rest) = (body, rest) := by
  induction h with
  | nil =>
    rw [stringBody.eq_def]
    rfl
  | plain hq hb h ih =>
    rw [List.cons_append, stringBody.eq_def]
    simp only [hq, hb, if_false, ih]
  | escape c h ih =>
    rw [List.cons_append, List.cons_append, stringBody.eq_def]
    simp only [ih]
    rfl

/-- How a number with a digit in front of its exponent starts. -/
def opensNumber (c : Char) : Bool := c == '-' || c == '.' || c.isDigit

theorem opensNumber_iff {c : Char} : opensNumber c = true ↔ c = '-' ∨ c = '.' ∨ c.isDigit = true := by
  simp only [opensNumber, Bool.or_eq_true, beq_iff_eq, or_assoc]

theorem numberParts_length {c : Char} (h : opensNumber c = true) (text : List Char) :
    (numberParts (c :: text)).2.length < (c :: text).length := by
  have hne : (numberParts (c :: text)).1.text ≠ [] := by
    rcases opensNumber_iff.mp h with rfl | rfl | h
    · exact List.cons_ne_nil _ _
    · simp [numberParts, NumberParts.text, scanSign, peek, fractionParts, fracText]
    · have hminus : c ≠ '-' := by
        rintro rfl
        exact absurd h (by decide)
      simp [numberParts, NumberParts.text, scanSign, peek, hminus, h]
  have hsplit := congrArg List.length (splits_scanNumber (c :: text))
  simp only [scanNumber_eq, List.length_append] at hsplit
  have hpos := List.length_pos_iff.mpr hne
  omega

/-- The strings and numbers of a text from left to right, whatever stands between them. -/
def tokens : List Char → List JsonToken
  | [] => []
  | c :: text =>
    if c = '"' then .string (stringBody text).1 :: tokens (stringBody text).2
    else if h : opensNumber c = true then
      have := numberParts_length h text
      .number (numberParts (c :: text)).1 :: tokens (numberParts (c :: text)).2
    else tokens text
termination_by text => text.length
decreasing_by
  · exact Nat.lt_succ_of_le (stringBody_length text)
  · exact this
  · exact Nat.lt_succ_self _

theorem tokens_nil : tokens [] = [] := by rw [tokens]

theorem tokens_quote (text : List Char) :
    tokens ('"' :: text) = .string (stringBody text).1 :: tokens (stringBody text).2 := by
  rw [tokens, if_pos rfl]

theorem tokens_number {c : Char} (h : opensNumber c = true) (text : List Char) : tokens (c :: text) =
    .number (numberParts (c :: text)).1 :: tokens (numberParts (c :: text)).2 := by
  have hquote : c ≠ '"' := by
    rintro rfl
    cases h
  rw [tokens, if_neg hquote, dif_pos h]

/-- No string and no number starts in such a word. -/
def bareWord (word : List Char) : Bool := word.all fun c => c != '"' && !opensNumber c

theorem tokens_bareWord {word : List Char} (h : bareWord word = true) (text : List Char) :
    tokens (word ++ text) = tokens text := by
  induction word with
  | nil => rfl
  | cons c word ih =>
    simp only [bareWord, List.all_cons, Bool.and_eq_true, bne_iff_ne, Bool.not_eq_true'] at h
    obtain ⟨⟨hquote, hopens⟩, h⟩ := h
    rw [List.cons_append, tokens, if_neg hquote, dif_neg (by simp [hopens])]
    exact ih h

theorem bareWord_of_blank {a : List Char} (ha : Blank isSpace a) : bareWord a = true := by
  rw [bareWord, List.all_eq_true]
  intro c hc
  have hspace := ha c hc
  simp only [Bool.and_eq_true, bne_iff_ne, Bool.not_eq_true', ← Bool.not_eq_true]
  constructor
  · rintro rfl
    exact absurd hspace (by decide)
  · intro h
    rcases opensNumber_iff.mp h with rfl | rfl | h
    · exact absurd hspace (by decide)
    · exact absurd hspace (by decide)
    · rw [isSpace_eq_false h] at hspace
      cases hspace

/-- A number that `std::stod` converts starts as one. -/
theorem opensNumber_of_mantissa {text : List Char} (h : (numberParts text).1.mantissa ≠ []) :
    ∃ c rest, text = c :: rest ∧ opensNumber c = true := by
  cases text with
  | nil => exact absurd rfl h
  | cons c rest =>
    refine ⟨c, rest, rfl, ?_⟩
    rw [opensNumber_iff]
    by_contra hopens
    simp only [not_or, Bool.not_eq_true] at hopens
    obtain ⟨hminus, hpoint, hdigit⟩ := hopens
    refine h ?_
    simp [numberParts, NumberParts.mantissa, NumberParts.fracDigits, scanSign, peek, hminus, hdigit,
      fractionParts, hpoint]

/-- `phrase` in terms of the tokens that `text` has before `rest`: they are all `good`, and when
RFC 8259 has them all, it has the phrase. -/
def ReadsTokens (good : JsonToken → Prop) (phrase : List Char → List Char → Prop)
    (text rest : List Char) : Prop :=
  ∃ toks, tokens text = toks ++ tokens rest ∧ (∀ t ∈ toks, good t) ∧
    ((∀ t ∈ toks, t.Standard) → phrase text rest)

section

variable {good : JsonToken → Prop} {phrase phrase₁ phrase₂ : List Char → List Char → Prop}
  {text rest text' rest' text₁ text₂ mid : List Char}

theorem ReadsTokens.word {word : List Char} (hword : bareWord word = true)
    (hphrase : phrase (word ++ rest) rest) : ReadsTokens good phrase (word ++ rest) rest :=
  ⟨[], tokens_bareWord hword rest, nofun, fun _ => hphrase⟩

theorem ReadsTokens.single {t : JsonToken} (htext : tokens text = t :: tokens rest) (ht : good t)
    (hphrase : t.Standard → phrase text rest) : ReadsTokens good phrase text rest :=
  ⟨[t], htext, fun _ h => List.mem_singleton.mp h ▸ ht,
    fun h => hphrase (h t List.mem_cons_self)⟩

/-- Plain characters may stand before and after a phrase. -/
theorem ReadsTokens.around (h : ReadsTokens good phrase₁ text rest)
    (htext : tokens text' = tokens text) (hrest : tokens rest' = tokens rest)
    (hphrase : phrase₁ text rest → phrase text' rest') : ReadsTokens good phrase text' rest' := by
  obtain ⟨toks, heq, hgood, hstandard⟩ := h
  exact ⟨toks, by rw [htext, hrest, heq], hgood, fun h => hphrase (hstandard h)⟩

/-- One phrase after another, with plain characters between them. -/
theorem ReadsTokens.append (h₁ : ReadsTokens good phrase₁ text mid)
    (h₂ : ReadsTokens good phrase₂ text₂ rest) (hmid : tokens mid = tokens text₂)
    (hphrase : phrase₁ text mid → phrase₂ text₂ rest → phrase text rest) :
    ReadsTokens good phrase text rest := by
  obtain ⟨toks₁, heq₁, hgood₁, hstandard₁⟩ := h₁
  obtain ⟨toks₂, heq₂, hgood₂, hstandard₂⟩ := h₂
  refine ⟨toks₁ ++ toks₂, ?_, ?_, fun h => ?_⟩
  · rw [heq₁, hmid, heq₂, List.append_assoc]
  · intro t ht
    exact (List.mem_append.mp ht).elim (hgood₁ t) (hgood₂ t)
  · exact hphrase (hstandard₁ fun t ht => h t (List.mem_append_left _ ht))
      (hstandard₂ fun t ht => h t (List.mem_append_right _ ht))

end

/-- What a lexis says of its tokens. -/
structure Tokenized (L : Lexis) (good : JsonToken → Prop) : Prop where
  space : L.space = isSpace
  body : ∀ {s}, L.body s → Unquoted s ∧ good (.string s)
  number : ∀ {text rest}, L.number text rest → Delimited rest →
    ∃ p, numberParts text = (p, rest) ∧ p.mantissa ≠ [] ∧ good (.number p)

section

variable {L : Lexis} {good : JsonToken → Prop} {symbol : Symbol} {text rest : List Char}

theorem readsTokens_quoted (hL : Tokenized L good) (h : Quoted L.body text rest) :
    ReadsTokens good (Quoted Chars) text rest := by
  obtain ⟨h, rest⟩ := h
  obtain ⟨hs, hgood⟩ := hL.body h
  refine .single (t := .string _) ?_ hgood fun h => .intro h rest
  rw [tokens_quote, stringBody_unquoted hs]

theorem tokens_separator {c : Char} (h : bareWord [c] = true) (text : List Char) :
    tokens (c :: text) = tokens text := tokens_bareWord h text

theorem readsTokens_key (hL : Tokenized L good) (h : Key L text rest) :
    ReadsTokens good (Key rfc) text rest := by
  obtain ⟨ha, hb, h⟩ := h
  rw [hL.space] at ha hb
  refine (readsTokens_quoted hL h).around (tokens_bareWord (bareWord_of_blank ha) _) ?_
    fun h => Key.intro (L := rfc) ha hb h
  rw [tokens_bareWord (bareWord_of_blank hb), tokens_separator rfl]

/-- The tokens of a phrase. -/
theorem readsTokens (hL : Tokenized L good) (h : Derives L symbol text rest)
    (hrest : Delimited rest) : ReadsTokens good (Derives rfc symbol) text rest := by
  induction h with
  | nullName rest =>
    exact .word (show bareWord ['n', 'u', 'l', 'l'] = true from rfl) (.nullName rest)
  | trueName rest =>
    exact .word (show bareWord ['t', 'r', 'u', 'e'] = true from rfl) (.trueName rest)
  | falseName rest =>
    exact .word (show bareWord ['f', 'a', 'l', 's', 'e'] = true from rfl) (.falseName rest)
  | @number text rest h =>
    obtain ⟨p, hp, hdigits, hgood⟩ := hL.number h hrest
    have hmantissa : (numberParts text).1.mantissa ≠ [] := by rwa [hp]
    have hwf := wellFormed_numberParts text
    have hsplit := splits_scanNumber text
    simp only [scanNumber_eq] at hsplit
    rw [hp] at hsplit hwf
    obtain ⟨c, more, rfl, hopens⟩ := opensNumber_of_mantissa hmantissa
    refine .single (t := .number p) ?_ hgood fun h => .number ?_
    · rw [tokens_number hopens, hp]
    · exact ⟨p.text, NumberParts.number_text hwf h, hsplit.symm⟩
  | string h => exact (readsTokens_quoted hL h).around rfl rfl fun h => .string h
  | emptyArray ha rest =>
    rw [hL.space] at ha
    refine ⟨[], ?_, nofun, fun _ => Derives.emptyArray (L := rfc) ha rest⟩
    rw [tokens_separator rfl, tokens_bareWord (bareWord_of_blank ha), tokens_separator rfl]
    rfl
  | emptyObject ha rest =>
    rw [hL.space] at ha
    refine ⟨[], ?_, nofun, fun _ => Derives.emptyObject (L := rfc) ha rest⟩
    rw [tokens_separator rfl, tokens_bareWord (bareWord_of_blank ha), tokens_separator rfl]
    rfl
  | array h ih =>
    exact (ih (delimited_cons (.inr (.inl rfl)) _)).around (tokens_separator rfl _)
      (tokens_separator rfl _).symm .array
  | object h ih =>
    exact (ih (delimited_cons (.inr (.inr rfl)) _)).around (tokens_separator rfl _)
      (tokens_separator rfl _).symm .object
  | padded ha hb h ih =>
    rw [hL.space] at ha hb
    exact (ih (Follows.blank_append hb hrest)).around (tokens_bareWord (bareWord_of_blank ha) _)
      (tokens_bareWord (bareWord_of_blank hb) _).symm fun h => Derives.padded (L := rfc) ha hb h
  | lastElement h ih => exact (ih hrest).around rfl rfl .lastElement
  | nextElement h hs ih ihs =>
    exact (ih (delimited_cons (.inl rfl) _)).append (ihs hrest) (tokens_separator rfl _) .nextElement
  | lastMember hk h ih => exact (readsTokens_key hL hk).append (ih hrest) rfl .lastMember
  | @nextMember text v more rest hk h hs ih ihs =>
    have hmember : ReadsTokens good (fun v rest => ∃ more,
        Derives rfc .padded v (',' :: more) ∧ Derives rfc .members more rest) v rest :=
      (ih (delimited_cons (.inl rfl) _)).append (ihs hrest) (tokens_separator rfl _)
        fun h hs => ⟨_, h, hs⟩
    exact (readsTokens_key hL hk).append hmember rfl fun hk ⟨_, h, hs⟩ => .nextMember hk h hs

/-- All the tokens of RFC 8259 are standard. -/
theorem tokenized_rfc : Tokenized rfc JsonToken.Standard where
  space := rfl
  body h := ⟨.of_chars h, h⟩
  number := by
    rintro text rest ⟨n, hn, rfl⟩ hrest
    obtain ⟨p, hp, hstandard, rfl⟩ := NumberParts.exists_of_number hn
    have hscan : scanNumber (p.text ++ rest) = (p.text, rest) := by
      rw [stops_scanNumber _ rest hrest, scanNumber_of_number hn]
      rfl
    rw [scanNumber_eq] at hscan
    obtain ⟨htext, hmore⟩ := Prod.mk.injEq .. ▸ hscan
    refine ⟨p, Prod.ext (text_injective (wellFormed_numberParts _) hp htext) hmore, ?_, hstandard⟩
    exact fun h => hstandard.int (List.append_eq_nil_iff.mp h).1

theorem tokenized_lenient (underflow : ℚ≥0 → Bool) :
    Tokenized (lenient underflow) fun _ => True where
  space := rfl
  body h := ⟨h, trivial⟩
  number := by
    rintro text rest ⟨p, hp, hrefused⟩ -
    exact ⟨p, hp, fun h => hrefused (.inl h), trivial⟩

end

/-! ### Which texts the parser takes as it should -/

/-- Reading the text comes to no number without digits before its exponent and to none out of range;
and when the text starts with a value as the parser takes it, only white space follows, and every
string and number is one of RFC 8259. -/
structure Conforms (underflow : ℚ≥0 → Bool) (text : List Char) : Prop where
  numbers : ¬ Stuck (lenient underflow) (RefusedNumber underflow) .padded text
  value : ∀ a value rest, text = a ++ value → Blank isSpace a →
    Derives (lenient underflow) .value value rest →
    (∀ t ∈ tokens text, t.Standard) ∧ Blank isSpace rest

theorem not_stuck_of_acceptsExactly {print : Bool → ℚ≥0 → List Char} {underflow : ℚ≥0 → Bool}
    {text : List Char} (h : @AcceptsExactly (stodText underflow print) text) :
    ¬ Stuck (lenient underflow) (RefusedNumber underflow) .padded text := by
  intro hstuck
  rw [← scanned_eq underflow print, ← refused_eq underflow print] at hstuck
  obtain ⟨e, he⟩ := @throws_of_stuck (stodText underflow print) _ _ text.length hstuck _ le_rfl
  unfold AcceptsExactly parseJson at h
  rw [he] at h
  exact h

theorem acceptsExactly_iff (print : Bool → ℚ≥0 → List Char) (underflow : ℚ≥0 → Bool)
    (text : List Char) :
    @AcceptsExactly (stodText underflow print) text ↔ Conforms underflow text := by
  let _ := stodText underflow print
  have hscanned : scanned = lenient underflow := scanned_eq underflow print
  obtain ⟨hread, -, -⟩ := readAs_parse text.length (2 * text.length + 2)
  have hread := hread text
  have hjson : parseJson text = parseValue text.length (2 * text.length + 2) text >>= fun p => .ok p.1 :=
    rfl
  obtain ⟨a, ha, heq⟩ := exists_blank text
  constructor
  · intro h
    refine ⟨not_stuck_of_acceptsExactly h, fun a value rest heq ha hvalue => ?_⟩
    rw [← hscanned] at hvalue
    obtain ⟨v, hv⟩ := parsed_of_derives text.length hvalue (2 * text.length + 2) (by
      rw [heq, List.length_append]
      omega)
    have hskip : skipWhitespace text = value := by
      rw [heq, skipWhitespace_blank ha, skipWhitespace_value hvalue]
    rw [← hskip, parseValue_skip] at hv
    unfold AcceptsExactly at h
    rw [hjson, hv] at h
    have hdocument : Document rfc text := h
    obtain ⟨toks, htoks, hstandard, -⟩ := readsTokens tokenized_rfc hdocument delimited_nil
    rw [tokens_nil, List.append_nil] at htoks
    exact ⟨htoks ▸ hstandard, blank_of_document hdocument hv⟩
  · rintro ⟨hnumbers, hvalue⟩
    unfold AcceptsExactly
    rw [hjson]
    match hparse : parseValue text.length (2 * text.length + 2) text with
    | .ok (v, rest) =>
      rw [hparse] at hread
      have hread : Derives scanned .value (skipWhitespace text) rest := hread
      rw [hscanned] at hread
      obtain ⟨hstandard, hblank⟩ := hvalue a _ rest heq ha hread
      have hdelimited : Delimited rest := by
        have h := Follows.blank_append hblank (Follows.nil isSpace)
        rwa [List.append_nil] at h
      obtain ⟨toks, htoks, -, hrfc⟩ := readsTokens (tokenized_lenient underflow) hread hdelimited
      rw [heq, tokens_bareWord (bareWord_of_blank ha), htoks] at hstandard
      show Document rfc text
      rw [Document, heq]
      refine .padded ha hblank ?_
      rw [List.append_nil]
      exact hrfc fun t ht => hstandard t (List.mem_append_left _ ht)
    | .error (.stod e) =>
      rw [hparse] at hread
      have hstuck : Stuck scanned Refused .padded text := stuck_padded hread
      rw [hscanned, refused_eq underflow print] at hstuck
      exact hnumbers hstuck
    | .error (.runtimeError what) =>
      intro hdocument
      rcases scanned_or_stuck hdocument delimited_nil with h | hstuck
      · obtain ⟨v, b, -, hv⟩ := parsed_of_derives text.length h _ le_rfl
        rw [hparse] at hv
        cases hv
      · rw [hscanned, refused_eq underflow print] at hstuck
        exact hnumbers hstuck

/-- Text after the value is ignored; a lone sign throws `std::invalid_argument`, and a number above
the doubles `std::out_of_range`. -/
theorem not_acceptsExactly :
    ¬ @AcceptsExactly (stodText (fun _ => true) fun _ _ => []) "null null".toList ∧
    ¬ @AcceptsExactly (stodText (fun _ => true) fun _ _ => []) "-".toList ∧
    ¬ @AcceptsExactly (stodText (fun _ => true) fun _ _ => []) "1e999".toList := by
  refine ⟨fun h => ?_, mt not_stuck_of_acceptsExactly (not_not_intro ?_),
    mt not_stuck_of_acceptsExactly (not_not_intro ?_)⟩
  · let _ := stodText (fun _ => true) fun _ _ => []
    have hdocument : Document rfc "null null".toList := h
    have hparse : parseValue 9 20 "null null".toList = .ok (.null, " null".toList) := rfl
    have hblank := blank_of_document hdocument hparse
    exact absurd (hblank 'n' (by decide)) (by decide)
  · have hrefused : RefusedNumber (fun _ => true) "-".toList := ⟨_, [], rfl, by decide, .inl rfl⟩
    exact @Stuck.padded _ _ [] _ nofun (.bad hrefused)
  · have hoverflow : Binary64.Overflows
        (NumberParts.magnitude ⟨false, ['1'], none, some ⟨'e', [], ['9', '9', '9']⟩⟩) := by
      decide +kernel
    have hrefused : RefusedNumber (fun _ => true) "1e999".toList :=
      ⟨_, [], rfl, by decide, .inr (.inl hoverflow)⟩
    exact @Stuck.padded _ _ [] _ nofun (.bad hrefused)

end SqlOptimizer
