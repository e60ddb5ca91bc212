import SqlOptimizer.Util.JsonRoundTrip

/-! An infinity or a NaN has a text, but the parser does not read it: a value with one inside it is
written and then refused. -/

namespace SqlOptimizer

/-- Not an infinity and not a NaN. -/
def JsonValue.FiniteNumbers (v : JsonValue) : Prop :=
  ∀ x, v = .number x → ∃ neg mag, x = .fin neg mag

section

variable [NumberText] (size : Nat)

theorem parseValue_nan (fuel : Nat) (rest : List Char) :
    ∃ e, parseValue size (fuel + 1) (numberText .nan ++ rest) = .error e := by
  have hskip : skipWhitespace ('n' :: 'a' :: 'n' :: rest) = 'n' :: 'a' :: 'n' :: rest :=
    skipWhitespace_cons (by decide) _
  have hread : parseValue size (fuel + 1) ('n' :: 'a' :: 'n' :: rest) =
      parseNull size ('n' :: 'a' :: 'n' :: rest) := by
    rw [parseValue, hskip]
    rfl
  exact ⟨_, hread⟩

/-- Of a negative infinity the parser takes the sign for a number. -/
theorem parseValue_inf (hminus : ∃ e, NumberText.stod ['-'] = .error e) (neg : Bool) (fuel : Nat)
    (rest : List Char) :
    ∃ e, parseValue size (fuel + 1) (numberText (.inf neg) ++ rest) = .error e := by
  obtain ⟨e, hstod⟩ := hminus
  cases neg with
  | false =>
    have hskip : skipWhitespace ('i' :: 'n' :: 'f' :: rest) = 'i' :: 'n' :: 'f' :: rest :=
      skipWhitespace_cons (by decide) _
    have hread : parseValue size (fuel + 1) ('i' :: 'n' :: 'f' :: rest) =
        parseNumber size ('i' :: 'n' :: 'f' :: rest) := by
      rw [parseValue, hskip]
      rfl
    exact ⟨_, hread⟩
  | true =>
    have hskip : skipWhitespace ('-' :: 'i' :: 'n' :: 'f' :: rest) =
        '-' :: 'i' :: 'n' :: 'f' :: rest := skipWhitespace_cons (by decide) _
    have hread : parseValue size (fuel + 1) ('-' :: 'i' :: 'n' :: 'f' :: rest) =
        parseNumber size ('-' :: 'i' :: 'n' :: 'f' :: rest) := by
      rw [parseValue, hskip]
      rfl
    have hscan : scanNumber ('-' :: 'i' :: 'n' :: 'f' :: rest) = (['-'], 'i' :: 'n' :: 'f' :: rest) :=
      rfl
    refine ⟨.stod e, hread.trans ?_⟩
    simp only [parseNumber, hscan, hstod]
    rfl

/-- Only a finite number is read back from its text. -/
theorem Carries.finite {x : Binary64} (h : Carries x) : ∃ neg mag, x = .fin neg mag := by
  have hscan := h.2.1
  match x with
  | .fin neg mag => exact ⟨neg, mag, rfl⟩
  | .inf true =>
    have htext : numberText (.inf true) = ['-', 'i', 'n', 'f'] := rfl
    rw [htext] at hscan
    exact absurd hscan (by decide)
  | .inf false =>
    have htext : numberText (.inf false) = ['i', 'n', 'f'] := rfl
    rw [htext] at hscan
    exact absurd hscan (by decide)
  | .nan =>
    have htext : numberText .nan = ['n', 'a', 'n'] := rfl
    rw [htext] at hscan
    exact absurd hscan (by decide)

/-- No infinity and no NaN inside, when the finite numbers are read back. -/
theorem JsonValue.sound_iff {v : JsonValue} (h : v.Everywhere FiniteCarries) :
    v.Sound ↔ v.Everywhere FiniteNumbers := by
  constructor
  · exact fun hsound => hsound.imp fun v hv x hx => (hv x hx).finite
  · intro hfinite
    refine h.imp₂ (fun v hcarries hfinite x hx => ?_) hfinite
    obtain ⟨neg, mag, rfl⟩ := hfinite x hx
    exact hcarries neg mag hx

/-! ### An error inside a value -/

theorem parseValue_array_error {fuel : Nat} {text : List Char} {e : JsonError}
    (hskip : skipWhitespace text = text) (hclose : peek text ≠ ']')
    (h : parseElements size fuel text = .error e) :
    parseValue size (fuel + 1) ('[' :: text) = .error e := by
  have hopen : skipWhitespace ('[' :: text) = '[' :: text := skipWhitespace_cons (by decide) text
  have hbracket : expect size '[' ('[' :: text) = .ok text := rfl
  have hpeek : peek ('[' :: text) = '[' := rfl
  have hne : '[' ≠ '{' := by decide
  simp only [parseValue, hopen, hpeek, hne, if_false, if_true, hbracket, Except.ok_bind, hskip,
    hclose, h]
  rfl

theorem parseValue_object_error {fuel : Nat} {text : List Char} {e : JsonError}
    (hskip : skipWhitespace text = text) (hclose : peek text ≠ '}')
    (h : parseEntries size fuel [] text = .error e) :
    parseValue size (fuel + 1) ('{' :: text) = .error e := by
  have hopen : skipWhitespace ('{' :: text) = '{' :: text := skipWhitespace_cons (by decide) text
  have hbrace : expect size '{' ('{' :: text) = .ok text := rfl
  have hpeek : peek ('{' :: text) = '{' := rfl
  simp only [parseValue, hopen, hpeek, if_true, hbrace, Except.ok_bind, hskip, hclose, if_false, h]
  rfl

theorem parseElements_error {fuel : Nat} {text : List Char} {e : JsonError}
    (h : parseValue size fuel text = .error e) :
    parseElements size (fuel + 1) text = .error e := by
  rw [parseElements, h, Except.error_bind]

theorem parseElements_comma_error {fuel : Nat} {text rest : List Char} {v : JsonValue}
    {e : JsonError} (h : parseValue size fuel text = .ok (v, ',' :: rest))
    (hskip : skipWhitespace rest = rest) (hrest : parseElements size fuel rest = .error e) :
    parseElements size (fuel + 1) text = .error e := by
  have hcomma : skipWhitespace (',' :: rest) = ',' :: rest := skipWhitespace_cons (by decide) rest
  have hpeek : peek (',' :: rest) = ',' := rfl
  simp only [parseElements, h, Except.ok_bind, hcomma, hpeek, if_true, List.tail_cons, hskip, hrest]
  rfl

theorem parseEntries_error {fuel : Nat} {text : List Char} {e : JsonError} (key : String)
    (es : List (String × JsonValue)) (h : parseValue size fuel text = .error e) :
    parseEntries size (fuel + 1) es (escapedString key ++ ':' :: text) = .error e := by
  rw [parseEntries_key size fuel, h, Except.error_bind]

mutual

theorem parseValue_error (hminus : ∃ e, NumberText.stod ['-'] = .error e) {v : JsonValue}
    (hv : v.Everywhere JsonValue.FiniteCarries) (hunsound : ¬ v.Sound) {fuel : Nat}
    (hfuel : v.calls ≤ fuel) (rest : List Char) :
    ∃ e, parseValue size fuel (writeJson v ++ rest) = .error e := by
  obtain ⟨fuel, rfl⟩ : ∃ n, fuel = n + 1 := by
    refine ⟨fuel - 1, ?_⟩
    cases v <;> simp only [JsonValue.calls] at hfuel <;> omega
  match v with
  | .null | .bool _ | .string _ => exact absurd (fun _ h => by cases h) hunsound
  | .number (.fin neg mag) =>
    refine absurd (fun x h => ?_) hunsound
    cases h
    exact hv neg mag rfl
  | .number (.inf neg) => exact parseValue_inf size hminus neg fuel rest
  | .number .nan => exact parseValue_nan size fuel rest
  | .array vs =>
    have hvs : ¬ JsonValue.SoundElements vs :=
      fun h => hunsound ⟨fun x hx => (by cases hx), h⟩
    obtain ⟨e, helements⟩ :=
      parseElements_writeElements_error hminus hv.2 hvs (Nat.le_of_succ_le_succ hfuel) rest
    cases vs with
    | nil => exact absurd trivial hvs
    | cons v vs =>
      obtain ⟨c, t, htext, hspace, hclose⟩ := exists_cons_writeJson hv.2.1
      have hcons : writeElements true (v :: vs) ++ ']' :: rest =
          c :: (t ++ writeElements false vs ++ ']' :: rest) := by
        simp [writeElements, comma, htext]
      have hwrite : writeJson (.array (v :: vs)) ++ rest =
          '[' :: (writeElements true (v :: vs) ++ ']' :: rest) := by
        simp [writeJson]
      rw [hwrite]
      refine ⟨e, parseValue_array_error size ?_ ?_ helements⟩
      · rw [hcons, skipWhitespace_cons hspace]
      · rw [hcons]
        exact hclose
  | .object es =>
    have hes : ¬ JsonValue.SoundEntries es :=
      fun h => hunsound ⟨fun x hx => (by cases hx), h⟩
    obtain ⟨e, hentries⟩ :=
      parseEntries_writeEntries_error hminus hv.2 hes (Nat.le_of_succ_le_succ hfuel) [] rest
    cases es with
    | nil => exact absurd trivial hes
    | cons entry es =>
      have hwrite : writeJson (.object (entry :: es)) ++ rest =
          '{' :: (writeEntries true (entry :: es) ++ '}' :: rest) := by
        simp [writeJson]
      rw [hwrite]
      obtain ⟨t, ht⟩ : ∃ t, writeEntries true (entry :: es) ++ '}' :: rest = '"' :: t := ⟨_, rfl⟩
      refine ⟨e, parseValue_object_error size ?_ ?_ hentries⟩
      · rw [ht, skipWhitespace_cons (by decide)]
      · rw [ht]
        exact (by decide : '"' ≠ '}')

theorem parseElements_writeElements_error (hminus : ∃ e, NumberText.stod ['-'] = .error e)
    {vs : List JsonValue} (hvs : JsonValue.EverywhereElements JsonValue.FiniteCarries vs)
    (hunsound : ¬ JsonValue.SoundElements vs) {fuel : Nat}
    (hfuel : JsonValue.callsElements vs ≤ fuel) (rest : List Char) :
    ∃ e, parseElements size fuel (writeElements true vs ++ ']' :: rest) = .error e := by
  match vs with
  | [] => exact absurd trivial hunsound
  | v :: vs =>
    obtain ⟨fuel, rfl⟩ : ∃ n, fuel = n + 1 :=
      ⟨fuel - 1, by rw [JsonValue.callsElements] at hfuel; omega⟩
    have hcalls : v.calls ≤ fuel ∧ JsonValue.callsElements vs ≤ fuel := by
      rw [JsonValue.callsElements] at hfuel
      omega
    by_cases hv : v.Sound
    · have hrest : ¬ JsonValue.SoundElements vs := fun h => hunsound ⟨hv, h⟩
      cases vs with
      | nil => exact absurd trivial hrest
      | cons w vs =>
        obtain ⟨e, he⟩ :=
          parseElements_writeElements_error hminus hvs.2 hrest hcalls.2 rest
        have hwrite : writeElements true (v :: w :: vs) ++ ']' :: rest =
            writeJson v ++ ',' :: (writeElements true (w :: vs) ++ ']' :: rest) := by
          simp [writeElements, comma]
        have hskip : skipWhitespace (writeElements true (w :: vs) ++ ']' :: rest) =
            writeElements true (w :: vs) ++ ']' :: rest := by
          have htext : writeElements true (w :: vs) ++ ']' :: rest =
              writeJson w ++ (writeElements false vs ++ ']' :: rest) := by
            simp [writeElements, comma]
          rw [htext, skipWhitespace_writeJson hvs.2.1]
        have hvalue := parseValue_writeJson size hv hcalls.1 (delimited_cons (c := ',') (by simp)
          (writeElements true (w :: vs) ++ ']' :: rest))
        rw [hwrite]
        exact ⟨e, parseElements_comma_error size hvalue hskip he⟩
    · obtain ⟨e, he⟩ := parseValue_error hminus hvs.1 hv hcalls.1
        (writeElements false vs ++ ']' :: rest)
      have hwrite : writeElements true (v :: vs) ++ ']' :: rest =
          writeJson v ++ (writeElements false vs ++ ']' :: rest) := by
        simp [writeElements, comma]
      rw [hwrite]
      exact ⟨e, parseElements_error size he⟩

theorem parseEntries_writeEntries_error (hminus : ∃ e, NumberText.stod ['-'] = .error e)
    {new : List (String × JsonValue)}
    (hnew : JsonValue.EverywhereEntries JsonValue.FiniteCarries new)
    (hunsound : ¬ JsonValue.SoundEntries new) {fuel : Nat}
    (hfuel : JsonValue.callsEntries new ≤ fuel) (es : List (String × JsonValue))
    (rest : List Char) :
    ∃ e, parseEntries size fuel es (writeEntries true new ++ '}' :: rest) = .error e := by
  match new with
  | [] => exact absurd trivial hunsound
  | (key, v) :: new =>
    obtain ⟨fuel, rfl⟩ : ∃ n, fuel = n + 1 :=
      ⟨fuel - 1, by rw [JsonValue.callsEntries] at hfuel; omega⟩
    have hcalls : v.calls ≤ fuel ∧ JsonValue.callsEntries new ≤ fuel := by
      rw [JsonValue.callsEntries] at hfuel
      omega
    by_cases hv : v.Sound
    · have hrest : ¬ JsonValue.SoundEntries new := fun h => hunsound ⟨hv, h⟩
      cases new with
      | nil => exact absurd trivial hrest
      | cons entry new =>
        obtain ⟨e, he⟩ := parseEntries_writeEntries_error hminus hnew.2 hrest hcalls.2
          (JsonValue.setEntry es (receivedString key) v.received) rest
        have hwrite : writeEntries true ((key, v) :: entry :: new) ++ '}' :: rest =
            escapedString key ++ ':' :: (writeJson v ++
              ',' :: (writeEntries true (entry :: new) ++ '}' :: rest)) := by
          simp [writeEntries, comma]
        have hvalue := parseValue_writeJson size hv hcalls.1 (delimited_cons (c := ',') (by simp)
          (writeEntries true (entry :: new) ++ '}' :: rest))
        rw [hwrite, parseEntries_comma size key es hvalue]
        exact ⟨e, he⟩
    · obtain ⟨e, he⟩ := parseValue_error hminus hnew.1 hv hcalls.1
        (writeEntries false new ++ '}' :: rest)
      have hwrite : writeEntries true ((key, v) :: new) ++ '}' :: rest =
          escapedString key ++ ':' :: (writeJson v ++ (writeEntries false new ++ '}' :: rest)) := by
        simp [writeEntries, comma]
      rw [hwrite]
      exact ⟨e, parseEntries_error size key es he⟩

end

end

/-- What `parse_json` makes of the text of a value with an infinity or a NaN inside. -/
theorem parseJson_writeJson_error [NumberText] (hminus : ∃ e, NumberText.stod ['-'] = .error e)
    {v : JsonValue} (hv : v.Everywhere JsonValue.FiniteCarries) (hunsound : ¬ v.Sound) :
    ∃ e, parseJson (writeJson v) = .error e := by
  have hcalls : v.calls ≤ 2 * (writeJson v).length + 2 := (calls_le hv).trans (by omega)
  obtain ⟨e, he⟩ := parseValue_error (writeJson v).length hminus hv hunsound hcalls []
  rw [List.append_nil] at he
  exact ⟨e, by rw [parseJson, he, Except.error_bind]⟩

end SqlOptimizer
