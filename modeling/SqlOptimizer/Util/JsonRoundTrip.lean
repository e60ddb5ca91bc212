import SqlOptimizer.Util.Json

/-! What the parser makes of a written value: everything but the control characters of its strings
and keys comes back. -/

namespace SqlOptimizer

/-! ### Strings -/

/-- What arrives for a byte of a string.  The parser knows the escapes of a newline and a tab, and
takes any other escape for its letter. -/
def receivedChar (c : Char) : List Char :=
  if c = '\n' ∨ c = '\t' then [c]
  else if c = '\r' then ['r']
  else if c.toNat < 0x20 then
    ['u', '0', '0', Nat.digitChar (c.toNat / 16), Nat.digitChar (c.toNat % 16)]
  else [c]

def receivedString (s : String) : String := String.ofList (s.toList.flatMap receivedChar)

/-- No control characters but newlines and tabs. -/
def Clean (s : String) : Prop := ∀ c ∈ s.toList, 0x20 ≤ c.toNat ∨ c = '\n' ∨ c = '\t'

instance (s : String) : Decidable (Clean s) :=
  List.decidableBAll (fun c : Char => 0x20 ≤ c.toNat ∨ c = '\n' ∨ c = '\t') s.toList

theorem receivedChar_of_clean {c : Char} (h : 0x20 ≤ c.toNat ∨ c = '\n' ∨ c = '\t') :
    receivedChar c = [c] := by
  unfold receivedChar
  rcases h with h | h
  · have hr : c ≠ '\r' := by
      rintro rfl
      revert h
      decide
    have hlt : ¬ c.toNat < 0x20 := Nat.not_lt.mpr h
    rw [if_neg hr, if_neg hlt, ite_self]
  · rw [if_pos h]

/-- The first character tells that a control character was changed. -/
theorem head_receivedChar {c : Char} (h : ¬ (0x20 ≤ c.toNat ∨ c = '\n' ∨ c = '\t')) :
    ∃ d t, receivedChar c = d :: t ∧ d ≠ c := by
  push Not at h
  obtain ⟨hlt, hn, ht⟩ := h
  have hne : ¬ (c = '\n' ∨ c = '\t') := by
    rintro (h | h)
    · exact hn h
    · exact ht h
  unfold receivedChar
  rw [if_neg hne]
  by_cases hr : c = '\r'
  · exact ⟨'r', [], by rw [if_pos hr], by rw [hr]; decide⟩
  · rw [if_neg hr, if_pos hlt]
    refine ⟨'u', _, rfl, ?_⟩
    rintro rfl
    revert hlt
    decide

theorem receivedString_eq_self {s : String} : receivedString s = s ↔ Clean s := by
  have hchars : ∀ cs : List Char, cs.flatMap receivedChar = cs ↔
      ∀ c ∈ cs, 0x20 ≤ c.toNat ∨ c = '\n' ∨ c = '\t' := by
    intro cs
    induction cs with
    | nil => simp
    | cons c cs ih =>
      rw [List.flatMap_cons, List.forall_mem_cons]
      by_cases hc : 0x20 ≤ c.toNat ∨ c = '\n' ∨ c = '\t'
      · rw [receivedChar_of_clean hc, List.singleton_append, List.cons.injEq, ih]
        simp [hc]
      · obtain ⟨d, t, hd, hne⟩ := head_receivedChar hc
        rw [hd, List.cons_append, List.cons.injEq]
        simp [hne, hc]
  rw [Clean, ← hchars, receivedString, ← String.toList_inj, String.toList_ofList]

theorem parseStringBody_quote (rest : List Char) : parseStringBody ('"' :: rest) = .ok ([], rest) := by
  rw [parseStringBody.eq_def]
  rfl

theorem parseStringBody_escape (esc : Char) {rest s rest' : List Char}
    (h : parseStringBody rest = .ok (s, rest')) :
    parseStringBody ('\\' :: esc :: rest) = .ok (unescaped esc :: s, rest') := by
  rw [parseStringBody.eq_def]
  simp only [h, Except.ok_bind]
  rfl

theorem parseStringBody_plain {c : Char} (hq : c ≠ '"') (hb : c ≠ '\\') {rest s rest' : List Char}
    (h : parseStringBody rest = .ok (s, rest')) :
    parseStringBody (c :: rest) = .ok (c :: s, rest') := by
  rw [parseStringBody.eq_def]
  simp only [hq, hb, if_false, h, Except.ok_bind]
  rfl

theorem digitChar_ne {n : Nat} (h : n < 16) {c : Char} (hc : c = '"' ∨ c = '\\') :
    Nat.digitChar n ≠ c := by
  have hall : ∀ n < 16, Nat.digitChar n ≠ '"' ∧ Nat.digitChar n ≠ '\\' := by decide
  rcases hc with rfl | rfl
  · exact (hall n h).1
  · exact (hall n h).2

/-- One escaped byte in front of a string body. -/
theorem parseStringBody_escapedChar (c : Char) {rest : List Char} {s rest' : List Char}
    (h : parseStringBody rest = .ok (s, rest')) :
    parseStringBody (escapedChar c ++ rest) = .ok (receivedChar c ++ s, rest') := by
  unfold escapedChar
  split_ifs with hq hb hn ht hr hlt
  · subst hq
    exact parseStringBody_escape '"' h
  · subst hb
    exact parseStringBody_escape '\\' h
  · subst hn
    exact parseStringBody_escape 'n' h
  · subst ht
    exact parseStringBody_escape 't' h
  · subst hr
    exact parseStringBody_escape 'r' h
  · -- the escape stands for its letter, the digits for themselves
    have hreceived : receivedChar c =
        ['u', '0', '0', Nat.digitChar (c.toNat / 16), Nat.digitChar (c.toNat % 16)] := by
      simp [receivedChar, hn, ht, hr, hlt]
    have hhigh : c.toNat / 16 < 16 := by omega
    have hlow : c.toNat % 16 < 16 := by omega
    rw [hreceived]
    apply parseStringBody_escape 'u'
    apply parseStringBody_plain (by decide) (by decide)
    apply parseStringBody_plain (by decide) (by decide)
    apply parseStringBody_plain (digitChar_ne hhigh (.inl rfl)) (digitChar_ne hhigh (.inr rfl))
    exact parseStringBody_plain (digitChar_ne hlow (.inl rfl)) (digitChar_ne hlow (.inr rfl)) h
  · rw [receivedChar_of_clean (.inl (Nat.not_lt.mp hlt))]
    exact parseStringBody_plain hq hb h

theorem parseStringBody_escaped (s rest : List Char) :
    parseStringBody (s.flatMap escapedChar ++ '"' :: rest) = .ok (s.flatMap receivedChar, rest) := by
  induction s with
  | nil => exact parseStringBody_quote rest
  | cons c s ih =>
    rw [List.flatMap_cons, List.append_assoc, List.flatMap_cons]
    exact parseStringBody_escapedChar c ih

theorem parseRawString_escaped (size : Nat) (s : String) (rest : List Char) :
    parseRawString size (escapedString s ++ rest) = .ok (receivedString s, rest) := by
  have htext : escapedString s ++ rest = '"' :: (s.toList.flatMap escapedChar ++ '"' :: rest) := by
    simp [escapedString]
  rw [htext]
  simp only [parseRawString, expect, peek, List.headD_cons, if_true, List.tail_cons, Except.ok_bind,
    parseStringBody_escaped]
  rfl

/-! ### Numbers -/

/-- What may follow a value: nothing, white space, or a separator. -/
def Delimited (rest : List Char) : Prop :=
  ∀ c ∈ rest.head?, isSpace c = true ∨ c = ',' ∨ c = ']' ∨ c = '}'

theorem delimited_nil : Delimited [] := by simp [Delimited]

theorem delimited_cons {c : Char} (h : c = ',' ∨ c = ']' ∨ c = '}') (rest : List Char) :
    Delimited (c :: rest) := by
  rintro d ⟨⟩
  exact .inr h

theorem isSpace_eq_false {c : Char} (h : c.isDigit = true) : isSpace c = false := by
  have hlow : 48 ≤ c.toNat := by
    simp only [Char.isDigit, Bool.and_eq_true, decide_eq_true_eq] at h
    exact h.1
  have hne : c ≠ ' ' := by
    rintro rfl
    revert h
    decide
  simp only [isSpace, hne, decide_false, Bool.false_or, Bool.and_eq_false_iff,
    decide_eq_false_iff_not]
  omega

/-- A character that ends every number. -/
theorem Delimited.peek_ne {rest : List Char} (h : Delimited rest) {c : Char}
    (hc : c ∈ ['-', '.', 'e', 'E', '+']) : peek rest ≠ c := by
  have hall : ∀ c ∈ ['-', '.', 'e', 'E', '+'],
      isSpace c = false ∧ c ≠ ',' ∧ c ≠ ']' ∧ c ≠ '}' ∧ c ≠ Char.ofNat 0 := by
    intro c hc
    simp only [List.mem_cons, List.not_mem_nil, or_false] at hc
    rcases hc with rfl | rfl | rfl | rfl | rfl <;> decide
  obtain ⟨hspace, hcomma, hbracket, hbrace, hnul⟩ := hall c hc
  cases rest with
  | nil => exact hnul.symm
  | cons d rest =>
    intro hp
    obtain rfl : d = c := hp
    have hd := h d rfl
    simp [hspace, hcomma, hbracket, hbrace] at hd

theorem Delimited.isDigit_peek {rest : List Char} (h : Delimited rest) :
    (peek rest).isDigit = false := by
  cases rest with
  | nil => rfl
  | cons d rest =>
    show d.isDigit = false
    rcases h d rfl with hspace | rfl | rfl | rfl
    · by_contra hdigit
      rw [isSpace_eq_false (Bool.not_eq_false _ ▸ hdigit)] at hspace
      cases hspace
    · decide
    · decide
    · decide

/-- A scanner that does not look past the end of its number. -/
def Stops (scan : List Char → List Char × List Char) : Prop :=
  ∀ a rest, Delimited rest → scan (a ++ rest) = ((scan a).1, (scan a).2 ++ rest)

theorem takeWhile_append_delimited {rest : List Char} (h : Delimited rest) (a : List Char) :
    (a ++ rest).takeWhile Char.isDigit = a.takeWhile Char.isDigit := by
  induction a with
  | nil =>
    cases rest with
    | nil => rfl
    | cons c rest =>
      have hc : c.isDigit = false := h.isDigit_peek
      simp [hc]
  | cons c a ih =>
    rw [List.cons_append, List.takeWhile_cons, List.takeWhile_cons, ih]

theorem dropWhile_append_delimited {rest : List Char} (h : Delimited rest) (a : List Char) :
    (a ++ rest).dropWhile Char.isDigit = a.dropWhile Char.isDigit ++ rest := by
  induction a with
  | nil =>
    cases rest with
    | nil => rfl
    | cons c rest =>
      have hc : c.isDigit = false := h.isDigit_peek
      simp [hc]
  | cons c a ih =>
    rw [List.cons_append, List.dropWhile_cons, List.dropWhile_cons, ih]
    split <;> rfl

theorem stops_scanSign : Stops scanSign := by
  intro a rest h
  cases a with
  | nil =>
    rw [List.nil_append, scanSign, if_neg (h.peek_ne (by simp))]
    rfl
  | cons c a =>
    by_cases hc : c = '-' <;> simp [scanSign, peek, hc]

theorem stops_scanFraction : Stops scanFraction := by
  intro a rest h
  cases a with
  | nil =>
    rw [List.nil_append, scanFraction, if_neg (h.peek_ne (by simp))]
    rfl
  | cons c a =>
    by_cases hc : c = '.' <;>
      simp [scanFraction, peek, hc, takeWhile_append_delimited h, dropWhile_append_delimited h]

theorem stops_scanExponentSign : Stops scanExponentSign := by
  intro a rest h
  cases a with
  | nil =>
    have hp : ¬ (peek rest = '+' ∨ peek rest = '-') :=
      not_or.mpr ⟨h.peek_ne (by simp), h.peek_ne (by simp)⟩
    rw [List.nil_append, scanExponentSign, if_neg hp]
    rfl
  | cons c a =>
    by_cases hc : c = '+' ∨ c = '-' <;> simp [scanExponentSign, peek, hc]

theorem stops_scanExponent : Stops scanExponent := by
  intro a rest h
  cases a with
  | nil =>
    have hp : ¬ (peek rest = 'e' ∨ peek rest = 'E') :=
      not_or.mpr ⟨h.peek_ne (by simp), h.peek_ne (by simp)⟩
    rw [List.nil_append, scanExponent, if_neg hp]
    rfl
  | cons c a =>
    by_cases hc : c = 'e' ∨ c = 'E' <;>
      simp [scanExponent, peek, hc, stops_scanExponentSign a rest h, takeWhile_append_delimited h,
        dropWhile_append_delimited h]

theorem stops_scanNumber : Stops scanNumber := by
  intro a rest h
  simp only [scanNumber, stops_scanSign a rest h, takeWhile_append_delimited h,
    dropWhile_append_delimited h, stops_scanFraction _ rest h, stops_scanExponent _ rest h]

/-- The first character of a number. -/
def StartsNumber (c : Char) : Prop := c = '-' ∨ c.isDigit = true ∨ c = '.' ∨ c = 'e' ∨ c = 'E'

theorem startsNumber_peek {text : List Char} (hne : (scanNumber text).1 ≠ []) :
    StartsNumber (peek text) := by
  by_contra hstart
  simp only [StartsNumber, not_or, Bool.not_eq_true] at hstart
  obtain ⟨hsign, hdigit, hdot, he, hE⟩ := hstart
  have hdigits : text.takeWhile Char.isDigit = [] ∧ text.dropWhile Char.isDigit = text := by
    cases text with
    | nil => exact ⟨rfl, rfl⟩
    | cons c text =>
      have hc : c.isDigit = false := hdigit
      simp [hc]
  refine hne ?_
  simp [scanNumber, scanSign, scanFraction, scanExponent, hsign, hdot, he, hE, hdigits]

section

variable [NumberText]

/-- A double that the parser reads back from its text. -/
def Carries (x : Binary64) : Prop :=
  numberText x ≠ [] ∧ scanNumber (numberText x) = (numberText x, []) ∧
    NumberText.stod (numberText x) = .ok x

theorem parseNumber_text {x : Binary64} (h : Carries x) (size : Nat) {rest : List Char}
    (hrest : Delimited rest) :
    parseNumber size (numberText x ++ rest) = .ok (.number x, rest) := by
  obtain ⟨hne, hscan, hread⟩ := h
  have htext : scanNumber (numberText x ++ rest) = (numberText x, rest) := by
    rw [stops_scanNumber _ rest hrest, hscan]
    rfl
  simp only [parseNumber, htext, hne, if_false, hread]
  rfl

end

/-! ### Values -/

namespace JsonValue

/-- Assignments to keys, one after the other. -/
def merge (entries new : List (String × JsonValue)) : List (String × JsonValue) :=
  new.foldl (fun entries e => setEntry entries e.1 e.2) entries

mutual

/-- What arrives for a value.  Keys that arrive alike share one entry. -/
def received : JsonValue → JsonValue
  | .null => .null
  | .bool b => .bool b
  | .number x => .number x
  | .string s => .string (receivedString s)
  | .array elements => .array (receivedElements elements)
  | .object entries => .object (merge [] (receivedEntries entries))

def receivedElements : List JsonValue → List JsonValue
  | [] => []
  | v :: vs => v.received :: receivedElements vs

def receivedEntries : List (String × JsonValue) → List (String × JsonValue)
  | [] => []
  | (key, v) :: es => (receivedString key, v.received) :: receivedEntries es

end

section

-- what holds of a value alone
variable (P : JsonValue → Prop)

mutual

/-- A value and the values inside it. -/
def Everywhere : JsonValue → Prop
  | .array elements => P (.array elements) ∧ EverywhereElements elements
  | .object entries => P (.object entries) ∧ EverywhereEntries entries
  | v => P v

def EverywhereElements : List JsonValue → Prop
  | [] => True
  | v :: vs => v.Everywhere ∧ EverywhereElements vs

def EverywhereEntries : List (String × JsonValue) → Prop
  | [] => True
  | (_, v) :: es => v.Everywhere ∧ EverywhereEntries es

end

end

mutual

theorem Everywhere.imp₂ {P Q S : JsonValue → Prop} (h : ∀ v, P v → Q v → S v) {v : JsonValue}
    (hp : v.Everywhere P) (hq : v.Everywhere Q) : v.Everywhere S := by
  match v with
  | .null | .bool _ | .number _ | .string _ => exact h _ hp hq
  | .array _ => exact ⟨h _ hp.1 hq.1, EverywhereElements.imp₂ h hp.2 hq.2⟩
  | .object _ => exact ⟨h _ hp.1 hq.1, EverywhereEntries.imp₂ h hp.2 hq.2⟩

theorem EverywhereElements.imp₂ {P Q S : JsonValue → Prop} (h : ∀ v, P v → Q v → S v)
    {vs : List JsonValue} (hp : EverywhereElements P vs) (hq : EverywhereElements Q vs) :
    EverywhereElements S vs := by
  match vs with
  | [] => trivial
  | _ :: _ => exact ⟨Everywhere.imp₂ h hp.1 hq.1, EverywhereElements.imp₂ h hp.2 hq.2⟩

theorem EverywhereEntries.imp₂ {P Q S : JsonValue → Prop} (h : ∀ v, P v → Q v → S v)
    {es : List (String × JsonValue)} (hp : EverywhereEntries P es) (hq : EverywhereEntries Q es) :
    EverywhereEntries S es := by
  match es with
  | [] => trivial
  | _ :: _ => exact ⟨Everywhere.imp₂ h hp.1 hq.1, EverywhereEntries.imp₂ h hp.2 hq.2⟩

end

theorem Everywhere.imp {P Q : JsonValue → Prop} (h : ∀ v, P v → Q v) {v : JsonValue}
    (hv : v.Everywhere P) : v.Everywhere Q := hv.imp₂ (fun v hp _ => h v hp) hv

theorem everywhereElements_iff {P : JsonValue → Prop} {vs : List JsonValue} :
    EverywhereElements P vs ↔ ∀ v ∈ vs, v.Everywhere P := by
  induction vs with
  | nil => exact iff_of_true trivial (by simp)
  | cons v vs ih => rw [EverywhereElements, ih, List.forall_mem_cons]

theorem everywhereEntries_iff {P : JsonValue → Prop} {es : List (String × JsonValue)} :
    EverywhereEntries P es ↔ ∀ e ∈ es, e.2.Everywhere P := by
  induction es with
  | nil => exact iff_of_true trivial (by simp)
  | cons e es ih => rw [EverywhereEntries, ih, List.forall_mem_cons]

/-- An array of what a function makes of the elements of a list. -/
theorem everywhere_array_map {P : JsonValue → Prop} (harray : ∀ vs, P (.array vs)) {α : Type}
    (f : α → JsonValue) (as : List α) :
    (JsonValue.array (as.map f)).Everywhere P ↔ ∀ a ∈ as, (f a).Everywhere P := by
  rw [Everywhere, everywhereElements_iff, List.forall_mem_map]
  exact and_iff_right (harray _)

/-- A number is read back from its text. -/
def NumberCarries [NumberText] (v : JsonValue) : Prop := ∀ x, v = .number x → Carries x

/-- A number is read back from its text unless it is an infinity or a NaN. -/
def FiniteCarries [NumberText] (v : JsonValue) : Prop :=
  ∀ neg mag, v = .number (.fin neg mag) → Carries (.fin neg mag)

theorem NumberCarries.finite [NumberText] {v : JsonValue} (h : v.NumberCarries) :
    v.FiniteCarries := fun _ _ hv => h _ hv

def Sound [NumberText] (v : JsonValue) : Prop := v.Everywhere NumberCarries

theorem Sound.finite [NumberText] {v : JsonValue} (h : v.Sound) : v.Everywhere FiniteCarries :=
  h.imp fun _ => NumberCarries.finite

abbrev SoundElements [NumberText] : List JsonValue → Prop := EverywhereElements NumberCarries

abbrev SoundEntries [NumberText] : List (String × JsonValue) → Prop :=
  EverywhereEntries NumberCarries

/-- The keys of an object are different. -/
def KeysDistinct (v : JsonValue) : Prop := ∀ es, v = .object es → (es.map (·.1)).Nodup

/-- A string, or the keys of an object, without control characters but newlines and tabs. -/
def CleanTexts (v : JsonValue) : Prop :=
  (∀ s, v = .string s → Clean s) ∧ ∀ es, v = .object es → ∀ e ∈ es, Clean e.1

theorem setEntry_of_not_mem {entries : List (String × JsonValue)} {key : String}
    (h : key ∉ entries.map (·.1)) (v : JsonValue) :
    setEntry entries key v = entries ++ [(key, v)] := by
  have hnone : entries.any (·.1 == key) = false := by
    rw [List.any_eq_false]
    intro e he hk
    exact h (List.mem_map.mpr ⟨e, he, by simpa using hk⟩)
  rw [setEntry, hnone]
  rfl

end JsonValue

theorem skipWhitespace_cons {c : Char} (h : isSpace c = false) (rest : List Char) :
    skipWhitespace (c :: rest) = c :: rest := by
  simp [skipWhitespace, h]

theorem StartsNumber.isSpace {c : Char} (h : StartsNumber c) : isSpace c = false := by
  rcases h with rfl | h | rfl | rfl | rfl
  · decide
  · exact isSpace_eq_false h
  · decide
  · decide
  · decide

/-- A number starts no other kind of value. -/
theorem StartsNumber.ne {c d : Char} (h : StartsNumber c)
    (hd : d ∈ ['{', '[', ']', '"', 't', 'f', 'n']) : c ≠ d := by
  have hall : ∀ d ∈ ['{', '[', ']', '"', 't', 'f', 'n'],
      d ≠ '-' ∧ d.isDigit = false ∧ d ≠ '.' ∧ d ≠ 'e' ∧ d ≠ 'E' := by
    intro d hd
    simp only [List.mem_cons, List.not_mem_nil, or_false] at hd
    rcases hd with rfl | rfl | rfl | rfl | rfl | rfl | rfl <;> decide
  rintro rfl
  obtain ⟨h1, h2, h3, h4, h5⟩ := hall c hd
  simp [StartsNumber, h1, h2, h3, h4, h5] at h

section

variable [NumberText]

theorem Carries.exists_cons {x : Binary64} (h : Carries x) :
    ∃ c t, numberText x = c :: t ∧ StartsNumber c := by
  have hstart : StartsNumber (peek (numberText x)) := startsNumber_peek (by rw [h.2.1]; exact h.1)
  cases htext : numberText x with
  | nil => exact absurd htext h.1
  | cons c t =>
    rw [htext] at hstart
    exact ⟨c, t, rfl, hstart⟩

/-- No value starts with a space or a closing bracket. -/
theorem exists_cons_writeJson {v : JsonValue} (h : v.Everywhere JsonValue.FiniteCarries) :
    ∃ c t, writeJson v = c :: t ∧ isSpace c = false ∧ c ≠ ']' := by
  match v with
  | .null => exact ⟨_, _, rfl, by decide, by decide⟩
  | .bool b => cases b <;> exact ⟨_, _, rfl, by decide, by decide⟩
  | .number (.fin neg mag) =>
    obtain ⟨c, t, htext, hstart⟩ := Carries.exists_cons (h neg mag rfl)
    exact ⟨c, t, by rw [writeJson, htext], hstart.isSpace, hstart.ne (by simp)⟩
  | .number (.inf neg) => cases neg <;> exact ⟨_, _, rfl, by decide, by decide⟩
  | .number .nan => exact ⟨_, _, rfl, by decide, by decide⟩
  | .string s => exact ⟨'"', _, rfl, by decide, by decide⟩
  | .array vs => exact ⟨'[', _, rfl, by decide, by decide⟩
  | .object es => exact ⟨'{', _, rfl, by decide, by decide⟩

theorem skipWhitespace_writeJson {v : JsonValue} (h : v.Everywhere JsonValue.FiniteCarries)
    (rest : List Char) : skipWhitespace (writeJson v ++ rest) = writeJson v ++ rest := by
  obtain ⟨c, t, htext, hspace, -⟩ := exists_cons_writeJson h
  rw [htext, List.cons_append, skipWhitespace_cons hspace]

variable (size : Nat)

theorem parseValue_number {x : Binary64} (h : Carries x) (fuel : Nat) {rest : List Char}
    (hrest : Delimited rest) :
    parseValue size (fuel + 1) (numberText x ++ rest) = .ok (.number x, rest) := by
  have hnumber := parseNumber_text h size hrest
  obtain ⟨c, t, htext, hstart⟩ := h.exists_cons
  rw [htext, List.cons_append] at hnumber ⊢
  have hne : c ≠ '{' ∧ c ≠ '[' ∧ c ≠ '"' ∧ c ≠ 't' ∧ c ≠ 'f' ∧ c ≠ 'n' := by
    refine ⟨?_, ?_, ?_, ?_, ?_, ?_⟩ <;> exact hstart.ne (by simp)
  simp only [parseValue, skipWhitespace_cons hstart.isSpace, peek, List.headD_cons, hne, if_false,
    or_self]
  exact hnumber

theorem parseValue_string (s : String) (fuel : Nat) (rest : List Char) :
    parseValue size (fuel + 1) (escapedString s ++ rest) = .ok (.string (receivedString s), rest) := by
  have hstring := parseRawString_escaped size s rest
  obtain ⟨t, ht⟩ : ∃ t, escapedString s ++ rest = '"' :: t := ⟨_, rfl⟩
  rw [ht] at hstring ⊢
  have hskip : skipWhitespace ('"' :: t) = '"' :: t := skipWhitespace_cons (by decide) t
  simp only [parseValue, hskip, hstring]
  rfl

theorem parseValue_array {fuel : Nat} {text rest : List Char} {vs : List JsonValue}
    (hskip : skipWhitespace text = text) (hclose : peek text ≠ ']')
    (h : parseElements size fuel text = .ok (vs, ']' :: rest)) :
    parseValue size (fuel + 1) ('[' :: text) = .ok (.array vs, rest) := by
  have hopen : skipWhitespace ('[' :: text) = '[' :: text := skipWhitespace_cons (by decide) text
  have hend : skipWhitespace (']' :: rest) = ']' :: rest := skipWhitespace_cons (by decide) rest
  have hbracket : expect size '[' ('[' :: text) = .ok text := rfl
  have hexpect : expect size ']' (']' :: rest) = .ok rest := rfl
  have hpeek : peek ('[' :: text) = '[' := rfl
  have hne : '[' ≠ '{' := by decide
  simp only [parseValue, hopen, hpeek, hne, if_false, if_true, hbracket, Except.ok_bind, hskip, hclose,
    h, hend, hexpect]
  rfl

theorem parseValue_object {fuel : Nat} {text rest : List Char} {es : List (String × JsonValue)}
    (hskip : skipWhitespace text = text) (hclose : peek text ≠ '}')
    (h : parseEntries size fuel [] text = .ok (es, '}' :: rest)) :
    parseValue size (fuel + 1) ('{' :: text) = .ok (.object es, rest) := by
  have hopen : skipWhitespace ('{' :: text) = '{' :: text := skipWhitespace_cons (by decide) text
  have hend : skipWhitespace ('}' :: rest) = '}' :: rest := skipWhitespace_cons (by decide) rest
  have hbrace : expect size '{' ('{' :: text) = .ok text := rfl
  have hexpect : expect size '}' ('}' :: rest) = .ok rest := rfl
  have hpeek : peek ('{' :: text) = '{' := rfl
  simp only [parseValue, hopen, hpeek, if_true, hbrace, Except.ok_bind, hskip, hclose, if_false, h,
    hend, hexpect]
  rfl

/-- One round of the loop over the elements. -/
theorem parseElements_last {fuel : Nat} {text rest : List Char} {v : JsonValue}
    (h : parseValue size fuel text = .ok (v, ']' :: rest)) :
    parseElements size (fuel + 1) text = .ok ([v], ']' :: rest) := by
  have hskip : skipWhitespace (']' :: rest) = ']' :: rest := skipWhitespace_cons (by decide) rest
  simp only [parseElements, h, Except.ok_bind, hskip]
  rfl

theorem parseElements_comma {fuel : Nat} {text rest rest' : List Char} {v : JsonValue}
    {vs : List JsonValue} (h : parseValue size fuel text = .ok (v, ',' :: rest))
    (hskip : skipWhitespace rest = rest) (hrest : parseElements size fuel rest = .ok (vs, rest')) :
    parseElements size (fuel + 1) text = .ok (v :: vs, rest') := by
  have hcomma : skipWhitespace (',' :: rest) = ',' :: rest := skipWhitespace_cons (by decide) rest
  have hpeek : peek (',' :: rest) = ',' := rfl
  simp only [parseElements, h, Except.ok_bind, hcomma, hpeek, if_true, List.tail_cons, hskip, hrest]
  rfl

/-- The key and the colon of an entry. -/
theorem parseEntries_key (fuel : Nat) (key : String) (es : List (String × JsonValue))
    (text : List Char) :
    parseEntries size (fuel + 1) es (escapedString key ++ ':' :: text) = (do
      let (v, rest) ← parseValue size fuel text
      let es := JsonValue.setEntry es (receivedString key) v
      let rest := skipWhitespace rest
      if peek rest = ',' then parseEntries size fuel es rest.tail else return (es, rest)) := by
  have hraw := parseRawString_escaped size key (':' :: text)
  have hskip : skipWhitespace (escapedString key ++ ':' :: text) = escapedString key ++ ':' :: text :=
    skipWhitespace_cons (by decide) _
  have hcolon : skipWhitespace (':' :: text) = ':' :: text := skipWhitespace_cons (by decide) text
  have hexpect : expect size ':' (':' :: text) = .ok text := rfl
  simp only [parseEntries, hskip, hraw, Except.ok_bind, hcolon, hexpect]

/-- One round of the loop over the entries. -/
theorem parseEntries_last {fuel : Nat} {text rest : List Char} {v : JsonValue}
    (key : String) (es : List (String × JsonValue))
    (h : parseValue size fuel text = .ok (v, '}' :: rest)) :
    parseEntries size (fuel + 1) es (escapedString key ++ ':' :: text) =
      .ok (JsonValue.setEntry es (receivedString key) v, '}' :: rest) := by
  have hskip : skipWhitespace ('}' :: rest) = '}' :: rest := skipWhitespace_cons (by decide) rest
  rw [parseEntries_key size fuel]
  simp only [h, Except.ok_bind, hskip]
  rfl

theorem parseEntries_comma {fuel : Nat} {text rest : List Char} {v : JsonValue}
    (key : String) (es : List (String × JsonValue))
    (h : parseValue size fuel text = .ok (v, ',' :: rest)) :
    parseEntries size (fuel + 1) es (escapedString key ++ ':' :: text) =
      parseEntries size fuel (JsonValue.setEntry es (receivedString key) v) rest := by
  have hskip : skipWhitespace (',' :: rest) = ',' :: rest := skipWhitespace_cons (by decide) rest
  rw [parseEntries_key size fuel]
  simp only [h, Except.ok_bind, hskip]
  rfl

mutual

theorem parseValue_writeJson {v : JsonValue} (hv : v.Sound) {fuel : Nat} (hfuel : v.calls ≤ fuel)
    {rest : List Char} (hrest : Delimited rest) :
    parseValue size fuel (writeJson v ++ rest) = .ok (v.received, rest) := by
  obtain ⟨fuel, rfl⟩ : ∃ n, fuel = n + 1 := by
    refine ⟨fuel - 1, ?_⟩
    cases v <;> simp only [JsonValue.calls] at hfuel <;> omega
  match v with
  | .null => rfl
  | .bool true => rfl
  | .bool false => rfl
  | .number x => exact parseValue_number size (hv x rfl) fuel hrest
  | .string s => exact parseValue_string size s fuel rest
  | .array [] => rfl
  | .array (v :: vs) =>
    obtain ⟨-, hvs⟩ := hv
    have helements := parseElements_writeElements hvs (by simp) (Nat.le_of_succ_le_succ hfuel) rest
    obtain ⟨c, t, htext, hspace, hclose⟩ := exists_cons_writeJson (JsonValue.Sound.finite hvs.1)
    have hcons : writeElements true (v :: vs) ++ ']' :: rest =
        c :: (t ++ writeElements false vs ++ ']' :: rest) := by
      simp [writeElements, comma, htext]
    have hwrite : writeJson (.array (v :: vs)) ++ rest =
        '[' :: (writeElements true (v :: vs) ++ ']' :: rest) := by
      simp [writeJson]
    rw [hwrite]
    refine parseValue_array size ?_ ?_ helements
    · rw [hcons, skipWhitespace_cons hspace]
    · rw [hcons]
      exact hclose
  | .object [] => rfl
  | .object (e :: es) =>
    obtain ⟨-, hes⟩ := hv
    have hentries := parseEntries_writeEntries hes (by simp) (Nat.le_of_succ_le_succ hfuel) [] rest
    have hwrite : writeJson (.object (e :: es)) ++ rest =
        '{' :: (writeEntries true (e :: es) ++ '}' :: rest) := by
      simp [writeJson]
    rw [hwrite]
    obtain ⟨t, ht⟩ : ∃ t, writeEntries true (e :: es) ++ '}' :: rest = '"' :: t := ⟨_, rfl⟩
    refine parseValue_object size ?_ ?_ hentries
    · rw [ht, skipWhitespace_cons (by decide)]
    · rw [ht]
      exact (by decide : '"' ≠ '}')

theorem parseElements_writeElements {vs : List JsonValue} (hvs : JsonValue.SoundElements vs)
    (hne : vs ≠ []) {fuel : Nat} (hfuel : JsonValue.callsElements vs ≤ fuel) (rest : List Char) :
    parseElements size fuel (writeElements true vs ++ ']' :: rest) =
      .ok (JsonValue.receivedElements vs, ']' :: rest) := by
  match vs with
  | [v] =>
    obtain ⟨fuel, rfl⟩ : ∃ n, fuel = n + 1 :=
      ⟨fuel - 1, by rw [JsonValue.callsElements] at hfuel; omega⟩
    have hcalls : v.calls ≤ fuel := by
      rw [JsonValue.callsElements] at hfuel
      omega
    have hv := parseValue_writeJson hvs.1 hcalls (delimited_cons (c := ']') (by simp) rest)
    have hwrite : writeElements true [v] ++ ']' :: rest = writeJson v ++ ']' :: rest := by
      simp [writeElements, comma]
    rw [hwrite]
    exact parseElements_last size hv
  | v :: w :: vs =>
    obtain ⟨fuel, rfl⟩ : ∃ n, fuel = n + 1 :=
      ⟨fuel - 1, by rw [JsonValue.callsElements] at hfuel; omega⟩
    have hcalls : v.calls ≤ fuel ∧ JsonValue.callsElements (w :: vs) ≤ fuel := by
      rw [JsonValue.callsElements] at hfuel
      omega
    have hrest := parseElements_writeElements hvs.2 (by simp) hcalls.2 rest
    have hwrite : writeElements true (v :: w :: vs) ++ ']' :: rest =
        writeJson v ++ ',' :: (writeElements true (w :: vs) ++ ']' :: rest) := by
      simp [writeElements, comma]
    have hskip : skipWhitespace (writeElements true (w :: vs) ++ ']' :: rest) =
        writeElements true (w :: vs) ++ ']' :: rest := by
      have htext : writeElements true (w :: vs) ++ ']' :: rest =
          writeJson w ++ (writeElements false vs ++ ']' :: rest) := by
        simp [writeElements, comma]
      rw [htext, skipWhitespace_writeJson (JsonValue.Sound.finite hvs.2.1)]
    have hv := parseValue_writeJson hvs.1 hcalls.1 (delimited_cons (c := ',') (by simp)
      (writeElements true (w :: vs) ++ ']' :: rest))
    rw [hwrite]
    exact parseElements_comma size hv hskip hrest

theorem parseEntries_writeEntries {new : List (String × JsonValue)}
    (hnew : JsonValue.SoundEntries new) (hne : new ≠ []) {fuel : Nat}
    (hfuel : JsonValue.callsEntries new ≤ fuel) (es : List (String × JsonValue))
    (rest : List Char) :
    parseEntries size fuel es (writeEntries true new ++ '}' :: rest) =
      .ok (JsonValue.merge es (JsonValue.receivedEntries new), '}' :: rest) := by
  match new with
  | [(key, v)] =>
    obtain ⟨fuel, rfl⟩ : ∃ n, fuel = n + 1 :=
      ⟨fuel - 1, by rw [JsonValue.callsEntries] at hfuel; omega⟩
    have hcalls : v.calls ≤ fuel := by
      rw [JsonValue.callsEntries] at hfuel
      omega
    have hv := parseValue_writeJson hnew.1 hcalls (delimited_cons (c := '}') (by simp) rest)
    have hwrite : writeEntries true [(key, v)] ++ '}' :: rest =
        escapedString key ++ ':' :: (writeJson v ++ '}' :: rest) := by
      simp [writeEntries, comma]
    rw [hwrite]
    exact parseEntries_last size key es hv
  | (key, v) :: e :: new =>
    obtain ⟨fuel, rfl⟩ : ∃ n, fuel = n + 1 :=
      ⟨fuel - 1, by rw [JsonValue.callsEntries] at hfuel; omega⟩
    have hcalls : v.calls ≤ fuel ∧ JsonValue.callsEntries (e :: new) ≤ fuel := by
      rw [JsonValue.callsEntries] at hfuel
      omega
    have hrest := parseEntries_writeEntries hnew.2 (by simp) hcalls.2
      (JsonValue.setEntry es (receivedString key) v.received) rest
    have hwrite : writeEntries true ((key, v) :: e :: new) ++ '}' :: rest = escapedString key ++
        ':' :: (writeJson v ++ ',' :: (writeEntries true (e :: new) ++ '}' :: rest)) := by
      simp [writeEntries, comma]
    have hv := parseValue_writeJson hnew.1 hcalls.1 (delimited_cons (c := ',') (by simp)
      (writeEntries true (e :: new) ++ '}' :: rest))
    rw [hwrite, parseEntries_comma size key es hv, hrest]
    rfl

end

/-! ### Texts -/

theorem length_writeElements_false (v : JsonValue) (vs : List JsonValue) :
    (writeElements false (v :: vs)).length = (writeElements true (v :: vs)).length + 1 := by
  simp [writeElements, comma]

theorem length_writeEntries_false (e : String × JsonValue) (es : List (String × JsonValue)) :
    (writeEntries false (e :: es)).length = (writeEntries true (e :: es)).length + 1 := by
  obtain ⟨key, v⟩ := e
  simp [writeEntries, comma]

mutual

/-- Every call reads a character of its own. -/
theorem calls_le {v : JsonValue} (hv : v.Everywhere JsonValue.FiniteCarries) :
    v.calls ≤ (writeJson v).length := by
  match v with
  | .null => simp [JsonValue.calls, writeJson]
  | .bool b => cases b <;> simp [JsonValue.calls, writeJson]
  | .number (.fin neg mag) => exact List.length_pos_of_ne_nil (hv neg mag rfl).1
  | .number (.inf neg) => cases neg <;> simp [JsonValue.calls, writeJson, numberText]
  | .number .nan => simp [JsonValue.calls, writeJson, numberText]
  | .string s => simp [JsonValue.calls, writeJson, escapedString]
  | .array vs =>
    have h := callsElements_le hv.2
    simp only [JsonValue.calls, writeJson, List.length_append, List.length_cons, List.length_nil]
    omega
  | .object es =>
    have h := callsEntries_le hv.2
    simp only [JsonValue.calls, writeJson, List.length_append, List.length_cons, List.length_nil]
    omega

theorem callsElements_le {vs : List JsonValue}
    (hvs : JsonValue.EverywhereElements JsonValue.FiniteCarries vs) :
    JsonValue.callsElements vs ≤ (writeElements true vs).length + 1 := by
  match vs with
  | [] => exact Nat.zero_le _
  | [v] =>
    have hv := calls_le hvs.1
    simp only [JsonValue.callsElements, writeElements, comma, List.length_append, if_true,
      List.length_nil]
    omega
  | v :: w :: vs =>
    have hv := calls_le hvs.1
    have h := callsElements_le hvs.2
    have hlength := length_writeElements_false w vs
    rw [JsonValue.callsElements, writeElements, List.length_append, List.length_append, hlength]
    omega

theorem callsEntries_le {es : List (String × JsonValue)}
    (hes : JsonValue.EverywhereEntries JsonValue.FiniteCarries es) :
    JsonValue.callsEntries es ≤ (writeEntries true es).length + 1 := by
  match es with
  | [] => exact Nat.zero_le _
  | [(key, v)] =>
    have hv := calls_le hes.1
    simp only [JsonValue.callsEntries, writeEntries, comma, List.length_append, if_true,
      List.length_nil, List.length_cons]
    omega
  | (key, v) :: e :: es =>
    have hv := calls_le hes.1
    have h := callsEntries_le hes.2
    have hlength := length_writeEntries_false e es
    rw [JsonValue.callsEntries, writeEntries, List.length_append, List.length_append,
      List.length_cons, List.length_append, hlength]
    omega

end

/-- What `parse_json` makes of a text of `to_json`. -/
theorem parseJson_writeJson {v : JsonValue} (h : v.Sound) :
    parseJson (writeJson v) = .ok v.received := by
  have hcalls : v.calls ≤ 2 * (writeJson v).length + 2 := (calls_le h.finite).trans (by omega)
  have hvalue := parseValue_writeJson (writeJson v).length h hcalls delimited_nil
  rw [List.append_nil] at hvalue
  rw [parseJson, hvalue]
  rfl

end

/-! ### Values that come back -/

namespace JsonValue

theorem length_setEntry_of_mem {entries : List (String × JsonValue)} {key : String}
    (h : key ∈ entries.map (·.1)) (v : JsonValue) :
    (setEntry entries key v).length = entries.length := by
  have hany : entries.any (·.1 == key) = true := by
    obtain ⟨e, he, rfl⟩ := List.mem_map.mp h
    exact List.any_eq_true.mpr ⟨e, he, beq_self_eq_true _⟩
  rw [setEntry, if_pos hany, List.length_map]

theorem length_merge_le (entries new : List (String × JsonValue)) :
    (merge entries new).length ≤ entries.length + new.length := by
  induction new generalizing entries with
  | nil => exact Nat.le_refl _
  | cons e new ih =>
    have hstep := ih (setEntry entries e.1 e.2)
    have hone : (setEntry entries e.1 e.2).length ≤ entries.length + 1 := by
      by_cases h : e.1 ∈ entries.map (·.1)
      · rw [length_setEntry_of_mem h]
        exact Nat.le_succ _
      · rw [setEntry_of_not_mem h, List.length_append, List.length_singleton]
    rw [List.length_cons]
    exact hstep.trans (by omega)

/-- No entry is lost only when the keys are new and different. -/
theorem merge_of_length {entries new : List (String × JsonValue)}
    (h : (merge entries new).length = entries.length + new.length) :
    merge entries new = entries ++ new := by
  induction new generalizing entries with
  | nil => exact (List.append_nil entries).symm
  | cons e new ih =>
    have hle := length_merge_le (setEntry entries e.1 e.2) new
    change (merge (setEntry entries e.1 e.2) new).length = _ at h
    by_cases hmem : e.1 ∈ entries.map (·.1)
    · rw [length_setEntry_of_mem hmem, h, List.length_cons] at hle
      omega
    · change merge (setEntry entries e.1 e.2) new = _
      rw [setEntry_of_not_mem hmem] at h ⊢
      rw [ih (by rw [h, List.length_append, List.length_cons, List.length_singleton]; omega),
        List.append_assoc, List.singleton_append]

theorem merge_of_nodup {entries new : List (String × JsonValue)}
    (h : (entries.map (·.1) ++ new.map (·.1)).Nodup) : merge entries new = entries ++ new := by
  induction new generalizing entries with
  | nil => exact (List.append_nil entries).symm
  | cons e new ih =>
    have hmem : e.1 ∉ entries.map (·.1) := by
      rw [List.nodup_append] at h
      exact fun hmem => h.2.2 e.1 hmem e.1 (by simp) rfl
    have hnew : ((entries ++ [(e.1, e.2)]).map (·.1) ++ new.map (·.1)).Nodup := by
      simpa using h
    change merge (setEntry entries e.1 e.2) new = _
    rw [setEntry_of_not_mem hmem, ih hnew, List.append_assoc, List.singleton_append]

theorem length_receivedEntries (es : List (String × JsonValue)) :
    (receivedEntries es).length = es.length := by
  induction es with
  | nil => rfl
  | cons e es ih => rw [receivedEntries, List.length_cons, ih, List.length_cons]

theorem merge_receivedEntries_eq_self {es : List (String × JsonValue)}
    (hkeys : (es.map (·.1)).Nodup) : merge [] (receivedEntries es) = es ↔ receivedEntries es = es := by
  constructor
  · intro h
    have hlength : (merge [] (receivedEntries es)).length =
        ([] : List (String × JsonValue)).length + (receivedEntries es).length := by
      rw [h, length_receivedEntries, List.length_nil, Nat.zero_add]
    rw [merge_of_length hlength] at h
    exact h
  · intro h
    rw [h]
    have hnodup : (([] : List (String × JsonValue)).map (·.1) ++ es.map (·.1)).Nodup := hkeys
    exact merge_of_nodup hnodup

mutual

/-- A value with different keys comes back when no text of it is changed. -/
theorem received_eq_self_iff (v : JsonValue) (hkeys : v.Everywhere KeysDistinct) :
    v.received = v ↔ v.Everywhere CleanTexts := by
  match v with
  | .null | .bool _ | .number _ =>
    exact iff_of_true rfl ⟨fun _ h => (by cases h), fun _ h => (by cases h)⟩
  | .string s =>
    rw [received, string.injEq, receivedString_eq_self]
    constructor
    · intro h
      refine ⟨fun t ht => ?_, fun es hes => by cases hes⟩
      cases ht
      exact h
    · exact fun h => h.1 s rfl
  | .array vs =>
    rw [received, array.injEq, receivedElements_eq_self_iff vs hkeys.2]
    constructor
    · exact fun h => ⟨⟨fun _ hs => (by cases hs), fun _ hes => (by cases hes)⟩, h⟩
    · exact And.right
  | .object es =>
    rw [received, object.injEq, merge_receivedEntries_eq_self (hkeys.1 es rfl),
      receivedEntries_eq_self_iff es hkeys.2]
    constructor
    · rintro ⟨hclean, h⟩
      refine ⟨⟨fun _ hs => (by cases hs), fun es' hes => ?_⟩, h⟩
      cases hes
      exact hclean
    · exact fun h => ⟨h.1.2 es rfl, h.2⟩

theorem receivedElements_eq_self_iff (vs : List JsonValue)
    (hkeys : EverywhereElements KeysDistinct vs) :
    receivedElements vs = vs ↔ EverywhereElements CleanTexts vs := by
  match vs with
  | [] => exact iff_of_true rfl trivial
  | v :: vs =>
    rw [receivedElements, List.cons.injEq, received_eq_self_iff v hkeys.1,
      receivedElements_eq_self_iff vs hkeys.2]
    rfl

theorem receivedEntries_eq_self_iff (es : List (String × JsonValue))
    (hkeys : EverywhereEntries KeysDistinct es) :
    receivedEntries es = es ↔ (∀ e ∈ es, Clean e.1) ∧ EverywhereEntries CleanTexts es := by
  match es with
  | [] => exact iff_of_true rfl ⟨by simp, trivial⟩
  | (key, v) :: es =>
    rw [receivedEntries, List.cons.injEq, Prod.mk.injEq, receivedString_eq_self,
      received_eq_self_iff v hkeys.1, receivedEntries_eq_self_iff es hkeys.2, List.forall_mem_cons,
      EverywhereEntries, and_and_and_comm]

end

end JsonValue

/-- A value is read back from its text when no string and no key in it has control characters other
than newlines and tabs. -/
theorem parseJson_writeJson_iff [NumberText] (v : JsonValue) (hnumbers : v.Sound)
    (hkeys : v.Everywhere JsonValue.KeysDistinct) :
    parseJson (writeJson v) = .ok v ↔ v.Everywhere JsonValue.CleanTexts := by
  rw [parseJson_writeJson hnumbers, Except.ok.injEq, JsonValue.received_eq_self_iff v hkeys]

section

/-- The text of one number. -/
local instance threeAndHalf : NumberText where
  print neg mag := if neg = false ∧ mag = (7 : ℕ) / (2 : ℕ) then ['3', '.', '5'] else []
  stod text :=
    if text = ['3', '.', '5'] then .ok (.fin false ((7 : ℕ) / (2 : ℕ)))
    else .error .invalidArgument

/-- A carriage return is read back as a letter. -/
theorem parseJson_carriageReturn :
    parseJson (writeJson (.string "\r")) = .ok (.string "r") ∧
      ¬ parseJson (writeJson (.string "\r")) = .ok (.string "\r") := by
  have h : parseJson (writeJson (.string "\r")) = .ok (.string "r") := rfl
  rw [h]
  exact ⟨rfl, by simp⟩

theorem parseJson_writeJson_iff_object :
    parseJson (writeJson (.object [("a", .number (.fin false (7 / 2))), ("b", .string "x\ny")])) =
        .ok (.object [("a", .number (.fin false (7 / 2))), ("b", .string "x\ny")]) ↔
      (JsonValue.object [("a", .number (.fin false (7 / 2))), ("b", .string "x\ny")]).Everywhere
        JsonValue.CleanTexts := by
  have htext : numberText (.fin false (7 / 2)) = ['3', '.', '5'] := if_pos ⟨rfl, rfl⟩
  have hcarries : Carries (.fin false (7 / 2)) := by
    rw [Carries, htext]
    exact ⟨by decide, rfl, rfl⟩
  refine parseJson_writeJson_iff _ ⟨fun x h => ?_, fun x h => ?_, fun x h => ?_, trivial⟩
    ⟨fun es h => ?_, fun es h => ?_, fun es h => ?_, trivial⟩
  · cases h
  · cases h
    exact hcarries
  · cases h
  · cases h
    decide
  · cases h
  · cases h

end

end SqlOptimizer
