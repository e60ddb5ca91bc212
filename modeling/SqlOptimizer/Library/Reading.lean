import SqlOptimizer.Library.Failure

/-! Recursive descent with one token of lookahead, as a relation.  A reading tells which lists of
tokens stand for which values in front of which token; it composes as the descent does, and a rule
implements it when the rule succeeds exactly on the lists that start with such tokens. -/

/-- `R ts a t`: the tokens `ts` stand for `a` when `t` follows them. -/
abbrev Reading (τ α : Type) := List τ → α → τ → Prop

namespace Reading

variable {τ ε α β : Type}

/-- No token, for one value. -/
def nothing (a : α) : Reading τ α := fun ts b _ => ts = [] ∧ b = a

/-- The tokens of `R`, then those of `S`. -/
def andThen (R : Reading τ α) (S : α → Reading τ β) : Reading τ β := fun ts b t =>
  ∃ a us vs, ts = us ++ vs ∧ R us a (vs.headD t) ∧ S a vs b t

instance : Monad (Reading τ) where
  pure := nothing
  bind := andThen

/-- One token. -/
def token (tok : τ) : Reading τ Unit := fun ts _ _ => ts = [tok]

/-- A phrase that its first token announces, or a value in its place. -/
def optional (tok : τ) (default : α) (R : Reading τ α) : Reading τ α := fun ts a t =>
  (∃ us, ts = tok :: us ∧ R us a t) ∨ (ts = [] ∧ a = default ∧ t ≠ tok)

/-- One or more phrases with a separator between them. -/
inductive Separated (sep : τ) (R : Reading τ α) : List τ → List α → τ → Prop
  | one {ts : List τ} {a : α} {t : τ} (h : R ts a t) (ht : t ≠ sep) : Separated sep R ts [a] t
  | cons {ts us : List τ} {a : α} {as : List α} {t : τ} (h : R ts a sep)
      (hs : Separated sep R us as t) : Separated sep R (ts ++ sep :: us) (a :: as) t

/-- An operand under any number of prefix operators. -/
inductive Prefixed (operator : τ) (wrap : α → α) (R : Reading τ α) : List τ → α → τ → Prop
  | operand {ts : List τ} {a : α} {t : τ} (h : R ts a t) (hts : ts.headD t ≠ operator) :
      Prefixed operator wrap R ts a t
  | operator {ts : List τ} {a : α} {t : τ} (h : Prefixed operator wrap R ts a t) :
      Prefixed operator wrap R (operator :: ts) (wrap a) t

/-- Operands with operators between them, grouped to the left; one more operator may follow. -/
inductive Chain (operator : τ → Option (α → α → α)) (R : Reading τ α) : List τ → α → τ → Prop
  | first {ts : List τ} {a : α} {t : τ} (h : R ts a t) : Chain operator R ts a t
  | next {ts us : List τ} {a b : α} {f : α → α → α} {tok t : τ} (h : Chain operator R ts a tok)
      (hop : operator tok = some f) (hr : R us b t) : Chain operator R (ts ++ tok :: us) (f a b) t

/-- Operands with operators between them, grouped to the left, up to a token that is no operator. -/
def chain (operator : τ → Option (α → α → α)) (R : Reading τ α) : Reading τ α := fun ts a t =>
  Chain operator R ts a t ∧ operator t = none

/-! ### A part of a reading -/

section

variable {R S : Reading τ α} {ts : List τ} {a : α} {as : List α} {t : τ}

/-- A reading on the tokens of a list. -/
theorem Separated.mono {sep : τ} (h : Separated sep R ts as t)
    (hRS : ∀ us b t', us.length ≤ ts.length → R us b t' → S us b t') : Separated sep S ts as t := by
  induction h with
  | one h ht => exact .one (hRS _ _ _ (Nat.le_refl _) h) ht
  | @cons ts us a as t h hs ih =>
    simp only [List.length_append, List.length_cons] at hRS
    exact .cons (hRS _ _ _ (by omega) h) (ih fun us b t' hle => hRS us b t' (by omega))

theorem Prefixed.mono {operator : τ} {wrap : α → α} (h : Prefixed operator wrap R ts a t)
    (hRS : ∀ us b t', us.length ≤ ts.length → R us b t' → S us b t') :
    Prefixed operator wrap S ts a t := by
  induction h with
  | operand h hts => exact .operand (hRS _ _ _ (Nat.le_refl _) h) hts
  | operator h ih =>
    simp only [List.length_cons] at hRS
    exact .operator (ih fun us b t' hle => hRS us b t' (by omega))

theorem Chain.mono {operator : τ → Option (α → α → α)} (h : Chain operator R ts a t)
    (hRS : ∀ us b t', us.length ≤ ts.length → R us b t' → S us b t') :
    Chain operator S ts a t := by
  induction h with
  | first h => exact .first (hRS _ _ _ (Nat.le_refl _) h)
  | @next ts us a b f tok t h hop hr ih =>
    simp only [List.length_append, List.length_cons] at hRS
    exact .next (ih fun us b t' hle => hRS us b t' (by omega)) hop (hRS _ _ _ (by omega) hr)

end

/-! ### Rules -/

/-- A rule returns a value and the tokens after it. -/
def Implements (stop : τ) (rule : List τ → Except ε (α × List τ)) (R : Reading τ α) : Prop :=
  ∀ tokens a rest, rule tokens = .ok (a, rest) ↔
    ∃ ts, tokens = ts ++ rest ∧ R ts a (rest.headD stop)

section

variable {stop tok : τ} {R : Reading τ α} {rule : List τ → Except ε (α × List τ)}

theorem implements_nothing (a : α) :
    Implements (ε := ε) stop (fun tokens => .ok (a, tokens)) (nothing a) := by
  intro tokens b rest
  constructor
  · intro h
    cases h
    exact ⟨[], rfl, rfl, rfl⟩
  · rintro ⟨ts, rfl, rfl, rfl⟩
    rfl

/-- The tokens of a reading start the list, and the lookahead is the head of the remaining ones. -/
theorem headD_append (ts rest : List τ) (stop : τ) :
    (ts ++ rest).headD stop = ts.headD (rest.headD stop) := by
  cases ts <;> rfl

theorem Implements.andThen {next : α → List τ → Except ε (β × List τ)} {S : α → Reading τ β}
    (hrule : Implements stop rule R) (hnext : ∀ a, Implements stop (next a) (S a)) :
    Implements stop (fun tokens => rule tokens >>= fun p => next p.1 p.2) (R.andThen S) := by
  intro tokens b rest
  rw [Except.bind_eq_ok]
  constructor
  · rintro ⟨⟨a, after⟩, ha, hb⟩
    obtain ⟨us, rfl, hus⟩ := (hrule _ _ _).mp ha
    obtain ⟨vs, rfl, hvs⟩ := (hnext a _ _ _).mp hb
    rw [headD_append] at hus
    exact ⟨us ++ vs, (List.append_assoc ..).symm, a, us, vs, rfl, hus, hvs⟩
  · rintro ⟨ts, rfl, a, us, vs, rfl, hus, hvs⟩
    refine ⟨(a, vs ++ rest), (hrule _ _ _).mpr ⟨us, List.append_assoc .., ?_⟩,
      (hnext a _ _ _).mpr ⟨vs, rfl, hvs⟩⟩
    rwa [headD_append]

/-- A head other than the end mark is there. -/
theorem eq_cons_of_headD {tokens : List τ} (htok : tok ≠ stop) (h : tokens.headD stop = tok) :
    tokens = tok :: tokens.tail := by
  cases tokens with
  | nil => exact absurd h.symm htok
  | cons t ts =>
    cases h
    rfl

/-- A branch on the head: its own phrase after `tok`, another one elsewhere. -/
theorem Implements.ite [DecidableEq τ] {other : List τ → Except ε (α × List τ)} {S : Reading τ α}
    (htok : tok ≠ stop) (hrule : Implements stop rule R) (hother : Implements stop other S) :
    Implements stop
      (fun tokens => if tokens.headD stop = tok then rule tokens.tail else other tokens)
      (fun ts a t => (∃ us, ts = tok :: us ∧ R us a t) ∨ (ts.headD t ≠ tok ∧ S ts a t)) := by
  intro tokens a rest
  dsimp only
  by_cases h : tokens.headD stop = tok
  · rw [if_pos h, hrule]
    constructor
    · rintro ⟨us, hus, hr⟩
      exact ⟨tok :: us, (eq_cons_of_headD htok h).trans (congrArg _ hus), .inl ⟨us, rfl, hr⟩⟩
    · rintro ⟨ts, rfl, ⟨us, rfl, hr⟩ | ⟨hts, -⟩⟩
      · exact ⟨us, rfl, hr⟩
      · rw [headD_append] at h
        exact absurd h hts
  · rw [if_neg h, hother]
    constructor
    · rintro ⟨ts, rfl, hs⟩
      rw [headD_append] at h
      exact ⟨ts, rfl, .inr ⟨h, hs⟩⟩
    · rintro ⟨ts, rfl, ⟨us, rfl, -⟩ | ⟨-, hs⟩⟩
      · exact absurd rfl h
      · exact ⟨ts, rfl, hs⟩

theorem Implements.congr {S : Reading τ α} (h : Implements stop rule R)
    (hRS : ∀ ts a t, R ts a t ↔ S ts a t) : Implements stop rule S := by
  intro tokens a rest
  rw [h]
  exact exists_congr fun ts => and_congr_right' (hRS _ _ _)

/-- A phrase that its first token announces. -/
theorem Implements.optional [DecidableEq τ] (htok : tok ≠ stop) (hrule : Implements stop rule R)
    (default : α) : Implements stop
      (fun tokens => if tokens.headD stop = tok then rule tokens.tail else .ok (default, tokens))
      (optional tok default R) := by
  refine (hrule.ite htok (implements_nothing default)).congr fun ts a t => or_congr_right ?_
  constructor
  · rintro ⟨hne, rfl, rfl⟩
    exact ⟨rfl, rfl, hne⟩
  · rintro ⟨rfl, rfl, hne⟩
    exact ⟨hne, rfl, rfl⟩

end

/-! ### Values of good tokens -/

/-- `P` holds of the values that `R` reads from tokens that satisfy `Q`. -/
def Yields (Q : τ → Prop) (R : Reading τ α) (P : α → Prop) : Prop :=
  ∀ ts a t, R ts a t → (∀ tok ∈ ts, Q tok) → P a

section

variable {Q : τ → Prop} {R : Reading τ α} {P : α → Prop}

theorem Yields.imp {P' : α → Prop} (h : Yields Q R P) (hP : ∀ a, P a → P' a) : Yields Q R P' :=
  fun ts a t hR hts => hP a (h ts a t hR hts)

theorem yields_pure {a : α} (h : P a) : Yields Q (pure a) P := by
  rintro ts b t ⟨-, rfl⟩ -
  exact h

theorem yields_true (Q : τ → Prop) (R : Reading τ α) : Yields Q R fun _ => True :=
  fun _ _ _ _ _ => trivial

theorem Yields.bind {S : α → Reading τ β} {P' : β → Prop} (h : Yields Q R P)
    (hS : ∀ a, P a → Yields Q (S a) P') : Yields Q (R >>= S) P' := by
  rintro ts b t ⟨a, us, vs, rfl, hR, hb⟩ hts
  have ha := h us a _ hR fun tok htok => hts tok (List.mem_append_left _ htok)
  exact hS a ha vs b t hb fun tok htok => hts tok (List.mem_append_right _ htok)

theorem Yields.optional {tok : τ} {default : α} (h : Yields Q R P) (hdefault : P default) :
    Yields Q (Reading.optional tok default R) P := by
  rintro ts a t (⟨us, rfl, hR⟩ | ⟨-, rfl, -⟩) hts
  · exact h us a t hR fun tok htok => hts tok (List.mem_cons_of_mem _ htok)
  · exact hdefault

theorem Yields.separated {sep : τ} (h : Yields Q R P) :
    Yields Q (Separated sep R) fun as => as ≠ [] ∧ ∀ a ∈ as, P a := by
  intro ts as t hread hts
  induction hread with
  | one hR =>
    refine ⟨by simp, fun a ha => ?_⟩
    rw [List.mem_singleton.mp ha]
    exact h _ _ _ hR hts
  | cons hR _ ih =>
    have hrest := ih fun tok htok =>
      hts tok (List.mem_append_right _ (List.mem_cons_of_mem _ htok))
    refine ⟨by simp, fun a ha => ?_⟩
    rcases List.mem_cons.mp ha with rfl | ha
    · exact h _ _ _ hR fun tok htok => hts tok (List.mem_append_left _ htok)
    · exact hrest.2 a ha

theorem Yields.prefixed {operator : τ} {wrap : α → α} (h : Yields Q R P)
    (hwrap : ∀ a, P a → P (wrap a)) : Yields Q (Prefixed operator wrap R) P := by
  intro ts a t hread hts
  induction hread with
  | operand hR => exact h _ _ _ hR hts
  | operator _ ih => exact hwrap _ (ih fun tok htok => hts tok (List.mem_cons_of_mem _ htok))

theorem Yields.chain {operator : τ → Option (α → α → α)} (h : Yields Q R P)
    (hop : ∀ tok f a b, operator tok = some f → P a → P b → P (f a b)) :
    Yields Q (Reading.chain operator R) P := by
  rintro ts a t ⟨hread, -⟩ hts
  induction hread with
  | first hR => exact h _ _ _ hR hts
  | next _ hf hR ih =>
    refine hop _ _ _ _ hf ?_ (h _ _ _ hR ?_)
    · exact ih fun tok htok => hts tok (List.mem_append_left _ htok)
    · exact fun tok htok => hts tok (List.mem_append_right _ (List.mem_cons_of_mem _ htok))

end

end Reading
