import SqlOptimizer.Library.Drain

/-! Pull iterators: a state, and a step that returns the next row, or nothing when there is none. -/

namespace Pull

variable {ε α β γ σ : Type}

/-- The step of an iterator. -/
abbrev Step (ε α σ : Type) := σ → Except ε (Option α × σ)

/-- From the state on, the iterator yields the rows of `d`; then it stays at its end, or fails. -/
inductive Yields (next : Step ε α σ) : σ → Drain ε α → Prop
  | fault {st : σ} {e : ε} (h : next st = .error e) : Yields next st ⟨[], some e⟩
  | done {st st' : σ} (h : next st = .ok (none, st')) (hstay : next st' = .ok (none, st')) :
      Yields next st ⟨[], none⟩
  | row {st st' : σ} {a : α} {rows : List α} {fault : Option ε} (h : next st = .ok (some a, st'))
      (hrest : Yields next st' ⟨rows, fault⟩) : Yields next st ⟨a :: rows, fault⟩

/-- What an iterator yields depends on its first step, and on the rest. -/
theorem Yields.of_eq {next : Step ε α σ} {st st' : σ} {d : Drain ε α} (heq : next st = next st')
    (h : Yields next st' d) : Yields next st d := by
  cases h with
  | fault h => exact .fault (heq.trans h)
  | done h hstay => exact .done (heq.trans h) hstay
  | row h hrest => exact .row (heq.trans h) hrest

/-! ### Consumers -/

/-- `k` steps. -/
def pulls (next : Step ε α σ) : Nat → σ → Except ε (List (Option α) × σ)
  | 0, st => .ok ([], st)
  | k + 1, st => do
    let (out, st) ← next st
    let (outs, st) ← pulls next k st
    return (out :: outs, st)

theorem pulls_stay {next : Step ε α σ} {st : σ} (hstay : next st = .ok (none, st)) (k : Nat) :
    pulls next k st = .ok (List.replicate k none, st) := by
  induction k with
  | zero => rfl
  | succ k ih =>
    rw [pulls, hstay, Except.ok_bind]
    dsimp only
    rw [ih]
    rfl

/-- Without a failure, each step returns the next row, and nothing once the rows are all there. -/
theorem Yields.pulls {next : Step ε α σ} {st : σ} {rows : List α} (h : Yields next st (.ofList rows))
    (k : Nat) : ∃ st', Pull.pulls next k st =
      .ok ((rows.take k).map some ++ List.replicate (k - rows.length) none, st') := by
  generalize hd : (Drain.ofList rows : Drain ε α) = d at h
  induction h generalizing rows k with
  | fault => cases hd
  | @done st st' h hstay =>
    cases hd
    cases k with
    | zero => exact ⟨st, rfl⟩
    | succ k =>
      refine ⟨st', ?_⟩
      rw [Pull.pulls, h, Except.ok_bind]
      dsimp only
      rw [pulls_stay hstay]
      rfl
  | @row st st' a rows fault h hrest ih =>
    cases hd
    cases k with
    | zero => exact ⟨st, by rw [Nat.zero_sub]; rfl⟩
    | succ k =>
      obtain ⟨st', hst'⟩ := ih k rfl
      refine ⟨st', ?_⟩
      rw [Pull.pulls, h, Except.ok_bind]
      dsimp only
      rw [hst', List.length_cons, Nat.add_sub_add_right]
      rfl

section

variable (stuck : ε)

/-- A loop that takes every row into `b`, for less than `rounds` rows. -/
def fold (f : β → α → Except ε β) (next : Step ε α σ) : Nat → β → σ → Except ε (β × σ)
  | 0, _, _ => .error stuck
  | rounds + 1, b, st => do
    match ← next st with
    | (none, st) => return (b, st)
    | (some a, st) => fold f next rounds (← f b a) st

/-- With rounds for all rows, the loop is a fold over the list of rows. -/
theorem Yields.fold {f : β → α → Except ε β} {next : Step ε α σ} {st : σ} {d : Drain ε α}
    (h : Yields next st d) {rounds : Nat} (hr : d.rows.length < rounds) (b : β) :
    Except.Agree (fun b p => p.1 = b) (do (← d.collect).foldlM f b)
      (Pull.fold stuck f next rounds b st) := by
  obtain ⟨rounds, rfl⟩ : ∃ r, rounds = r + 1 := ⟨rounds - 1, by omega⟩
  induction h generalizing b rounds with
  | fault h =>
    rw [Pull.fold, h]
    exact .error
  | done h hstay =>
    rw [Pull.fold, h]
    exact .ok rfl
  | @row st st' a rows fault h hrest ih =>
    rw [List.length_cons] at hr
    have hfold : Pull.fold stuck f next (rounds + 1) b st =
        (f b a >>= fun b' => Pull.fold stuck f next rounds b' st') := by
      rw [Pull.fold, h]
      rfl
    obtain ⟨r, rfl⟩ : ∃ r, rounds = r + 1 := ⟨rounds - 1, by omega⟩
    have hlater := fun b' => ih b' r (show rows.length < r + 1 by omega)
    rw [hfold]
    cases hf : f b a with
    | error e =>
      rw [Except.error_bind]
      cases fault with
      | none =>
        simp only [Drain.collect, Except.ok_bind, List.foldlM_cons, hf, Except.error_bind]
        exact .error
      | some e' => exact .error
    | ok b' =>
      rw [Except.ok_bind]
      cases fault with
      | none =>
        simp only [Drain.collect, Except.ok_bind, List.foldlM_cons, hf] at hlater ⊢
        exact hlater b'
      | some e' => exact hlater b'

/-! ### Loops that look for a row -/

/-- One turn of a loop inside a step: the loop goes on, or the step returns. -/
inductive Turn (β σ : Type) where
  | again (st : σ)
  | leave (out : Option β) (st : σ)

/-- A loop, for at most `rounds` turns. -/
def loop (body : σ → Except ε (Turn β σ)) : Nat → Step ε β σ
  | 0, _ => .error stuck
  | rounds + 1, st => do
    match ← body st with
    | .again st => loop body rounds st
    | .leave out st => return (out, st)

/-- What every turn preserves, a step that loops preserves. -/
theorem loop_preserves {I : σ → Prop} {body : σ → Except ε (Turn β σ)}
    (hagain : ∀ st st', I st → body st = .ok (.again st') → I st')
    (hleave : ∀ st out st', I st → body st = .ok (.leave out st') → I st')
    {rounds : Nat} {st st' : σ} {out : Option β} (hst : I st)
    (h : loop stuck body rounds st = .ok (out, st')) : I st' := by
  induction rounds generalizing st with
  | zero => cases h
  | succ rounds ih =>
    obtain ⟨turn, hbody, hturn⟩ := Except.bind_eq_ok.mp h
    cases turn with
    | again st₁ => exact ih (hagain _ _ hst hbody) hturn
    | leave out₁ st₁ =>
      cases hturn
      exact hleave _ _ _ hst hbody

end

/-- From the state on, the steps whose loop has this body yield the rows of `d`, with at most `n`
turns that go on in all of them together. -/
inductive Turns (body : σ → Except ε (Turn β σ)) : Nat → σ → Drain ε β → Prop
  | fault {n : Nat} {st : σ} {e : ε} (h : body st = .error e) : Turns body n st ⟨[], some e⟩
  | done {n : Nat} {st st' : σ} (h : body st = .ok (.leave none st'))
      (hstay : body st' = .ok (.leave none st')) : Turns body n st ⟨[], none⟩
  | row {n : Nat} {st st' : σ} {b : β} {rows : List β} {fault : Option ε}
      (h : body st = .ok (.leave (some b) st')) (hrest : Turns body n st' ⟨rows, fault⟩) :
      Turns body n st ⟨b :: rows, fault⟩
  | again {n : Nat} {st st' : σ} {d : Drain ε β} (h : body st = .ok (.again st'))
      (hrest : Turns body n st' d) : Turns body (n + 1) st d

namespace Turns

variable {stuck : ε} {body : σ → Except ε (Turn β σ)} {n : Nat} {st : σ} {d : Drain ε β}

/-- More rounds than turns change nothing. -/
theorem loop_eq (h : Turns body n st d) {rounds rounds' : Nat} (hr : n < rounds)
    (hr' : n < rounds') : loop stuck body rounds st = loop stuck body rounds' st := by
  induction h generalizing rounds rounds' with
  | fault h | done h _ | row h _ _ =>
    obtain ⟨r, rfl⟩ : ∃ r, rounds = r + 1 := ⟨rounds - 1, by omega⟩
    obtain ⟨r', rfl⟩ : ∃ r, rounds' = r + 1 := ⟨rounds' - 1, by omega⟩
    rw [loop, loop, h]
    rfl
  | @again n st st' d h hrest ih =>
    obtain ⟨r, rfl⟩ : ∃ r, rounds = r + 1 := ⟨rounds - 1, by omega⟩
    obtain ⟨r', rfl⟩ : ∃ r, rounds' = r + 1 := ⟨rounds' - 1, by omega⟩
    have hloop : loop stuck body r st' = loop stuck body r' st' := ih (by omega) (by omega)
    rw [loop, loop, h]
    exact hloop

theorem yields (h : Turns body n st d) {rounds : Nat} (hr : n < rounds) :
    Yields (loop stuck body rounds) st d := by
  obtain ⟨r, rfl⟩ : ∃ r, rounds = r + 1 := ⟨rounds - 1, by omega⟩
  induction h with
  | fault h => exact .fault (by rw [loop, h]; rfl)
  | done h hstay => exact .done (by rw [loop, h]; rfl) (by rw [loop, hstay]; rfl)
  | row h _ ih => exact .row (by rw [loop, h]; rfl) (ih hr)
  | @again n st st' d h hrest ih =>
    have hnext : loop stuck body (r + 1) st = loop stuck body (r + 1) st' := by
      have hloop : loop stuck body (r + 1) st = loop stuck body r st' := by
        rw [loop, h]
        rfl
      rw [hloop]
      exact hrest.loop_eq (by omega) (by omega)
    exact .of_eq hnext (ih (by omega))

theorem mono {m : Nat} (h : Turns body n st d) (hle : n ≤ m) : Turns body m st d := by
  induction h generalizing m with
  | fault h => exact .fault h
  | done h hstay => exact .done h hstay
  | row h _ ih => exact .row h (ih hle)
  | again h _ ih =>
    obtain ⟨m, rfl⟩ : ∃ k, m = k + 1 := ⟨m - 1, by omega⟩
    exact .again h (ih (by omega))

theorem of_eq {st' : σ} (heq : body st = body st') (h : Turns body n st' d) :
    Turns body n st d := by
  cases h with
  | fault h => exact .fault (heq.trans h)
  | done h hstay => exact .done (heq.trans h) hstay
  | row h hrest => exact .row (heq.trans h) hrest
  | again h hrest => exact .again (heq.trans h) hrest

end Turns

/-- An iterator inside a larger state. -/
theorem Yields.lift {τ : Type} {next : Step ε α σ} {g : Step ε α τ} {f : σ → τ}
    (hf : ∀ st, g (f st) = (next st).map fun p => (p.1, f p.2)) {st : σ} {d : Drain ε α}
    (h : Yields next st d) : Yields g (f st) d := by
  induction h with
  | fault h => exact .fault (by rw [hf, h]; rfl)
  | done h hstay => exact .done (by rw [hf, h]; rfl) (by rw [hf, hstay]; rfl)
  | row h _ ih => exact .row (by rw [hf, h]; rfl) ih

/-- Two steps that agree on the states that are reached. -/
theorem Yields.congr {next next' : Step ε α σ} {I : σ → Prop}
    (hI : ∀ st out st', I st → next st = .ok (out, st') → I st')
    (heq : ∀ st, I st → next' st = next st) {st : σ} {d : Drain ε α} (h : Yields next st d)
    (hst : I st) : Yields next' st d := by
  induction h with
  | fault h => exact .fault ((heq _ hst).trans h)
  | done h hstay => exact .done ((heq _ hst).trans h) ((heq _ (hI _ _ _ hst h)).trans hstay)
  | row h _ ih => exact .row ((heq _ hst).trans h) (ih (hI _ _ _ hst h))

/-! ### Iterators -/

/-- The rows of a list, by position. -/
def scan (rows : List α) : Step ε α Nat := fun pos =>
  match rows[pos]? with
  | none => .ok (none, pos)
  | some a => .ok (some a, pos + 1)

theorem yields_scan (rows : List α) (pos : Nat) :
    Yields (scan rows : Step ε α Nat) pos (.ofList (rows.drop pos)) := by
  induction hlen : rows.length - pos generalizing pos with
  | zero =>
    have hend : (scan rows : Step ε α Nat) pos = .ok (none, pos) := by
      rw [scan, List.getElem?_eq_none (by omega)]
    rw [List.drop_of_length_le (by omega)]
    exact .done hend hend
  | succ n ih =>
    have hpos : pos < rows.length := by omega
    rw [List.drop_eq_getElem_cons hpos]
    refine .row ?_ (ih (pos + 1) (by omega))
    rw [scan, List.getElem?_eq_getElem hpos]

/-- Every row through `f`. -/
def map (f : α → Except ε β) (next : Step ε α σ) : Step ε β σ := fun st => do
  match ← next st with
  | (none, st) => return (none, st)
  | (some a, st) => return (some (← f a), st)

theorem Yields.map {f : α → Except ε β} {next : Step ε α σ} {st : σ} {d : Drain ε α}
    (h : Yields next st d) : Yields (Pull.map f next) st (d.map f) := by
  induction h with
  | fault h => exact .fault (by rw [Pull.map, h]; rfl)
  | done h hstay => exact .done (by rw [Pull.map, h]; rfl) (by rw [Pull.map, hstay]; rfl)
  | @row st st' a rows fault h _ ih =>
    rw [Drain.map_cons]
    cases hf : f a with
    | error e => exact .fault (by rw [Pull.map, h, Except.ok_bind]; simp [hf])
    | ok b => exact .row (by rw [Pull.map, h, Except.ok_bind]; simp [hf]) ih

/-- The body of a loop that looks for a row that passes. -/
def filterTurn (p : α → Except ε Bool) (next : Step ε α σ) (st : σ) : Except ε (Turn α σ) := do
  match ← next st with
  | (none, st) => return .leave none st
  | (some a, st) => return if ← p a then .leave (some a) st else .again st

theorem turns_filter {p : α → Except ε Bool} {next : Step ε α σ} {st : σ} {d : Drain ε α}
    (h : Yields next st d) : Turns (filterTurn p next) d.rows.length st (d.filter p) := by
  induction h with
  | fault h => exact .fault (by rw [filterTurn, h]; rfl)
  | done h hstay => exact .done (by rw [filterTurn, h]; rfl) (by rw [filterTurn, hstay]; rfl)
  | @row st st' a rows fault h _ ih =>
    have hbody : filterTurn p next st =
        (p a).map fun b => if b then .leave (some a) st' else .again st' := by
      rw [filterTurn, h, Except.ok_bind]
      dsimp only
      cases p a <;> rfl
    rw [Drain.filter_cons]
    cases hp : p a with
    | error e => exact .fault (by rw [hbody, hp]; rfl)
    | ok b =>
      cases b with
      | true => exact .row (by rw [hbody, hp]; rfl) (ih.mono (Nat.le_succ _))
      | false => exact .again (by rw [hbody, hp]; rfl) ih

/-- At most `count` rows; the state has the number of rows so far. -/
def take (count : Nat) (next : Step ε α σ) : Step ε α (Nat × σ) := fun (emitted, st) =>
  if count ≤ emitted then .ok (none, (emitted, st))
  else do
    match ← next st with
    | (none, st) => return (none, (emitted, st))
    | (some a, st) => return (some a, (emitted + 1, st))

theorem Yields.take {count : Nat} {next : Step ε α σ} {st : σ} {d : Drain ε α}
    (h : Yields next st d) (emitted : Nat) :
    Yields (Pull.take count next) (emitted, st) (d.take (count - emitted)) := by
  by_cases hcount : count ≤ emitted
  · have hend : Pull.take count next (emitted, st) = .ok (none, (emitted, st)) := if_pos hcount
    rw [Nat.sub_eq_zero_of_le hcount]
    exact .done hend hend
  obtain ⟨k, hk⟩ : ∃ k, count - emitted = k + 1 := ⟨count - emitted - 1, by omega⟩
  rw [hk]
  induction h generalizing emitted k with
  | fault h => exact .fault (by rw [Pull.take, if_neg hcount, h]; rfl)
  | @done st st' h hstay =>
    refine @Yields.done _ _ _ _ _ (emitted, st') ?_ ?_
    · rw [Pull.take, if_neg hcount, h]; rfl
    · rw [Pull.take, if_neg hcount, hstay]; rfl
  | @row st st' a rows fault h _ ih =>
    rw [Drain.take_cons]
    refine @Yields.row _ _ _ _ _ (emitted + 1, st') _ _ _ ?_ ?_
    · rw [Pull.take, if_neg hcount, h]; rfl
    · by_cases hlast : count ≤ emitted + 1
      · have hend : Pull.take count next (emitted + 1, st') = .ok (none, (emitted + 1, st')) :=
          if_pos hlast
        obtain rfl : k = 0 := by omega
        exact .done hend hend
      · obtain ⟨k, rfl⟩ : ∃ j, k = j + 1 := ⟨k - 1, by omega⟩
        exact ih (emitted + 1) hlast k (by omega)

end Pull
