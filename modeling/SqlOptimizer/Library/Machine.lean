import Mathlib.Data.List.Basic

/-! Machines that answer events, and the choices that a specification leaves open.  A machine
refines a specification when a relation between their states is kept by every step whose answer
the specification allows; then it allows the answers of every run. -/

namespace SqlOptimizer

/-- The answer to an event in a state, and the state after it. -/
abbrev Machine (σ ε α : Type*) := σ → ε → α × σ

namespace Machine

variable {σ ε α : Type*} (M : Machine σ ε α)

/-- The state after a list of events. -/
def after (s : σ) (events : List ε) : σ := events.foldl (fun s e => (M s e).2) s

/-- The events with their answers. -/
def trace : σ → List ε → List (ε × α)
  | _, [] => []
  | s, e :: events => (e, (M s e).1) :: trace (M s e).2 events

@[simp] theorem after_nil (s : σ) : M.after s [] = s := rfl

@[simp] theorem after_cons (s : σ) (e : ε) (events : List ε) :
    M.after s (e :: events) = M.after (M s e).2 events := rfl

theorem after_append (s : σ) (events events' : List ε) :
    M.after s (events ++ events') = M.after (M.after s events) events' :=
  List.foldl_append

theorem trace_append (s : σ) (events events' : List ε) :
    M.trace s (events ++ events') = M.trace s events ++ M.trace (M.after s events) events' := by
  induction events generalizing s with
  | nil => rfl
  | cons e events ih =>
    rw [List.cons_append, trace, trace, ih, after_cons]
    rfl

theorem trace_events (s : σ) (events : List ε) : (M.trace s events).map (·.1) = events := by
  induction events generalizing s with
  | nil => rfl
  | cons e events ih => rw [trace, List.map_cons, ih]

variable {M}

/-- What every step keeps holds after every run. -/
theorem after_keeps {P : σ → Prop} (hstep : ∀ s e, P s → P (M s e).2) {s : σ} (hs : P s)
    (events : List ε) : P (M.after s events) := by
  induction events generalizing s with
  | nil => exact hs
  | cons e events ih => exact ih (hstep s e hs)

/-- What every step keeps, for events of some kind, and what it implies of each answer. -/
theorem trace_forall {P : σ → Prop} {E : ε → Prop} {Q : ε → α → Prop}
    (hstep : ∀ s e, P s → E e → Q e (M s e).1 ∧ P (M s e).2) {s : σ} (hs : P s)
    {events : List ε} (hevents : ∀ e ∈ events, E e) : ∀ p ∈ M.trace s events, Q p.1 p.2 := by
  induction events generalizing s with
  | nil => exact fun p hp => nomatch hp
  | cons e events ih =>
    obtain ⟨hanswer, hnext⟩ := hstep s e hs (hevents e List.mem_cons_self)
    intro p hp
    rcases List.mem_cons.mp hp with rfl | hp
    · exact hanswer
    · exact ih hnext (fun e' he' => hevents e' (List.mem_cons_of_mem e he')) p hp

end Machine

/-- The answers that an event may get in a state, each with the states that may follow. -/
abbrev Choices (τ ε α : Type*) := τ → ε → α → τ → Prop

namespace Choices

variable {σ τ ε α : Type*}

/-- The traces that the choices allow from one state to another. -/
inductive Allows (C : Choices τ ε α) : τ → List (ε × α) → τ → Prop
  | nil (t : τ) : Allows C t [] t
  | cons {t t' t'' : τ} {e : ε} {a : α} {rest : List (ε × α)} (hstep : C t e a t')
      (hrest : Allows C t' rest t'') : Allows C t ((e, a) :: rest) t''

namespace Allows

variable {C : Choices τ ε α} {t t' t'' : τ} {l l' : List (ε × α)}

theorem append (h : Allows C t l t') (h' : Allows C t' l' t'') : Allows C t (l ++ l') t'' := by
  induction h with
  | nil => exact h'
  | cons hstep _ ih => exact .cons hstep (ih h')

theorem split (h : Allows C t (l ++ l') t'') : ∃ t', Allows C t l t' ∧ Allows C t' l' t'' := by
  induction l generalizing t with
  | nil => exact ⟨t, .nil t, h⟩
  | cons p l ih =>
    cases h with
    | cons hstep hrest =>
      obtain ⟨t', hl, hl'⟩ := ih hrest
      exact ⟨t', .cons hstep hl, hl'⟩

/-- What every choice keeps along with a fold over the trace holds at its end. -/
theorem keeps {β : Type*} {P : β → τ → Prop} {f : β → ε × α → β}
    (hstep : ∀ b t e a t', P b t → C t e a t' → P (f b (e, a)) t') (h : Allows C t l t')
    {b : β} (hb : P b t) : P (l.foldl f b) t' := by
  induction h generalizing b with
  | nil => exact hb
  | cons hchoice _ ih => exact ih (hstep _ _ _ _ _ hb hchoice)

end Allows

/-- Every step of the machine answers as the choices allow, and keeps the relation. -/
def RefinedBy (C : Choices τ ε α) (R : σ → τ → Prop) (M : Machine σ ε α) : Prop :=
  ∀ s t e, R s t → ∃ t', C t e (M s e).1 t' ∧ R (M s e).2 t'

/-- The choices allow every run. -/
theorem RefinedBy.run {C : Choices τ ε α} {R : σ → τ → Prop} {M : Machine σ ε α}
    (h : C.RefinedBy R M) {s : σ} {t : τ} (hst : R s t) (events : List ε) :
    ∃ t', C.Allows t (M.trace s events) t' ∧ R (M.after s events) t' := by
  induction events generalizing s t with
  | nil => exact ⟨t, .nil t, hst⟩
  | cons e events ih =>
    obtain ⟨t', hchoice, hnext⟩ := h s t e hst
    obtain ⟨t'', hrest, hlast⟩ := ih hnext
    exact ⟨t'', .cons hchoice hrest, hlast⟩

end Choices

end SqlOptimizer
