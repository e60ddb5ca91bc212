import Mathlib.Data.List.Infix

/-! A sequence that arrives in chunks: reading until a pattern is complete, and reading a number of
elements.  What is read does not depend on where the chunks end. -/

namespace Chunks

variable {α : Type} [DecidableEq α]

/-- Where a pattern first occurs in a list. -/
def find (pat s : List α) : Option Nat := s.tails.findIdx? (pat.isPrefixOf ·)

/-- Takes chunks until the pattern occurs in what was read, which may not be longer than `limit`:
where it occurs, what was read, and the chunks that are left.  An empty chunk ends the input. -/
def readUntil (pat : List α) (limit : Nat) (read : List α) :
    List (List α) → Option (Nat × List α × List (List α))
  | [] | [] :: _ => none
  | (a :: chunk) :: chunks =>
    let read := read ++ a :: chunk
    if limit < read.length then none
    else
      match find pat read with
      | some i => some (i, read, chunks)
      | none => readUntil pat limit read chunks

/-- Takes chunks until `count` elements were read, and drops what is read beyond them. -/
def readCount (count : Nat) (read : List α) : List (List α) → Option (List α)
  | [] | [] :: _ => if count ≤ read.length then some (read.take count) else none
  | (a :: chunk) :: chunks =>
    if count ≤ read.length then some (read.take count)
    else readCount count (read ++ a :: chunk) chunks

variable {pat s t : List α} {i : Nat}

theorem find_cons (pat : List α) (a : α) (s : List α) :
    find pat (a :: s) = if pat.isPrefixOf (a :: s) then some 0 else (find pat s).map (· + 1) := by
  rw [find, List.tails_cons, List.findIdx?_cons]
  rfl

theorem find_eq_some :
    find pat s = some i ↔
      pat <+: s.drop i ∧ i ≤ s.length ∧ ∀ j < i, ¬ pat <+: s.drop j := by
  rw [find, List.findIdx?_eq_some_iff_getElem]
  simp only [List.length_tails, List.getElem_tails, List.isPrefixOf_iff_prefix]
  constructor
  · rintro ⟨hi, hpre, hfirst⟩
    exact ⟨hpre, by omega, hfirst⟩
  · rintro ⟨hpre, hi, hfirst⟩
    exact ⟨by omega, hpre, hfirst⟩

theorem find_eq_zero (h : pat <+: s) : find pat s = some 0 :=
  find_eq_some.mpr ⟨h, Nat.zero_le _, fun _ hj => absurd hj (Nat.not_lt_zero _)⟩

/-- A pattern does not begin in front of a list in which its first element does not occur. -/
theorem find_append {a : α} {pat s : List α} (h : a ∉ s) (t : List α) :
    find (a :: pat) (s ++ t) = (find (a :: pat) t).map (· + s.length) := by
  induction s with
  | nil =>
    simp only [List.nil_append, List.length_nil, Nat.add_zero]
    exact Option.map_id'.symm
  | cons b s ih =>
    rw [List.mem_cons, not_or] at h
    rw [List.cons_append, find_cons, ih h.2, if_neg (by simp [h.1]), Option.map_map,
      List.length_cons]
    rfl

omit [DecidableEq α] in
/-- An occurrence in a prefix is one in the whole. -/
theorem prefix_drop (hs : s <+: t) (h : pat <+: s.drop i) : pat <+: t.drop i := by
  obtain ⟨r, rfl⟩ := hs
  rw [List.drop_append]
  exact h.trans (List.prefix_append _ _)

/-- In a part of the list that reaches beyond the first occurrence the pattern is found there; in a
shorter part it is not found. -/
theorem find_prefix (hs : s <+: t) (ht : find pat t = some i) :
    find pat s = if i + pat.length ≤ s.length then some i else none := by
  obtain ⟨hpre, -, hfirst⟩ := find_eq_some.mp ht
  have hlater : ∀ j < i, ¬ pat <+: s.drop j := fun j hj h => hfirst j hj (prefix_drop hs h)
  split
  case isTrue hlen =>
    have hcut : pat <+: s.drop i := by
      obtain ⟨r, rfl⟩ := hs
      rw [List.drop_append_of_le_length (by omega)] at hpre
      exact List.prefix_of_prefix_length_le hpre (List.prefix_append _ _)
        (by rw [List.length_drop]; omega)
    exact find_eq_some.mpr ⟨hcut, by omega, hlater⟩
  case isFalse hlen =>
    rw [Option.eq_none_iff_forall_ne_some]
    intro j hj
    obtain ⟨hpre', hj', hfirst'⟩ := find_eq_some.mp hj
    have hlen' := hpre'.length_le
    rw [List.length_drop] at hlen'
    have hle : ¬ j < i := fun hlt => hlater j hlt hpre'
    omega

/-- The chunks of a reader: none is empty, and none is longer than its buffer. -/
def Sized (most : Nat) (chunks : List (List α)) : Prop :=
  ∀ chunk ∈ chunks, chunk ≠ [] ∧ chunk.length ≤ most

instance (most : Nat) (chunks : List (List α)) : Decidable (Sized most chunks) :=
  inferInstanceAs (Decidable (∀ chunk ∈ chunks, chunk ≠ [] ∧ chunk.length ≤ most))

/-- Until the pattern is complete, what was read is shorter than the whole head; the chunk that
completes it brings at most a chunk more. -/
theorem readUntil_eq {most limit : Nat} {read : List α} {chunks : List (List α)}
    (hsized : Sized most chunks) (hfind : find pat (read ++ chunks.flatten) = some i)
    (hread : read.length < i + pat.length) (hlimit : i + pat.length + most ≤ limit + 1) :
    ∃ read' chunks', readUntil pat limit read chunks = some (i, read', chunks') ∧
      read' ++ chunks'.flatten = read ++ chunks.flatten ∧ i + pat.length ≤ read'.length ∧
      Sized most chunks' := by
  induction chunks generalizing read with
  | nil =>
    rw [List.flatten_nil, List.append_nil] at hfind
    obtain ⟨hpre, hi, -⟩ := find_eq_some.mp hfind
    have hlen := hpre.length_le
    rw [List.length_drop] at hlen
    omega
  | cons chunk chunks ih =>
    obtain ⟨hne, hmost⟩ := hsized chunk List.mem_cons_self
    have hrest : Sized most chunks := fun c hc => hsized c (List.mem_cons_of_mem _ hc)
    rw [List.flatten_cons, ← List.append_assoc] at hfind ⊢
    cases chunk with
    | nil => exact absurd rfl hne
    | cons a chunk =>
      have hlen : (read ++ a :: chunk).length = read.length + (a :: chunk).length :=
        List.length_append
      rw [readUntil, if_neg (by omega), find_prefix (List.prefix_append _ _) hfind]
      by_cases hdone : i + pat.length ≤ (read ++ a :: chunk).length
      · rw [if_pos hdone]
        exact ⟨_, _, rfl, rfl, hdone, hrest⟩
      · rw [if_neg hdone]
        exact ih hrest hfind (by omega)

omit [DecidableEq α] in
theorem readCount_eq {most : Nat} {read : List α} {chunks : List (List α)}
    (hsized : Sized most chunks) :
    readCount (read ++ chunks.flatten).length read chunks = some (read ++ chunks.flatten) := by
  induction chunks generalizing read with
  | nil =>
    rw [List.flatten_nil, List.append_nil, readCount, if_pos le_rfl, List.take_length]
  | cons chunk chunks ih =>
    obtain ⟨hne, -⟩ := hsized chunk List.mem_cons_self
    cases chunk with
    | nil => exact absurd rfl hne
    | cons a chunk =>
      have hlonger : ¬ (read ++ ((a :: chunk) :: chunks).flatten).length ≤ read.length := by
        rw [List.length_append, List.flatten_cons, List.length_append, List.length_cons]
        omega
      rw [readCount, if_neg hlonger, List.flatten_cons, ← List.append_assoc]
      exact ih fun c hc => hsized c (List.mem_cons_of_mem _ hc)

end Chunks
