import Lz4Frame.Frame.Input

/-!
# Fields that arrive in pieces

What `Partial.fill` makes of a piece of input is settled by the piece's length: a piece that is too
short is kept whole (`fill_of_lt`), and of any other the field takes what it was short of
(`fill_of_le`).  How much of the input was read before makes no difference.
-/

namespace Lz4Frame.Partial

theorem missing_pos {n : Nat} (held : Partial n) : 0 < held.missing := by
  have := held.size_lt
  unfold missing
  omega

/-- A field with more of its bytes, but not all. -/
def extend {n : Nat} (held : Partial n) (bytes : Bytes) (h : bytes.length < held.missing) :
    Partial n where
  bytes := held.bytes ++ bytes
  size_lt := by
    have := held.size_lt
    unfold missing at h
    rw [size_append_list]
    omega

@[simp] theorem bytes_extend {n : Nat} (held : Partial n) (bytes : Bytes)
    (h : bytes.length < held.missing) : (held.extend bytes h).bytes = held.bytes ++ bytes := rfl

theorem missing_extend {n : Nat} (held : Partial n) (bytes : Bytes)
    (h : bytes.length < held.missing) :
    (held.extend bytes h).missing = held.missing - bytes.length := by
  unfold missing extend
  rw [size_append_list]
  omega

/-- Too few bytes for the field: all of them are kept. -/
theorem fill_of_lt {n : Nat} (held : Partial n) {bytes : Bytes} (used : Nat)
    (h : bytes.length < held.missing) :
    held.fill ⟨bytes, used⟩ = (.short (held.extend bytes h), ⟨[], used + bytes.length⟩) := by
  rcases held with ⟨held, size_lt⟩
  induction bytes generalizing held used with
  | nil => simp [fill, fillFrom, extend]
  | cons b rest ih =>
      have hlt : held.size + 1 < n := by
        simp only [missing, List.length_cons] at h
        omega
      have hrest : rest.length < missing ⟨held.push b, by simpa using hlt⟩ := by
        simp only [missing, List.length_cons, Array.size_push] at h ⊢
        omega
      have hnext := ih (used + 1) (held.push b) (by simpa using hlt) hrest
      simp only [fill] at hnext
      simp only [fill, fillFrom, hlt, ↓reduceDIte, hnext, extend, List.length_cons]
      simp [Nat.add_assoc, Nat.add_comm 1]

/-- Enough bytes for the field: it takes what it was short of. -/
theorem fill_of_le {n : Nat} (held : Partial n) (bytes : Bytes) (used : Nat) :
    held.missing ≤ bytes.length →
      ∃ size_eq, held.fill ⟨bytes, used⟩
        = (.full (held.bytes ++ bytes.take held.missing) size_eq,
            ⟨bytes.drop held.missing, used + held.missing⟩) := by
  intro h
  rcases held with ⟨held, size_lt⟩
  induction bytes generalizing held used with
  | nil =>
      simp only [missing, List.length_nil] at h
      omega
  | cons b rest ih =>
      by_cases hlt : held.size + 1 < n
      · have hrest : missing ⟨held.push b, by simpa using hlt⟩ ≤ rest.length := by
          simp only [missing, List.length_cons, Array.size_push] at h ⊢
          omega
        rcases ih (used + 1) (held.push b) (by simpa using hlt) hrest with ⟨size_eq, hnext⟩
        have hone : n - held.size = (n - (held.push b).size) + 1 := by
          rw [Array.size_push]
          omega
        simp only [fill, missing] at hnext
        simp only [fill, fillFrom, hlt, ↓reduceDIte, missing]
        rw [hnext]
        have hadd : used + 1 + (n - (held.push b).size) = used + (n - (held.push b).size + 1) := by
          omega
        exact ⟨by simpa [hone, missing] using size_eq, by
          simp only [hone, List.take_succ_cons, List.drop_succ_cons, Array.appendList_cons, hadd]⟩
      · have hone : n - held.size = 1 := by omega
        have hfull : held.size + 1 = n := by omega
        simp [fill, fillFrom, missing, hfull, hone]

/-- An empty field takes the bytes in front. -/
theorem fill_empty {n : Nat} (n_pos : 0 < n) (bytes : Bytes) (used : Nat) :
    n ≤ bytes.length →
      ∃ size_eq, (empty n_pos).fill ⟨bytes, used⟩
        = (.full (bytes.take n).toArray size_eq, ⟨bytes.drop n, used + n⟩) := by
  intro h
  rcases (empty n_pos).fill_of_le bytes used (by simpa [missing, empty] using h)
      with ⟨size_eq, hfull⟩
  refine ⟨by simp [Nat.min_eq_left h], ?_⟩
  rw [hfull]
  simp [missing, empty]

@[simp] theorem extend_nil {n : Nat} (held : Partial n) (h : [].length < held.missing) :
    held.extend [] h = held := by
  simp [extend]

theorem extend_extend {n : Nat} (held : Partial n) (first second : Bytes)
    (h₁ : first.length < held.missing) (h₂ : second.length < (held.extend first h₁).missing)
    (h : (first ++ second).length < held.missing) :
    (held.extend first h₁).extend second h₂ = held.extend (first ++ second) h := by
  simp [extend, append_list_append]

/-- A short piece and what follows it fill a field as they would in one piece. -/
theorem fill_extend {n : Nat} (held : Partial n) (piece more : Bytes) (used : Nat)
    (h : piece.length < held.missing) :
    (held.extend piece h).fill ⟨more, used + piece.length⟩ = held.fill ⟨piece ++ more, used⟩ := by
  have hmissing := held.missing_extend piece h
  by_cases hmore : more.length < held.missing - piece.length
  · have hshort : (piece ++ more).length < held.missing := by
      rw [List.length_append]
      omega
    rw [fill_of_lt _ _ (by omega), fill_of_lt _ _ hshort, extend_extend _ _ _ _ _ hshort]
    simp [Nat.add_assoc]
  · have hlong : held.missing ≤ (piece ++ more).length := by
      rw [List.length_append]
      omega
    rcases (held.extend piece h).fill_of_le more (used + piece.length)
      (by omega) with ⟨_, hfirst⟩
    rcases held.fill_of_le (piece ++ more) used hlong with ⟨_, hwhole⟩
    have hsum : used + piece.length + (held.missing - piece.length) = used + held.missing := by
      omega
    -- both have taken the piece and as much of the rest as makes the field complete
    rw [hfirst, hwhole]
    simp only [hmissing, hsum, bytes_extend, append_list_append, List.take_append, List.drop_append,
      List.take_of_length_le (Nat.le_of_lt h), List.drop_of_length_le (Nat.le_of_lt h),
      List.nil_append]

end Lz4Frame.Partial
