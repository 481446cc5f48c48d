import Lz4Frame.Stream.Source

/-!
# What a source gives

A source is steady if it gives at least one byte whenever it is asked and has any, or else is
interrupted.  Filling from a steady source gives all the bytes that are wanted, or all that are
left.
-/

namespace Lz4Frame.Source

/-- An answer by which a source is late but loses nothing. -/
def Late : Answer → Prop
  | .limit count => 0 < count
  | .fail kind _ => kind = .interrupted

/-- Whether all the answers that a source has in store are late at worst. -/
def Steady (source : Source) : Prop := ∀ answer ∈ source.reads, Late answer

/-- A source that has no answers in store gives what it has. -/
theorem steady_rest (rest : Bytes) : Steady { rest } := by
  intro answer hmem
  cases hmem

/-- A steady source fails by an interruption only, which takes nothing. -/
theorem Steady.read_error {source next : Source} (h : source.Steady) {asked : Nat}
    {cause : IoError} :
    source.read asked = (next, .error cause) →
      cause.kind = .interrupted ∧ next.Steady ∧ next.rest = source.rest := by
  intro hread
  unfold read at hread
  split at hread
  · rename_i kind text reads hreads
    simp only [Prod.mk.injEq, Except.error.injEq] at hread
    rcases hread with ⟨rfl, rfl⟩
    have hlate := h (.fail kind text) (by rw [hreads]; exact .head _)
    exact ⟨hlate, fun answer hmem => h answer (by rw [hreads]; exact .tail _ hmem), rfl⟩
  · simp at hread
  · simp at hread

/-- The front of what is left, and at least a byte of it if any is asked for. -/
theorem give_split (source : Source) (asked : Nat) {limit : Nat} :
    0 < asked → 0 < limit →
      (source.give asked limit).2 ++ (source.give asked limit).1.rest = source.rest
        ∧ (source.give asked limit).2.length ≤ asked
        ∧ (source.rest ≠ [] → (source.give asked limit).2 ≠ []) := by
  intro hasked hlimit
  simp only [give, List.splitAt_eq]
  refine ⟨List.take_append_drop .., ?_, fun hne => ?_⟩
  · rw [List.length_take]
    omega
  · rw [← List.length_pos_iff] at hne ⊢
    rw [List.length_take]
    omega

/-- A steady source that does not fail gives the front of what it has. -/
theorem Steady.read_ok {source next : Source} (h : source.Steady) {asked : Nat} {piece : Bytes} :
    0 < asked → source.read asked = (next, .ok piece) →
      next.Steady ∧ piece ++ next.rest = source.rest ∧ piece.length ≤ asked
        ∧ (source.rest ≠ [] → piece ≠ []) := by
  intro hasked hread
  unfold read at hread
  split at hread
  · simp at hread
  · rename_i count reads hreads
    have hlate : 0 < count := h (.limit count) (by rw [hreads]; exact .head _)
    simp only [Prod.mk.injEq, Except.ok.injEq] at hread
    rcases hread with ⟨rfl, rfl⟩
    refine ⟨fun answer hmem => ?_, give_split { source with reads } asked hasked hlate⟩
    exact h answer (by rw [hreads]; exact .tail _ hmem)
  · simp only [Prod.mk.injEq, Except.ok.injEq] at hread
    rcases hread with ⟨rfl, rfl⟩
    exact ⟨fun answer hmem => h answer hmem, give_split source asked hasked hasked⟩

/-- Whatever its answers, what a source gives is the front of what it has. -/
theorem read_split {source next : Source} {asked : Nat} {piece : Bytes} :
    source.read asked = (next, .ok piece) → piece ++ next.rest = source.rest := by
  intro hread
  unfold read at hread
  split at hread
  · simp at hread
  · simp only [Prod.mk.injEq, Except.ok.injEq] at hread
    rcases hread with ⟨rfl, rfl⟩
    simp [give, List.splitAt_eq]
  · simp only [Prod.mk.injEq, Except.ok.injEq] at hread
    rcases hread with ⟨rfl, rfl⟩
    simp [give, List.splitAt_eq]

/-- What filling gives is the front of what the source has. -/
theorem fill_split {source next : Source} {wanted : Nat} {got out : Array UInt8} :
    source.fill wanted got = (next, .ok out) →
      out.toList ++ next.rest = got.toList ++ source.rest := by
  intro h
  fun_induction fill source wanted got with
  | case1 source got =>
      simp only [Prod.mk.injEq, Except.ok.injEq] at h
      rw [← h.1, ← h.2]
  | case2 source wanted got hwanted next' cause hread _ hkind ih =>
      rw [ih h, (read_error hread).2]
  | case3 => simp at h
  | case4 source wanted got hwanted next' hread =>
      simp only [Prod.mk.injEq, Except.ok.injEq] at h
      rw [← h.1, ← h.2, ← read_split hread, List.nil_append]
  | case5 source wanted got hwanted next' piece hread hpiece _ _ ih =>
      rw [ih h, ← read_split hread]
      simp

/-- A steady source gives what is wanted, as far as it has it. -/
theorem fill_steady {source : Source} (h : source.Steady) (wanted : Nat) (got : Array UInt8) :
    ∃ next, source.fill wanted got = (next, .ok (got ++ source.rest.take wanted)) ∧ next.Steady
      ∧ next.rest = source.rest.drop wanted := by
  -- one case for each way that a call can end
  fun_induction fill source wanted got with
  | case1 source got =>
      exact ⟨source, by rw [List.take_zero, Array.appendList_nil], h, by rw [List.drop_zero]⟩
  | case2 source wanted got hwanted next cause hread hless hkind ih =>
      -- interrupted: as much is wanted as before
      rcases h.read_error hread with ⟨-, hsteady, hrest⟩
      rw [← hrest]
      exact ih hsteady
  | case3 source wanted got hwanted next cause hread hless hkind =>
      exact absurd (h.read_error hread).1 hkind
  | case4 source wanted got hwanted next hread =>
      rcases h.read_ok (Nat.pos_of_ne_zero hwanted) hread with ⟨hsteady, hsplit, -, hne⟩
      -- nothing was given, so nothing is left
      have hnone : source.rest = [] := by
        by_cases hrest : source.rest = []
        · exact hrest
        · exact absurd rfl (hne hrest)
      refine ⟨next, ?_, hsteady, ?_⟩
      · rw [hnone, List.take_nil, Array.appendList_nil]
      · rw [List.nil_append] at hsplit
        rw [hsplit, hnone, List.drop_nil]
  | case5 source wanted got hwanted next piece hread hpiece _ _ ih =>
      rcases h.read_ok (Nat.pos_of_ne_zero hwanted) hread with ⟨hsteady, hsplit, hle, -⟩
      -- the piece, and then what else is wanted
      rcases ih hsteady with ⟨last, hfill, hlast, hrest⟩
      refine ⟨last, ?_, hlast, ?_⟩
      · have hpush : piece.foldl Array.push got = got ++ piece := rfl
        rw [hfill, hpush, append_list_append, ← hsplit, List.take_append,
          List.take_of_length_le hle]
      · rw [hrest, ← hsplit, List.drop_append, List.drop_of_length_le hle, List.nil_append]

end Lz4Frame.Source
