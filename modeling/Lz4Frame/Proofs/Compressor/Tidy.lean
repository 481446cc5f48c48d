import Lz4Frame.Proofs.Compressor.Lifecycle
import Lz4Frame.Proofs.Frame.Twins

/-!
# What a compressor's table holds

Whatever a compressor was asked before, the table of its encoder holds nothing but indices that were
given out (`Compressor.after_tidy`).  That an encoder keeps this is a statement on twins: it is one
of itself.
-/

namespace Lz4Frame

open Block

namespace Encoder

/-! ## A relation of an encoder to itself -/

/-- A searcher and itself, remembering nothing but what was met. -/
def ownTidy (prefs : Preferences) : Bond := fun _ history first second =>
  second = first ∧ first.Tidy history.size ∧ (prefs.linked = false → history = #[])

variable [Platform]

theorem ownTidy_lasting (prefs : Preferences) (content : Bytes) (early : Prop) :
    Lasting prefs content early (ownTidy prefs) where
  shorten := by
    rintro sent history history' first second ⟨rfl, htidy, hnone⟩ hsuffix
    have hle := hsuffix.length_le
    simp only [Array.length_toList] at hle
    refine ⟨rfl, htidy.mono hle, fun hoff => ?_⟩
    rw [hnone hoff] at hle
    exact Array.eq_empty_of_size_eq_zero (Nat.le_zero.mp hle)
  independent := by
    rintro sent block history first second hoff ⟨rfl, htidy, hnone⟩ hblock
    obtain rfl := hnone hoff
    exact ⟨rfl, rfl, Searcher.independent_tidy htidy prefs hblock.ne_nil, fun _ => rfl⟩
  linked := by
    rintro sent block history first second hon ⟨rfl, htidy, -⟩ hblock joined
    refine ⟨rfl, rfl, ?_, by simp [hon]⟩
    rw [size_append_list]
    exact Searcher.linked_tidy htidy prefs joined hblock.ne_nil

/-- Whether the table of an encoder, if it has one, holds nothing but what was met. -/
def Tidy (encoder : Encoder) : Prop :=
  encoder.searcher.Tidy encoder.history.size
    ∧ (encoder.prefs.linked = false → encoder.history = #[])

omit [Platform] in
theorem Tidy.twins {encoder : Encoder} (h : encoder.Tidy) (sent : Bytes) :
    Twins encoder.prefs (ownTidy encoder.prefs) sent encoder encoder :=
  ⟨rfl, rfl, rfl, h⟩

omit [Platform] in
theorem Twins.tidy {prefs : Preferences} {sent : Bytes} {first second : Encoder}
    (h : Twins prefs (ownTidy prefs) sent first second) : first.Tidy := by
  obtain rfl := h.prefs_eq
  exact h.bound.2

omit [Platform] in
theorem new_tidy : new.Tidy :=
  ⟨⟨Table.cleared_sound, Nat.le_refl _⟩, fun _ => rfl⟩

/-! ## Calls -/

omit [Platform] in
theorem start_tidy {encoder : Encoder} (h : encoder.Tidy) (room : Nat) (prefs : Preferences) :
    (encoder.start room prefs).1.Tidy := by
  rcases encoder with ⟨isOpen, prefs', searcher, history, held, total, digest⟩
  unfold start
  split
  · exact h
  · refine ⟨?_, fun _ => rfl⟩
    simp only
    split
    · trivial
    · cases searcher with
      | long => exact ⟨Table.cleared_sound, Nat.le_refl _⟩
      | fast table =>
          refine ⟨?_, Nat.zero_le _⟩
          split
          · exact Table.prepare_zero_sound h.1.1
          · exact h.1.1

section Inside

variable {encoder : Encoder} {prefs : Preferences} {content wire : Bytes}

theorem Within.update_tidy (h : encoder.Within prefs content wire) (htidy : encoder.Tidy)
    (room : Nat) (input : Bytes) : (encoder.update room input).1.Tidy := by
  rcases h.parts with ⟨sent, -, hcontent, -⟩
  obtain rfl := h.prefs_eq
  have hinside : sent ++ encoder.held.toList ++ input <+: content ++ input :=
    hcontent ▸ List.prefix_rfl
  rcases update_twins (ownTidy_lasting _ _ False) (htidy.twins sent) h.isOpen room
      (fun _ => sendableAll_completed h.held_le hinside nofun)
      with ⟨hrefused, -⟩ | ⟨next, next', bytes, sent', hupdate, -, hnext, -, -⟩
  · rwa [hrefused]
  · rw [hupdate]
    exact hnext.tidy

theorem Within.flush_tidy (h : encoder.Within prefs content wire) (htidy : encoder.Tidy)
    (room : Nat) : (encoder.flush room).1.Tidy := by
  rcases h.parts with ⟨sent, -, hcontent, -⟩
  obtain rfl := h.prefs_eq
  have hinside : sent ++ encoder.held.toList <+: content :=
    hcontent ▸ List.prefix_rfl
  rcases flush_twins (ownTidy_lasting _ _ False) (htidy.twins sent) h.isOpen room
      (sendableAll_waiting hinside nofun)
      with ⟨hrefused, -⟩ | ⟨next, next', bytes, hflush, -, hnext⟩
  · rwa [hrefused]
  · rw [hflush]
    exact hnext.tidy

theorem Within.finish_tidy (h : encoder.Within prefs content wire) (htidy : encoder.Tidy)
    (room : Nat) : (encoder.finish room).1.Tidy := by
  rcases h.parts with ⟨sent, -, hcontent, -⟩
  obtain rfl := h.prefs_eq
  have hinside : sent ++ encoder.held.toList <+: content :=
    hcontent ▸ List.prefix_rfl
  rcases (finish_twins (ownTidy_lasting _ _ False) (htidy.twins sent) h.isOpen room
      (sendableAll_waiting hinside nofun)).2 with ⟨sent', hnext⟩
  exact hnext.tidy

end Inside

end Encoder

/-! ## Requests -/

namespace Compressor

variable [Platform]

omit [Platform] in
theorem start_tidy {compressor : Compressor} (htidy : compressor.encoder.Tidy)
    (prefs : Preferences) : (compressor.start prefs).1.encoder.Tidy := by
  have hnext := Encoder.start_tidy htidy Header.maxLength prefs
  unfold start
  split
  · exact htidy
  · split
    · next hstart => rwa [hstart] at hnext
    · next hstart => rwa [hstart] at hnext

/-- Inside a frame every request leaves a table that holds nothing but what was met. -/
theorem Within.perform_tidy {compressor : Compressor} {prefs : Preferences} {content wire : Bytes}
    (h : compressor.Within prefs content wire) (htidy : compressor.encoder.Tidy)
    (operation : Operation) : (compressor.perform operation).1.encoder.Tidy := by
  rcases compressor with ⟨gate, encoder, prefs', stage⟩
  rcases h with ⟨rfl, rfl, hencoder⟩
  cases operation with
  | start settings => exact Compressor.start_tidy htidy settings
  | update input =>
      by_cases hne : input = []
      · subst hne
        exact htidy
      · cases hroom : roomFor prefs' input.length with
        | error cause =>
            simp only [perform, update_eq_of_error gate encoder hne hroom]
            exact htidy
        | ok room =>
            simp only [perform, update_eq gate encoder hne hroom]
            exact hencoder.update_tidy htidy room input
  | flush =>
      simp only [perform, flush_eq]
      exact hencoder.flush_tidy htidy _
  | finish =>
      simp only [perform, finish, Bound.roomFor_eq (Bound.countable_zero prefs')]
      exact hencoder.finish_tidy htidy _
  | stage => exact htidy
  | preferences => exact htidy

theorem perform_tidy {compressor : Compressor} (h : compressor.Sound)
    (htidy : compressor.encoder.Tidy) (operation : Operation) :
    (compressor.perform operation).1.encoder.Tidy := by
  cases h with
  | inside hwithin => exact hwithin.perform_tidy htidy operation
  | outside hidle _ _ =>
      -- outside a frame only a start changes anything
      by_cases hstart : ∃ prefs, operation = .start prefs
      · rcases hstart with ⟨prefs, rfl⟩
        exact start_tidy htidy prefs
      · rw [(perform_idle hidle fun prefs heq => hstart ⟨prefs, heq⟩).1]
        exact htidy

/-- Whatever a compressor was asked before, its table holds nothing but what was met. -/
theorem after_tidy {compressor : Compressor} (h : compressor.Sound)
    (htidy : compressor.encoder.Tidy) (past : List Operation) :
    (compressor.after past).encoder.Tidy := by
  -- on the past; each request leaves a sound compressor with a tidy encoder
  induction past generalizing compressor with
  | nil => exact htidy
  | cons operation past ih =>
      exact ih (perform_leads h operation).1 (perform_tidy h htidy operation)

end Compressor

end Lz4Frame
