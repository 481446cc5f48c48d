import Lz4Frame.Stream.Sink

/-!
# What a sink has taken

A row of bytes that is written to a sink arrives whole, or else the sink has seen a call that cost
bytes (`SinkCall.Loses`): one that failed for good, or one that took nothing.  The calls that a sink
has seen are remembered, so whether anything was lost can be told at the end (`Sink.Spared`).  A
sink that has no such answer in store takes everything (`Sink.writeAll_steady`).
-/

namespace Lz4Frame

/-- A write that has cost bytes: it failed, and not by an interruption, or nothing was taken. -/
def SinkCall.Loses : SinkCall → Prop
  | write _ accepted => accepted = 0
  | writeFailed _ kind => kind ≠ .interrupted
  | flush => False
  | flushFailed _ => False

instance (call : SinkCall) : Decidable call.Loses :=
  match call with
  | .write _ accepted => inferInstanceAs (Decidable (accepted = 0))
  | .writeFailed _ kind => inferInstanceAs (Decidable (kind ≠ .interrupted))
  | .flush => inferInstanceAs (Decidable False)
  | .flushFailed _ => inferInstanceAs (Decidable False)

/-- An answer to a write that costs nothing: some of the bytes are taken, or it was interrupted. -/
def Answer.Spares : Answer → Prop
  | .limit count => count ≠ 0
  | .fail kind _ => kind = .interrupted

namespace Sink

/-- Whether no call has cost bytes. -/
def Spared (sink : Sink) : Prop := ∀ call ∈ sink.calls, ¬ call.Loses

instance (sink : Sink) : Decidable sink.Spared :=
  inferInstanceAs (Decidable (∀ call ∈ sink.calls, ¬ call.Loses))

theorem spared_push {sink next : Sink} {call : SinkCall}
    (h : next.calls = sink.calls.push call) : next.Spared ↔ sink.Spared ∧ ¬ call.Loses := by
  unfold Spared
  rw [h]
  constructor
  · intro hnext
    exact ⟨fun other hmem => hnext other (Array.mem_push_of_mem _ hmem),
      hnext call Array.mem_push_self⟩
  · rintro ⟨hsink, hcall⟩ other hmem
    rcases Array.mem_push.mp hmem with hmem | rfl
    · exact hsink other hmem
    · exact hcall

/-- Asking for bytes to be passed on costs nothing, whether it works or not. -/
theorem flush_spared (sink : Sink) :
    sink.flush.1.content = sink.content ∧ (sink.flush.1.Spared ↔ sink.Spared) := by
  unfold flush
  split
  · exact ⟨rfl, by rw [spared_push rfl]; simp [SinkCall.Loses]⟩
  · exact ⟨rfl, by rw [spared_push rfl]; simp [SinkCall.Loses]⟩
  · exact ⟨rfl, by rw [spared_push rfl]; simp [SinkCall.Loses]⟩

/-- A write that fails takes nothing; it has cost the bytes unless it was interrupted. -/
theorem write_failed {sink next : Sink} {bytes : Bytes} {cause : IoError} :
    sink.write bytes = (next, .error cause) →
      next.content = sink.content ∧ (next.Spared ↔ sink.Spared ∧ cause.kind = .interrupted) := by
  intro hwrite
  unfold write at hwrite
  simp only at hwrite
  split at hwrite
  · simp only [Prod.mk.injEq, Except.error.injEq] at hwrite
    rcases hwrite with ⟨rfl, rfl⟩
    refine ⟨rfl, ?_⟩
    rw [spared_push rfl]
    simp [SinkCall.Loses, IoError.kind]
  · simp at hwrite
  · simp at hwrite

/-- A write takes the front of the bytes; one that takes nothing has cost them. -/
theorem write_taken {sink next : Sink} {bytes : Bytes} {count : Nat} :
    sink.write bytes = (next, .ok count) →
      count ≤ bytes.length ∧ next.content = sink.content ++ bytes.take count
        ∧ (next.Spared ↔ sink.Spared ∧ count ≠ 0) := by
  intro hwrite
  unfold write at hwrite
  simp only at hwrite
  split at hwrite
  · simp at hwrite
  · simp only [Prod.mk.injEq, Except.ok.injEq] at hwrite
    rcases hwrite with ⟨rfl, rfl⟩
    refine ⟨Nat.min_le_right .., rfl, ?_⟩
    rw [spared_push rfl]
    simp [SinkCall.Loses]
  · simp only [Prod.mk.injEq, Except.ok.injEq] at hwrite
    rcases hwrite with ⟨rfl, rfl⟩
    refine ⟨Nat.le_refl _, ?_, ?_⟩
    · rw [List.take_length]
      rfl
    · rw [spared_push rfl]
      simp [SinkCall.Loses]

/-- Bytes that are written arrive whole, or the sink is spared no longer and holds a part of
them. -/
theorem writeAll_cases (sink : Sink) (bytes : Bytes) :
    (∃ next, sink.writeAll bytes = (next, .ok ()) ∧ next.content = sink.content ++ bytes
        ∧ (next.Spared ↔ sink.Spared))
      ∨ ∃ next cause count, sink.writeAll bytes = (next, .error cause) ∧ count < bytes.length
        ∧ next.content = sink.content ++ bytes.take count ∧ ¬ next.Spared := by
  -- one case for each way that a call can end
  fun_induction writeAll sink bytes with
  | case1 sink => exact .inl ⟨sink, rfl, by rw [Array.appendList_nil], Iff.rfl⟩
  | case2 sink bytes hne next cause hwrite hless hkind ih =>
      -- interrupted: everything is still to be written
      rcases write_failed hwrite with ⟨hcontent, hspared⟩
      rw [hcontent, hspared, and_iff_left hkind] at ih
      exact ih
  | case3 sink bytes hne next cause hwrite hless hkind =>
      rcases write_failed hwrite with ⟨hcontent, hspared⟩
      refine .inr ⟨next, cause, 0, rfl, List.length_pos_iff.mpr hne, ?_, ?_⟩
      · rw [hcontent, List.take_zero, Array.appendList_nil]
      · exact fun hkeeps => hkind (hspared.mp hkeeps).2
  | case4 sink bytes hne next hwrite =>
      rcases write_taken hwrite with ⟨-, hcontent, hspared⟩
      exact .inr ⟨next, .writeZero, 0, rfl, List.length_pos_iff.mpr hne, hcontent,
        fun hkeeps => (hspared.mp hkeeps).2 rfl⟩
  | case5 sink bytes hne next count hwrite hcount _ _ ih =>
      rcases write_taken hwrite with ⟨hle, hcontent, hspared⟩
      rw [hcontent, hspared, and_iff_left hcount] at ih
      rcases ih with ⟨last, hwriteAll, htaken, hcalls⟩
        | ⟨last, cause, rest, hwriteAll, hrest, htaken, hlost⟩
      · refine .inl ⟨last, hwriteAll, ?_, hcalls⟩
        rw [htaken, append_list_append, List.take_append_drop]
      · refine .inr ⟨last, cause, count + rest, hwriteAll, ?_, ?_, hlost⟩
        · rw [List.length_drop] at hrest
          omega
        · rw [htaken, append_list_append, List.take_add]

/-- A sink whose schedule has run out takes everything. -/
theorem writeAll_of_writes_nil (sink : Sink) (h : sink.writes = []) (bytes : Bytes) :
    ∃ next, sink.writeAll bytes = (next, .ok ()) ∧ next.content = sink.content ++ bytes
      ∧ next.writes = [] ∧ next.flushes = sink.flushes := by
  rcases sink with ⟨content, writes, flushes, calls⟩
  simp only at h
  subst h
  by_cases hne : bytes = []
  · refine ⟨⟨content, [], flushes, calls⟩, by rw [writeAll, dif_pos hne], ?_, rfl, rfl⟩
    rw [hne, Array.appendList_nil]
  · have hlength : bytes.length ≠ 0 := by simpa using hne
    refine ⟨⟨content ++ bytes, [], flushes, calls.push (.write bytes.length bytes.length)⟩, ?_, rfl,
      rfl, rfl⟩
    rw [writeAll, dif_neg hne]
    simp only [write, hlength, ↓reduceDIte, List.drop_length]
    rw [writeAll, dif_pos rfl]
    rfl

/-! ## Steady sinks -/

/-- Whether no answer in store can cost bytes, and what was taken is always passed on. -/
structure Steady (sink : Sink) : Prop where
  writes : ∀ answer ∈ sink.writes, answer.Spares
  flushes : ∀ answer ∈ sink.flushes, ∃ count, answer = .limit count

/-- A steady sink takes some of the bytes, or it is interrupted, and it stays steady. -/
theorem write_steady {sink next : Sink} {bytes : Bytes} {result : Except IoError Nat}
    (h : sink.Steady) (hne : bytes ≠ []) :
    sink.write bytes = (next, result) →
      next.Steady ∧ result ≠ .ok 0
        ∧ ∀ cause, result = .error cause → cause.kind = .interrupted := by
  intro hwrite
  rcases sink with ⟨content, writes, flushes, calls⟩
  rcases h with ⟨hwrites, hflushes⟩
  simp only at hwrites hflushes
  have hlength : bytes.length ≠ 0 := by simpa using hne
  unfold write at hwrite
  cases writes with
  | nil =>
      rcases Prod.mk.inj hwrite with ⟨rfl, rfl⟩
      exact ⟨⟨hwrites, hflushes⟩, by simpa using hne, by simp⟩
  | cons answer writes =>
      have hanswer := hwrites answer (.head _)
      have hrest := fun other hmem => hwrites other (.tail _ hmem)
      cases answer with
      | limit count =>
          rcases Prod.mk.inj hwrite with ⟨rfl, rfl⟩
          refine ⟨⟨hrest, hflushes⟩, ?_, by simp⟩
          unfold Answer.Spares at hanswer
          simp only [ne_eq, Except.ok.injEq]
          omega
      | fail kind text =>
          rcases Prod.mk.inj hwrite with ⟨rfl, rfl⟩
          refine ⟨⟨hrest, hflushes⟩, nofun, ?_⟩
          rintro _ ⟨⟩
          exact hanswer

/-- What is written to a steady sink arrives whole. -/
theorem writeAll_steady (sink : Sink) (bytes : Bytes) :
    sink.Steady → ∃ next, sink.writeAll bytes = (next, .ok ())
      ∧ next.content = sink.content ++ bytes ∧ next.Steady := by
  intro h
  fun_induction writeAll sink bytes with
  | case1 sink => exact ⟨sink, rfl, by rw [Array.appendList_nil], h⟩
  | case2 sink bytes hne next cause hwrite hless hkind ih =>
      -- interrupted: everything is still to be written
      rcases ih (write_steady h hne hwrite).1 with ⟨last, hall, hcontent, hlast⟩
      exact ⟨last, hall, by rw [hcontent, (write_failed hwrite).1], hlast⟩
  | case3 sink bytes hne next cause hwrite hless hkind =>
      exact absurd ((write_steady h hne hwrite).2.2 cause rfl) hkind
  | case4 sink bytes hne next hwrite => exact absurd rfl (write_steady h hne hwrite).2.1
  | case5 sink bytes hne next count hwrite hcount _ _ ih =>
      rcases write_taken hwrite with ⟨-, htaken, -⟩
      rcases ih (write_steady h hne hwrite).1 with ⟨last, hall, hcontent, hlast⟩
      refine ⟨last, hall, ?_, hlast⟩
      rw [hcontent, htaken, append_list_append, List.take_append_drop]

/-- A steady sink passes on what it has taken. -/
theorem flush_steady {sink : Sink} :
    sink.Steady → ∃ next, sink.flush = (next, .ok ()) ∧ next.content = sink.content
      ∧ next.Steady := by
  intro h
  rcases sink with ⟨content, writes, flushes, calls⟩
  rcases h with ⟨hwrites, hflushes⟩
  simp only at hwrites hflushes
  cases flushes with
  | nil => exact ⟨_, rfl, rfl, hwrites, hflushes⟩
  | cons answer flushes =>
      rcases hflushes answer (.head _) with ⟨count, rfl⟩
      exact ⟨_, rfl, rfl, hwrites, fun other hmem => hflushes other (.tail _ hmem)⟩

end Sink

end Lz4Frame
