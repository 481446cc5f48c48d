import Lz4Frame.Platform.Reference
import Lz4Frame.Proofs.Codec.Growth
import Lz4Frame.Proofs.Storage

/-!
# What is behind an output buffer

An `OutputBuffer` says what was written and how much room there is.  Behind it is a storage of bytes
(`OutputBuffer.storage`), and whatever is done with the buffer is done with that storage byte by
byte (`Leads.served_eq`); the loop that decodes in one call is no exception (`Codec.Turns.leads`).
So what holds of storages in all their steps holds of buffers: what was written is never lost,
doubled or changed, and a pinned buffer has put aside all that it has grown out of
(`keeps_written`).
-/

namespace Lz4Frame

namespace OutputBuffer

open Storage

/-- The storage behind a buffer: what was written, and zeros. -/
def storage (buffer : OutputBuffer) : Storage where
  bytes := buffer.written.toList ++ zeros (buffer.capacity - buffer.written.size)
  filled := buffer.written.size
  pinned := buffer.pinned
  retired := buffer.retired.toList.map fun retired => retired.storage.toList

theorem capacity_storage (buffer : OutputBuffer) : buffer.storage.capacity = buffer.capacity := by
  have hle := buffer.written_le
  simp only [Storage.capacity, storage, zeros, List.length_append, List.length_replicate,
    Array.length_toList]
  omega

theorem spare_storage (buffer : OutputBuffer) : buffer.storage.spare = buffer.spare := by
  rw [Storage.spare, capacity_storage]
  rfl

theorem intoVec_storage (buffer : OutputBuffer) :
    buffer.storage.intoVec = buffer.written.toList := by
  simp only [intoVec, storage, ← Array.length_toList, List.take_left]

variable [Platform]

theorem storage_new {length : Nat} {pinned : Bool} {buffer : OutputBuffer} :
    new length pinned = .ok buffer → buffer.storage = .new length pinned := by
  intro h
  rcases bind_eq_ok.mp h with ⟨_, -, h⟩
  rw [← Except.ok.inj h]
  rfl

omit [Platform] in
/-- Bytes that are appended are written to the storage. -/
theorem storage_append (buffer : OutputBuffer) (input : Array UInt8)
    (fits : input.size ≤ buffer.spare) :
    (buffer.append input fits).storage = buffer.storage.write input.toList [] := by
  have hbytes : overwrite buffer.storage.bytes buffer.written.size input.toList
      = buffer.written.toList ++ input.toList
        ++ zeros (buffer.capacity - (buffer.written.size + input.size)) := by
    rw [storage, ← Array.length_toList, overwrite_zeros, Nat.sub_sub, Array.length_toList,
      Array.length_toList]
  rw [Storage.write, List.append_nil, show buffer.storage.filled = buffer.written.size from rfl,
    hbytes]
  simp only [storage, append, Array.toList_append, Array.size_append, Array.length_toList]

omit [Platform] in
/-- In place or not, the storage of twice the size has zeros behind what was written. -/
theorem bytes_doubled (buffer : OutputBuffer) :
    buffer.storage.doubled.bytes
      = buffer.written.toList ++ zeros (buffer.capacity * 2 - buffer.written.size) := by
  have hle := buffer.written_le
  have hwritten : buffer.storage.bytes.take buffer.storage.filled = buffer.written.toList :=
    buffer.intoVec_storage
  rw [doubled, capacity_storage, hwritten]
  split
  · have hcopied := overwrite_zeros [] buffer.written.toList (buffer.capacity * 2)
    rwa [List.nil_append, List.nil_append, Array.length_toList] at hcopied
  · have hzeros : buffer.capacity - buffer.written.size + (buffer.capacity * 2 - buffer.capacity)
        = buffer.capacity * 2 - buffer.written.size := by omega
    simp only [storage, List.append_assoc, zeros_append, hzeros]

/-- A buffer that grows doubles its storage. -/
theorem storage_grown {buffer grown : OutputBuffer} :
    buffer.grow = .ok grown → buffer.storage.grow true = (grown.storage, .ok ()) := by
  intro h
  have hle := buffer.written_le
  have hcapacity := buffer.capacity_storage
  simp only [grow] at h
  split at h
  · cases h
  · next hshort =>
      split at h
      · cases h
      · rw [Storage.grow, hcapacity, if_neg hshort, if_pos rfl, ← Except.ok.inj h]
        rcases buffer.storage.doubled_keeps with ⟨hkind, hfilled, hretired⟩
        refine Prod.ext (Storage.ext buffer.bytes_doubled hfilled hkind (hretired.trans ?_)) rfl
        cases hpinned : buffer.pinned with
        | true =>
            rw [if_pos (show buffer.storage.pinned = true from hpinned)]
            simp [storage, Retired.storage, zeros]
        | false =>
            rw [if_neg (Bool.eq_false_iff.mp hpinned : ¬ buffer.storage.pinned = true),
              List.append_nil]
            rfl

/-- A buffer that cannot grow has a storage that is not granted more. -/
theorem storage_refused {buffer : OutputBuffer} {cause : Error} :
    buffer.grow = .error cause → buffer.storage.grow false = (buffer.storage, .error cause) := by
  intro h
  simp only [grow] at h
  rw [Storage.grow, buffer.capacity_storage]
  split at h
  · next hlong => rw [if_pos hlong, ← Except.error.inj h]
  · next hshort =>
      split at h
      · next other hallocate =>
          rw [if_neg hshort, if_neg Bool.false_ne_true, ← Except.error.inj h]
          unfold allocate at hallocate
          split at hallocate
          · cases hallocate
          · rw [← Except.error.inj hallocate]
      · cases h

/-! ## What is done with a buffer -/

/-- What is done with a buffer, step by step, what it becomes and how it answers. -/
inductive Leads : OutputBuffer → List Step → OutputBuffer → List (Except Error Unit) → Prop
  | still {buffer : OutputBuffer} : Leads buffer [] buffer []
  | appended {buffer last : OutputBuffer} {steps : List Step} {replies : List (Except Error Unit)}
      {input : Array UInt8} (fits : input.size ≤ buffer.spare)
      (further : Leads (buffer.append input fits) steps last replies) :
      Leads buffer (.write input.toList [] :: steps) last (.ok () :: replies)
  | grown {buffer bigger last : OutputBuffer} {steps : List Step}
      {replies : List (Except Error Unit)} (grow_eq : buffer.grow = .ok bigger)
      (further : Leads bigger steps last replies) :
      Leads buffer (.grow true :: steps) last (.ok () :: replies)
  | refused {buffer last : OutputBuffer} {steps : List Step} {replies : List (Except Error Unit)}
      {cause : Error} (grow_eq : buffer.grow = .error cause)
      (further : Leads buffer steps last replies) :
      Leads buffer (.grow false :: steps) last (.error cause :: replies)

/-- Whatever is done with a buffer is done with the storage behind it. -/
theorem Leads.served_eq {buffer last : OutputBuffer} {steps : List Step}
    {replies : List (Except Error Unit)} (h : buffer.Leads steps last replies) :
    buffer.storage.Fits steps
      ∧ served Storage.perform buffer.storage steps = (last.storage, replies) := by
  induction h with
  | still => exact ⟨trivial, rfl⟩
  | @appended buffer last steps replies input fits further ih =>
      have hstep := buffer.storage_append input fits
      rw [hstep] at ih
      refine ⟨⟨?_, ih.1⟩, ?_⟩
      · rw [Step.Fits, spare_storage, List.append_nil, Array.length_toList]
        exact fits
      · simp only [served, Storage.perform, ih.2]
  | grown grow_eq further ih =>
      have hstep := storage_grown grow_eq
      refine ⟨⟨trivial, ?_⟩, ?_⟩
      · rw [Storage.perform, hstep]
        exact ih.1
      · simp only [served, Storage.perform, hstep, ih.2]
  | refused grow_eq further ih =>
      have hstep := storage_refused grow_eq
      refine ⟨⟨trivial, ?_⟩, ?_⟩
      · rw [Storage.perform, hstep]
        exact ih.1
      · simp only [served, Storage.perform, hstep, ih.2]

end OutputBuffer

namespace Codec

open Decoder OutputBuffer

variable [Platform]

/-- The turns of the loop that decodes in one call are such steps, and what it returns is what was
written to the buffer. -/
theorem Turns.leads {decoder : Decoder} {input : Bytes} {buffer : OutputBuffer} {course : Course}
    (h : Turns decoder input buffer course) :
    (∃ steps replies, buffer.Leads steps course.last replies)
      ∧ ∀ content, course.value = .ok content → content = course.last.storage.intoVec := by
  induction h with
  | failed run_eq => exact ⟨⟨_, _, .still⟩, fun content hvalue => by cases hvalue⟩
  | ended run_eq hint_eq =>
      refine ⟨⟨_, _, .appended (run_written_size run_eq) .still⟩, fun content hvalue => ?_⟩
      rw [intoVec_storage, ← Except.ok.inj hvalue]
  | cutOff run_eq goes_on rest_eq =>
      exact ⟨⟨_, _, .appended (run_written_size run_eq) .still⟩, fun content hvalue => by
        cases hvalue⟩
  | refused run_eq goes_on left grow_eq =>
      exact ⟨⟨_, _, .appended (run_written_size run_eq) (.refused grow_eq .still)⟩,
        fun content hvalue => by cases hvalue⟩
  | grown run_eq goes_on left grow_eq further ih =>
      rcases ih with ⟨⟨steps, replies, hleads⟩, hvalue⟩
      exact ⟨⟨_, _, .appended (run_written_size run_eq) (.grown grow_eq hleads)⟩, hvalue⟩

end Codec

section

variable [Platform]

/-- No step loses, doubles or changes what was written, whether a buffer is pinned or not, however
often it grows and whether that is granted or not; and what the codec does with its buffers is a row
of such steps, byte by byte. -/
theorem OutputBuffer.keeps_written (length : Nat) (pinned : Bool) :
    (∀ steps, (Storage.new length pinned).Fits steps → Storage.Intact length pinned steps)
      ∧ ∀ buffer, OutputBuffer.new length pinned = .ok buffer →
        (∀ steps last replies, buffer.Leads steps last replies →
          (Storage.new length pinned).Fits steps
            ∧ Storage.run length pinned steps = (last.storage, replies))
        ∧ ∀ gate decoder input known events hspare,
          ∃ steps last replies, buffer.Leads steps last replies
            ∧ ∀ content,
              (Codec.decodeAll gate decoder input known buffer events hspare).value = .ok content →
                content = last.storage.intoVec := by
  refine ⟨fun steps hfits => hfits.intact, fun buffer hnew => ⟨?_, ?_⟩⟩
  · intro steps last replies hleads
    have hserved := hleads.served_eq
    rw [storage_new hnew] at hserved
    exact hserved
  · intro gate decoder input known events hspare
    rcases Codec.decodeAll_turns gate decoder input known buffer events hspare
        with ⟨course, hturns, hvalue, -⟩
    rcases hturns.leads with ⟨⟨steps, replies, hleads⟩, hcontent⟩
    exact ⟨steps, course.last, replies, hleads, fun content h => hcontent content (hvalue ▸ h)⟩

end

open Reference in
/-- Room for three bytes, which is doubled twice and refused once, with bytes left behind what was
written. -/
theorem OutputBuffer.keeps_written_three_bytes :
    let steps : List Storage.Step :=
      [.write [1] [7], .grow false, .grow true, .write [2, 3] [8], .grow true]
    Storage.Intact 3 true steps
      ∧ (Storage.run 3 true steps).1.intoVec = [1, 2, 3]
      ∧ (Storage.run 3 true steps).1.retired = [[1, 7, 0], [1, 2, 3, 8, 0, 0]]
      ∧ ∃ buffer last, OutputBuffer.new 3 true = .ok buffer
        ∧ buffer.Leads [.write [1] [], .grow true] last [.ok (), .ok ()]
        ∧ Storage.run 3 true [.write [1] [], .grow true] = (last.storage, [.ok (), .ok ()]) := by
  intro steps
  rcases keeps_written 3 true with ⟨hintact, hbuffers⟩
  have hsteps := hintact steps (by decide)
  have hnew : OutputBuffer.new 3 true = .ok ⟨#[], 3, true, #[], by decide, by decide⟩ := rfl
  have hleads : Leads ⟨#[], 3, true, #[], by decide, by decide⟩ [.write [1] [], .grow true]
      ⟨#[1], 6, true, #[⟨#[1], 3⟩], by decide, by decide⟩ [.ok (), .ok ()] :=
    .appended (show #[1].size ≤ 3 by decide) (.grown rfl .still)
  exact ⟨hsteps, hsteps.intoVec_eq, hsteps.retired_eq, _, _, hnew, hleads,
    ((hbuffers _ hnew).1 _ _ _ hleads).2⟩

end Lz4Frame
