import Lz4Frame.Codec
import Lz4Frame.Proofs.Decoder.Expansion
import Lz4Frame.Proofs.Decoder.Info
import Lz4Frame.Proofs.Decoder.Runs

/-!
# Decoding into a buffer that grows

However small the buffer was, decoding comes to what `Decoder.read` makes of the input, or to a
buffer that cannot be had (`decodeAll_value`).  A buffer grows only when it is full, so that takes
content half as long as memory.
-/

namespace Lz4Frame

open Decoder

/-- What a caller is told about a byte string that is read to its end. -/
def Decoder.Reading.result (reading : Reading) : Except Error Bytes :=
  match reading.verdict with
  | .ended _ => .ok reading.content
  | .bad code => .error (.frame code)
  | .waiting _ => .error .incompleteFrame

namespace OutputBuffer

variable [Platform]

/-- A buffer that is full can be doubled, unless its content takes half of all memory. -/
theorem grow_of_full {buffer : OutputBuffer} :
    buffer.spare = 0 →
      (∃ grown, buffer.grow = .ok grown ∧ grown.written = buffer.written)
        ∨ ∃ requested, buffer.grow = .error (.allocation requested)
          ∧ assuredSize ≤ 2 * buffer.written.size := by
  intro hfull
  have hle := buffer.written_le
  unfold spare at hfull
  have hcapacity : buffer.capacity * 2 = 2 * buffer.written.size := by omega
  simp only [grow]
  split
  · rename_i hlarge
    refine .inr ⟨largestLength, rfl, ?_⟩
    unfold largestLength at hlarge
    unfold assuredSize
    omega
  · by_cases hgranted : Platform.grants (buffer.capacity * 2) = true
    · simp only [allocate, hgranted, ↓reduceIte]
      exact .inl ⟨_, rfl, rfl⟩
    · have hdenied := Platform.le_of_denied hgranted
      simp only [allocate, hgranted, Bool.false_eq_true, ↓reduceIte]
      exact .inr ⟨_, rfl, by omega⟩

/-- An empty buffer can be had if its capacity can. -/
theorem new_cases (length : Nat) (pinned : Bool) :
    (∃ buffer, new length pinned = .ok buffer ∧ buffer.written = #[])
      ∨ ∃ requested, new length pinned = .error (.allocation requested)
        ∧ ¬ Platform.grants (max 1 length) = true := by
  by_cases hgranted : Platform.grants (max 1 length) = true
  · refine .inl ⟨⟨#[], max 1 length, pinned, #[], Nat.zero_le _, by omega⟩, ?_, rfl⟩
    simp only [new, allocate_of_grants hgranted]
    rfl
  · have hallocate : allocate (max 1 length) = .error (.allocation (max 1 length)) :=
      if_neg hgranted
    refine .inr ⟨max 1 length, ?_, hgranted⟩
    simp only [new, hallocate]
    rfl

/-- A new buffer is empty, for as many bytes as were asked for, one at least. -/
theorem new_eq_ok {length : Nat} {pinned : Bool} {buffer : OutputBuffer} :
    new length pinned = .ok buffer →
      buffer.written = #[] ∧ buffer.capacity = max 1 length := by
  intro h
  rcases bind_eq_ok.mp h with ⟨_, -, h⟩
  obtain rfl := Except.ok.inj h
  exact ⟨rfl, rfl⟩

/-- Whatever a buffer is for lies in memory. -/
theorem new_granted {length : Nat} {pinned : Bool} {buffer : OutputBuffer} :
    new length pinned = .ok buffer → Platform.grants buffer.capacity = true := by
  intro h
  rcases bind_eq_ok.mp h with ⟨_, hallocate, h⟩
  rw [← Except.ok.inj h]
  exact grants_of_allocate hallocate

theorem grow_granted {buffer grown : OutputBuffer} :
    buffer.grow = .ok grown → Platform.grants grown.capacity = true := by
  intro h
  simp only [grow] at h
  split at h
  · cases h
  · split at h
    · cases h
    · rename_i hallocate
      rw [← Except.ok.inj h]
      exact grants_of_allocate hallocate

end OutputBuffer

namespace Codec

variable [Platform]

/-- A run that leaves input unread has filled the buffer. -/
theorem full_of_rest {decoder next : Decoder} {input : Bytes} {buffer : OutputBuffer}
    {progress : Progress} (hrun : decoder.run input buffer.spare = (next, .ok progress)) :
    ¬ progress.hint = 0 → ¬ progress.rest = [] →
      (buffer.append progress.written (run_written_size hrun)).spare = 0 := by
  intro hnz hrest
  rcases run_halts hrun with ⟨hzero, -⟩ | ⟨-, -, ⟨hnil, -⟩ | hfull⟩
  · exact absurd hzero hnz
  · exact absurd hnil hrest
  · unfold OutputBuffer.spare at hfull
    simp only [OutputBuffer.append, OutputBuffer.spare, Array.size_append]
    omega

/-- Decoding with any buffer comes to what the whole input reads as, unless memory runs out. -/
theorem decodeAll_value (gate : Gate) (decoder : Decoder) (input : Bytes) (length : Nat)
    (buffer : OutputBuffer) (events : Array LockEvent) (hspare : 0 < buffer.spare) :
    (decodeAll gate decoder input length buffer events hspare).value
        = ((decoder.read input).prepend buffer.written.toList).result
      ∨ ∃ requested,
          (decodeAll gate decoder input length buffer events hspare).value
            = .error (.allocation requested)
          ∧ assuredSize ≤ 2 * (buffer.written.size + (decoder.read input).content.length) := by
  -- on the runs; the buffer holds what stands in front of the reading
  fun_induction decodeAll gate decoder input length buffer events hspare with
  | case1 decoder input length buffer events hspare room events' next code hrun =>
      rcases run_read_error hrun with ⟨content, hread⟩
      have hwhole := hread []
      rw [List.append_nil] at hwhole
      rw [hwhole]
      exact .inl rfl
  | case2 decoder input length buffer events hspare room events' next progress hrun grown hzero =>
      -- the frame has ended
      rw [run_read_all hrun]
      refine .inl ?_
      simp [Progress.reading, hzero, Reading.result, Reading.prepend, grown, OutputBuffer.append]
  | case3 decoder input length buffer events hspare room events' next progress hrun hnz hrest =>
      -- the input is used up inside the frame
      rcases run_halts hrun with ⟨hzero, -⟩ | ⟨-, hwaits, -⟩
      · exact absurd hzero hnz
      · rcases read_nil_waits hwaits with ⟨place, hwaiting⟩
        rw [run_read_all hrun]
        refine .inl ?_
        simp [Progress.reading, hnz, hrest, Reading.result, hwaiting]
  | case4 decoder input length buffer events hspare room events' next progress hrun grown hnz
      hrest cause hgrow =>
      -- input is left, so the buffer is full, and it cannot grow
      have hread := run_read_all hrun
      simp only [List.append_nil, Progress.reading, hnz, ↓reduceIte] at hread
      rcases OutputBuffer.grow_of_full (full_of_rest hrun hnz hrest) with ⟨bigger, hbigger, -⟩
        | ⟨requested, hfailed, hlimit⟩
      · rw [hgrow] at hbigger
        cases hbigger
      · rw [hgrow, Except.error.injEq] at hfailed
        refine .inr ⟨requested, by rw [hfailed], Nat.le_trans hlimit ?_⟩
        rw [hread]
        simp only [OutputBuffer.append, Array.size_append, Reading.content_prepend,
          List.length_append, Array.length_toList]
        omega
  | case5 decoder input length buffer events hspare room events' next progress hrun grown hnz
      hrest bigger hgrow hinput hlex ih =>
      -- the buffer grows, and decoding goes on with the rest of the input
      have hread := run_read_all hrun
      simp only [List.append_nil, Progress.reading, hnz, ↓reduceIte] at hread
      rcases OutputBuffer.grow_of_full (full_of_rest hrun hnz hrest)
        with ⟨bigger', hbigger, hwritten⟩ | ⟨requested, hfailed, -⟩
      · rw [hgrow, Except.ok.injEq] at hbigger
        subst hbigger
        have hcontent : bigger.written = buffer.written ++ progress.written := hwritten
        rw [hcontent] at ih
        rw [hread]
        simpa [Nat.add_assoc] using ih
      · rw [hgrow] at hfailed
        cases hfailed

/-- Content that was decoded lies in memory. -/
theorem decodeAll_granted {gate : Gate} {decoder : Decoder} {input : Bytes} {length : Nat}
    {buffer : OutputBuffer} {events : Array LockEvent} {hspare : 0 < buffer.spare}
    (hcapacity : Platform.grants buffer.capacity = true) {content : Bytes} :
    (decodeAll gate decoder input length buffer events hspare).value = .ok content →
      ∃ size, Platform.grants size = true ∧ content.length ≤ size := by
  intro h
  fun_induction decodeAll gate decoder input length buffer events hspare with
  | case1 => cases h
  | case2 decoder input length buffer events hspare room events' next progress hrun grown hzero =>
      refine ⟨buffer.capacity, hcapacity, ?_⟩
      rw [← Except.ok.inj h, Array.length_toList]
      exact grown.written_le
  | case3 => cases h
  | case4 => cases h
  | case5 decoder input length buffer events hspare room events' next progress hrun grown hnz
      hrest bigger hgrow hinput hlex ih =>
      exact ih (OutputBuffer.grow_granted hgrow) h

/-! ## Whole inputs -/

/-- The initial buffer can be had, unless both what is declared and what the input can expand to are
too much, or nothing is declared and the hint or the input is. -/
theorem initialBuffer_cases (declared length : Nat) {hint : Nat} (hpos : 1 ≤ hint) :
    (∃ buffer, initialBuffer declared length hint = .ok buffer ∧ buffer.written = #[])
      ∨ ∃ requested, initialBuffer declared length hint = .error (.allocation requested)
        ∧ (assuredSize ≤ declared ∧ assuredSize ≤ length * maxExpansion
          ∨ declared = 0 ∧ (¬ Platform.grants hint = true ∨ assuredSize ≤ length)) := by
  unfold initialBuffer
  split
  · rcases OutputBuffer.new_cases (min declared (min (length * maxExpansion) largestLength)) true
      with hbuffer | ⟨requested, hfailed, hdenied⟩
    · exact .inl hbuffer
    · have hlimit := Platform.le_of_denied hdenied
      unfold assuredSize at *
      exact .inr ⟨requested, hfailed, .inl ⟨by omega, by omega⟩⟩
  · rcases OutputBuffer.new_cases (max hint length) false
      with hbuffer | ⟨requested, hfailed, hdenied⟩
    · exact .inl hbuffer
    · refine .inr ⟨requested, hfailed, .inr ⟨by omega, ?_⟩⟩
      rw [Nat.max_eq_right (Nat.le_trans hpos (Nat.le_max_left ..))] at hdenied
      rcases Nat.le_total length hint with hle | hle
      · rw [Nat.max_eq_left hle] at hdenied
        exact .inl hdenied
      · rw [Nat.max_eq_right hle] at hdenied
        exact .inr (Platform.le_of_denied hdenied)

theorem frameInfo_new (input : Bytes) :
    new.frameInfo input = match readHeader input with
      | .ok (next, info, length) => (next, .ok (info, length))
      | .error code => (new, .error code) := rfl

/-- Decoding behind a header that was accepted comes to what the whole input reads as, unless
memory runs out. -/
theorem decompress_of_header (gate : Gate) {hint length : Nat} {input : Bytes} {next : Decoder}
    {info : FrameInfo} (hne : input ≠ []) (hhint : 1 ≤ hint)
    (hheader : readHeader input = .ok (next, info, length)) :
    (decompress gate hint input).value = (new.read input).result
      ∨ ∃ requested, (decompress gate hint input).value = .error (.allocation requested)
        ∧ (assuredSize ≤ 2 * (new.read input).content.length
          ∨ assuredSize ≤ info.declared
            ∧ assuredSize ≤ (input.drop length).length * maxExpansion
          ∨ info.declared = 0
            ∧ (¬ Platform.grants hint = true ∨ assuredSize ≤ (input.drop length).length)) := by
  have hread := read_of_readHeader hheader
  have hempty : ¬ input.isEmpty = true := by simpa [List.isEmpty_iff] using hne
  have hzero : ¬ hint = 0 := by omega
  rw [hread, decompress, if_neg hempty, if_neg hzero]
  simp only [frameInfo_new, hheader]
  rcases initialBuffer_cases info.declared (input.drop length).length hhint
    with ⟨buffer, hbuffer, hwritten⟩ | ⟨requested, hfailed, hlimit⟩
  · split
    · rename_i hfailed
      rw [hbuffer] at hfailed
      cases hfailed
    · rename_i hsame
      rw [hbuffer, Except.ok.injEq] at hsame
      subst hsame
      rcases decodeAll_value gate next (input.drop length) (input.drop length).length buffer
        #[.call none] _ with hvalue | ⟨requested, hvalue, hlimit⟩
      · exact .inl (by rw [hvalue, hwritten, Array.toList_empty, Reading.prepend_nil])
      · refine .inr ⟨requested, hvalue, .inl ?_⟩
        simpa [hwritten] using hlimit
  · split
    · rename_i hsame
      rw [hfailed, Except.error.injEq] at hsame
      exact .inr ⟨requested, by rw [← hsame], .inr hlimit⟩
    · rename_i hbuffer
      rw [hfailed] at hbuffer
      cases hbuffer

/-- Decoding in one call comes to what the input reads as, if it is long enough for any header,
unless memory runs out; it does not run out if the hint, and twice what the input can expand to, can
be allocated. -/
theorem decompress_value (gate : Gate) {hint : Nat} {input : Bytes} (hpos : 1 ≤ hint)
    (hlong : Header.maxLength ≤ input.length) :
    (decompress gate hint input).value = (new.read input).result
      ∨ ∃ requested, (decompress gate hint input).value = .error (.allocation requested)
        ∧ (¬ Platform.grants hint = true ∨ assuredSize ≤ 2 * maxExpansion * input.length) := by
  have hne : input ≠ [] := by
    refine List.ne_nil_of_length_pos ?_
    unfold Header.maxLength at hlong
    omega
  cases hheader : readHeader input with
  | error code =>
      -- a header that is refused ahead is refused by reading too
      have hempty : ¬ input.isEmpty = true := by simpa [List.isEmpty_iff] using hne
      have hzero : ¬ hint = 0 := by omega
      refine .inl ?_
      rw [read_of_readHeader_error hheader hlong, decompress, if_neg hempty, if_neg hzero]
      simp only [frameInfo_new, hheader]
      rfl
  | ok header =>
      -- every way to run out of memory takes more content than the input can expand to
      rcases header with ⟨next, info, length⟩
      rcases decompress_of_header gate hne hpos hheader with hvalue | ⟨requested, hvalue, hlimit⟩
      · exact .inl hvalue
      · refine .inr ⟨requested, hvalue, ?_⟩
        have hcontent := read_new_length input
        unfold maxExpansion at hlimit ⊢
        rw [List.length_drop] at hlimit
        rcases hlimit with htwice | ⟨-, hreach⟩ | ⟨-, hhint | hrest⟩
        · exact .inr (by omega)
        · exact .inr (by omega)
        · exact .inl hhint
        · exact .inr (by omega)

/-- A frame that is decoded in one call has no more content than can be allocated. -/
theorem decompress_granted {gate : Gate} {hint : Nat} {input content : Bytes} :
    (decompress gate hint input).value = .ok content →
      ∃ size, Platform.grants size = true ∧ content.length ≤ size := by
  intro h
  unfold decompress at h
  split at h
  · cases h
  split at h
  · cases h
  split at h
  · cases h
  · simp only at h
    split at h
    · cases h
    · rename_i buffer hbuffer
      refine decodeAll_granted ?_ h
      unfold initialBuffer at hbuffer
      split at hbuffer
      · exact OutputBuffer.new_granted hbuffer
      · exact OutputBuffer.new_granted hbuffer

end Codec

end Lz4Frame
