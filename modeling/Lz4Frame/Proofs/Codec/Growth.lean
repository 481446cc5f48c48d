import Lz4Frame.Platform.Reference
import Lz4Frame.Proofs.Termination

/-!
# How far a buffer grows

The loop that decodes in one call lets its buffer grow when the frame goes on and input is left; it
does not ask whether the buffer is full.  It always is (`full_of_rest`), whatever the input, so a
buffer that has grown was too small before, and its capacity is at most twice what was written to it
(`grows_when_full`).
-/

namespace Lz4Frame

open Decoder

namespace Codec

/-! ## The loop, turn by turn -/

/-- What becomes of a buffer in the loop. -/
structure Course where
  /-- The buffers that were told to grow, as they were then. -/
  asked : List OutputBuffer
  /-- How often that was granted. -/
  growths : Nat
  /-- The buffer on return. -/
  last : OutputBuffer
  /-- What the caller is told. -/
  value : Except Error Bytes

/-- A buffer that is full takes a course once it has grown. -/
def Course.grown (course : Course) (full : OutputBuffer) : Course :=
  { course with asked := full :: course.asked, growths := course.growths + 1 }

section

variable [Platform]

/-- The buffer after a run that was given all of its room. -/
def after {decoder next : Decoder} {input : Bytes} {buffer : OutputBuffer} {progress : Progress}
    (hrun : decoder.run input buffer.spare = (next, .ok progress)) : OutputBuffer :=
  buffer.append progress.written (run_written_size hrun)

/-- The turns that a decoder takes over an input, one rule for each way through the loop, and what
becomes of the buffer. -/
inductive Turns : Decoder → Bytes → OutputBuffer → Course → Prop
  | failed {decoder next : Decoder} {input : Bytes} {buffer : OutputBuffer} {code : ErrorCode}
      (run_eq : decoder.run input buffer.spare = (next, .error code)) :
      Turns decoder input buffer ⟨[], 0, buffer, .error (.frame code)⟩
  | ended {decoder next : Decoder} {input : Bytes} {buffer : OutputBuffer} {progress : Progress}
      (run_eq : decoder.run input buffer.spare = (next, .ok progress))
      (hint_eq : progress.hint = 0) :
      Turns decoder input buffer ⟨[], 0, after run_eq, .ok (after run_eq).written.toList⟩
  | cutOff {decoder next : Decoder} {input : Bytes} {buffer : OutputBuffer} {progress : Progress}
      (run_eq : decoder.run input buffer.spare = (next, .ok progress))
      (goes_on : progress.hint ≠ 0) (rest_eq : progress.rest = []) :
      Turns decoder input buffer ⟨[], 0, after run_eq, .error .incompleteFrame⟩
  | refused {decoder next : Decoder} {input : Bytes} {buffer : OutputBuffer} {progress : Progress}
      {cause : Error} (run_eq : decoder.run input buffer.spare = (next, .ok progress))
      (goes_on : progress.hint ≠ 0) (left : progress.rest ≠ [])
      (grow_eq : (after run_eq).grow = .error cause) :
      Turns decoder input buffer ⟨[after run_eq], 0, after run_eq, .error cause⟩
  | grown {decoder next : Decoder} {input : Bytes} {buffer bigger : OutputBuffer}
      {progress : Progress} {course : Course}
      (run_eq : decoder.run input buffer.spare = (next, .ok progress))
      (goes_on : progress.hint ≠ 0) (left : progress.rest ≠ [])
      (grow_eq : (after run_eq).grow = .ok bigger)
      (further : Turns next progress.rest bigger course) :
      Turns decoder input buffer (course.grown (after run_eq))

/-- These are the turns that the loop takes: it returns the value of their course, and calls the
decoder once more than the buffer grows. -/
theorem decodeAll_turns (gate : Gate) (decoder : Decoder) (input : Bytes) (length : Nat)
    (buffer : OutputBuffer) (events : Array LockEvent) (hspare : 0 < buffer.spare) :
    ∃ course, Turns decoder input buffer course
      ∧ (decodeAll gate decoder input length buffer events hspare).value = course.value
      ∧ engineCalls (decodeAll gate decoder input length buffer events hspare).events
        = engineCalls events.toList + course.growths + 1 := by
  have hone (events : Array LockEvent) (length : Nat) :
      engineCalls (events ++ gate.around length).toList = engineCalls events.toList + 1 := by
    have haround := engineCalls_around gate length
    unfold engineCalls at haround ⊢
    rw [Array.toList_appendList, List.countP_append, haround]
  fun_induction decodeAll gate decoder input length buffer events hspare with
  | case1 decoder input length buffer events hspare room events' next code hrun =>
      exact ⟨_, .failed hrun, rfl, hone events length⟩
  | case2 decoder input length buffer events hspare room events' next progress hrun grown hzero =>
      exact ⟨_, .ended hrun hzero, rfl, hone events length⟩
  | case3 decoder input length buffer events hspare room events' next progress hrun hnz hrest =>
      exact ⟨_, .cutOff hrun hnz hrest, rfl, hone events length⟩
  | case4 decoder input length buffer events hspare room events' next progress hrun grown hnz
      hrest cause hgrow =>
      exact ⟨_, .refused hrun hnz hrest hgrow, rfl, hone events length⟩
  | case5 decoder input length buffer events hspare room events' next progress hrun grown hnz
      hrest bigger hgrow hinput hlex ih =>
      rcases ih with ⟨course, hturns, hvalue, hcalls⟩
      refine ⟨_, .grown hrun hnz hrest hgrow hturns, hvalue, hcalls.trans ?_⟩
      rw [hone events length, Nat.add_right_comm _ 1]
      rfl

/-! ## Doubling -/

/-- A course on which a buffer is full whenever it is told to grow, and doubles. -/
structure Course.Doubles (course : Course) (first : OutputBuffer) : Prop where
  full : ∀ buffer ∈ course.asked, buffer.written.size = buffer.capacity
  /-- Whenever it is told to grow, the buffer has doubled as often as it was told before. -/
  asked_capacity : ∀ (i : Nat) (buffer : OutputBuffer), course.asked[i]? = some buffer →
    buffer.capacity = first.capacity * 2 ^ i
  /-- Nothing but a want of memory is between being told to grow and growing. -/
  asked_length : course.asked.length = course.growths
    ∨ course.asked.length = course.growths + 1
      ∧ ∃ requested, course.value = .error (.allocation requested)
  last_capacity : course.last.capacity = first.capacity * 2 ^ course.growths
  /-- The last growth was needed. -/
  needed : course.growths = 0 ∨ course.last.capacity ≤ 2 * course.last.written.size
  kept : first.written.size ≤ course.last.written.size
  delivered : ∀ content, course.value = .ok content → content = course.last.written.toList

omit [Platform] in
/-- A buffer that never grows. -/
theorem Course.doubles_still {first last : OutputBuffer} {value : Except Error Bytes}
    (hcapacity : last.capacity = first.capacity)
    (hkept : first.written.size ≤ last.written.size)
    (hvalue : ∀ content, value = .ok content → content = last.written.toList) :
    Course.Doubles ⟨[], 0, last, value⟩ first where
  full := by simp
  asked_capacity := by simp
  asked_length := .inl rfl
  last_capacity := by simpa using hcapacity
  needed := .inl rfl
  kept := hkept
  delivered := hvalue

/-- A run adds to a buffer and does not change its capacity. -/
theorem after_kept {decoder next : Decoder} {input : Bytes} {buffer : OutputBuffer}
    {progress : Progress} (hrun : decoder.run input buffer.spare = (next, .ok progress)) :
    (after hrun).capacity = buffer.capacity
      ∧ buffer.written.size ≤ (after hrun).written.size :=
  ⟨rfl, by simp [after, OutputBuffer.append]⟩

/-- A run that leaves input unread has filled its buffer to the last byte. -/
theorem after_full {decoder next : Decoder} {input : Bytes} {buffer : OutputBuffer}
    {progress : Progress} (hrun : decoder.run input buffer.spare = (next, .ok progress)) :
    progress.hint ≠ 0 → progress.rest ≠ [] →
      (after hrun).written.size = (after hrun).capacity := by
  intro hnz hrest
  have hspare := full_of_rest hrun hnz hrest
  have hle := (after hrun).written_le
  unfold OutputBuffer.spare at hspare
  exact Nat.le_antisymm hle (Nat.le_of_sub_eq_zero hspare)

/-- The turns of any decoder over any input double the buffer when it is full. -/
theorem Turns.doubles {decoder : Decoder} {input : Bytes} {buffer : OutputBuffer}
    {course : Course} : Turns decoder input buffer course → course.Doubles buffer := by
  intro h
  induction h with
  | failed hrun => exact Course.doubles_still rfl (Nat.le_refl _) (fun _ h => by cases h)
  | ended hrun hzero =>
      exact Course.doubles_still rfl (after_kept hrun).2 (fun _ h => (Except.ok.inj h).symm)
  | cutOff hrun hnz hrest =>
      exact Course.doubles_still rfl (after_kept hrun).2 (fun _ h => by cases h)
  | @refused decoder next input buffer progress cause hrun hnz hrest hgrow =>
      have hfull := after_full hrun hnz hrest
      rcases OutputBuffer.grow_of_full (full_of_rest hrun hnz hrest)
          with ⟨bigger, hbigger, -⟩ | ⟨requested, hfailed, -⟩
      · cases hgrow.symm.trans hbigger
      obtain rfl : cause = .allocation requested := Except.error.inj (hgrow.symm.trans hfailed)
      refine {
        full := List.forall_mem_singleton.mpr hfull
        asked_capacity := fun i asked hasked => ?_
        asked_length := .inr ⟨rfl, requested, rfl⟩
        last_capacity := (Nat.mul_one _).symm
        needed := .inl rfl
        kept := (after_kept hrun).2
        delivered := fun _ h => by cases h }
      cases i with
      | zero =>
          obtain rfl : after hrun = asked := by simpa using hasked
          exact (Nat.mul_one _).symm
      | succ i => cases hasked
  | @grown decoder next input buffer bigger progress course hrun hnz hrest hgrow further ih =>
      have hfull := after_full hrun hnz hrest
      have hcapacity := OutputBuffer.grow_capacity hgrow
      have hwritten := OutputBuffer.grow_written hgrow
      have hkept := (after_kept hrun).2
      -- behind this growth the capacity is twice as large already
      have hdoubled (n : Nat) : bigger.capacity * 2 ^ n = buffer.capacity * 2 ^ (n + 1) := by
        rw [hcapacity, (after_kept hrun).1, Nat.pow_succ, Nat.mul_assoc, Nat.mul_comm 2]
      refine {
        full := List.forall_mem_cons.mpr ⟨hfull, ih.full⟩
        asked_capacity := fun i asked hasked => ?_
        asked_length := ?_
        last_capacity := ih.last_capacity.trans (hdoubled _)
        needed := .inr ?_
        kept := ?_
        delivered := ih.delivered }
      · cases i with
        | zero =>
            obtain rfl : after hrun = asked := by simpa [Course.grown] using hasked
            exact (Nat.mul_one _).symm
        | succ i => exact (ih.asked_capacity i asked hasked).trans (hdoubled i)
      · rcases ih.asked_length with hlength | ⟨hlength, hvalue⟩
        · exact .inl (congrArg Nat.succ hlength)
        · exact .inr ⟨congrArg Nat.succ hlength, hvalue⟩
      · -- the first growth was needed for what was there already, the others by themselves
        rcases ih.needed with hstill | hneeded
        · have hlast := ih.last_capacity
          have hmore := ih.kept
          rw [hstill, Nat.pow_zero, Nat.mul_one] at hlast
          rw [hwritten, hfull] at hmore
          show course.last.capacity ≤ 2 * course.last.written.size
          omega
        · exact hneeded
      · exact Nat.le_trans hkept (hwritten ▸ ih.kept)

/-- Whenever the loop runs, and whatever the input, the buffer grows only when it is full, and by
doubling, so that on return it has never grown or is at most twice as large as what was written. -/
theorem grows_when_full (gate : Gate) {hint length : Nat} {input : Bytes} {decoder : Decoder}
    {info : FrameInfo} {buffer : OutputBuffer} (h : SetUp hint input decoder info length buffer)
    (hhint : 1 ≤ hint) :
    ∃ course, Turns decoder (input.drop length) buffer course
      ∧ (decompress gate hint input).value = course.value
      ∧ engineCalls (decompress gate hint input).events = course.growths + 2
      ∧ course.Doubles buffer := by
  rcases decodeAll_turns gate decoder (input.drop length) (input.drop length).length buffer
      #[.call none] h.spare_pos with ⟨course, hturns, hvalue, hcalls⟩
  rw [h.decompress_eq gate hhint]
  refine ⟨course, hturns, hvalue, hcalls.trans ?_, hturns.doubles⟩
  show 1 + course.growths + 1 = course.growths + 2
  omega

end

open Reference in
/-- Sixty zeros make a block of eleven bytes, so the first buffer is too small, and two growths are
enough. -/
theorem grows_when_full_sixty_zeros :
    ∃ frame decoder info buffer course,
      (Compressor.frame (.new .native) {} [.update (List.replicate 60 0)]).2 = .ok frame
        ∧ SetUp 1 frame decoder info 7 buffer ∧ buffer.capacity = 19
        ∧ Turns decoder (frame.drop 7) buffer course
        ∧ course.value = .ok (List.replicate 60 0)
        ∧ course.growths = 2 ∧ course.last.capacity = 76
        ∧ engineCalls (decompress .native 1 frame).events = 4 := by
  have hfits : ∀ call ∈ [Call.update (List.replicate 60 0)], call.Fits {} := by
    refine List.forall_mem_singleton.mpr ⟨by simp, ?_⟩
    show (60 + (65536 - 1)) / 65536 < 0x100000000
    decide
  rcases (Compressor.new .native).frame_isFrame rfl hfits (by decide) (.inl rfl)
      with ⟨next, frame, hmade, -, hframe⟩
  have hlength : frame.length = 26 := by
    have hvalue :
        (Compressor.frame (.new .native) {} [.update (List.replicate 60 0)]).2.toOption.map
          List.length = some 26 := by decide +kernel
    rw [hmade] at hvalue
    exact Option.some.inj hvalue
  have hheader := hframe.readHeader []
  rw [List.append_nil] at hheader
  have hsetUp : SetUp 1 frame (beforeBlock (.ofHeader (.ofPreferences {})))
      (infoWith freshHint (.ofPreferences {})) 7
      ⟨#[], 19, false, #[], Nat.zero_le _, by decide⟩ := by
    refine ⟨by rw [frameInfo_new, hheader]; rfl, ?_⟩
    rw [List.length_drop, hlength]
    rfl
  have hvalue : (decompress .native 1 frame).value = .ok (List.replicate 60 0) := by
    rcases decompress_undeclared .native hframe rfl (Nat.le_refl 1)
      with hvalue | ⟨requested, -, hdenied | hlong⟩
    · exact hvalue
    · exact absurd (by decide) hdenied
    · exact absurd hlong (by decide)
  rcases grows_when_full .native hsetUp (Nat.le_refl 1)
      with ⟨course, hturns, hsame, hcalls, hdoubles⟩
  have hcourse := hsame.symm.trans hvalue
  have hgrown : course.growths = 2 := by
    -- one growth is not enough for the content, and a third one is more than it needs
    have hwritten := congrArg List.length (hdoubles.delivered _ hcourse)
    have hle := course.last.written_le
    have hlast : course.last.capacity = 19 * 2 ^ course.growths := hdoubles.last_capacity
    have hneeded := hdoubles.needed
    rw [List.length_replicate, Array.length_toList] at hwritten
    rw [hlast, ← hwritten] at hle hneeded
    rcases Nat.lt_trichotomy course.growths 2 with hfew | htwo | hmany
    · have := Nat.pow_le_pow_right Nat.two_pos (Nat.le_of_lt_succ hfew)
      omega
    · exact htwo
    · have := Nat.pow_le_pow_right Nat.two_pos (Nat.succ_le_of_lt hmany)
      omega
  refine ⟨frame, _, _, _, course, by rw [hmade], hsetUp, rfl, hturns, hcourse, hgrown, ?_, ?_⟩
  · rw [hdoubles.last_capacity, hgrown]
    rfl
  · rw [hcalls, hgrown]

end Codec

end Lz4Frame
