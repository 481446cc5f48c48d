import Lz4Frame.Block.Decode

/-!
# Reading a block back

A plan that spells a block can be written down and read back: `decode_encode` gives the block
behind whatever history the plan was made for, and behind any longer history too.  The invariant of
the proof is that after each sequence the output is a beginning of the window, which is history and
block together (`readSequences_encode`).
-/

namespace Lz4Frame.Block

/-! ## Counts -/

/-- The continuation of a count, if its half of the token does not hold it. -/
def extension (n : Nat) : Bytes := (appendCount #[] n).toList

theorem toList_appendExtension (out : Array UInt8) (n : Nat) :
    (appendExtension out n).toList
      = out.toList ++ (List.replicate (n / 255) 255 ++ [UInt8.ofNat (n % 255)]) := by
  simp [appendExtension]

theorem toList_appendCount (out : Array UInt8) (n : Nat) :
    (appendCount out n).toList = out.toList ++ extension n := by
  unfold extension appendCount
  split
  · simp
  · simp [toList_appendExtension]

theorem extension_of_lt {n : Nat} :
    n < 15 → extension n = [] := by
  intro h
  simp [extension, appendCount, h]

theorem extension_of_ge {n : Nat} :
    15 ≤ n →
      extension n = List.replicate ((n - 15) / 255) 255 ++ [UInt8.ofNat ((n - 15) % 255)] := by
  intro h
  simp [extension, appendCount, Nat.not_lt_of_le h, toList_appendExtension]

/-- A continuation reads back, if enough input stands behind it. -/
theorem readExtension_replicate {reserve : Nat} (k r count : Nat) (hr : r < 255) {rest : Bytes} :
    reserve ≤ rest.length →
      readExtension reserve count (List.replicate k 255 ++ [UInt8.ofNat r] ++ rest)
        = some (count + 255 * k + r, rest) := by
  intro hrest
  -- on the bytes that say the count goes on
  induction k generalizing count with
  | zero =>
      have hbyte : (UInt8.ofNat r).toNat = r := by
        rw [UInt8.toNat_ofNat']
        omega
      have hne : UInt8.ofNat r ≠ 255 := by
        intro heq
        have := congrArg UInt8.toNat heq
        rw [hbyte] at this
        simp at this
        omega
      simp [readExtension, hrest, hne, hbyte]
  | succ k ih =>
      have hmore : reserve ≤ (List.replicate k 255 ++ [UInt8.ofNat r] ++ rest).length := by
        simp only [List.length_append]
        omega
      rw [List.replicate_succ, List.cons_append, List.cons_append, readExtension,
        if_pos ((hasAtLeast_iff ..).mpr hmore), if_pos rfl, ih]
      congr 2
      omega

theorem readExtension_extension {reserve count n : Nat} (h : 15 ≤ n) {rest : Bytes} :
    reserve ≤ rest.length →
      readExtension reserve count (extension n ++ rest) = some (count + (n - 15), rest) := by
  intro hrest
  rw [extension_of_ge h, readExtension_replicate _ _ _ (Nat.mod_lt _ (by decide)) hrest]
  congr 2
  omega

theorem readLiteralCount_extension (n : Nat) {rest : Bytes} :
    n ≤ rest.length → readLiteralCount (nibble n) (extension n ++ rest) = some (n, rest) := by
  intro hrest
  by_cases h : n < 15
  · have hn : nibble n = n := Nat.min_eq_left (by omega)
    simp [readLiteralCount, hn, h, extension_of_lt h]
  · have hn : nibble n = 15 := Nat.min_eq_right (by omega)
    have hlen : 16 ≤ (extension n ++ rest).length := by
      rw [extension_of_ge (by omega)]
      simp only [List.length_append, List.length_cons, List.length_nil]
      omega
    rw [readLiteralCount, hn, if_neg (by omega), if_pos ((hasAtLeast_iff ..).mpr hlen),
      readExtension_extension (by omega) (by omega)]
    congr 2
    omega

theorem readMatchLength_extension (n : Nat) {rest : Bytes} :
    4 ≤ rest.length →
      readMatchLength (nibble n) (extension n ++ rest) = some (n + minMatch, rest) := by
  intro hrest
  by_cases h : n < 15
  · have hn : nibble n = n := Nat.min_eq_left (by omega)
    simp [readMatchLength, hn, h, extension_of_lt h]
  · have hn : nibble n = 15 := Nat.min_eq_right (by omega)
    rw [readMatchLength, hn, if_neg (by omega), readExtension_extension (by omega) hrest]
    congr 2
    omega

/-! ## The written form as a list -/

theorem toList_appendLiterals (out : Array UInt8) (literals : Bytes) (count low : Nat) :
    (appendLiterals out literals count low).toList
      = out.toList ++ UInt8.ofNat (nibble count * 16 + low) :: (extension count ++ literals) := by
  simp [appendLiterals, toList_appendCount]

namespace Plan

theorem toList_encodeInto (out : Array UInt8) (plan : Plan) (block : Bytes) :
    (encodeInto out plan block).toList = out.toList ++ plan.encode block := by
  unfold encode
  -- both sides start the rest of the plan from an output that is not empty
  induction plan generalizing out block with
  | nil => simp [encodeInto, toList_appendLiterals]
  | cons s rest ih =>
      simp only [encodeInto]
      rw [ih, ih (appendCount _ _)]
      simp [toList_appendCount, toList_appendLiterals]

theorem encode_nil (block : Bytes) :
    encode [] block
      = UInt8.ofNat (nibble block.length * 16) :: (extension block.length ++ block) := by
  simp [encode, encodeInto, toList_appendLiterals]

theorem encode_cons (s : Sequence) (rest : Plan) (block : Bytes) :
    encode (s :: rest) block
      = UInt8.ofNat (nibble s.literals * 16 + nibble (s.length - minMatch))
        :: (extension s.literals ++ (block.take s.literals
          ++ (UInt8.ofNat s.offset :: UInt8.ofNat (s.offset / 256)
            :: (extension (s.length - minMatch)
              ++ encode rest (block.drop (s.literals + s.length)))))) := by
  rw [encode, encodeInto, toList_encodeInto, toList_appendCount, Array.toList_push,
    Array.toList_push, toList_appendLiterals]
  simp

/-- The written form of a block has a token, and the literals at the end. -/
theorem length_encode_nil (block : Bytes) : block.length < (encode [] block).length := by
  rw [encode_nil]
  simp only [List.length_cons, List.length_append]
  omega

end Plan

/-! ## Spelling -/

theorem spells_cons {bytes : Array UInt8} {i : Nat} {s : Sequence} {rest : Plan} :
    Plan.spells bytes i (s :: rest) = true →
      (1 ≤ s.offset ∧ s.offset ≤ maxOffset ∧ s.offset ≤ i + s.literals ∧ minMatch ≤ s.length
        ∧ i + s.literals + matchMargin ≤ bytes.size
        ∧ i + s.literals + s.length + lastLiterals ≤ bytes.size)
      ∧ repeats bytes s.offset (i + s.literals) s.length = true
      ∧ Plan.spells bytes (i + s.literals + s.length) rest = true := by
  intro h
  simp only [Plan.spells, Bool.and_eq_true, decide_eq_true_eq] at h
  rcases h with ⟨⟨⟨⟨⟨⟨⟨h₁, h₂⟩, h₃⟩, h₄⟩, h₅⟩, h₆⟩, h₇⟩, h₈⟩
  exact ⟨⟨h₁, h₂, h₃, h₄, h₅, h₆⟩, h₇, h₈⟩

/-- The written form never gets close to its end before the last literals. -/
theorem Plan.length_encode {bytes : Array UInt8} {i : Nat} {plan : Plan} :
    plan.spells bytes i = true → i + lastLiterals ≤ bytes.size →
      lastLiterals < (plan.encode (bytes.toList.drop i)).length := by
  intro h hi
  induction plan generalizing i with
  | nil =>
      have hlen := Plan.length_encode_nil (bytes.toList.drop i)
      rw [List.length_drop, Array.length_toList] at hlen
      omega
  | cons s rest ih =>
      rcases spells_cons h with ⟨⟨-, -, -, -, -, hstop⟩, -, hrest⟩
      have htail := ih hrest hstop
      rw [Plan.encode_cons, List.drop_drop, ← Nat.add_assoc]
      simp only [List.length_cons, List.length_append]
      omega

/-! ## Beginnings of a window -/

theorem size_of_take {bytes out : Array UInt8} {i : Nat} :
    out.toList = bytes.toList.take i → i ≤ bytes.size → out.size = i := by
  intro hout hi
  calc
    out.size = (bytes.toList.take i).length := by rw [← Array.length_toList, hout]
    _ = min i bytes.size := by rw [List.length_take, Array.length_toList]
    _ = i := Nat.min_eq_left hi

/-- Copying back a repeat that the bytes really have goes on with those bytes. -/
theorem copyBack_repeats {bytes out : Array UInt8} {offset : Nat} (hoffset : 1 ≤ offset)
    (count : Nat) {i : Nat} (hi : offset ≤ i) (hcount : i + count ≤ bytes.size)
    (hout : out.toList = bytes.toList.take i) (h : repeats bytes offset i count = true) :
    (copyBack out offset count).toList = bytes.toList.take (i + count) := by
  induction count generalizing out i with
  | zero => simpa [copyBack] using hout
  | succ count ih =>
      simp only [repeats, Bool.and_eq_true, beq_iff_eq] at h
      have hsize := size_of_take hout (by omega)
      -- the byte to copy is one of those that are there already
      have hbyte : out.getD (out.size - offset) 0 = bytes.getD i 0 := by
        rw [h.1, hsize, Array.getD_eq_getD_getElem?, Array.getD_eq_getD_getElem?,
          ← Array.getElem?_toList, hout, List.getElem?_take_of_lt (by omega),
          Array.getElem?_toList]
      have hnext : (out.push (out.getD (out.size - offset) 0)).toList
          = bytes.toList.take (i + 1) := by
        rw [hbyte, Array.toList_push, hout, List.take_add_one, Array.getD_eq_getD_getElem?,
          Array.getElem?_toList, Array.getElem?_eq_getElem (by omega)]
        simp
      have hgo := ih (by omega) (by omega) hnext h.2
      rw [copyBack, hgo]
      congr 1
      omega

/-! ## Reading -/

/-- Both halves of a token read back. -/
theorem token_halves (high low : Nat) :
    (UInt8.ofNat (nibble high * 16 + nibble low)).toNat / 16 = nibble high
      ∧ (UInt8.ofNat (nibble high * 16 + nibble low)).toNat % 16 = nibble low := by
  have hhigh : nibble high ≤ 15 := Nat.min_le_right ..
  have hlow : nibble low ≤ 15 := Nat.min_le_right ..
  rw [UInt8.toNat_ofNat']
  omega

/-- The last literals of a block do not stand far from its end. -/
theorem hasHeadway_last (size capacity : Nat) (literals : Bytes) :
    hasHeadway size capacity (nibble literals.length)
      (extension literals.length ++ literals) = false := by
  by_cases hshort : literals.length < 15
  · have hnone : hasAtLeast (extension literals.length ++ literals) 17 = false := by
      rw [hasAtLeast_eq_false_iff, extension_of_lt hshort, List.nil_append]
      omega
    rw [hasHeadway, hnone]
    simp
  · have hfull : nibble literals.length = 15 := Nat.min_eq_right (Nat.le_of_not_lt hshort)
    simp [hasHeadway, hfull]

/-- The last literals of a block. -/
theorem readSequence_last (placement : Placement) {bytes out : Array UInt8}
    {start capacity i : Nat} (hout : out.toList = bytes.toList.take i) (hi : i ≤ bytes.size)
    (hstart : start ≤ i)
    (hcapacity : bytes.size - start ≤ capacity) :
    readSequence placement start capacity out (UInt8.ofNat (nibble (bytes.size - i) * 16))
        (extension (bytes.size - i) ++ bytes.toList.drop i)
      = some ⟨bytes, none⟩ := by
  have htoken := (token_halves (bytes.size - i) 0).1
  rw [show nibble 0 = 0 from rfl, Nat.add_zero] at htoken
  have hlen : (bytes.toList.drop i).length = bytes.size - i := by
    rw [List.length_drop, Array.length_toList]
  have hsize := size_of_take hout hi
  have hmove : (moveLiterals out (bytes.size - i) (bytes.toList.drop i)).1 = bytes := by
    apply Array.toList_inj.mp
    rw [moveLiterals_fst, hout, List.take_of_length_le (Nat.le_of_eq hlen),
      List.take_append_drop]
  -- the input ends with these literals, which is how the reader knows that they are the last
  have hnear : NearEnd (out.size - start) capacity (nibble (bytes.size - i)) (bytes.size - i)
      (extension (bytes.size - i) ++ bytes.toList.drop i) (bytes.toList.drop i) := by
    have hnone := hasHeadway_last (out.size - start) capacity (bytes.toList.drop i)
    rw [hlen] at hnone
    exact ⟨hnone, .inr (by omega)⟩
  have hcount := readLiteralCount_extension (bytes.size - i) (Nat.le_of_eq hlen.symm)
  rw [← htoken] at hnear hcount
  have hread : IsRead placement start capacity out _ _ _ := .last hcount hnear hlen (by omega)
  rw [hmove] at hread
  exact readSequence_iff.mpr hread

/-- A sequence of a plan that spells the bytes. -/
theorem readSequence_repeat (placement : Placement) {bytes out : Array UInt8}
    {start capacity i : Nat} {s : Sequence} {rest : Plan}
    (hout : out.toList = bytes.toList.take i) (hstart : start ≤ i)
    (hcapacity : bytes.size - start ≤ capacity)
    (hspells : Plan.spells bytes i (s :: rest) = true) :
    ∃ out', out'.toList = bytes.toList.take (i + s.literals + s.length)
      ∧ readSequence placement start capacity out
          (UInt8.ofNat (nibble s.literals * 16 + nibble (s.length - minMatch)))
          (extension s.literals ++ ((bytes.toList.drop i).take s.literals
            ++ (UInt8.ofNat s.offset :: UInt8.ofNat (s.offset / 256)
              :: (extension (s.length - minMatch)
                ++ Plan.encode rest (bytes.toList.drop (i + s.literals + s.length))))))
        = some ⟨out', some (Plan.encode rest (bytes.toList.drop (i + s.literals + s.length)))⟩ := by
  rcases spells_cons hspells with ⟨⟨hone, hmax, hreach, hmin, hmargin, hlast⟩, hrepeats, hrest⟩
  unfold maxOffset at hmax
  unfold minMatch at hmin
  unfold matchMargin at hmargin
  unfold lastLiterals at hlast
  have htail := Plan.length_encode hrest hlast
  simp only [lastLiterals] at htail
  generalize Plan.encode rest _ = tail at htail ⊢
  have hsize := size_of_take hout (by omega)
  -- what stands behind the literals
  generalize hbehind : UInt8.ofNat s.offset :: UInt8.ofNat (s.offset / 256)
    :: (extension (s.length - minMatch) ++ tail) = behind
  have hbehindLen : 8 ≤ behind.length := by
    rw [← hbehind]
    simp only [List.length_cons, List.length_append]
    omega
  have hliterals : ((bytes.toList.drop i).take s.literals).length = s.literals := by
    rw [List.length_take, List.length_drop, Array.length_toList]
    omega
  generalize hlits : (bytes.toList.drop i).take s.literals = literals at hliterals ⊢
  have hmoved : (moveLiterals out s.literals (literals ++ behind)).1.toList
      = bytes.toList.take (i + s.literals) := by
    have htake : (literals ++ behind).take s.literals = literals := by
      rw [← hliterals, List.take_left]
    rw [moveLiterals_fst, hout, htake, List.take_add, hlits]
  have hdropped : (literals ++ behind).drop s.literals = behind := by
    rw [← hliterals, List.drop_left]
  have hsize₁ := size_of_take hmoved (by omega)
  -- the margins that the plan keeps are the ones that the reader asks for, wherever it asks
  refine ⟨_, copyBack_repeats hone s.length hreach (by omega) hmoved hrepeats,
    readSequence_iff.mpr (.repeated ?counted ?far ?offset ?matched ?within (.inr ?fits))⟩
  case counted =>
    rw [(token_halves _ _).1]
    exact readLiteralCount_extension _ (by rw [List.length_append]; omega)
  case far =>
    rintro ⟨-, hroom | hinput⟩
    · unfold literalMargin at hroom
      omega
    · rw [List.length_append] at hinput
      omega
  case offset =>
    rw [hdropped, ← hbehind]
    simp only [List.take_succ_cons, List.take_zero, LittleEndian.value, UInt8.toNat_ofNat']
    omega
  case matched =>
    have hlength : s.length - minMatch + minMatch = s.length := by
      unfold minMatch
      omega
    rw [hdropped, ← hbehind, (token_halves _ _).2, List.drop_succ_cons, List.drop_succ_cons,
      List.drop_zero, readMatchLength_extension _ (by omega), hlength]
  case within => omega
  case fits =>
    unfold lastLiterals
    omega

/-- Reading the written form of a plan that spells the bytes from `i` on completes them. -/
theorem readSequences_encode (placement : Placement) {bytes out : Array UInt8}
    {start capacity i : Nat} {plan : Plan} (hout : out.toList = bytes.toList.take i)
    (hstart : start ≤ i) (hcapacity : bytes.size - start ≤ capacity)
    (hspells : plan.spells bytes i = true) :
    readSequences placement start capacity out (plan.encode (bytes.toList.drop i))
      = some bytes := by
  -- on the plan; the output stays a beginning of the window
  induction plan generalizing i out with
  | nil =>
      have hi : i ≤ bytes.size := by simpa [Plan.spells] using hspells
      have hlast := readSequence_last placement hout hi hstart hcapacity
      have hlen : (bytes.toList.drop i).length = bytes.size - i := by
        rw [List.length_drop, Array.length_toList]
      rw [Plan.encode_nil, hlen]
      exact readSequences_last hlast
  | cons s rest ih =>
      rcases readSequence_repeat placement hout hstart hcapacity hspells with ⟨out', hout', hread⟩
      have hrest := ih hout' (by omega) (spells_cons hspells).2.2
      rw [Plan.encode_cons, List.drop_drop, ← Nat.add_assoc, readSequences_further hread]
      exact hrest

/-! ## Longer histories -/

theorem repeats_append_left (before bytes : Array UInt8) {offset i : Nat} (hi : offset ≤ i)
    {count : Nat} :
    repeats bytes offset i count = true →
      repeats (before ++ bytes) offset (before.size + i) count = true := by
  intro h
  have hget (j : Nat) : (before ++ bytes).getD (before.size + j) 0 = bytes.getD j 0 := by
    rw [Array.getD_eq_getD_getElem?, Array.getD_eq_getD_getElem?,
      Array.getElem?_append_right (by omega), Nat.add_sub_cancel_left]
  induction count generalizing i with
  | zero => rfl
  | succ count ih =>
      simp only [repeats, Bool.and_eq_true, beq_iff_eq] at h ⊢
      refine ⟨?_, ?_⟩
      · rw [Nat.add_sub_assoc hi, hget, hget]
        exact h.1
      · exact ih (i := i + 1) (by omega) h.2

/-- A plan spells a block whatever stands in front of the history that it was made for. -/
theorem spells_append_left (before bytes : Array UInt8) {i : Nat} {plan : Plan} :
    plan.spells bytes i = true → plan.spells (before ++ bytes) (before.size + i) = true := by
  intro h
  induction plan generalizing i with
  | nil =>
      simp only [Plan.spells, decide_eq_true_eq, Array.size_append] at h ⊢
      omega
  | cons s rest ih =>
      rcases spells_cons h with ⟨⟨hone, hmax, hreach, hmin, hmargin, hlast⟩, hrepeats, hrest⟩
      have hrepeats' := repeats_append_left before bytes hreach hrepeats
      have hrest' := ih hrest
      simp only [Plan.spells, Bool.and_eq_true, decide_eq_true_eq, Array.size_append]
      refine ⟨⟨⟨⟨⟨⟨⟨hone, hmax⟩, ?_⟩, hmin⟩, ?_⟩, ?_⟩, ?_⟩, ?_⟩
      · omega
      · omega
      · omega
      · simpa [Nat.add_assoc] using hrepeats'
      · simpa [Nat.add_assoc] using hrest'

/-! ## Whole blocks -/

/-- Whether a compressed block stands for some content behind a history, wherever that lies. -/
def Decodes (history : Array UInt8) (capacity : Nat) (input content : Bytes) : Prop :=
  ∀ placement, decode placement history capacity input = some (history ++ content)

/-- A block reads back behind the history that its plan was made for, and behind a longer one. -/
theorem decodes_encode {before history : Array UInt8} {block : Bytes} {capacity : Nat}
    {plan : Plan} :
    block.length ≤ capacity → plan.spells (history ++ block) history.size = true →
      Decodes (before ++ history) capacity (plan.encode block) block := by
  intro hcapacity hspells placement
  have hbytes : before ++ (history ++ block) = before ++ history ++ block :=
    Array.ext' (by simp)
  have hwindow : (before ++ (history ++ block)).toList.drop (before ++ history).size = block := by
    rw [hbytes, Array.toList_appendList, ← Array.length_toList, List.drop_left]
  have hout : (before ++ history).toList
      = (before ++ (history ++ block)).toList.take (before ++ history).size := by
    rw [hbytes, Array.toList_appendList, ← Array.length_toList, List.take_left]
  have hfits : (before ++ (history ++ block)).size - (before ++ history).size ≤ capacity := by
    simp only [Array.size_append, size_append_list]
    omega
  have hspells' : plan.spells (before ++ (history ++ block)) (before ++ history).size = true := by
    simpa [Array.size_append] using spells_append_left before _ hspells
  have hread := readSequences_encode placement hout (Nat.le_refl _) hfits hspells'
  rw [hwindow, hbytes] at hread
  exact hread

/-- Whether a payload stands for some content behind a history: the content itself, or something
shorter that reads back as the content. -/
def Payload.Holds (history : Array UInt8) (capacity : Nat) (content : Bytes) : Payload → Prop
  | .stored bytes => bytes = content
  | .compressed bytes =>
      Decodes history capacity bytes content ∧ bytes.length < content.length

theorem Payload.holds_ofPlan (before history : Array UInt8) {block : Bytes} {capacity : Nat}
    (hcapacity : block.length ≤ capacity) (plan : Option Plan) :
    (Payload.ofPlan (history ++ block) history.size block plan).Holds (before ++ history) capacity
      block := by
  cases plan with
  | none => rfl
  | some plan =>
      simp only [Payload.ofPlan]
      split
      · rename_i h
        exact ⟨decodes_encode hcapacity h.1, h.2⟩
      · rfl

end Lz4Frame.Block
