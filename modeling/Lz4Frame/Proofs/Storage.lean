import Lz4Frame.Proofs.Refusals

/-!
# The storage of a buffer, byte by byte

A buffer that grows is a storage of bytes, the front of which was written.  What is behind that
front is left to whoever writes: zeros at first, and then whatever has been left there.  A storage
that is too small is copied into a larger one and put aside, if it is pinned, and otherwise it is
extended where it is.

Either way the front is what was written, in order, and nothing else (`Storage.Holds`): a step keeps
that (`Holds.perform`), and so does every row of steps that fit (`Holds.served`).  The two ways of
growing cannot be told apart by what comes out (`Storage.Alike`), and a pinned storage has put aside
itself, as it was, whenever it grew (`retired_served`).
-/

namespace Lz4Frame

/-! ## Storages -/

/-- Bytes of a new storage. -/
def zeros (length : Nat) : Bytes := List.replicate length 0

@[simp] theorem length_zeros (length : Nat) : (zeros length).length = length :=
  List.length_replicate

theorem zeros_append (first second : Nat) : zeros first ++ zeros second = zeros (first + second) :=
  List.replicate_append_replicate

/-- Bytes that are put right behind a front take the place of zeros. -/
theorem overwrite_zeros (front patch : Bytes) (length : Nat) :
    overwrite (front ++ zeros length) front.length patch
      = front ++ patch ++ zeros (length - patch.length) := by
  rw [overwrite, List.take_left, List.drop_length_add_append, zeros, List.drop_replicate]
  rfl

/-- All the bytes of a buffer, how many of them were written, and the storages that it has grown out
of, oldest first. -/
@[ext] structure Storage where
  bytes : Bytes
  filled : Nat
  pinned : Bool
  retired : List Bytes
  deriving DecidableEq, Repr

namespace Storage

/-- An empty storage for `length` bytes, one at least. -/
def new (length : Nat) (pinned : Bool) : Storage := ⟨zeros (max 1 length), 0, pinned, []⟩

def capacity (storage : Storage) : Nat := storage.bytes.length

/-- How many more bytes there is room for. -/
def spare (storage : Storage) : Nat := storage.capacity - storage.filled

/-- What was written, without the rest of the storage. -/
def intoVec (storage : Storage) : Bytes := storage.bytes.take storage.filled

/-- Writes bytes, and leaves others behind them that do not count. -/
def write (storage : Storage) (input behind : Bytes) : Storage :=
  { storage with
    bytes := overwrite storage.bytes storage.filled (input ++ behind)
    filled := storage.filled + input.length }

/-- A storage of twice the size.  If it is pinned that is another one, and the old one is put aside;
only what was written is copied. -/
def doubled (storage : Storage) : Storage :=
  if storage.pinned then
    { storage with
      bytes := overwrite (zeros (storage.capacity * 2)) 0 (storage.bytes.take storage.filled)
      retired := storage.retired ++ [storage.bytes] }
  else
    { storage with bytes := storage.bytes ++ zeros (storage.capacity * 2 - storage.capacity) }

/-- Doubles the capacity, if a word holds it and the memory is granted. -/
def grow (storage : Storage) (granted : Bool) : Storage × Except Error Unit :=
  if largestLength < storage.capacity * 2 then
    (storage, .error (.allocation largestLength))
  else if granted then
    (storage.doubled, .ok ())
  else
    (storage, .error (.allocation (storage.capacity * 2)))

/-- What can be done with a storage; whether there is memory to grow is not up to it. -/
inductive Step
  | write (input behind : Bytes)
  | grow (granted : Bool)
  deriving DecidableEq, Repr

/-- The bytes that a step writes. -/
def Step.content : Step → Bytes
  | write input _ => input
  | grow _ => []

/-- Does a step. -/
def perform (storage : Storage) : Step → Storage × Except Error Unit
  | .write input behind => (storage.write input behind, .ok ())
  | .grow granted => storage.grow granted

/-- Whether there is room for what a step writes. -/
def Step.Fits (storage : Storage) : Step → Prop
  | write input behind => (input ++ behind).length ≤ storage.spare
  | grow _ => True

instance (storage : Storage) : (step : Step) → Decidable (step.Fits storage)
  | .write input behind => inferInstanceAs (Decidable ((input ++ behind).length ≤ storage.spare))
  | .grow _ => isTrue trivial

/-- Whether there is room for all that a row of steps writes. -/
def Fits : Storage → List Step → Prop
  | _, [] => True
  | storage, step :: steps => step.Fits storage ∧ Fits (storage.perform step).1 steps

instance decidableFits : (storage : Storage) → (steps : List Step) → Decidable (storage.Fits steps)
  | _, [] => isTrue trivial
  | storage, step :: steps =>
      have := decidableFits (storage.perform step).1 steps
      inferInstanceAs (Decidable (_ ∧ _))

/-- The storage as a whole, each time that it grows. -/
def wholes : Storage → List Step → List Bytes
  | _, [] => []
  | storage, step :: steps =>
      let (next, reply) := storage.perform step
      match step, reply with
      | .grow _, .ok () => storage.bytes :: wholes next steps
      | _, _ => wholes next steps

/-! ## Growing -/

theorem grow_granted {storage : Storage} (h : storage.capacity * 2 ≤ largestLength) :
    storage.grow true = (storage.doubled, .ok ()) := by
  rw [grow, if_neg (Nat.not_lt.mpr h), if_pos rfl]

/-- A storage that cannot grow stays as it is. -/
theorem grow_refused {storage : Storage} {granted : Bool}
    (h : ¬ (granted = true ∧ storage.capacity * 2 ≤ largestLength)) :
    storage.grow granted
      = (storage, .error (.allocation (min largestLength (storage.capacity * 2)))) := by
  rw [grow]
  split
  · next hlong => rw [Nat.min_eq_left (Nat.le_of_lt hlong)]
  · next hshort =>
      have hle := Nat.le_of_not_lt hshort
      rw [if_neg fun hgranted => h ⟨hgranted, hle⟩, Nat.min_eq_right hle]

theorem grow_cases (storage : Storage) (granted : Bool) :
    (∃ cause, storage.grow granted = (storage, .error cause))
      ∨ storage.grow granted = (storage.doubled, .ok ()) := by
  by_cases h : granted = true ∧ storage.capacity * 2 ≤ largestLength
  · rw [h.1]
    exact .inr (grow_granted h.2)
  · exact .inl ⟨_, grow_refused h⟩

theorem doubled_keeps (storage : Storage) :
    storage.doubled.pinned = storage.pinned ∧ storage.doubled.filled = storage.filled
      ∧ storage.doubled.retired
        = storage.retired ++ (if storage.pinned then [storage.bytes] else []) := by
  unfold doubled
  cases storage.pinned with
  | true => exact ⟨rfl, rfl, rfl⟩
  | false => exact ⟨rfl, rfl, (List.append_nil _).symm⟩

/-! ## What is written stays -/

/-- Whether the front of a storage is what was written, and there is a storage at all. -/
structure Holds (storage : Storage) (content : Bytes) : Prop where
  front : content <+: storage.bytes
  filled_eq : storage.filled = content.length
  capacity_pos : 0 < storage.capacity

namespace Holds

variable {storage : Storage} {content : Bytes}

theorem new (length : Nat) (pinned : Bool) : (Storage.new length pinned).Holds [] where
  front := List.nil_prefix
  filled_eq := rfl
  capacity_pos := by
    simp only [capacity, Storage.new, length_zeros]
    omega

theorem filled_le (h : storage.Holds content) : storage.filled ≤ storage.capacity := by
  rw [h.filled_eq]
  exact h.front.length_le

theorem intoVec_eq (h : storage.Holds content) : storage.intoVec = content := by
  rw [intoVec, h.filled_eq]
  exact (List.prefix_iff_eq_take.mp h.front).symm

theorem capacity_doubled (h : storage.Holds content) :
    storage.doubled.capacity = storage.capacity * 2 := by
  have hfilled := h.filled_le
  unfold doubled
  split
  · unfold capacity at hfilled ⊢
    simp only
    rw [length_overwrite, length_zeros]
    rw [length_zeros, List.length_take]
    omega
  · simp only [capacity, List.length_append, length_zeros]
    omega

/-- However a storage grows, the front of the new one is that of the old. -/
theorem doubled (h : storage.Holds content) : storage.doubled.Holds content where
  front := by
    -- what was written is copied to the front of a new storage, or it stays where it is
    unfold Storage.doubled
    split
    · rw [show storage.bytes.take storage.filled = content from h.intoVec_eq]
      exact ⟨_, rfl⟩
    · exact h.front.trans (List.prefix_append ..)
  filled_eq := storage.doubled_keeps.2.1.trans h.filled_eq
  capacity_pos := by
    have hpos := h.capacity_pos
    rw [h.capacity_doubled]
    omega

/-- What is written comes right behind what was written before. -/
theorem write (h : storage.Holds content) {input behind : Bytes}
    (hfits : (input ++ behind).length ≤ storage.spare) :
    (storage.write input behind).Holds (content ++ input) where
  front := by
    have hfront : storage.bytes.take storage.filled = content := h.intoVec_eq
    rw [Storage.write, overwrite, hfront, List.append_assoc, List.append_assoc,
      ← List.append_assoc]
    exact List.prefix_append ..
  filled_eq := by rw [Storage.write, h.filled_eq, List.length_append]
  capacity_pos := by
    have hfilled := h.filled_le
    unfold spare at hfits
    rw [capacity, Storage.write, length_overwrite]
    · exact h.capacity_pos
    · rw [← capacity]
      omega

/-- A step that fits adds what it writes, and nothing else. -/
theorem perform (h : storage.Holds content) {step : Step} (hfits : step.Fits storage) :
    (storage.perform step).1.Holds (content ++ step.content) := by
  cases step with
  | write input behind => exact h.write hfits
  | grow granted =>
      rw [Step.content, List.append_nil, Storage.perform]
      rcases storage.grow_cases granted with ⟨cause, hgrow⟩ | hgrow
      · rw [hgrow]
        exact h
      · rw [hgrow]
        exact h.doubled

/-- A row of steps that fit leaves what it has written, in order, behind what was there. -/
theorem served (h : storage.Holds content) {steps : List Step} (hfits : storage.Fits steps) :
    (Lz4Frame.served Storage.perform storage steps).1.Holds
      (content ++ steps.flatMap Step.content) := by
  -- on the steps; the storage holds what was written so far
  induction steps generalizing storage content with
  | nil => simpa [Lz4Frame.served] using h
  | cons step steps ih =>
      have hnext := ih (h.perform hfits.1) hfits.2
      rw [List.append_assoc] at hnext
      exact hnext

end Holds

/-! ## Storages that were put aside -/

theorem perform_pinned (storage : Storage) (step : Step) :
    (storage.perform step).1.pinned = storage.pinned := by
  cases step with
  | write input behind => rfl
  | grow granted =>
      rw [perform]
      rcases storage.grow_cases granted with ⟨cause, hgrow⟩ | hgrow
      · rw [hgrow]
      · rw [hgrow]
        exact storage.doubled_keeps.1

/-- A pinned storage puts itself aside, as it is, whenever it grows, and no step touches what was
put aside before. -/
theorem retired_served (storage : Storage) (steps : List Step) :
    (served perform storage steps).1.retired
      = storage.retired ++ (if storage.pinned then storage.wholes steps else []) := by
  induction steps generalizing storage with
  | nil => simp [served, wholes]
  | cons step steps ih =>
      -- what the first step puts aside comes before all that the others do
      have hrest := ih (storage.perform step).1
      rw [perform_pinned] at hrest
      refine Eq.trans hrest ?_
      cases step with
      | write input behind => rfl
      | grow granted =>
          rcases storage.grow_cases granted with ⟨cause, hgrow⟩ | hgrow
          · simp only [perform, wholes, hgrow]
          · simp only [perform, wholes, hgrow, storage.doubled_keeps.2.2, List.append_assoc]
            split <;> rfl

/-! ## Two ways to grow -/

/-- Whether two storages are of the same size and filled to the same point. -/
structure Alike (first second : Storage) : Prop where
  capacity_eq : first.capacity = second.capacity
  filled_eq : first.filled = second.filled

namespace Alike

variable {first second : Storage}

theorem spare_eq (h : Alike first second) : first.spare = second.spare := by
  rw [spare, spare, h.capacity_eq, h.filled_eq]

/-- A step is answered alike, whichever way the two grow. -/
theorem perform (h : Alike first second) {content other : Bytes} (hfirst : first.Holds content)
    (hsecond : second.Holds other) (step : Step) :
    Alike (first.perform step).1 (second.perform step).1
      ∧ (first.perform step).2 = (second.perform step).2
      ∧ (step.Fits first → step.Fits second) := by
  -- behind what was written the two may differ, so only sizes are compared
  have hcapacity := h.capacity_eq
  cases step with
  | write input behind =>
      refine ⟨⟨?_, ?_⟩, rfl, fun hfits => ?_⟩
      · unfold capacity at hcapacity
        simp only [Storage.perform, write, capacity, overwrite, List.length_append,
          List.length_take, List.length_drop, h.filled_eq, hcapacity]
      · simp only [Storage.perform, write, h.filled_eq]
      · simpa [Step.Fits, h.spare_eq] using hfits
  | grow granted =>
      simp only [Storage.perform, grow, hcapacity]
      split
      · exact ⟨h, rfl, id⟩
      · split
        · refine ⟨⟨?_, ?_⟩, rfl, id⟩
          · rw [hfirst.capacity_doubled, hsecond.capacity_doubled, hcapacity]
          · rw [first.doubled_keeps.2.1, second.doubled_keeps.2.1, h.filled_eq]
        · exact ⟨h, rfl, id⟩

/-- And so is a row of steps. -/
theorem served (h : Alike first second) {content other : Bytes} (hfirst : first.Holds content)
    (hsecond : second.Holds other) {steps : List Step} (hfits : first.Fits steps) :
    Alike (Lz4Frame.served Storage.perform first steps).1
        (Lz4Frame.served Storage.perform second steps).1
      ∧ (Lz4Frame.served Storage.perform first steps).2
        = (Lz4Frame.served Storage.perform second steps).2
      ∧ second.Fits steps := by
  induction steps generalizing first second content other with
  | nil => exact ⟨h, rfl, trivial⟩
  | cons step steps ih =>
      rcases h.perform hfirst hsecond step with ⟨hnext, hreply, hstep⟩
      have hsecondFits := hstep hfits.1
      rcases ih hnext (hfirst.perform hfits.1) (hsecond.perform hsecondFits) hfits.2
          with ⟨hlast, hreplies, hrest⟩
      refine ⟨hlast, ?_, hsecondFits, hrest⟩
      simp only [Lz4Frame.served, hreply, hreplies]

end Alike

/-! ## Every row of steps -/

/-- A new storage after a row of steps, and how they were answered. -/
def run (length : Nat) (pinned : Bool) (steps : List Step) : Storage × List (Except Error Unit) :=
  served perform (new length pinned) steps

/-- What a row of steps leaves of a new storage. -/
structure Intact (length : Nat) (pinned : Bool) (steps : List Step) : Prop where
  filled_le : (run length pinned steps).1.filled ≤ (run length pinned steps).1.capacity
  capacity_pos : 1 ≤ (run length pinned steps).1.capacity
  intoVec_eq : (run length pinned steps).1.intoVec = steps.flatMap Step.content
  /-- Each storage that it has grown out of is there, as a whole and as it was then. -/
  retired_eq : (run length pinned steps).1.retired
    = if pinned then (new length pinned).wholes steps else []
  /-- Later steps put more aside, and what was put aside before they leave alone. -/
  retired_kept : ∀ later, (run length pinned steps).1.retired
    <+: (run length pinned (steps ++ later)).1.retired
  grown : (run length pinned steps).1.capacity * 2 ≤ largestLength →
    ((run length pinned steps).1.grow true).2 = .ok ()
      ∧ ((run length pinned steps).1.grow true).1.capacity
        = (run length pinned steps).1.capacity * 2
  /-- Where doubling is too much, or memory is not granted, nothing happens. -/
  refused : ∀ granted,
    ¬ (granted = true ∧ (run length pinned steps).1.capacity * 2 ≤ largestLength) →
      (run length pinned steps).1.grow granted = ((run length pinned steps).1,
        .error (.allocation (min largestLength ((run length pinned steps).1.capacity * 2))))
  /-- The other way to grow has room for the same steps, answers alike and gives the same. -/
  alike : ∀ other, (new length other).Fits steps
    ∧ (run length other steps).2 = (run length pinned steps).2
    ∧ (run length other steps).1.capacity = (run length pinned steps).1.capacity
    ∧ (run length other steps).1.intoVec = (run length pinned steps).1.intoVec

theorem Fits.intact {length : Nat} {pinned : Bool} {steps : List Step}
    (h : (new length pinned).Fits steps) : Intact length pinned steps := by
  have hholds (other : Bool) (hfits : (new length other).Fits steps) :
      (run length other steps).1.Holds (steps.flatMap Step.content) :=
    (Holds.new length other).served hfits
  have hlast := hholds pinned h
  exact {
    filled_le := hlast.filled_le
    capacity_pos := hlast.capacity_pos
    intoVec_eq := hlast.intoVec_eq
    retired_eq := retired_served (new length pinned) steps
    retired_kept := fun later => by
      rw [run, run, served_append, retired_served (served perform (new length pinned) steps).1]
      exact List.prefix_append ..
    grown := fun hle => by
      rw [grow_granted hle]
      exact ⟨rfl, hlast.capacity_doubled⟩
    refused := fun granted hnot => grow_refused hnot
    alike := fun other => by
      have hnew : Alike (new length pinned) (new length other) := ⟨rfl, rfl⟩
      rcases hnew.served (Holds.new length pinned) (Holds.new length other) h
          with ⟨hcapacity, hreplies, hfits⟩
      exact ⟨hfits, hreplies.symm, hcapacity.capacity_eq.symm,
        (hholds other hfits).intoVec_eq.trans hlast.intoVec_eq.symm⟩ }

end Storage

end Lz4Frame
