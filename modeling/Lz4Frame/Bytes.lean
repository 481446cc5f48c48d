/-!
# Byte strings

Streams of bytes are lists, consumed from the front.  This module holds the four operations on
them that everything else shares:

* `LittleEndian.encode` and `LittleEndian.value`, the number fields of a frame;
* `hasAtLeast`, a length test that looks no further than it has to;
* `chunksOf`, cutting a list into pieces of one size;
* `overwrite`, putting a field in the place of what was there.

`LittleEndian.value_encode` says that a field reads back what was written, modulo its width, and
`flatten_chunksOf` that cutting loses nothing.
-/

namespace Lz4Frame

/-- Bytes in the order in which they stand in a stream. -/
abbrev Bytes := List UInt8

@[simp] theorem size_append_list {α : Type} (xs : Array α) (ys : List α) :
    (xs ++ ys).size = xs.size + ys.length := by
  rw [← Array.length_toList, Array.toList_appendList, List.length_append, Array.length_toList]

theorem append_list_append {α : Type} (xs : Array α) (ys zs : List α) :
    xs ++ ys ++ zs = xs ++ (ys ++ zs) :=
  Array.ext' (by simp)

/-! ## Number fields -/

namespace LittleEndian

/-- The `width` lowest bytes of a number, lowest first. -/
def encode : (width n : Nat) → Bytes
  | 0, _ => []
  | width + 1, n => UInt8.ofNat n :: encode width (n / 256)

/-- The number that a field of bytes stands for, lowest byte first. -/
def value : Bytes → Nat
  | [] => 0
  | b :: rest => b.toNat + 256 * value rest

/-- Fields of `width` bytes count modulo this number. -/
def modulus : (width : Nat) → Nat
  | 0 => 1
  | width + 1 => 256 * modulus width

@[simp] theorem length_encode (width n : Nat) : (encode width n).length = width := by
  induction width generalizing n with
  | zero => rfl
  | succ width ih => simp [encode, ih]

theorem value_encode (width n : Nat) : value (encode width n) = n % modulus width := by
  induction width generalizing n with
  | zero => simp [encode, value, modulus, Nat.mod_one]
  | succ width ih =>
      have low : (UInt8.ofNat n).toNat = n % 256 := UInt8.toNat_ofNat'
      -- the lowest byte is the remainder by 256, the others are the quotient's
      rw [encode, value, ih, low, modulus, Nat.mod_mul]

theorem modulus_le {m n : Nat} : m ≤ n → modulus m ≤ modulus n := by
  intro h
  induction h with
  | refl => exact Nat.le_refl _
  | step _ ih =>
      simp only [modulus]
      omega

theorem value_lt (bytes : Bytes) : value bytes < modulus bytes.length := by
  induction bytes with
  | nil => simp [value, modulus]
  | cons b rest ih =>
      have hb := b.toNat_lt
      simp only [value, List.length_cons, modulus]
      omega

theorem encode_value (bytes : Bytes) : encode bytes.length (value bytes) = bytes := by
  induction bytes with
  | nil => rfl
  | cons b rest ih =>
      have hb := b.toNat_lt
      have hdiv : (b.toNat + 256 * value rest) / 256 = value rest := by omega
      have hlow : UInt8.ofNat (b.toNat + 256 * value rest) = b := by
        apply UInt8.toNat_inj.mp
        rw [UInt8.toNat_ofNat']
        omega
      simp only [List.length_cons, encode, value, hdiv, hlow, ih]

end LittleEndian

/-! ## Length tests -/

/-- Whether a list has `n` elements or more, seen after at most `n` steps. -/
def hasAtLeast {α : Type} : List α → Nat → Bool
  | _, 0 => true
  | [], _ + 1 => false
  | _ :: rest, n + 1 => hasAtLeast rest n

@[simp] theorem hasAtLeast_iff {α : Type} (xs : List α) (n : Nat) :
    hasAtLeast xs n = true ↔ n ≤ xs.length := by
  induction n generalizing xs with
  | zero => simp [hasAtLeast]
  | succ n ih =>
      cases xs with
      | nil => simp [hasAtLeast]
      | cons x rest => simp [hasAtLeast, ih]

theorem hasAtLeast_eq_false_iff {α : Type} (xs : List α) (n : Nat) :
    hasAtLeast xs n = false ↔ xs.length < n := by
  rw [← Bool.not_eq_true, hasAtLeast_iff, Nat.not_le]

/-! ## Pieces of one size -/

/-- `chunksOf`, with the pieces found so far. -/
def chunksOf.go {α : Type} (size : Nat) (acc : Array (List α)) : List α → Array (List α)
  | [] => acc
  | x :: rest => chunksOf.go size (acc.push (x :: rest.take (size - 1))) (rest.drop (size - 1))
termination_by xs => xs.length
decreasing_by simp only [List.length_drop, List.length_cons]; omega

/-- Cuts a list into pieces of `size` elements; the last piece may be shorter, none is empty. -/
def chunksOf {α : Type} (size : Nat) (xs : List α) : List (List α) :=
  (chunksOf.go size #[] xs).toList

/-- What holds of nothing, and of a list if it holds behind its first piece, holds of every list. -/
@[elab_as_elim]
theorem chunksOf_induction {α : Type} (size : Nat) {motive : List α → Prop} (nil : motive [])
    (cons : ∀ x rest, motive (rest.drop (size - 1)) → motive (x :: rest)) (xs : List α) :
    motive xs := by
  induction hlength : xs.length using Nat.strongRecOn generalizing xs with
  | ind n ih =>
      cases xs with
      | nil => exact nil
      | cons x rest =>
          refine cons x rest (ih _ ?_ _ rfl)
          simp only [← hlength, List.length_drop, List.length_cons]
          omega

theorem chunksOf.go_toList {α : Type} (size : Nat) (acc : Array (List α)) (xs : List α) :
    (chunksOf.go size acc xs).toList = acc.toList ++ (chunksOf.go size #[] xs).toList := by
  induction xs using chunksOf_induction size generalizing acc with
  | nil => simp [chunksOf.go]
  | cons x rest ih =>
      rw [chunksOf.go, chunksOf.go, ih, ih (Array.push #[] (x :: rest.take (size - 1)))]
      simp

@[simp] theorem chunksOf_nil {α : Type} (size : Nat) : chunksOf size ([] : List α) = [] := by
  simp [chunksOf, chunksOf.go]

theorem chunksOf_cons {α : Type} (size : Nat) (x : α) (rest : List α) :
    chunksOf size (x :: rest) =
      (x :: rest.take (size - 1)) :: chunksOf size (rest.drop (size - 1)) := by
  rw [chunksOf, chunksOf.go, chunksOf.go_toList]
  simp [chunksOf]

@[simp] theorem flatten_chunksOf {α : Type} (size : Nat) (xs : List α) :
    (chunksOf size xs).flatten = xs := by
  induction xs using chunksOf_induction size with
  | nil => simp
  | cons x rest ih =>
      -- the first piece, and the pieces of what is left behind it
      rw [chunksOf_cons, List.flatten_cons, ih]
      simp

theorem mem_chunksOf {α : Type} {size : Nat} (hsize : 0 < size) {xs piece : List α}
    (h : piece ∈ chunksOf size xs) : piece ≠ [] ∧ piece.length ≤ size := by
  induction xs using chunksOf_induction size with
  | nil => simp at h
  | cons x rest ih =>
      rw [chunksOf_cons] at h
      cases h with
      | head =>
          refine ⟨List.cons_ne_nil _ _, ?_⟩
          simp only [List.length_cons, List.length_take]
          omega
      | tail _ hmem => exact ih hmem

/-- Where the size divides the length no piece is shorter. -/
theorem length_of_mem_chunksOf {α : Type} {size count : Nat} (hsize : 0 < size) {xs piece : List α}
    (hlength : xs.length = count * size) (h : piece ∈ chunksOf size xs) : piece.length = size := by
  induction count generalizing xs with
  | zero =>
      obtain rfl : xs = [] := List.eq_nil_of_length_eq_zero (by omega)
      simp at h
  | succ count ih =>
      rw [Nat.succ_mul] at hlength
      cases xs with
      | nil => simp at h
      | cons x rest =>
          rw [List.length_cons] at hlength
          rw [chunksOf_cons] at h
          cases h with
          | head =>
              simp only [List.length_cons, List.length_take]
              omega
          | tail _ hmem =>
              refine ih ?_ hmem
              rw [List.length_drop]
              omega

/-- Full pieces are cut off in front of everything else. -/
theorem chunksOf_append {α : Type} {size : Nat} (hsize : 0 < size) {pieces : List (List α)}
    (hfull : ∀ piece ∈ pieces, piece.length = size) (rest : List α) :
    chunksOf size (pieces.flatten ++ rest) = pieces ++ chunksOf size rest := by
  induction pieces with
  | nil => rfl
  | cons piece pieces ih =>
      have hpiece : piece.length = size := hfull piece (.head _)
      have hothers := ih fun other hmem => hfull other (.tail _ hmem)
      cases piece with
      | nil => exact absurd hpiece (Nat.ne_of_lt hsize)
      | cons x piece =>
          have hlength : size - 1 = piece.length := by
            rw [← hpiece, List.length_cons, Nat.add_sub_cancel]
          rw [List.flatten_cons, List.append_assoc, List.cons_append, chunksOf_cons, hlength,
            List.take_left, List.drop_left, hothers, List.cons_append]

/-- What is short enough stays in one piece. -/
theorem chunksOf_short {α : Type} {size : Nat} {xs : List α} (hne : xs ≠ [])
    (hle : xs.length ≤ size) : chunksOf size xs = [xs] := by
  cases xs with
  | nil => exact absurd rfl hne
  | cons x xs =>
      have hshort : xs.length ≤ size - 1 := by
        rw [List.length_cons] at hle
        omega
      rw [chunksOf_cons, List.take_of_length_le hshort, List.drop_of_length_le hshort, chunksOf_nil]

theorem length_chunksOf {α : Type} {size : Nat} (hsize : 0 < size) (xs : List α) :
    (chunksOf size xs).length = (xs.length + (size - 1)) / size := by
  induction xs using chunksOf_induction size with
  | nil => simpa using (Nat.div_eq_of_lt (by omega)).symm
  | cons x rest ih =>
      rw [chunksOf_cons, List.length_cons, ih, List.length_drop, List.length_cons]
      by_cases hlast : rest.length ≤ size - 1
      · -- the first piece is the only one
        rw [Nat.sub_eq_zero_of_le hlast, Nat.zero_add, Nat.div_eq_of_lt (by omega),
          show rest.length + 1 + (size - 1) = rest.length + size by omega,
          Nat.add_div_right _ hsize, Nat.div_eq_of_lt (by omega)]
      · rw [← Nat.add_div_right _ hsize]
        congr 1
        omega

/-! ## Overwriting -/

/-- The bytes with a field put in the place of what was there. -/
def overwrite (bytes : Bytes) (place : Nat) (field : Bytes) : Bytes :=
  bytes.take place ++ field ++ bytes.drop (place + field.length)

theorem overwrite_field {old field : Bytes} (hlength : field.length = old.length)
    (front back : Bytes) :
    overwrite (front ++ (old ++ back)) front.length field = front ++ (field ++ back) := by
  rw [overwrite, List.take_left, hlength, List.drop_length_add_append, List.drop_left,
    List.append_assoc]

theorem overwrite_behind (front bytes : Bytes) (place : Nat) (field : Bytes) :
    overwrite (front ++ bytes) (front.length + place) field
      = front ++ overwrite bytes place field := by
  rw [overwrite, overwrite, List.take_length_add_append, Nat.add_assoc,
    List.drop_length_add_append]
  simp only [List.append_assoc]

theorem length_overwrite {bytes : Bytes} {place : Nat} {field : Bytes} :
    place + field.length ≤ bytes.length →
      (overwrite bytes place field).length = bytes.length := by
  intro h
  simp only [overwrite, List.length_append, List.length_take, List.length_drop]
  omega

end Lz4Frame
