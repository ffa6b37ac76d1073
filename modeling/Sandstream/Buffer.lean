import Mathlib
import Sandstream.Lib.Window

/-! # Sandstream.Buffer -- memory access as the program does it

The C++ code works with `size_t` counters and raw pointers. Here:

* a `size_t` is a `Nat` below `2 ^ 64`, with `sizeAdd` and `sizeSub` for the additions and
  subtractions that the code does not check, which wrap;
* a pointer that is only read through is the list of bytes from its target to the end of the
  allocation, so `data + k` is `data.drop k` and `data[k]` is `load data k`;
* a read outside the allocation, a failed `assert` and an append that no vector can hold end the
  execution with a `Fault`. A loop that exhausts the bound its model gives it ends with
  `Fault.outOfFuel`; that never happens, and each loop has a theorem that says so.
-/

namespace Sandstream

open Sandstream.Lib.Window

/-- How an execution stops being defined. -/
inductive Fault where
  /-- An `assert` was reached with a false condition. -/
  | assertion
  /-- A byte outside the allocation was read or written. -/
  | outOfBounds
  /-- A vector was told to grow beyond `max_size()`. The program does not catch `std::length_error`. -/
  | lengthError
  /-- The model's bound on the number of loop turns was too small. -/
  | outOfFuel
  deriving Repr, DecidableEq

/-- The result of running a piece of the program. -/
abbrev Exec (α : Type) := Except Fault α

@[simp] theorem ok_bind {ε α β : Type} (a : α) (f : α → Except ε β) :
    ((Except.ok a : Except ε α) >>= f) = f a := rfl

@[simp] theorem error_bind {ε α β : Type} (e : ε) (f : α → Except ε β) :
    ((Except.error e : Except ε α) >>= f) = .error e := rfl

@[simp] theorem ok_map {α β : Type} (a : α) (f : α → β) :
    f <$> (Except.ok a : Exec α) = .ok (f a) := rfl

/-- A sequence of two steps returns when the first does and the second does on its value. -/
theorem bind_eq_ok_iff {ε α β : Type} {x : Except ε α} {f : α → Except ε β} {b : β} :
    (x >>= f) = .ok b ↔ ∃ a, x = .ok a ∧ f a = .ok b := by
  cases x with
  | error e => simp
  | ok a => simp

/-- It fails when one of them does. -/
theorem bind_eq_error_iff {ε α β : Type} {x : Except ε α} {f : α → Except ε β} {e : ε} :
    (x >>= f) = .error e ↔ x = .error e ∨ ∃ a, x = .ok a ∧ f a = .error e := by
  cases x with
  | error e' => simp
  | ok a => simp

/-- `x` returns, and its result satisfies `post`. -/
def Returns {α : Type} (x : Exec α) (post : α → Prop) : Prop :=
  match x with
  | .ok a => post a
  | .error _ => False

/-- If `x` returns, its result satisfies `post`. -/
def IfReturns {α : Type} (x : Exec α) (post : α → Prop) : Prop :=
  match x with
  | .ok a => post a
  | .error _ => True

section Returns

variable {α : Type} {post : α → Prop}

@[simp] theorem returns_ok {a : α} : Returns (.ok a) post ↔ post a := Iff.rfl

@[simp] theorem returns_error {e : Fault} : Returns (.error e : Exec α) post ↔ False := Iff.rfl

@[simp] theorem ifReturns_ok {a : α} : IfReturns (.ok a) post ↔ post a := Iff.rfl

@[simp] theorem ifReturns_error {e : Fault} : IfReturns (.error e : Exec α) post ↔ True := Iff.rfl

theorem returns_iff {x : Exec α} : Returns x post ↔ ∃ a, x = .ok a ∧ post a := by
  cases x <;> simp

theorem ifReturns_iff {x : Exec α} : IfReturns x post ↔ ∀ a, x = .ok a → post a := by
  cases x <;> simp

theorem Returns.mono {x : Exec α} {post' : α → Prop} (h : Returns x post)
    (himp : ∀ a, post a → post' a) : Returns x post' := by
  cases x with
  | error e => exact h
  | ok a => exact himp a h

instance decidableReturns [DecidablePred post] : (x : Exec α) → Decidable (Returns x post)
  | .ok a => inferInstanceAs (Decidable (post a))
  | .error _ => isFalse id

instance decidableIfReturns [DecidablePred post] : (x : Exec α) → Decidable (IfReturns x post)
  | .ok a => inferInstanceAs (Decidable (post a))
  | .error _ => isTrue trivial

end Returns

/-- Whether an execution ends with a given fault can be decided without comparing its results. -/
instance decidableFault {α : Type} (e : Fault) : (x : Exec α) → Decidable (x = .error e)
  | .ok _ => isFalse fun h => nomatch h
  | .error e' => decidable_of_iff (e' = e) ⟨congrArg _, Except.error.inj⟩

-- elaboration must not run the program to see whether a postcondition is a function type
attribute [irreducible] Returns IfReturns

/-- `assert(c)`. -/
def assert (c : Bool) : Exec Unit := if c then .ok () else .error .assertion

@[simp] theorem assert_true : assert true = .ok () := rfl

/-! ## `size_t` arithmetic -/

/-- `a + b` on `size_t`. -/
def sizeAdd (a b : Nat) : Nat := (a + b) % 2 ^ 64

/-- `a - b` on `size_t`. -/
def sizeSub (a b : Nat) : Nat := if b ≤ a then a - b else 2 ^ 64 - (b - a)

theorem sizeAdd_of_lt {a b : Nat} (h : a + b < 2 ^ 64) : sizeAdd a b = a + b :=
  Nat.mod_eq_of_lt h

theorem sizeSub_of_le {a b : Nat} (h : b ≤ a) : sizeSub a b = a - b := if_pos h

/-- A subtraction wraps exactly if adding up again does not give the minuend. -/
theorem sizeSub_add_eq_iff {a b : Nat} : sizeSub a b + b = a ↔ b ≤ a := by
  unfold sizeSub
  split <;> omega

/-! ## Reads -/

/-- `data[i]`. -/
def load (data : List UInt8) (i : Nat) : Exec UInt8 :=
  match data[i]? with
  | some b => .ok b
  | none => .error .outOfBounds

theorem load_of_getElem? {data : List UInt8} {i : Nat} {b : UInt8} (h : data[i]? = some b) :
    load data i = .ok b := by
  rw [load, h]

theorem getElem?_of_load {data : List UInt8} {i : Nat} {b : UInt8} (h : load data i = .ok b) :
    data[i]? = some b := by
  unfold load at h
  split at h
  · rename_i b' hb
    rw [hb, Except.ok.inj h]
  · cases h

theorem getElem?_getD {data : List UInt8} {i : Nat} (h : i < data.length) :
    data[i]? = some (data.getD i 0) := by
  rw [List.getD_eq_getElem?_getD, List.getElem?_eq_getElem h]
  rfl

theorem load_getD {data : List UInt8} {i : Nat} (h : i < data.length) :
    load data i = .ok (data.getD i 0) :=
  load_of_getElem? (getElem?_getD h)

theorem load_of_length_le {data : List UInt8} {i : Nat} (h : data.length ≤ i) :
    load data i = .error .outOfBounds := by
  rw [load, List.getElem?_eq_none h]

theorem load_drop (data : List UInt8) (k i : Nat) : load (data.drop k) i = load data (k + i) := by
  rw [load, load, List.getElem?_drop]

/-- `masked_two_bytes_value_t(data, msb_mask).value`. -/
def maskedTwoBytesValue (data : List UInt8) (msbMask : UInt32) : Exec UInt16 := do
  let msb := ((← load data 0).toUInt32 &&& msbMask).toUInt16
  let lsb := (← load data 1).toUInt16
  return (msb <<< 8) + lsb

/-- `masked_two_bytes_value_t::two_byte_value_length`. -/
def twoByteValueLength : Nat := 2

/-- The value decoded from the two bytes `msb` and `lsb`. -/
def twoBytes (msb lsb : UInt8) (msbMask : UInt32) : UInt16 :=
  ((msb.toUInt32 &&& msbMask).toUInt16 <<< 8) + lsb.toUInt16

theorem maskedTwoBytesValue_of_getElem? {data : List UInt8} {k : Nat} {msb lsb : UInt8}
    (hm : data[k]? = some msb) (hl : data[k + 1]? = some lsb) (msbMask : UInt32) :
    maskedTwoBytesValue (data.drop k) msbMask = .ok (twoBytes msb lsb msbMask) := by
  have h0 : load (data.drop k) 0 = .ok msb := by
    rw [load_drop]
    exact load_of_getElem? hm
  have h1 : load (data.drop k) 1 = .ok lsb := by
    rw [load_drop]
    exact load_of_getElem? hl
  simp only [maskedTwoBytesValue, h0, h1]
  rfl

theorem maskedTwoBytesValue_getD {data : List UInt8} {k : Nat} (h : k + 1 < data.length)
    (msbMask : UInt32) :
    maskedTwoBytesValue (data.drop k) msbMask =
      .ok (twoBytes (data.getD k 0) (data.getD (k + 1) 0) msbMask) :=
  maskedTwoBytesValue_of_getElem? (getElem?_getD (by omega)) (getElem?_getD h) msbMask

/-- Both bytes are read, so one missing is a fault. -/
theorem maskedTwoBytesValue_of_short {data : List UInt8} {k : Nat} (h : data.length ≤ k + 1)
    (msbMask : UInt32) : maskedTwoBytesValue (data.drop k) msbMask = .error .outOfBounds := by
  have h1 : load (data.drop k) 1 = .error .outOfBounds := by
    rw [load_drop]
    exact load_of_length_le h
  unfold maskedTwoBytesValue
  rw [h1]
  cases h0 : load (data.drop k) 0 with
  | ok b => rfl
  | error e =>
    -- a read can fail in this way only
    unfold load at h0
    split at h0
    · cases h0
    · cases h0
      rfl

/-- A mask of `w` low bits keeps those bits of the high byte. -/
theorem twoBytes_toNat {w : Nat} (hw : w ≤ 8) (msb lsb : UInt8) :
    (twoBytes msb lsb (UInt32.ofNat (2 ^ w - 1))).toNat =
      msb.toNat % 2 ^ w * 256 + lsb.toNat := by
  have hm := msb.toNat_lt
  have hl := lsb.toNat_lt
  have hp : 2 ^ w ≤ 2 ^ 8 := Nat.pow_le_pow_right (by omega) hw
  have hpos : 0 < 2 ^ w := Nat.two_pow_pos w
  have hmask : (UInt32.ofNat (2 ^ w - 1)).toNat = 2 ^ w - 1 := by
    rw [UInt32.toNat_ofNat']
    omega
  have hmod : msb.toNat % 2 ^ w < 2 ^ w := Nat.mod_lt _ hpos
  have hand : (msb.toUInt32 &&& UInt32.ofNat (2 ^ w - 1)).toNat = msb.toNat % 2 ^ w := by
    rw [UInt32.toNat_and, hmask, UInt8.toNat_toUInt32, Nat.and_two_pow_sub_one_eq_mod]
  have hmsb : ((msb.toUInt32 &&& UInt32.ofNat (2 ^ w - 1)).toUInt16).toNat = msb.toNat % 2 ^ w := by
    rw [UInt32.toNat_toUInt16, hand]
    omega
  have hshift : (((msb.toUInt32 &&& UInt32.ofNat (2 ^ w - 1)).toUInt16) <<< 8).toNat =
      msb.toNat % 2 ^ w * 256 := by
    rw [UInt16.toNat_shiftLeft, hmsb]
    have : (8 : UInt16).toNat % 16 = 8 := rfl
    rw [this, Nat.shiftLeft_eq]
    omega
  rw [twoBytes, UInt16.toNat_add, hshift, UInt8.toNat_toUInt16]
  omega

/-- The high byte of a field of `w + 8` bits, with `upper` in the bits above the field. -/
def fieldMsb (w upper value : Nat) : UInt8 := UInt8.ofNat (upper * 2 ^ w + value / 256)

/-- The low byte of a field. -/
def fieldLsb (value : Nat) : UInt8 := UInt8.ofNat value

/-- Masking undoes the encoding of a field, whatever stands above it. -/
theorem twoBytes_field {w : Nat} (hw : w ≤ 8) (upper : Nat) {value : Nat}
    (hvalue : value < 2 ^ w * 256) :
    (twoBytes (fieldMsb w upper value) (fieldLsb value) (UInt32.ofNat (2 ^ w - 1))).toNat = value := by
  -- the conversion to a byte cuts off bits of `upper` only
  have hdvd : 2 ^ w ∣ 2 ^ 8 := Nat.pow_dvd_pow 2 hw
  have hhigh : value / 256 < 2 ^ w := Nat.div_lt_of_lt_mul (by rwa [Nat.mul_comm] at hvalue)
  have hmsb : (fieldMsb w upper value).toNat % 2 ^ w = value / 256 := by
    unfold fieldMsb
    rw [UInt8.toNat_ofNat', Nat.mod_mod_of_dvd _ hdvd, Nat.mul_comm, Nat.mul_add_mod,
      Nat.mod_eq_of_lt hhigh]
  have hlsb : (fieldLsb value).toNat = value % 256 := UInt8.toNat_ofNat'
  rw [twoBytes_toNat hw, hmsb, hlsb]
  omega

/-! ## Buffers -/

/-- `const_buffer_t`: an address inside the storage the buffer was cut from, and a size. -/
structure ConstBuffer where
  data : Nat
  size : Nat
  deriving Repr, DecidableEq

/-- `mutable_buffer_t`. -/
structure MutableBuffer where
  data : Nat
  size : Nat
  deriving Repr, DecidableEq

/-- The buffer lies inside `storage`. -/
def ConstBuffer.ValidIn (b : ConstBuffer) (storage : List UInt8) : Prop :=
  b.data + b.size ≤ storage.length

instance (b : ConstBuffer) (storage : List UInt8) : Decidable (b.ValidIn storage) :=
  inferInstanceAs (Decidable (_ ≤ _))

/-- The bytes a buffer denotes in the present contents of `storage`. -/
def ConstBuffer.bytes (b : ConstBuffer) (storage : List UInt8) : List UInt8 :=
  window storage b.data b.size

theorem ConstBuffer.bytes_length {b : ConstBuffer} {storage : List UInt8}
    (h : b.ValidIn storage) : (b.bytes storage).length = b.size :=
  window_length h

/-! ## Buffers that are handed on -/

/-- A `const_buffer_t` as a callee gets it: one that lies inside its storage is known by its bytes, any
other one by its address and size. Handing a buffer on reads nothing. -/
inductive Handed where
  | inside (bytes : List UInt8)
  | outside (buffer : ConstBuffer)
  deriving Repr, DecidableEq

/-- Handing on a buffer, with the storage as it is then. -/
def ConstBuffer.handed (b : ConstBuffer) (storage : List UInt8) : Handed :=
  if b.ValidIn storage then .inside (b.bytes storage) else .outside b

theorem ConstBuffer.handed_of_validIn {b : ConstBuffer} {storage : List UInt8}
    (h : b.ValidIn storage) : b.handed storage = .inside (b.bytes storage) :=
  if_pos h

theorem ConstBuffer.handed_of_not_validIn {b : ConstBuffer} {storage : List UInt8}
    (h : ¬ b.ValidIn storage) : b.handed storage = .outside b :=
  if_neg h

/-- The bytes of a buffer that lies inside its storage. -/
def Handed.bytes : Handed → List UInt8
  | .inside bytes => bytes
  | .outside _ => []

/-- The buffer lies inside its storage. -/
def Handed.IsInside : Handed → Prop
  | .inside _ => True
  | .outside _ => False

instance : (b : Handed) → Decidable b.IsInside
  | .inside _ => isTrue trivial
  | .outside _ => isFalse id

end Sandstream
