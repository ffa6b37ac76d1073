import Mathlib
import Sandstream.Lib.Resync
import Sandstream.TsPacket

/-! # Sandstream.Packetizer -- the input buffer

`Packetizer` is `packetizer_t`: a storage of fixed size and the window of it that has not been read
yet. The caller asks for free space (`request`), writes into it (`fill`) and hands it back
(`confirm`); `get` takes one packet off the front of the window. Both end in `sync`, which drops bytes
up to the next sync byte and, when less than a packet is left, moves the rest to the front of the
storage.

The second half gives each operation its specification on states that satisfy the window invariant
`WellFormed`: what it returns, what the unread bytes are afterwards, and that the invariant holds
again.
-/

namespace Sandstream

open Sandstream.Lib.Window
open Sandstream.Lib.Resync (dropToSync Synced dropToSync_nil synced_dropToSync dropToSync_of_synced
  dropToSync_cons_self dropToSync_cons_of_ne dropToSync_length_le)

/-- `packetizer_t`. -/
structure Packetizer where
  dataStorage : List UInt8
  inputBuffer : ConstBuffer
  deriving Repr, DecidableEq

namespace Packetizer

/-! ## The operations -/

/-- `packetizer_t::packetizer_t`. -/
def new (maxBufferSize : Nat) : Packetizer := ⟨List.replicate maxBufferSize 0, ⟨0, 0⟩⟩

/-- `packetizer_t::request`. -/
def request (p : Packetizer) : MutableBuffer :=
  -- the address is the size of the window, wherever the window begins
  ⟨p.inputBuffer.size, sizeSub p.dataStorage.length p.inputBuffer.size⟩

/-- `packetizer_t::is_depleted`. -/
def isDepleted (p : Packetizer) : Bool := p.inputBuffer.size < tsPacketSize

/-- The `while` loop of `packetizer_t::sync`. -/
def syncLoop (storage : List UInt8) (data : Nat) : Nat → Exec ConstBuffer
  | 0 => .ok ⟨data, 0⟩
  | size + 1 => do
    if (← load storage data) ≠ tsSyncByte then
      syncLoop storage (data + 1) size
    else
      return ⟨data, size + 1⟩

/-- `memmove(storage + dest, storage + src, count)`. -/
def memmove (storage : List UInt8) (dest src count : Nat) : Exec (List UInt8) :=
  if src + count ≤ storage.length ∧ dest + count ≤ storage.length then
    .ok (overwrite storage dest (window storage src count))
  else
    .error .outOfBounds

/-- `packetizer_t::sync`. -/
def sync (p : Packetizer) : Exec Packetizer := do
  let q := { p with
    inputBuffer := ← syncLoop p.dataStorage p.inputBuffer.data p.inputBuffer.size }
  if q.isDepleted then
    -- less than a packet: the next request is to follow it, so it moves to the front
    let dataStorage ← memmove q.dataStorage 0 q.inputBuffer.data q.inputBuffer.size
    return ⟨dataStorage, ⟨0, q.inputBuffer.size⟩⟩
  else
    return q

/-- `packetizer_t::confirm`. The filled buffer is part of the requested one, so the sum of the sizes
is at most the size of the storage. -/
def confirm (p : Packetizer) (filledBuffer : MutableBuffer) : Exec Packetizer :=
  sync { p with
    inputBuffer := ⟨p.inputBuffer.data, p.inputBuffer.size + filledBuffer.size⟩ }

/-- `packetizer_t::get`. -/
def get (p : Packetizer) : Exec (TsPacket × Packetizer) := do
  let packet ← TsPacket.ofBytes p.dataStorage p.inputBuffer.data tsPacketSize
  let q ← sync { p with
    inputBuffer := ⟨p.inputBuffer.data + tsPacketSize, sizeSub p.inputBuffer.size tsPacketSize⟩ }
  return (packet, q)

/-- What a user of `source_data_t` does between `request` and `confirm`: write `bytes` to the front
of the requested region. -/
def fill (p : Packetizer) (bytes : List UInt8) : Exec Packetizer :=
  if bytes.length ≤ p.request.size then
    .ok { p with dataStorage := overwrite p.dataStorage p.request.data bytes }
  else
    .error .outOfBounds

/-- `request`, write `bytes`, `confirm`: the `put` of the unit tests and one turn of `main`. -/
def put (p : Packetizer) (bytes : List UInt8) : Exec Packetizer := do
  let q ← p.fill bytes
  q.confirm ⟨p.request.data, bytes.length⟩

/-! ## The window -/

/-- The bytes that have been confirmed and not read yet. -/
def unread (p : Packetizer) : List UInt8 := p.inputBuffer.bytes p.dataStorage

/-- The window invariant. -/
structure WellFormed (p : Packetizer) : Prop where
  inside : p.inputBuffer.ValidIn p.dataStorage
  startsInSync : Synced tsSyncByte p.unread
  atFront : p.inputBuffer.size < tsPacketSize → p.inputBuffer.data = 0

theorem unread_length {p : Packetizer} (h : p.inputBuffer.ValidIn p.dataStorage) :
    p.unread.length = p.inputBuffer.size :=
  ConstBuffer.bytes_length h

theorem isDepleted_iff {p : Packetizer} :
    p.isDepleted = true ↔ p.inputBuffer.size < tsPacketSize :=
  decide_eq_true_iff

theorem wellFormed_new (maxBufferSize : Nat) : (new maxBufferSize).WellFormed where
  inside := by simp [new, ConstBuffer.ValidIn]
  startsInSync := by simp [new, unread, ConstBuffer.bytes, Synced]
  atFront := fun _ => rfl

@[simp] theorem unread_new (maxBufferSize : Nat) : (new maxBufferSize).unread = [] := by
  simp [new, unread, ConstBuffer.bytes]

/-! ## `sync` -/

/-- The loop stops at once on a sync byte, wherever the window ends. -/
theorem syncLoop_of_sync {storage : List UInt8} {data size : Nat}
    (h : storage[data]? = some tsSyncByte) :
    syncLoop storage data size = .ok ⟨data, size⟩ := by
  cases size with
  | zero => rfl
  | succ size =>
    simp only [syncLoop, load_of_getElem? h, ok_bind, ne_eq, not_true_eq_false, if_false]
    rfl

/-- Inside the storage the loop narrows the window to its bytes from the first sync byte on. -/
theorem syncLoop_eq {storage : List UInt8} {data size : Nat} (h : data + size ≤ storage.length) :
    syncLoop storage data size =
      .ok ⟨data + (size - (dropToSync tsSyncByte (window storage data size)).length),
        (dropToSync tsSyncByte (window storage data size)).length⟩ := by
  induction size generalizing data with
  | zero => simp [syncLoop]
  | succ size ih =>
    have hlt : data < storage.length := by omega
    have hget : storage[data]? = some storage[data] := List.getElem?_eq_getElem hlt
    have hwin : window storage data (size + 1) = storage[data] :: window storage (data + 1) size := by
      rw [Nat.add_comm size 1, window_add, window, List.drop_eq_getElem_cons hlt]
      rfl
    -- the loop leaves on a sync byte, as `dropWhile` does
    by_cases hb : storage[data] = tsSyncByte
    · rw [syncLoop_of_sync (hget.trans (congrArg some hb)), hwin, hb, dropToSync_cons_self,
        List.length_cons, window_length (by omega), Nat.sub_self]
      rfl
    · simp only [syncLoop, load_of_getElem? hget, ok_bind, if_pos hb]
      rw [ih (by omega), hwin, dropToSync_cons_of_ne _ hb]
      have hle := dropToSync_length_le tsSyncByte (window storage (data + 1) size)
      rw [window_length (by omega)] at hle
      congr 2
      omega

/-- The state `sync` leaves, in terms of the unread bytes. -/
def synced (p : Packetizer) : Packetizer :=
  let rest := dropToSync tsSyncByte p.unread
  if rest.length < tsPacketSize then
    ⟨overwrite p.dataStorage 0 rest, ⟨0, rest.length⟩⟩
  else
    ⟨p.dataStorage, ⟨p.inputBuffer.data + (p.inputBuffer.size - rest.length), rest.length⟩⟩

theorem synced_of_lt {p : Packetizer}
    (h : (dropToSync tsSyncByte p.unread).length < tsPacketSize) :
    p.synced = ⟨overwrite p.dataStorage 0 (dropToSync tsSyncByte p.unread),
      ⟨0, (dropToSync tsSyncByte p.unread).length⟩⟩ :=
  if_pos h

theorem synced_of_le {p : Packetizer}
    (h : tsPacketSize ≤ (dropToSync tsSyncByte p.unread).length) :
    p.synced = ⟨p.dataStorage, ⟨p.inputBuffer.data +
      (p.inputBuffer.size - (dropToSync tsSyncByte p.unread).length),
      (dropToSync tsSyncByte p.unread).length⟩⟩ :=
  if_neg (by omega)

/-- The narrowed window shows the bytes from the first sync byte on. -/
theorem window_narrowed {storage : List UInt8} {data size : Nat}
    (h : data + size ≤ storage.length) :
    window storage (data + (size - (dropToSync tsSyncByte (window storage data size)).length))
        (dropToSync tsSyncByte (window storage data size)).length =
      dropToSync tsSyncByte (window storage data size) := by
  -- dropping from the front of a window is a window that begins later
  set u := window storage data size with hu
  have hlen : u.length = size := window_length h
  have hsuf : dropToSync tsSyncByte u <:+ u := List.dropWhile_suffix _
  have hdrop : dropToSync tsSyncByte u = u.drop (u.length - (dropToSync tsSyncByte u).length) :=
    List.suffix_iff_eq_drop.mp hsuf
  have hle := dropToSync_length_le tsSyncByte u
  conv_rhs => rw [hdrop, hu, window_drop, ← hu]
  rw [hlen]
  congr 1
  omega

section Synced

variable {p : Packetizer} (h : p.inputBuffer.ValidIn p.dataStorage)

include h

theorem rest_length_le : (dropToSync tsSyncByte p.unread).length ≤ p.inputBuffer.size := by
  have hle := dropToSync_length_le tsSyncByte p.unread
  rwa [unread_length h] at hle

theorem sync_eq : p.sync = .ok p.synced := by
  have hle := rest_length_le h
  have hloop : syncLoop p.dataStorage p.inputBuffer.data p.inputBuffer.size =
      .ok ⟨p.inputBuffer.data + (p.inputBuffer.size - (dropToSync tsSyncByte p.unread).length),
        (dropToSync tsSyncByte p.unread).length⟩ := syncLoop_eq h
  have hnarrow := window_narrowed h
  simp only [ConstBuffer.ValidIn] at h
  simp only [sync, hloop, ok_bind]
  by_cases hdep : (dropToSync tsSyncByte p.unread).length < tsPacketSize
  · rw [if_pos (isDepleted_iff.mpr hdep), synced_of_lt hdep]
    -- `memmove` stays inside the storage at both ends
    simp only [memmove]
    rw [if_pos ⟨by omega, by omega⟩]
    exact congrArg (fun xs => Except.ok (⟨overwrite p.dataStorage 0 xs, _⟩ : Packetizer)) hnarrow
  · rw [if_neg (fun hd => hdep (isDepleted_iff.mp hd)), synced_of_le (by omega)]
    rfl

theorem synced_storage_length : p.synced.dataStorage.length = p.dataStorage.length := by
  have hle := rest_length_le h
  simp only [ConstBuffer.ValidIn] at h
  by_cases hdep : (dropToSync tsSyncByte p.unread).length < tsPacketSize
  · rw [synced_of_lt hdep]
    exact overwrite_length (by omega)
  · rw [synced_of_le (by omega)]

theorem synced_unread : p.synced.unread = dropToSync tsSyncByte p.unread := by
  have hle := rest_length_le h
  by_cases hdep : (dropToSync tsSyncByte p.unread).length < tsPacketSize
  · rw [synced_of_lt hdep]
    simp only [ConstBuffer.ValidIn] at h
    change window (overwrite p.dataStorage 0 _) 0 _ = _
    exact window_overwrite_self (by omega)
  · rw [synced_of_le (by omega)]
    exact window_narrowed h

omit h in
theorem synced_size : p.synced.inputBuffer.size = (dropToSync tsSyncByte p.unread).length := by
  unfold synced
  dsimp only
  split <;> rfl

theorem wellFormed_synced : p.synced.WellFormed where
  inside := by
    have hle := rest_length_le h
    simp only [ConstBuffer.ValidIn] at h ⊢
    rw [synced_storage_length h]
    by_cases hdep : (dropToSync tsSyncByte p.unread).length < tsPacketSize
    · rw [synced_of_lt hdep]
      dsimp only
      omega
    · rw [synced_of_le (by omega)]
      dsimp only
      omega
  startsInSync := by
    rw [synced_unread h]
    exact synced_dropToSync _ _
  atFront := by
    by_cases hdep : (dropToSync tsSyncByte p.unread).length < tsPacketSize
    · rw [synced_of_lt hdep]
      exact fun _ => rfl
    · rw [synced_of_le (by omega)]
      exact fun hlt => absurd hlt hdep

end Synced

-- from here on `synced` is used through the lemmas above only
attribute [irreducible] synced

/-! ## `get` -/

/-- The block that `get` hands to the packet constructor. -/
def block (p : Packetizer) : List UInt8 := window p.dataStorage p.inputBuffer.data tsPacketSize

/-- The state when a packet has been taken off the window, before `sync`. -/
def advanced (p : Packetizer) : Packetizer :=
  { p with inputBuffer := ⟨p.inputBuffer.data + tsPacketSize, p.inputBuffer.size - tsPacketSize⟩ }

section Get

variable {p : Packetizer} (h : p.WellFormed) (hfull : tsPacketSize ≤ p.inputBuffer.size)

theorem not_isDepleted_iff {p : Packetizer} :
    p.isDepleted = false ↔ tsPacketSize ≤ p.inputBuffer.size := by
  rw [← Bool.not_eq_true, isDepleted_iff, Nat.not_lt]

theorem advanced_unread (p : Packetizer) : p.advanced.unread = p.unread.drop tsPacketSize :=
  (window_drop _ _ _ _).symm

include hfull

theorem block_eq_take : p.block = p.unread.take tsPacketSize := by
  rw [unread, ConstBuffer.bytes, window_take, Nat.min_eq_left hfull]
  rfl

include h

theorem advanced_inside : p.advanced.inputBuffer.ValidIn p.advanced.dataStorage := by
  have hin := h.inside
  simp only [ConstBuffer.ValidIn, advanced] at hin ⊢
  omega

theorem block_length : p.block.length = tsPacketSize := by
  have hin := h.inside
  simp only [ConstBuffer.ValidIn] at hin
  exact window_length (by omega)

theorem front_sync : p.dataStorage[p.inputBuffer.data]? = some tsSyncByte := by
  have hpos : 0 < p.inputBuffer.size := Nat.lt_of_lt_of_le (by decide) hfull
  have hin := h.inside
  simp only [ConstBuffer.ValidIn] at hin
  have hlt : p.inputBuffer.data < p.dataStorage.length := by omega
  have hget := List.getElem?_eq_getElem hlt
  have hhead : p.unread.head? = some p.dataStorage[p.inputBuffer.data] :=
    (window_head? hpos).trans hget
  rw [hget, h.startsInSync _ hhead]

/-- `get` on a state that holds a packet: the constructor accepts the front block, and the window
moves past it. -/
theorem get_eq : p.get = .ok (packetAt p.block p.inputBuffer.data, p.advanced.synced) := by
  have hin := h.inside
  simp only [ConstBuffer.ValidIn] at hin
  have hpacket := TsPacket.ofBytes_eq (by omega) (front_sync h hfull)
  have hsync : p.advanced.sync = .ok p.advanced.synced := sync_eq (advanced_inside h hfull)
  simp only [advanced, ← sizeSub_of_le hfull] at hsync
  simp only [get, hpacket, ok_bind, hsync]
  simp only [advanced, sizeSub_of_le hfull]
  rfl

theorem wellFormed_get : p.advanced.synced.WellFormed := wellFormed_synced (advanced_inside h hfull)

theorem get_unread :
    p.advanced.synced.unread = dropToSync tsSyncByte (p.unread.drop tsPacketSize) := by
  rw [synced_unread (advanced_inside h hfull), advanced_unread]

end Get

/-! ## `put` -/

/-- The state when `bytes` have been written and counted, before `sync`. -/
def appended (p : Packetizer) (bytes : List UInt8) : Packetizer :=
  ⟨overwrite p.dataStorage p.inputBuffer.size bytes,
    ⟨p.inputBuffer.data, p.inputBuffer.size + bytes.length⟩⟩

section Put

variable {p : Packetizer} {bytes : List UInt8} (h : p.inputBuffer.ValidIn p.dataStorage)
  (hfits : bytes.length ≤ p.request.size)

theorem fill_eq (hfits : bytes.length ≤ p.request.size) :
    p.fill bytes = .ok
      { p with dataStorage := overwrite p.dataStorage p.inputBuffer.size bytes } :=
  if_pos hfits

theorem put_eq (hfits : bytes.length ≤ p.request.size) :
    p.put bytes = (p.appended bytes).sync := by
  rw [put, fill_eq hfits, ok_bind]
  rfl

include h

theorem request_size : p.request.size = p.dataStorage.length - p.inputBuffer.size := by
  simp only [ConstBuffer.ValidIn] at h
  exact sizeSub_of_le (by omega)

include hfits

/-- The requested region lies inside the storage. -/
theorem filled_le : p.inputBuffer.size + bytes.length ≤ p.dataStorage.length := by
  rw [request_size h] at hfits
  simp only [ConstBuffer.ValidIn] at h
  omega

theorem appended_storage_length : (p.appended bytes).dataStorage.length = p.dataStorage.length :=
  overwrite_length (filled_le h hfits)

/-- When the window starts at the front of the storage, the requested region begins where the unread
bytes end, and the new bytes are appended to them. -/
theorem appended_unread_of_front (hfront : p.inputBuffer.data = 0) :
    (p.appended bytes).unread = p.unread ++ bytes := by
  have hle := filled_le h hfits
  simp only [unread, ConstBuffer.bytes, appended, hfront, window_add, Nat.zero_add]
  rw [window_overwrite_disjoint hle (Or.inl (by omega)), window_overwrite_self hle]

/-- The enlarged window stays inside the storage if there is room for it. -/
theorem appended_inside_iff :
    (p.appended bytes).inputBuffer.ValidIn (p.appended bytes).dataStorage ↔
      p.inputBuffer.data + p.inputBuffer.size + bytes.length ≤ p.dataStorage.length := by
  unfold ConstBuffer.ValidIn
  rw [appended_storage_length h hfits, Nat.add_assoc]
  exact Iff.rfl

theorem appended_inside_of_front (hfront : p.inputBuffer.data = 0) :
    (p.appended bytes).inputBuffer.ValidIn (p.appended bytes).dataStorage := by
  have hle := filled_le h hfits
  apply (appended_inside_iff h hfits).mpr
  omega

end Put

end Packetizer

end Sandstream
