import Mathlib
import Sandstream.Packetizer

/-! # Sandstream.PacketizerFifo -- the packetizer under an arbitrary order of calls

Abstractly the packetizer is a byte queue: `put` appends and `get` removes a packet, both dropping
bytes up to the next sync byte. `request` computes the free region from the size of the window alone,
so this abstraction holds only as long as the window starts at the front of the storage whenever bytes
are written. `FifoRun` says that every step of a sequence of calls is a queue step; the step lemma
`fifoStep_put_iff` gives the exact condition on the state and the written bytes, and `fifoRun_iff`
carries it along whole runs.
-/

namespace Sandstream

open Sandstream.Lib.Window
open Sandstream.Lib.Resync (dropToSync Synced dropToSync_of_synced)

namespace Packetizer

/-! ## Calls and queue steps -/

/-- A call sequence of a packetizer user. -/
inductive Op where
  | put (bytes : List UInt8)
  | get
  deriving Repr, DecidableEq

/-- What the caller has to respect: a write stays in the requested region, and `get` is called only on
a packetizer that is not depleted. -/
def Legal (p : Packetizer) : Op → Prop
  | .put bytes => bytes.length ≤ p.request.size
  | .get => p.isDepleted = false

/-- One call. -/
def step (p : Packetizer) : Op → Exec Packetizer
  | .put bytes => p.put bytes
  | .get => Prod.snd <$> p.get

/-- The byte queue a packetizer stands for. -/
def fifo (unread : List UInt8) : Op → List UInt8
  | .put bytes => dropToSync tsSyncByte (unread ++ bytes)
  | .get => dropToSync tsSyncByte (unread.drop tsPacketSize)

/-- The bytes `op` writes into the storage leave the unread window as it is. -/
def WriteKeepsWindow (p : Packetizer) : Op → Prop
  | .put bytes => Returns (p.fill bytes) fun filled => filled.unread = p.unread
  | .get => True

/-- `op` acts on `p` as on a byte queue: the write does not touch the window, the call returns, and it
leaves a window inside the storage that shows what the queue holds. -/
def FifoStep (p : Packetizer) (op : Op) : Prop :=
  WriteKeepsWindow p op ∧
    Returns (p.step op) fun q =>
      q.inputBuffer.ValidIn q.dataStorage ∧ q.unread = fifo p.unread op

/-- Every legal call of the sequence is a queue step. -/
def FifoRun (p : Packetizer) : List Op → Prop
  | [] => True
  | op :: ops => Legal p op → FifoStep p op ∧ IfReturns (p.step op) fun q => FifoRun q ops

instance (p : Packetizer) (op : Op) : Decidable (Legal p op) := by
  cases op <;> unfold Legal <;> infer_instance

instance (p : Packetizer) (op : Op) : Decidable (WriteKeepsWindow p op) := by
  cases op <;> unfold WriteKeepsWindow <;> infer_instance

instance (p : Packetizer) (op : Op) : Decidable (FifoStep p op) := by
  unfold FifoStep
  infer_instance

instance decidableFifoRun : (p : Packetizer) → (ops : List Op) → Decidable (FifoRun p ops)
  | _, [] => isTrue trivial
  | p, op :: ops => by
    have := fun q => decidableFifoRun q ops
    unfold FifoRun
    infer_instance

/-! ## When a write is a queue step -/

/-- A write behind a window that does not start at the front lands short of the window's end. It is
still right when there is room for the enlarged window and the bytes that are overwritten or shown
happen to be the ones due there. -/
structure Coincides (p : Packetizer) (bytes : List UInt8) : Prop where
  room : p.inputBuffer.data + p.inputBuffer.size + bytes.length ≤ p.dataStorage.length
  /-- bytes written onto the window equal those they replace -/
  kept : ∀ i, i < bytes.length → p.inputBuffer.data ≤ p.inputBuffer.size + i →
    i < p.inputBuffer.data → bytes[i]? = p.dataStorage[p.inputBuffer.size + i]?
  /-- bytes shown behind the old window equal the written ones -/
  shown : ∀ i, i < bytes.length →
    (if p.inputBuffer.data + i < bytes.length then bytes[p.inputBuffer.data + i]?
      else p.dataStorage[p.inputBuffer.data + p.inputBuffer.size + i]?) = bytes[i]?

/-- The condition under which a call is a queue step: a write needs a window at the front of the
storage, or nothing to write, or a coincidence. -/
def InPlace (p : Packetizer) : Op → Prop
  | .put bytes => p.inputBuffer.data = 0 ∨ bytes = [] ∨ Coincides p bytes
  | .get => True

/-- Every legal call of the sequence meets the condition. -/
def InPlaceRun (p : Packetizer) : List Op → Prop
  | [] => True
  | op :: ops => Legal p op → InPlace p op ∧ IfReturns (p.step op) fun q => InPlaceRun q ops

section Step

variable {p : Packetizer} {bytes : List UInt8}

/-- The enlarged window is the old one after the write, then the cells behind it. -/
theorem appended_unread (p : Packetizer) (bytes : List UInt8) :
    (p.appended bytes).unread =
      window (p.appended bytes).dataStorage p.inputBuffer.data p.inputBuffer.size ++
      window (p.appended bytes).dataStorage (p.inputBuffer.data + p.inputBuffer.size)
        bytes.length :=
  window_add _ _ _ _

theorem writeKeepsWindow_put_iff (hfits : bytes.length ≤ p.request.size) :
    WriteKeepsWindow p (.put bytes) ↔
      window (p.appended bytes).dataStorage p.inputBuffer.data p.inputBuffer.size = p.unread := by
  rw [WriteKeepsWindow, fill_eq hfits, returns_ok]
  rfl

/-- A write is a queue step as soon as it keeps the window and shows the new bytes behind it. -/
theorem fifoStep_put_of_append (hfits : bytes.length ≤ p.request.size)
    (hinside : (p.appended bytes).inputBuffer.ValidIn (p.appended bytes).dataStorage)
    (hkeep : window (p.appended bytes).dataStorage p.inputBuffer.data p.inputBuffer.size = p.unread)
    (happ : (p.appended bytes).unread = p.unread ++ bytes) :
    FifoStep p (.put bytes) := by
  refine ⟨(writeKeepsWindow_put_iff hfits).mpr hkeep, ?_⟩
  rw [step, put_eq hfits, sync_eq hinside, returns_ok]
  refine ⟨(wellFormed_synced hinside).inside, ?_⟩
  rw [synced_unread hinside, happ, fifo]

theorem fifoStep_put_of_front (h : p.WellFormed) (hfits : bytes.length ≤ p.request.size)
    (hfront : p.inputBuffer.data = 0) : FifoStep p (.put bytes) := by
  refine fifoStep_put_of_append hfits (appended_inside_of_front h.inside hfits hfront) ?_
    (appended_unread_of_front h.inside hfits hfront)
  have hle := filled_le h.inside hfits
  exact window_overwrite_disjoint hle (Or.inl (by omega))

theorem fifoStep_put_nil (h : p.WellFormed) (hfits : ([] : List UInt8).length ≤ p.request.size) :
    FifoStep p (.put []) := by
  have happ : p.appended [] = p := by simp [appended]
  refine fifoStep_put_of_append hfits ?_ ?_ ?_ <;> rw [happ]
  · exact h.inside
  · rfl
  · rw [List.append_nil]

/-- The write leaves the window alone exactly when the bytes it puts onto it were there already. -/
theorem window_kept_iff (h : p.WellFormed) (hfits : bytes.length ≤ p.request.size) :
    window (p.appended bytes).dataStorage p.inputBuffer.data p.inputBuffer.size = p.unread ↔
      ∀ i, i < bytes.length → p.inputBuffer.data ≤ p.inputBuffer.size + i →
        i < p.inputBuffer.data → bytes[i]? = p.dataStorage[p.inputBuffer.size + i]? := by
  refine (window_overwrite_eq_iff (filled_le h.inside hfits)).trans ?_
  refine forall_congr' fun i => imp_congr_right fun _ => imp_congr_right fun _ => ?_
  exact imp_congr_left (by omega)

/-- The cells behind the old window show the written bytes exactly when they coincide with them. -/
theorem window_shown_iff (h : p.WellFormed) (hfits : bytes.length ≤ p.request.size) :
    window (p.appended bytes).dataStorage (p.inputBuffer.data + p.inputBuffer.size) bytes.length =
        bytes ↔
      ∀ i, i < bytes.length →
        (if p.inputBuffer.data + i < bytes.length then bytes[p.inputBuffer.data + i]?
          else p.dataStorage[p.inputBuffer.data + p.inputBuffer.size + i]?) = bytes[i]? := by
  have hle := filled_le h.inside hfits
  -- the write begins `data` cells in front of the end of the window
  have hcell : ∀ i, (p.appended bytes).dataStorage[p.inputBuffer.data + p.inputBuffer.size + i]? =
      if p.inputBuffer.data + i < bytes.length then bytes[p.inputBuffer.data + i]?
      else p.dataStorage[p.inputBuffer.data + p.inputBuffer.size + i]? := by
    intro i
    rw [appended, overwrite_getElem? hle]
    by_cases hi : p.inputBuffer.data + i < bytes.length
    · rw [if_pos ⟨by omega, by omega⟩, if_pos hi]
      congr 1
      omega
    · rw [if_neg (by omega), if_neg hi]
  constructor
  · intro heq i hi
    have hshow := congrArg (fun xs => xs[i]?) heq
    rwa [window_getElem?, if_pos hi, hcell] at hshow
  · intro hsame
    apply List.ext_getElem?
    intro i
    rw [window_getElem?]
    split
    · rw [hcell, hsame i ‹_›]
    · exact (List.getElem?_eq_none (by omega)).symm

/-- Behind the front of the storage a window holds a packet. -/
theorem full_of_not_front (h : p.WellFormed) (hfront : p.inputBuffer.data ≠ 0) :
    tsPacketSize ≤ p.inputBuffer.size := by
  by_contra hlt
  exact hfront (h.atFront (by omega))

/-- A write that leaves a full window as it is leaves nothing to do for `sync`. -/
theorem step_put_of_kept (h : p.WellFormed) (hfits : bytes.length ≤ p.request.size)
    (hfull : tsPacketSize ≤ p.inputBuffer.size)
    (hkeep : window (p.appended bytes).dataStorage p.inputBuffer.data p.inputBuffer.size =
      p.unread) :
    p.step (.put bytes) = .ok (p.appended bytes) := by
  have hpos : 0 < p.inputBuffer.size := Nat.lt_of_lt_of_le (by decide) hfull
  -- the window still begins with its sync byte
  have hsync : (p.appended bytes).dataStorage[p.inputBuffer.data]? = some tsSyncByte := by
    rw [← window_head? hpos, hkeep, ← front_sync h hfull]
    exact window_head? hpos
  have hloop : syncLoop (p.appended bytes).dataStorage p.inputBuffer.data
      (p.inputBuffer.size + bytes.length) =
        .ok ⟨p.inputBuffer.data, p.inputBuffer.size + bytes.length⟩ := syncLoop_of_sync hsync
  rw [step, put_eq hfits, sync]
  simp only [appended] at hloop ⊢
  simp only [hloop, ok_bind]
  -- and it still holds a packet, so nothing is moved
  refine if_neg (fun hd => ?_)
  have := isDepleted_iff.mp hd
  dsimp only at this
  omega

/-- On a full window the queue drops nothing when bytes are appended. -/
theorem fifo_put_of_full (h : p.WellFormed) (hfull : tsPacketSize ≤ p.inputBuffer.size) :
    fifo p.unread (.put bytes) = p.unread ++ bytes := by
  have hpos : 0 < p.inputBuffer.size := Nat.lt_of_lt_of_le (by decide) hfull
  have hhead : (p.unread ++ bytes).head? = some tsSyncByte := by
    have hne : p.unread.head? = some tsSyncByte := (window_head? hpos).trans (front_sync h hfull)
    rw [List.head?_append, hne]
    rfl
  exact dropToSync_of_synced _ fun a ha => by simpa [hhead, eq_comm] using ha

/-- **The step lemma for writes.** On a well-formed state a legal write is a queue step if and only if
the window is at the front, the write is empty, or the bytes coincide. -/
theorem fifoStep_put_iff (h : p.WellFormed) (hfits : bytes.length ≤ p.request.size) :
    FifoStep p (.put bytes) ↔ InPlace p (.put bytes) := by
  constructor
  · rintro ⟨hkeep, hstep⟩
    by_cases hfront : p.inputBuffer.data = 0
    · exact Or.inl hfront
    by_cases hnil : bytes = []
    · exact Or.inr (Or.inl hnil)
    have hfull := full_of_not_front h hfront
    rw [writeKeepsWindow_put_iff hfits] at hkeep
    rw [step_put_of_kept h hfits hfull hkeep, returns_ok] at hstep
    obtain ⟨hinside, hunread⟩ := hstep
    -- what the enlarged window shows behind the old one must be the new bytes
    rw [fifo_put_of_full h hfull, appended_unread, hkeep, List.append_cancel_left_eq] at hunread
    exact Or.inr (Or.inr ⟨(appended_inside_iff h.inside hfits).mp hinside,
      (window_kept_iff h hfits).mp hkeep, (window_shown_iff h hfits).mp hunread⟩)
  · rintro (hfront | rfl | hco)
    · exact fifoStep_put_of_front h hfits hfront
    · exact fifoStep_put_nil h hfits
    · have hkeep := (window_kept_iff h hfits).mpr hco.kept
      apply fifoStep_put_of_append hfits ((appended_inside_iff h.inside hfits).mpr hco.room) hkeep
      rw [appended_unread, hkeep, (window_shown_iff h hfits).mpr hco.shown]

/-- `get` is always a queue step. -/
theorem fifoStep_get (h : p.WellFormed) (hlegal : Legal p .get) : FifoStep p .get := by
  have hfull := not_isDepleted_iff.mp hlegal
  refine ⟨trivial, ?_⟩
  rw [step, get_eq h hfull, ok_map, returns_ok, fifo]
  exact ⟨(wellFormed_get h hfull).inside, get_unread h hfull⟩

theorem fifoStep_iff (h : p.WellFormed) {op : Op} (hlegal : Legal p op) :
    FifoStep p op ↔ InPlace p op := by
  cases op with
  | put bytes => exact fifoStep_put_iff h hlegal
  | get => exact iff_of_true (fifoStep_get h hlegal) trivial

/-- A write that meets the condition leaves the enlarged window inside the storage. -/
theorem appended_inside (h : p.WellFormed) (hfits : bytes.length ≤ p.request.size)
    (hin : InPlace p (.put bytes)) :
    (p.appended bytes).inputBuffer.ValidIn (p.appended bytes).dataStorage := by
  rcases hin with hfront | rfl | hco
  · exact appended_inside_of_front h.inside hfits hfront
  · simpa [appended] using h.inside
  · exact (appended_inside_iff h.inside hfits).mpr hco.room

/-- A call that meets the condition keeps the window invariant. -/
theorem wellFormed_step (h : p.WellFormed) {op : Op} (hlegal : Legal p op) (hin : InPlace p op)
    {q : Packetizer} (hq : p.step op = .ok q) : q.WellFormed := by
  cases op with
  | put bytes =>
    have hinside := appended_inside h hlegal hin
    rw [step, put_eq hlegal, sync_eq hinside, Except.ok.injEq] at hq
    subst hq
    exact wellFormed_synced hinside
  | get =>
    have hfull := not_isDepleted_iff.mp hlegal
    rw [step, get_eq h hfull, ok_map, Except.ok.injEq] at hq
    subst hq
    exact wellFormed_get h hfull

end Step

/-! ## Whole runs -/

/-- From a well-formed state a run is a queue run exactly when every call meets the condition. -/
theorem fifoRun_iff {p : Packetizer} (h : p.WellFormed) (ops : List Op) :
    FifoRun p ops ↔ InPlaceRun p ops := by
  induction ops generalizing p with
  | nil => exact Iff.rfl
  | cons op ops ih =>
    refine forall_congr' fun hlegal => ?_
    rw [fifoStep_iff h hlegal]
    refine and_congr_right fun hin => ?_
    -- under the condition the call leaves a well-formed state, from which the rest runs
    cases hq : p.step op with
    | error => rw [ifReturns_error, ifReturns_error]
    | ok q =>
      rw [ifReturns_ok, ifReturns_ok]
      exact ih (wellFormed_step h hlegal hin hq)

/-- **A fresh packetizer is a byte queue exactly as long as nothing is written behind a window that
has left the front of the storage.** -/
theorem packetizer_fifo_iff (maxBufferSize : Nat) (ops : List Op) :
    FifoRun (new maxBufferSize) ops ↔ InPlaceRun (new maxBufferSize) ops :=
  fifoRun_iff (wellFormed_new maxBufferSize) ops

/-- A packet with four bytes in front, as the unit tests of the packetizer write it. -/
def prefixedPacket : List UInt8 := [0, 1, 2, 3, 0x47, 1, 2, 3] ++ List.replicate 184 0

/-- The call sequence of the unit test for prefixed packets: the last write is made while a packet is
pending at offset 4, and overwrites the end of it. -/
theorem packetizer_not_fifo :
    ¬ FifoRun (new 400) [.put prefixedPacket, .get, .put prefixedPacket, .put prefixedPacket] := by
  decide +kernel

end Packetizer

end Sandstream
