import Mathlib
import Sandstream.SectionBounds

/-! # Sandstream.SectionCuts -- where the packets are cut

Sections with stuffing behind them arrive in packets whose start indicator is clear. `put` looks for
stuffing right behind a section it has just completed, and nowhere else: a packet that begins at a
stuffing byte is read as the beginning of a section.

`sectionCuts_agree` says that all cuts without such a packet have the same outcome, and that all cuts
agree only where there is no stuffing. The witness for the second part is the cut into single bytes,
in which no stuffing byte is ever skipped.
-/

namespace Sandstream

open Sandstream.Lib.Frames
open ParserPsi (sectionFormat sectionLength appended)

/-! ## What a caller sees of a run -/

/-- The bytes that each call denotes, and the final `section_data`. -/
def observed (r : List UInt8 × List (List PayloadCall)) : List (Option (List UInt8)) × List UInt8 :=
  (r.2.flatten.map PayloadCall.slice, r.1)

/-- Putting packets into a fresh parser. -/
def outcome (arrivals : List Arrival) : Exec (List (Option (List UInt8)) × List UInt8) :=
  observed <$> putAll [] arrivals

/-- The bytes that the call for the section `u` denotes. -/
def contentOf (u : List UInt8) : Option (List UInt8) :=
  if 8 ≤ u.length then some (u.drop 8) else none

theorem slice_callOf_eq {t : List UInt8} {n : Nat} (hn : sectionFormat.complete t = some n)
    (hsize : t.length + 8 < 2 ^ 64) : (callOf t).slice = contentOf (t.take n) := by
  obtain ⟨hnL, hle⟩ := ParserPsi.complete_sectionFormat_iff.mp hn
  have hlen : (t.take n).length = n := List.length_take_of_le hle
  unfold contentOf
  rw [hlen]
  by_cases hext : 8 ≤ n
  · rw [if_pos hext, slice_callOf hn hext]
  · -- the size wraps, and there are never that many bytes
    have hwrap : (callOf t).available = 2 ^ 64 - (5 - sectionLength t) :=
      if_neg (show ¬ 5 ≤ sectionLength t by omega)
    have hdata : (callOf t).data.length = t.length - 8 := List.length_drop
    rw [if_neg hext, PayloadCall.slice, if_neg (by omega)]

theorem slices_heads_eq {buffer : List UInt8} (hsize : buffer.length + 8 < 2 ^ 64) :
    ((sectionFormat.heads buffer).map callOf).map PayloadCall.slice =
      (sectionFormat.units buffer).map contentOf := by
  unfold Format.units
  rw [List.map_map, List.map_map]
  apply List.map_congr_left
  intro t ht
  obtain ⟨hsuffix, n, hn⟩ := sectionFormat.of_mem_heads ht
  have hle := hsuffix.length_le
  show (callOf t).slice = contentOf (t.take ((sectionFormat.size t).getD 0))
  rw [slice_callOf_eq hn (by omega), ((Format.complete_eq_some_iff _).mp hn).1]
  rfl

/-- Packets with the start indicator clear that carry the pieces of `s`. -/
structure CutOf (s : List UInt8) (arrivals : List Arrival) : Prop where
  clear : ∀ a ∈ arrivals, a.packet.payloadUnitStartIndicator = false
  valid : ∀ a ∈ arrivals, a.Valid
  addressable : ∀ a ∈ arrivals, a.Addressable
  pieces : (arrivals.map Arrival.payload).flatten = s

theorem putAll_feed {arrivals : List Arrival}
    (hclear : ∀ a ∈ arrivals, a.packet.payloadUnitStartIndicator = false)
    (hvalid : ∀ a ∈ arrivals, a.Valid) (haddr : ∀ a ∈ arrivals, a.Addressable)
    {sectionData : List UInt8} (hbound : sectionData.length < 4098) :
    observed <$> putAll sectionData arrivals =
      .ok ((sectionFormat.feed sectionData (arrivals.map Arrival.payload)).1.map contentOf,
        (sectionFormat.feed sectionData (arrivals.map Arrival.payload)).2) := by
  induction arrivals generalizing sectionData with
  | nil => rfl
  | cons a arrivals ih =>
    obtain ⟨hclear, hclearLater⟩ := List.forall_mem_cons.mp hclear
    obtain ⟨hvalid, hvalidLater⟩ := List.forall_mem_cons.mp hvalid
    obtain ⟨haddr, haddrLater⟩ := List.forall_mem_cons.mp haddr
    have happended : appended a = a.payload := by
      rw [appended, hclear]
      rfl
    have hsize := ParserPsi.buffer_lt hbound haddr
    have hput := put_recordCall sectionData hvalid.readable hsize
    have hslices := slices_heads_eq hsize
    rw [happended] at hput hslices
    have hlater := ih hclearLater hvalidLater haddrLater
      (ParserPsi.rest_sectionFormat_length_lt (sectionData ++ a.payload))
    cases hr : putAll (sectionFormat.rest (sectionData ++ a.payload)) arrivals with
    | error e =>
      rw [hr] at hlater
      cases hlater
    | ok r =>
      rw [hr, ok_map, Except.ok.injEq] at hlater
      obtain ⟨hcalls, hfinal⟩ := Prod.mk.inj hlater
      simp only [putAll, hput, ok_bind, hr]
      rw [List.map_cons, Format.feed]
      dsimp only
      rw [List.map_append, ← hcalls, ← hfinal, ← hslices, ← List.map_append]
      rfl

theorem outcome_eq {s : List UInt8} {arrivals : List Arrival} (h : CutOf s arrivals) :
    outcome arrivals =
      .ok ((sectionFormat.feed [] (arrivals.map Arrival.payload)).1.map contentOf,
        (sectionFormat.feed [] (arrivals.map Arrival.payload)).2) :=
  putAll_feed h.clear h.valid h.addressable (by decide)

/-! ## Sections with stuffing -/

/-- A section, and the number of 0xFF bytes behind it. -/
structure StuffedSection where
  whole : PsiSection
  stuffing : Nat

/-- Sections one behind the other, each with its stuffing. -/
def stuffedBytes (items : List StuffedSection) : List UInt8 :=
  items.flatMap fun i => i.whole.bytes ++ List.replicate i.stuffing 0xff

/-- There is a stuffing byte at offset `k`. -/
def StuffingAt : List StuffedSection → Nat → Prop
  | [], _ => False
  | i :: items, k =>
    (i.whole.bytes.length ≤ k ∧ k < i.whole.bytes.length + i.stuffing) ∨
      (i.whole.bytes.length + i.stuffing ≤ k ∧
        StuffingAt items (k - (i.whole.bytes.length + i.stuffing)))

theorem stuffedBytes_cons (i : StuffedSection) (items : List StuffedSection) :
    stuffedBytes (i :: items) =
      i.whole.bytes ++ (List.replicate i.stuffing 0xff ++ stuffedBytes items) := by
  rw [stuffedBytes, List.flatMap_cons, List.append_assoc]
  rfl

theorem stuffedBytes_length (items : List StuffedSection) :
    (stuffedBytes items).length =
      (items.map fun i => i.whole.bytes.length).sum + (items.map StuffedSection.stuffing).sum := by
  induction items with
  | nil => rfl
  | cons i items ih =>
    rw [stuffedBytes_cons, List.length_append, List.length_append, List.length_replicate, ih,
      List.map_cons, List.map_cons, List.sum_cons, List.sum_cons]
    omega

/-- Sections do not begin like stuffing. -/
theorem head_stuffedBytes (items : List StuffedSection) :
    ∀ b ∈ (stuffedBytes items).head?, sectionFormat.padding b = false := by
  cases items with
  | nil => exact fun b hb => absurd hb (by simp [stuffedBytes])
  | cons i items =>
    have hpos := i.whole.isUnit.length_pos
    intro b hb
    apply i.whole.isUnit.unpadded b
    rw [stuffedBytes_cons, List.head?_append_of_ne_nil _ (List.length_pos_iff.mp hpos)] at hb
    exact hb

theorem dropWhile_stuffing (n : Nat) {t : List UInt8}
    (ht : ∀ b ∈ t.head?, sectionFormat.padding b = false) :
    (List.replicate n 0xff ++ t).dropWhile sectionFormat.padding = t := by
  rw [List.dropWhile_append_of_pos fun b hb => by rw [List.eq_of_mem_replicate hb]; rfl]
  cases t with
  | nil => rfl
  | cons b t => exact List.dropWhile_cons_of_neg (by simp [ht b rfl])

/-- Reading the string at once finds the sections. -/
theorem read_stuffedBytes (items : List StuffedSection) :
    sectionFormat.units (stuffedBytes items) = items.map (fun i => i.whole.bytes) ∧
      sectionFormat.rest (stuffedBytes items) = [] := by
  induction items with
  | nil => exact ⟨rfl, rfl⟩
  | cons i items ih =>
    rw [stuffedBytes_cons, i.whole.isUnit.units_append, i.whole.isUnit.rest_append,
      dropWhile_stuffing _ (head_stuffedBytes items), ih.1, ih.2, List.map_cons]
    exact ⟨rfl, rfl⟩

/-- Where nothing is kept of the first `k` bytes, a section ends or stuffing stands behind it. -/
theorem head_drop_stuffedBytes {items : List StuffedSection} {k : Nat} (hk : 0 < k)
    (hrest : sectionFormat.rest ((stuffedBytes items).take k) = []) (hnot : ¬ StuffingAt items k) :
    ∀ b ∈ ((stuffedBytes items).drop k).head?, sectionFormat.padding b = false := by
  induction items generalizing k with
  | nil => exact fun b hb => absurd hb (by simp [stuffedBytes])
  | cons i items ih =>
    have hunit := i.whole.isUnit
    unfold StuffingAt at hnot
    rw [not_or] at hnot
    obtain ⟨hoff, hlater⟩ := hnot
    rw [stuffedBytes_cons] at hrest ⊢
    rcases Nat.lt_or_ge k i.whole.bytes.length with hinside | hbehind
    · -- inside the section all bytes are kept
      rw [List.take_append_of_le_length hinside.le,
        Format.rest_of_incomplete _ (hunit.complete_take hinside)] at hrest
      have hlen := congrArg List.length hrest
      rw [List.length_take, List.length_nil] at hlen
      omega
    · have hpad : (List.replicate i.stuffing (0xff : UInt8)).length = i.stuffing :=
        List.length_replicate
      obtain ⟨j, rfl⟩ : ∃ j, k = i.whole.bytes.length +
          ((List.replicate i.stuffing (0xff : UInt8)).length + j) :=
        ⟨k - (i.whole.bytes.length + i.stuffing), by omega⟩
      rw [List.take_length_add_append, List.take_length_add_append, hunit.rest_append,
        dropWhile_stuffing] at hrest
      · rw [List.drop_length_add_append, List.drop_length_add_append]
        rcases Nat.eq_zero_or_pos j with rfl | hj
        · exact head_stuffedBytes items
        · refine ih hj hrest fun hstuffing => hlater ⟨by omega, ?_⟩
          rwa [hpad, ← Nat.add_assoc, Nat.add_sub_cancel_left]
      · intro b hb
        rw [List.head?_take] at hb
        split_ifs at hb
        · exact absurd hb (by simp)
        · exact head_stuffedBytes items b hb

/-! ## Cuts that do not begin at stuffing -/

/-- No packet begins at a stuffing byte. -/
def StartsClear (items : List StuffedSection) (arrivals : List Arrival) : Prop :=
  ∀ before a after, arrivals = before ++ a :: after →
    ¬ StuffingAt items (before.map Arrival.payload).flatten.length

theorem map_contentOf (items : List StuffedSection) :
    (items.map fun i => i.whole.bytes).map contentOf = items.map fun i => some i.whole.payload := by
  rw [List.map_map]
  refine List.map_congr_left fun i _ => if_pos ?_
  have hheader := i.whole.header_le
  simp only [ParserPsi.sectionExtHeaderLength] at hheader
  rw [i.whole.length_eq]
  omega

theorem outcome_of_startsClear {items : List StuffedSection} {arrivals : List Arrival}
    (hcut : CutOf (stuffedBytes items) arrivals) (hclear : StartsClear items arrivals) :
    outcome arrivals = .ok (items.map (fun i => some i.whole.payload), []) := by
  have hnil := sectionFormat.complete_nil
  have hclean : ∀ before after, arrivals.map Arrival.payload = before ++ after →
      [] ++ before.flatten ≠ [] → sectionFormat.rest ([] ++ before.flatten) = [] →
        ∀ b ∈ after.flatten.head?, sectionFormat.padding b = false := by
    intro before after hsplit hne hempty
    obtain ⟨before, after, rfl, rfl, rfl⟩ := List.map_eq_append_iff.mp hsplit
    cases after with
    | nil => exact fun b hb => absurd hb (by simp)
    | cons a after =>
      have hoff := hclear before a after rfl
      have hbytes := hcut.pieces
      rw [List.map_append, List.flatten_append] at hbytes
      rw [List.nil_append] at hne hempty
      have htake : (before.map Arrival.payload).flatten =
          (stuffedBytes items).take (before.map Arrival.payload).flatten.length := by
        rw [← hbytes, List.take_left]
      have hhead := head_drop_stuffedBytes (List.length_pos_iff.mpr hne) (htake ▸ hempty) hoff
      rwa [← hbytes, List.drop_left] at hhead
  obtain ⟨hunits, hrest⟩ := sectionFormat.feed_eq hclean
  obtain ⟨hread, hkept⟩ := read_stuffedBytes items
  rw [Format.units_of_incomplete _ hnil, Format.rest_of_incomplete _ hnil, List.nil_append,
    List.nil_append, hcut.pieces, hread] at hunits
  rw [Format.rest_of_incomplete _ hnil, List.nil_append, hcut.pieces, hkept] at hrest
  rw [outcome_eq hcut, hunits, hrest, map_contentOf]

/-- A string does not begin with stuffing. -/
theorem not_stuffingAt_zero (items : List StuffedSection) : ¬ StuffingAt items 0 := by
  cases items with
  | nil => exact id
  | cons i items =>
    have hpos := i.whole.isUnit.length_pos
    unfold StuffingAt
    rintro (⟨h, -⟩ | ⟨h, -⟩) <;> omega

theorem not_stuffingAt {items : List StuffedSection} (h : ∀ i ∈ items, i.stuffing = 0) (k : Nat) :
    ¬ StuffingAt items k := by
  induction items generalizing k with
  | nil => exact id
  | cons i items ih =>
    have hi := h i List.mem_cons_self
    unfold StuffingAt
    rintro (⟨h₁, h₂⟩ | ⟨-, hlater⟩)
    · omega
    · exact ih (fun j hj => h j (List.mem_cons_of_mem _ hj)) _ hlater

/-! ## The cut into single bytes -/

/-- A packet with the start indicator clear, alone in a storage of its own. -/
def pieceArrival (piece : List UInt8) : Arrival := ⟨piece, ⟨0, false, ⟨0, piece.length⟩⟩⟩

theorem payload_pieceArrival (piece : List UInt8) : (pieceArrival piece).payload = piece :=
  Sandstream.Lib.Window.window_full _

theorem cutOf_pieces (pieces : List (List UInt8)) (hne : ∀ p ∈ pieces, p ≠ [])
    (hhold : ∀ p ∈ pieces, Holdable p) : CutOf pieces.flatten (pieces.map pieceArrival) where
  clear := List.forall_mem_map.mpr fun _ _ => rfl
  valid := List.forall_mem_map.mpr fun p hp =>
    ⟨(Nat.zero_add _).le, List.length_pos_iff.mpr (hne p hp)⟩
  addressable := List.forall_mem_map.mpr hhold
  pieces := by
    rw [List.map_map]
    exact congrArg List.flatten (List.map_id'' payload_pieceArrival pieces)

/-- The pieces of one byte each. -/
def singleBytes (s : List UInt8) : List (List UInt8) := s.map fun b => [b]

theorem flatten_singleBytes (s : List UInt8) : (singleBytes s).flatten = s := by
  rw [singleBytes, ← List.flatMap_def, List.flatMap_singleton']

/-- With one byte more, what was kept is either incomplete again or exactly one section. -/
theorem read_snoc {r : List UInt8} (h : sectionFormat.complete r = none) (b : UInt8) :
    (sectionFormat.units (r ++ [b]) = [] ∧ sectionFormat.rest (r ++ [b]) = r ++ [b]) ∨
      (sectionFormat.units (r ++ [b]) = [r ++ [b]] ∧ sectionFormat.rest (r ++ [b]) = []) := by
  have hlen : (r ++ [b]).length = r.length + 1 := List.length_append
  cases hs : sectionFormat.complete (r ++ [b]) with
  | none => exact Or.inl ⟨Format.units_of_incomplete _ hs, Format.rest_of_incomplete _ hs⟩
  | some n =>
    right
    obtain ⟨hnL, hle⟩ := ParserPsi.complete_sectionFormat_iff.mp hs
    -- the length field has been there before, or has just become complete
    have hn : n = (r ++ [b]).length := by
      rcases Nat.lt_or_ge r.length 3 with hshort | hlong
      · omega
      · have hincomplete := ParserPsi.complete_sectionFormat_eq_none_iff.mp h
        rw [ParserPsi.sectionLength_append hlong] at hnL
        omega
    have hafter : sectionFormat.after n (r ++ [b]) = [] := by
      rw [Format.after, hn, List.drop_length]
      rfl
    have hnil := sectionFormat.complete_nil
    rw [Format.units_of_complete _ hs, Format.rest_of_complete _ hs, hafter,
      Format.units_of_incomplete _ hnil, Format.rest_of_incomplete _ hnil, hn, List.take_length]
    exact ⟨rfl, rfl⟩

/-- Byte by byte nothing is dropped. -/
theorem feed_singleBytes {r : List UInt8} (hr : sectionFormat.complete r = none) (s : List UInt8) :
    ((sectionFormat.feed r (singleBytes s)).1.map List.length).sum +
      (sectionFormat.feed r (singleBytes s)).2.length = r.length + s.length := by
  induction s generalizing r with
  | nil =>
    show 0 + r.length = r.length + 0
    omega
  | cons b s ih =>
    show ((sectionFormat.units (r ++ [b]) ++
        (sectionFormat.feed (sectionFormat.rest (r ++ [b])) (singleBytes s)).1).map List.length).sum +
      (sectionFormat.feed (sectionFormat.rest (r ++ [b])) (singleBytes s)).2.length = _
    rw [List.map_append, List.sum_append, Nat.add_assoc, ih (sectionFormat.complete_rest (r ++ [b]))]
    rcases read_snoc hr b with ⟨hunits, hrest⟩ | ⟨hunits, hrest⟩
    · rw [hunits, hrest, List.length_append]
      simp only [List.map_nil, List.sum_nil, List.length_cons, List.length_nil]
      omega
    · rw [hunits, hrest]
      simp only [List.map_cons, List.map_nil, List.sum_cons, List.sum_nil, List.length_append,
        List.length_cons, List.length_nil]
      omega

/-- The size of sections can be told from the bytes handed over. -/
theorem sum_length_of_contents {us cs : List (List UInt8)} (h : us.map contentOf = cs.map some) :
    (us.map List.length).sum = (cs.map fun c => 8 + c.length).sum := by
  induction us generalizing cs with
  | nil =>
    rw [List.map_nil, eq_comm, List.map_eq_nil_iff] at h
    subst h
    rfl
  | cons u us ih =>
    cases cs with
    | nil => cases h
    | cons c cs =>
      rw [List.map_cons, List.map_cons, List.cons.injEq] at h
      obtain ⟨hu, hus⟩ := h
      unfold contentOf at hu
      split_ifs at hu with hlong
      have hlen := congrArg List.length (Option.some.inj hu)
      rw [List.length_drop] at hlen
      rw [List.map_cons, List.map_cons, List.sum_cons, List.sum_cons, ih hus]
      omega

/-! ## All cuts -/

theorem cutOf_singleBytes (s : List UInt8) : CutOf s ((singleBytes s).map pieceArrival) := by
  have hsingle : ∀ p ∈ singleBytes s, p ≠ [] ∧ Holdable p := by
    intro p hp
    obtain ⟨b, -, rfl⟩ := List.mem_map.mp hp
    exact ⟨List.cons_ne_nil _ _, show 1 < 2 ^ 63 by decide⟩
  have hcut := cutOf_pieces _ (fun p hp => (hsingle p hp).1) (fun p hp => (hsingle p hp).2)
  rwa [flatten_singleBytes] at hcut

/-- The string in one piece, or in none. -/
theorem exists_whole_cut (items : List StuffedSection) (hhold : Holdable (stuffedBytes items)) :
    ∃ arrivals, CutOf (stuffedBytes items) arrivals ∧ StartsClear items arrivals := by
  by_cases hnil : stuffedBytes items = []
  · rw [hnil]
    exact ⟨[], cutOf_pieces [] (by simp) (by simp), fun _ _ _ h => absurd h (by simp)⟩
  · have hcut := cutOf_pieces [stuffedBytes items] (List.forall_mem_singleton.mpr hnil)
      (List.forall_mem_singleton.mpr hhold)
    rw [List.flatten_singleton] at hcut
    refine ⟨_, hcut, ?_⟩
    intro before a after hsplit
    -- only the first packet can be the one, and it begins at the first byte
    cases before with
    | nil => exact not_stuffingAt_zero items
    | cons b before =>
      have hlen := congrArg List.length hsplit
      simp only [List.map_cons, List.map_nil, List.length_cons, List.length_nil, List.length_append]
        at hlen
      omega

/-- If reading byte by byte gives the outcome of reading at once, there is no stuffing. -/
theorem stuffing_eq_zero_of_singleBytes {items : List StuffedSection}
    (h : outcome ((singleBytes (stuffedBytes items)).map pieceArrival) =
      .ok (items.map (fun i => some i.whole.payload), [])) :
    ∀ i ∈ items, i.stuffing = 0 := by
  have hsum := feed_singleBytes sectionFormat.complete_nil (stuffedBytes items)
  rw [outcome_eq (cutOf_singleBytes _), List.map_map, Except.ok.injEq, Prod.mk.injEq] at h
  have hpieces : (singleBytes (stuffedBytes items)).map (Arrival.payload ∘ pieceArrival) =
      singleBytes (stuffedBytes items) := List.map_id'' payload_pieceArrival _
  rw [hpieces] at h
  obtain ⟨hcontents, hrest⟩ := h
  have hsize : (items.map fun i => 8 + i.whole.payload.length) =
      items.map fun i => i.whole.bytes.length := by
    apply List.map_congr_left
    intro i _
    have hheader := i.whole.header_le
    have hlen := i.whole.length_eq
    simp only [ParserPsi.sectionExtHeaderLength] at hheader
    rw [PsiSection.payload, List.length_drop]
    omega
  have hsome : items.map (fun i => some i.whole.payload) =
      (items.map fun i => i.whole.payload).map some := by
    rw [List.map_map]
    rfl
  have hunits := sum_length_of_contents (hcontents.trans hsome)
  rw [List.map_map] at hunits
  -- every byte was used for a section, so none was stuffing
  rw [hrest, hunits, stuffedBytes_length, ← hsize] at hsum
  have hzero : (items.map StuffedSection.stuffing).sum = 0 := by
    simp only [List.length_nil, Function.comp_def] at hsum
    omega
  intro i hi
  exact List.sum_eq_zero_iff.mp hzero _ (List.mem_map_of_mem hi)

/-- **Where the cuts matter.** Every cut whose packets do not begin at a stuffing byte delivers the
payloads of the sections and keeps nothing; and all cuts have one outcome exactly if there is no
stuffing. -/
theorem sectionCuts_agree (items : List StuffedSection) (hhold : Holdable (stuffedBytes items)) :
    (∀ arrivals, CutOf (stuffedBytes items) arrivals → StartsClear items arrivals →
      outcome arrivals = .ok (items.map (fun i => some i.whole.payload), [])) ∧
    ((∀ arrivals arrivals', CutOf (stuffedBytes items) arrivals →
      CutOf (stuffedBytes items) arrivals' → outcome arrivals = outcome arrivals') ↔
        ∀ i ∈ items, i.stuffing = 0) := by
  refine ⟨fun _ => outcome_of_startsClear, ?_, ?_⟩
  · intro hagree
    obtain ⟨whole, hcut, hclear⟩ := exists_whole_cut items hhold
    apply stuffing_eq_zero_of_singleBytes
    rw [hagree _ whole (cutOf_singleBytes _) hcut]
    exact outcome_of_startsClear hcut hclear
  · intro hzero arrivals arrivals' hcut hcut'
    have hclear : ∀ arrivals, StartsClear items arrivals := fun _ _ _ _ _ => not_stuffingAt hzero _
    rw [outcome_of_startsClear hcut (hclear _), outcome_of_startsClear hcut' (hclear _)]

/-- A section without stuffing behind it, twice. -/
def unstuffed : List StuffedSection := [⟨patSection, 0⟩, ⟨patSection, 0⟩]

theorem sectionCuts_agree_unstuffed :
    outcome ((singleBytes (stuffedBytes unstuffed)).map pieceArrival) =
      outcome [pieceArrival (stuffedBytes unstuffed)] := by
  have hhold : Holdable (stuffedBytes unstuffed) := by decide
  have hzero : ∀ i ∈ unstuffed, i.stuffing = 0 := by
    simp only [unstuffed, List.mem_cons, List.not_mem_nil, or_false, or_self, forall_eq]
  have hwhole := cutOf_pieces [stuffedBytes unstuffed]
    (List.forall_mem_singleton.mpr (by decide)) (List.forall_mem_singleton.mpr hhold)
  rw [List.flatten_singleton] at hwhole
  exact (sectionCuts_agree unstuffed hhold).2.mpr hzero _ _ (cutOf_singleBytes _) hwhole

/-- Two stuffing bytes: if the second one begins a packet it is kept, and the next section will be
read from there. -/
theorem sectionCuts_differ :
    ¬ ∀ (items : List StuffedSection) (arrivals arrivals' : List Arrival),
      CutOf (stuffedBytes items) arrivals → CutOf (stuffedBytes items) arrivals' →
        outcome arrivals = outcome arrivals' := by
  intro hclaim
  have hcut := cutOf_pieces [patSection.bytes ++ [0xff], [0xff]] (by decide) (by decide)
  have hcut' := cutOf_pieces [patSection.bytes ++ [0xff, 0xff]] (by decide) (by decide)
  have hkept : Returns (outcome ([patSection.bytes ++ [0xff], [0xff]].map pieceArrival))
      fun r => r.2 = [0xff] := by decide
  have hempty : Returns (outcome ([patSection.bytes ++ [0xff, 0xff]].map pieceArrival))
      fun r => r.2 = [] := by decide
  rw [hclaim [⟨patSection, 2⟩] _ _ hcut hcut', returns_iff] at hkept
  rw [returns_iff] at hempty
  obtain ⟨r, hr, hrest⟩ := hkept
  obtain ⟨r', hr', hrest'⟩ := hempty
  rw [hr, Except.ok.injEq] at hr'
  rw [hr', hrest'] at hrest
  exact absurd hrest (by decide)

end Sandstream
