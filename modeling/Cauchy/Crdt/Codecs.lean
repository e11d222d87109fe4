import Cauchy.Crdt.PNCounter
import Cauchy.Crdt.LWWRegister

/-!
# The four wire formats

The vector clock, the G-Counter, the PN-Counter and the LWW-Register each have a
`serialized_size`, a `serialize` into a caller's buffer of `size` bytes, and a `deserialize`
into a caller's object from a buffer of `size` bytes.  This file states, once for any type, what
such a pair promises, and proves it of the four.

* `RoundTrips`: a value that satisfies the type's representation invariant serializes to
  exactly `serialized_size` bytes, which decode, into any target, to a value the type's `equals`
  accepts; and the bytes a successful decode consumed are exactly what serializing its result
  writes.  `wire_formats_round_trip`.
* `Bounded`: a decode reads no byte at or past `size` (two buffers that agree below `size`
  decode alike), and one that succeeds leaves a value satisfying the invariant; a serialize of a
  value whose `serialized_size` does not wrap writes no byte at or past what it returns, which is
  at most `size`, and returns `0` without writing when `size` is too small.  The counters' sizes
  never wrap; the LWW-Register's, `24 + value_size` in `usize`, does for a register that a failed
  decode left with a huge `value_size`, and its serialize then writes past the buffer.
  `wire_formats_bounded`.
* Atomicity on error: the vector-clock and G-Counter decoders check everything before they
  write, so a failed decode leaves the target as it was; the PN-Counter decoder can fail on
  `negative` after it has overwritten `positive`, and the LWW decoder checks `value_size` after it
  has written the header.  `deserialize_error_partial_write`.

The representation invariants are the `WF` of each type: `num_nodes ≤ CAUCHY_MAX_NODES` with the
entries from `num_nodes` on zero, `value_size ≤ CAUCHY_LWW_MAX_VALUE_SIZE`, and every `u64` field
below `2 ^ 64`, which the model's `Nat`s must be told and the C types say.
-/

set_option autoImplicit false

namespace Cauchy
namespace Codec

variable {α : Type}

/-- The two round trips of a wire format: from values satisfying the invariant `wf`, and from
bytes. -/
structure RoundTrips (wf : α → Prop) (serializedSize : α → Nat)
    (serialize : α → List UInt8 → Nat → Nat × List UInt8)
    (deserialize : α → List UInt8 → Nat → Result × α) (equals : α → α → Bool) : Prop where
  /-- A value serialized into a buffer of `size ≥ serialized_size` bytes returns that size, and
  the buffer decodes, with any `size'` covering the bytes and into any target, to a value
  `equals` to it. -/
  of_value : ∀ x, wf x → ∀ buf size size', serializedSize x ≤ size → serializedSize x ≤ size' →
    ∀ y, (serialize x buf size).1 = serializedSize x ∧
      (deserialize y (serialize x buf size).2 size').1 = .ok ∧
      equals (deserialize y (serialize x buf size).2 size').2 x = true
  /-- When a decode succeeds, serializing its result into a buffer large enough returns the
  bytes the decode consumed, and no more. -/
  of_bytes : ∀ y buf size, (deserialize y buf size).1 = .ok → ∀ buf' size',
    serializedSize (deserialize y buf size).2 ≤ size' →
      (serialize (deserialize y buf size).2 buf' size').1 =
          serializedSize (deserialize y buf size).2 ∧
        (serialize (deserialize y buf size).2 buf' size').2.take
            (serializedSize (deserialize y buf size).2) =
          (List.range (serializedSize (deserialize y buf size).2)).map fun j => buf.getD j 0

/-- What keeps a wire format inside its buffers, for the values `fits` whose size the code
computes without wrapping. -/
structure Bounded (wf fits : α → Prop) (serializedSize : α → Nat)
    (serialize : α → List UInt8 → Nat → Nat × List UInt8)
    (deserialize : α → List UInt8 → Nat → Result × α) : Prop where
  /-- A decode reads no byte at or past `size`. -/
  reads_below : ∀ y buf buf' size, (∀ i < size, buf.getD i 0 = buf'.getD i 0) →
    deserialize y buf size = deserialize y buf' size
  /-- A decode that succeeds leaves a value satisfying the invariant. -/
  ok_wf : ∀ y buf size, (deserialize y buf size).1 = .ok → wf (deserialize y buf size).2
  /-- A serialize writes no byte at or past what it returns, which is at most `size`, and writes
  nothing when `size` is below the serialized size. -/
  writes_below : ∀ x, fits x → ∀ buf size, (serialize x buf size).1 ≤ size ∧
    (∀ i, (serialize x buf size).1 ≤ i → (serialize x buf size).2.getD i 0 = buf.getD i 0) ∧
    (size < serializedSize x → serialize x buf size = (0, buf))

end Codec

open Codec

theorem VClock.equals_self (vc : VClock) : vc.equals vc = true := by
  rw [VClock.equals, beq_iff_eq, VClock.compare, compareEntries_eq_equal_iff]
  exact fun _ _ => rfl

theorem GCounter.equals_self (g : GCounter) : g.equals g = true :=
  (GCounter.equals_iff g g).2 ⟨rfl, fun _ _ => rfl⟩

theorem PNCounter.equals_self (pn : PNCounter) : pn.equals pn = true := by
  simp [PNCounter.equals, GCounter.equals_self]

/-- **The four wire formats round-trip in both directions.** -/
theorem wire_formats_round_trip :
    RoundTrips VClock.WF VClock.serializedSize VClock.serialize VClock.deserialize VClock.equals ∧
      RoundTrips GCounter.WF GCounter.serializedSize GCounter.serialize GCounter.deserialize
        GCounter.equals ∧
      RoundTrips PNCounter.WF PNCounter.serializedSize PNCounter.serialize PNCounter.deserialize
        PNCounter.equals ∧
      RoundTrips LWWRegister.WF LWWRegister.serializedSize LWWRegister.serialize
        LWWRegister.deserialize LWWRegister.equals := by
  refine ⟨⟨fun x hx buf size size' hs hs' y => ?_, fun y buf size h buf' size' hs =>
      VClock.serialize_deserialize h buf' hs⟩,
    ⟨fun x hx buf size size' hs hs' y => ?_, fun y buf size h buf' size' hs =>
      GCounter.serialize_deserialize h buf' hs⟩,
    ⟨fun x hx buf size size' hs hs' y => ?_, fun y buf size h buf' size' hs =>
      PNCounter.serialize_deserialize h buf' hs⟩,
    ⟨fun x hx buf size size' hs hs' y => LWWRegister.deserialize_serialize hx buf hs hs' y,
      fun y buf size h buf' size' hs => LWWRegister.serialize_deserialize h buf' hs⟩⟩
  · obtain ⟨h1, h2⟩ := VClock.deserialize_serialize hx buf hs hs' y
    exact ⟨h1, by rw [h2], by rw [h2]; exact VClock.equals_self x⟩
  · obtain ⟨h1, h2⟩ := GCounter.deserialize_serialize hx buf hs hs' y
    exact ⟨h1, by rw [h2], by rw [h2]; exact GCounter.equals_self x⟩
  · obtain ⟨h1, h2⟩ := PNCounter.deserialize_serialize hx buf hs hs' y
    exact ⟨h1, by rw [h2], by rw [h2]; exact PNCounter.equals_self x⟩

/-- **The wire formats stay inside their buffers, but for the LWW size that wraps.**  The three
counter formats are bounded for every value.  The LWW decoder is bounded, and the LWW serializer
stays inside the buffer for every register whose `24 + value_size` fits a `usize`.  A register
that a failed `cauchy_lww_deserialize` leaves behind can have one that does not: its
`serialized_size` wraps to `16`, and `cauchy_lww_serialize` into a 16-byte buffer writes past
it. -/
theorem wire_formats_bounded :
    Bounded VClock.WF (fun _ => True) VClock.serializedSize VClock.serialize
        VClock.deserialize ∧
      Bounded GCounter.WF (fun _ => True) GCounter.serializedSize GCounter.serialize
        GCounter.deserialize ∧
      Bounded PNCounter.WF (fun _ => True) PNCounter.serializedSize PNCounter.serialize
        PNCounter.deserialize ∧
      Bounded LWWRegister.WF (fun reg => 8 + 8 + 8 + reg.valueSize < 2 ^ 64)
        LWWRegister.serializedSize LWWRegister.serialize LWWRegister.deserialize ∧
      ∃ reg : LWWRegister, LWWRegister.Reachable reg ∧ reg.serializedSize = 16 ∧
        (reg.serialize (List.replicate 16 0) 16).1 = 16 ∧
        (reg.serialize (List.replicate 16 0) 16).2.getD 16 0 ≠ (List.replicate 16 0).getD 16 0 :=
  have hw := LWWRegister.serialize_writes_past_size
  ⟨⟨fun _ _ _ _ h => VClock.deserialize_congr h, fun _ _ _ h => VClock.wf_of_deserialize_ok h,
      fun x _ => VClock.serialize_frame x⟩,
    ⟨fun _ _ _ _ h => GCounter.deserialize_congr h,
      fun _ _ _ h => GCounter.wf_of_deserialize_ok h, fun x _ => GCounter.serialize_frame x⟩,
    ⟨fun _ _ _ _ h => PNCounter.deserialize_congr h,
      fun _ _ _ h => PNCounter.wf_of_deserialize_ok h, fun x _ => PNCounter.serialize_frame x⟩,
    ⟨fun _ _ _ _ h => LWWRegister.deserialize_congr h,
      fun _ _ _ h => LWWRegister.wf_of_deserialize_ok h, LWWRegister.serialize_frame⟩,
    _, hw.2.1, hw.2.2.1, hw.2.2.2.1, by rw [hw.2.2.2.2]; decide⟩

/-! ## Atomicity on error -/

/-- A PN-Counter whose `positive` holds a count on node `0`. -/
def countedPN : PNCounter := (PNCounter.init 1).increment 0

/-- A PN-Counter buffer whose `positive` half is an empty counter and whose `negative` half
claims 65 nodes. -/
def badNegativeHalf : List UInt8 := [0, 0, 0, 0, 65, 0, 0, 0]

/-- An LWW header with timestamp `5`, node `1` and a `value_size` of `10`, and no value after
it. -/
def truncatedLWW : List UInt8 := encodeU64 5 ++ encodeU64 1 ++ encodeU64 10

/-- **Two decoders write before they fail.**  The vector-clock and G-Counter decoders leave
their target as it was whenever they fail.  The PN-Counter decoder, given `badNegativeHalf`,
decodes `positive` (resetting it to zero nodes) and then rejects `negative`; the LWW decoder,
given `truncatedLWW` with `size = 24`, stores the header and then rejects the size. -/
theorem deserialize_error_partial_write :
    (∀ (vc : VClock) buf size, (vc.deserialize buf size).1 ≠ .ok →
      (vc.deserialize buf size).2 = vc) ∧
    (∀ (g : GCounter) buf size, (g.deserialize buf size).1 ≠ .ok →
      (g.deserialize buf size).2 = g) ∧
    ((countedPN.deserialize badNegativeHalf 8).1 = .errInvalid ∧
      (countedPN.deserialize badNegativeHalf 8).2.positive.numNodes = 0 ∧
      countedPN.positive.numNodes = 1) ∧
    ((LWWRegister.init.deserialize truncatedLWW 24).1 = .errInvalid ∧
      (LWWRegister.init.deserialize truncatedLWW 24).2.timestamp = 5 ∧
      LWWRegister.init.timestamp = 0) :=
  ⟨fun _ _ _ h => VClock.deserialize_of_ne_ok h, fun _ _ _ h => GCounter.deserialize_of_ne_ok h,
    ⟨by decide, by decide, rfl⟩, ⟨by decide, by decide, rfl⟩⟩

end Cauchy
