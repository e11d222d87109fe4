import Cauchy.Crdt.GCounter

/-!
# The PN-Counter

`src/crdt/pn_counter.c`.  A `cauchy_pncounter_t` is two G-Counters, `positive` for increments
and `negative` for decrements, and every call is the G-Counter call on one or both halves.
`cauchy_pncounter_add` takes an `i64`: a delta `≥ 0` goes to `positive`, a negative one, negated,
to `negative` (for `INT64_MIN`, `(u64)(-delta)` is `2 ^ 63` on a two's-complement machine, as
`Int.toNat` of the negation gives).

The wire format is the two G-Counter formats one after the other.  `serialize` writes `positive`
at the start of the buffer and `negative` at `buffer + pos_size`, which the model writes as a
serialize into `buf.drop pos_size` put back behind the first `pos_size` bytes.  `deserialize`
decodes `positive` into the target, then `negative` from `buffer + pos_size` with
`size - pos_size`, where `pos_size` is the serialized size of the `positive` it just decoded.

The second decode can fail after the first has succeeded, and the first has then already
overwritten `positive`: the decoder is not atomic on error (`Cauchy.Crdt.Codecs`).  Everything
else about the format it inherits from the G-Counter: both round trips
(`deserialize_serialize`, `serialize_deserialize`) and its bounds (`deserialize_congr`,
`serialize_frame`).

`cauchy_pncounter_value` converts each half's `u64` value to `i64` and subtracts.  C leaves a
signed overflow undefined, so the model's `i64` operations return `none` where the exact result
is not an `i64` (`i64Result`).  `value_eq_of_lt`: the value is the exact difference while both
halves are below `2 ^ 63`.  `value_overflows`: past that it is not, even when the difference is an
`i64`, and `add` of `INT64_MIN` overflows in its negation.  `positive`, `negative` and `clone`
only read, and no statement here is about them; they are not modelled.
-/

set_option autoImplicit false

namespace Cauchy

/-- `cauchy_pncounter_t`. -/
structure PNCounter where
  positive : GCounter
  negative : GCounter

namespace PNCounter

/-- `cauchy_pncounter_init`. -/
def init (numNodes : Nat) : PNCounter := ⟨GCounter.init numNodes, GCounter.init numNodes⟩

/-- `cauchy_pncounter_increment`. -/
def increment (pn : PNCounter) (nodeId : Nat) : PNCounter :=
  { pn with positive := pn.positive.increment nodeId }

/-- `cauchy_pncounter_decrement`. -/
def decrement (pn : PNCounter) (nodeId : Nat) : PNCounter :=
  { pn with negative := pn.negative.increment nodeId }

/-- `cauchy_pncounter_add` with an `i64` delta. -/
def add (pn : PNCounter) (nodeId : Nat) (delta : Int) : PNCounter :=
  if delta ≥ 0 then { pn with positive := pn.positive.add nodeId delta.toNat }
  else { pn with negative := pn.negative.add nodeId (-delta).toNat }

/-- `cauchy_pncounter_merge`. -/
def merge (dst src : PNCounter) : PNCounter :=
  ⟨dst.positive.merge src.positive, dst.negative.merge src.negative⟩

/-- `cauchy_pncounter_equals`. -/
def equals (a b : PNCounter) : Bool :=
  a.positive.equals b.positive && a.negative.equals b.negative

/-- `cauchy_pncounter_copy`. -/
def copy (dst src : PNCounter) : PNCounter :=
  ⟨dst.positive.copy src.positive, dst.negative.copy src.negative⟩

/-- The result of an `i64` operation whose exact value is `x`: `none` when `x` is not an `i64`,
where C leaves signed overflow undefined. -/
def i64Result (x : Int) : Option Int := if -2 ^ 63 ≤ x ∧ x < 2 ^ 63 then some x else none

/-- `(i64)` of a `u64`: the two's-complement reading a two's-complement compiler gives it. -/
def toI64 (u : Nat) : Int := if u < 2 ^ 63 then u else (u : Int) - 2 ^ 64

/-- The negation `-delta` that `cauchy_pncounter_add` applies to a negative `i64` delta. -/
def negDelta (delta : Int) : Option Int := i64Result (-delta)

/-- `cauchy_pncounter_value`: `(i64)` of each half's value, then their `i64` difference; `none`
when the subtraction overflows. -/
def value (pn : PNCounter) : Option Int :=
  i64Result (toI64 pn.positive.value - toI64 pn.negative.value)

/-- `cauchy_pncounter_serialized_size`. -/
def serializedSize (pn : PNCounter) : Nat :=
  pn.positive.serializedSize + pn.negative.serializedSize

/-- `cauchy_pncounter_serialize` into a buffer of `size` bytes. -/
def serialize (pn : PNCounter) (buf : List UInt8) (size : Nat) : Nat × List UInt8 :=
  if size < pn.serializedSize then (0, buf)
  else
    let (posSize, buf₁) := pn.positive.serialize buf size
    if posSize = 0 then (0, buf₁)
    else
      let (negSize, rest) := pn.negative.serialize (buf₁.drop posSize) (size - posSize)
      if negSize = 0 then (0, buf₁.take posSize ++ rest)
      else (posSize + negSize, buf₁.take posSize ++ rest)

/-- `cauchy_pncounter_deserialize` from a buffer of `size` bytes. -/
def deserialize (pn : PNCounter) (buf : List UInt8) (size : Nat) : Result × PNCounter :=
  if size < 4 * 2 then (.errInvalid, pn)
  else
    let (res, pos) := pn.positive.deserialize buf size
    let pn := { pn with positive := pos }
    if res ≠ .ok then (res, pn)
    else
      let posSize := pos.serializedSize
      let (res', neg) := pn.negative.deserialize (buf.drop posSize) (size - posSize)
      (res', { pn with negative := neg })

/-! ## Counters the code reaches -/

/-- The representation invariant: both halves are well-formed G-Counters. -/
structure WF (pn : PNCounter) : Prop where
  positive : pn.positive.WF
  negative : pn.negative.WF

/-- The counters reachable from `cauchy_pncounter_init` by the calls that write one, on any
arguments, whatever each call returns. -/
inductive Reachable : PNCounter → Prop
  | init (n : Nat) : Reachable (init n)
  | increment {pn : PNCounter} (k : Nat) : Reachable pn → Reachable (pn.increment k)
  | decrement {pn : PNCounter} (k : Nat) : Reachable pn → Reachable (pn.decrement k)
  | add {pn : PNCounter} (k : Nat) (d : Int) : Reachable pn → Reachable (pn.add k d)
  | merge {pn src : PNCounter} : Reachable pn → Reachable src → Reachable (pn.merge src)
  | copy {pn src : PNCounter} : Reachable pn → Reachable src → Reachable (pn.copy src)
  | deserialize {pn : PNCounter} (buf : List UInt8) (size : Nat) :
      Reachable pn → Reachable (pn.deserialize buf size).2

/-- What a decode does: fail on the size, fail on `positive` and leave the counter, or decode
`positive` and then run the decode of `negative` from `pos_size` on. -/
theorem deserialize_cases (pn : PNCounter) (buf : List UInt8) (size : Nat) :
    (size < 8 ∧ pn.deserialize buf size = (.errInvalid, pn)) ∨
      (8 ≤ size ∧ (pn.positive.deserialize buf size).1 ≠ .ok ∧
        pn.deserialize buf size = ((pn.positive.deserialize buf size).1, pn)) ∨
      (8 ≤ size ∧ (pn.positive.deserialize buf size).1 = .ok ∧
        pn.deserialize buf size =
          ((pn.negative.deserialize (buf.drop (pn.positive.deserialize buf size).2.serializedSize)
              (size - (pn.positive.deserialize buf size).2.serializedSize)).1,
            ⟨(pn.positive.deserialize buf size).2,
              (pn.negative.deserialize
                (buf.drop (pn.positive.deserialize buf size).2.serializedSize)
                (size - (pn.positive.deserialize buf size).2.serializedSize)).2⟩)) := by
  unfold deserialize
  split
  · exact .inl ⟨by omega, rfl⟩
  · by_cases hp : (pn.positive.deserialize buf size).1 = .ok
    · refine .inr (.inr ⟨by omega, hp, ?_⟩)
      simp only [hp, ne_eq, not_true_eq_false, if_false]
    · refine .inr (.inl ⟨by omega, hp, ?_⟩)
      simp only [hp, ne_eq, not_false_eq_true, if_true]
      rw [GCounter.deserialize_of_ne_ok hp]

section WF

variable {pn src : PNCounter}

theorem wf_init (n : Nat) : WF (init n) := ⟨GCounter.wf_init n, GCounter.wf_init n⟩

theorem WF.deserialize (h : WF pn) (buf : List UInt8) (size : Nat) :
    WF (pn.deserialize buf size).2 := by
  rcases deserialize_cases pn buf size with ⟨-, hd⟩ | ⟨-, -, hd⟩ | ⟨-, -, hd⟩ <;> rw [hd]
  exacts [h, h, ⟨h.positive.deserialize buf size, h.negative.deserialize _ _⟩]

theorem Reachable.wf (h : Reachable pn) : WF pn := by
  induction h with
  | init n => exact wf_init n
  | increment k _ ih => exact ⟨ih.positive.add k 1, ih.negative⟩
  | decrement k _ ih => exact ⟨ih.positive, ih.negative.add k 1⟩
  | add k d _ ih =>
    unfold PNCounter.add
    split
    exacts [⟨ih.positive.add _ _, ih.negative⟩, ⟨ih.positive, ih.negative.add _ _⟩]
  | merge _ _ ih ih' => exact ⟨ih.positive.merge ih'.positive, ih.negative.merge ih'.negative⟩
  | copy _ _ _ ih' => exact ih'
  | deserialize buf size _ ih => exact ih.deserialize buf size

end WF

/-! ## The value -/

section Value

variable {pn : PNCounter}

/-- Where both halves' values are below `2 ^ 63`, `value` is their exact difference. -/
theorem value_eq_of_lt (hp : pn.positive.value < 2 ^ 63) (hn : pn.negative.value < 2 ^ 63) :
    pn.value = some ((pn.positive.value : Int) - pn.negative.value) := by
  rw [value, toI64, toI64, if_pos hp, if_pos hn, i64Result, if_pos (by omega)]

/-- One node: `add (0, 2^63 - 1)`, `increment (0)`, `decrement (0)`, deltas that sum to
`2^63 - 1`. -/
def pastInt64Max : PNCounter := (((init 1).add 0 (2 ^ 63 - 1)).increment 0).decrement 0

/-- **`value` and `add` overflow `i64`.**  On `pastInt64Max` the halves' values are `2^63` and `1`,
and the deltas applied sum to `2^63 - 1`, an `i64`; but `(i64)` of `2^63` is `INT64_MIN`, and
`INT64_MIN - 1` overflows.  `cauchy_pncounter_add` with `delta = INT64_MIN` negates it, which
overflows too. -/
theorem value_overflows :
    Reachable pastInt64Max ∧ pastInt64Max.positive.value = 2 ^ 63 ∧
      pastInt64Max.negative.value = 1 ∧ pastInt64Max.value = none ∧ negDelta (-2 ^ 63) = none :=
  ⟨.decrement 0 (.increment 0 (.add 0 _ (.init 1))), by decide, by decide, by decide, by decide⟩

end Value

/-! ## The wire format -/

section Wire

variable {pn : PNCounter}

theorem four_le_serializedSize (g : GCounter) : 4 ≤ g.serializedSize := by
  simp [GCounter.serializedSize, countsSize]

/-- A serialize with room for both halves writes the bytes of both, one after the other. -/
theorem serialize_of_le (buf : List UInt8) {size : Nat} (hs : pn.serializedSize ≤ size) :
    pn.serialize buf size =
      (pn.serializedSize, encodeCounts pn.positive.counts pn.positive.numNodes ++
        encodeCounts pn.negative.counts pn.negative.numNodes ++ buf.drop pn.serializedSize) := by
  have hp : pn.positive.serializedSize ≤ size := by unfold serializedSize at hs; omega
  have hn : pn.negative.serializedSize ≤ size - pn.positive.serializedSize := by
    unfold serializedSize at hs; omega
  have hlen : (encodeCounts pn.positive.counts pn.positive.numNodes).length =
      pn.positive.serializedSize := by simp [GCounter.serializedSize]
  have h0 : pn.positive.serializedSize ≠ 0 := by have := four_le_serializedSize pn.positive; omega
  have h0' : pn.negative.serializedSize ≠ 0 := by have := four_le_serializedSize pn.negative; omega
  rw [serialize, if_neg (by omega), GCounter.serialize_of_le buf hp]
  dsimp only
  rw [if_neg h0, ← hlen, List.drop_left, hlen, GCounter.serialize_of_le _ hn]
  dsimp only
  rw [if_neg h0', List.take_left' hlen, List.drop_drop]
  simp [serializedSize, List.append_assoc, Nat.add_comm]

/-- **PN-Counters round-trip through their bytes.** -/
theorem deserialize_serialize (h : WF pn) (buf : List UInt8) {size size' : Nat}
    (hs : pn.serializedSize ≤ size) (hs' : pn.serializedSize ≤ size') (y : PNCounter) :
    (pn.serialize buf size).1 = pn.serializedSize ∧
      y.deserialize (pn.serialize buf size).2 size' = (.ok, pn) := by
  rw [serialize_of_le buf hs]
  refine ⟨rfl, ?_⟩
  have h8 : ¬ size' < 4 * 2 := by
    have := four_le_serializedSize pn.positive; have := four_le_serializedSize pn.negative
    unfold serializedSize at hs'; omega
  have hpos : y.positive.deserialize (encodeCounts pn.positive.counts pn.positive.numNodes ++
      encodeCounts pn.negative.counts pn.negative.numNodes ++ buf.drop pn.serializedSize) size' =
      (.ok, pn.positive) := by
    rw [List.append_assoc]
    exact GCounter.deserialize_encodeCounts h.positive _ (by unfold serializedSize at hs'; omega) _
  have hlen : (encodeCounts pn.positive.counts pn.positive.numNodes).length =
      pn.positive.serializedSize := by simp [GCounter.serializedSize]
  rw [deserialize, if_neg h8, hpos]
  dsimp only
  rw [if_neg (by decide), List.append_assoc, ← hlen, List.drop_left, hlen,
    GCounter.deserialize_encodeCounts h.negative _ (by unfold serializedSize at hs'; omega)]

/-- **Bytes round-trip through PN-Counters.**  When a decode succeeds, serializing the counter it
leaves returns the bytes it consumed: those of `positive`, then those of `negative`. -/
theorem serialize_deserialize {buf : List UInt8} {size : Nat}
    (h : (pn.deserialize buf size).1 = .ok) (buf' : List UInt8) {size' : Nat}
    (hs : (pn.deserialize buf size).2.serializedSize ≤ size') :
    ((pn.deserialize buf size).2.serialize buf' size').1 =
        (pn.deserialize buf size).2.serializedSize ∧
      ((pn.deserialize buf size).2.serialize buf' size').2.take
          (pn.deserialize buf size).2.serializedSize =
        (List.range (pn.deserialize buf size).2.serializedSize).map fun j => buf.getD j 0 := by
  rw [serialize_of_le buf' hs]
  refine ⟨rfl, ?_⟩
  rcases deserialize_cases pn buf size with ⟨-, hd⟩ | ⟨-, hp, hd⟩ | ⟨-, hp, hd⟩ <;>
    rw [hd] at h ⊢
  · cases h
  · exact absurd h hp
  · set p := pn.positive.deserialize buf size
    set q := pn.negative.deserialize (buf.drop p.2.serializedSize) (size - p.2.serializedSize)
    have hP := (GCounter.serialize_deserialize hp [] le_rfl).2
    have hQ := (GCounter.serialize_deserialize h [] le_rfl).2
    rw [GCounter.serialize_of_le _ le_rfl, List.take_left' (by simp [GCounter.serializedSize])]
      at hP hQ
    rw [List.take_left' (by simp [serializedSize, GCounter.serializedSize]), hP, hQ,
      serializedSize, List.range_add, List.map_append, List.map_map]
    simp only [Function.comp_def, List.getD_eq_getElem?_getD, List.getElem?_drop]

/-- A decode that succeeds leaves both halves well formed. -/
theorem wf_of_deserialize_ok {buf : List UInt8} {size : Nat}
    (h : (pn.deserialize buf size).1 = .ok) : WF (pn.deserialize buf size).2 := by
  rcases deserialize_cases pn buf size with ⟨-, hd⟩ | ⟨-, hp, hd⟩ | ⟨-, hp, hd⟩ <;>
    rw [hd] at h ⊢
  · cases h
  · exact absurd h hp
  · exact ⟨GCounter.wf_of_deserialize_ok hp, GCounter.wf_of_deserialize_ok h⟩

/-- The decoder reads no byte at or past `size`: the second decode reads from `pos_size` on, and
no further than `size`. -/
theorem deserialize_congr {buf buf' : List UInt8} {size : Nat}
    (h : ∀ i < size, buf.getD i 0 = buf'.getD i 0) :
    pn.deserialize buf size = pn.deserialize buf' size := by
  have hneg : ∀ p, pn.negative.deserialize (buf.drop p) (size - p) =
      pn.negative.deserialize (buf'.drop p) (size - p) := fun p =>
    GCounter.deserialize_congr fun i hi => by
      rw [List.getD_eq_getElem?_getD, List.getElem?_drop, ← List.getD_eq_getElem?_getD,
        List.getD_eq_getElem?_getD (buf'.drop _), List.getElem?_drop,
        ← List.getD_eq_getElem?_getD]
      exact h _ (by omega)
  unfold deserialize
  rw [GCounter.deserialize_congr (g := pn.positive) h]
  simp only [hneg]

/-- The serializer writes no byte at or past what it returns, which is at most `size`, and
writes nothing when `size` is too small. -/
theorem serialize_frame (pn : PNCounter) (buf : List UInt8) (size : Nat) :
    (pn.serialize buf size).1 ≤ size ∧
      (∀ i, (pn.serialize buf size).1 ≤ i → (pn.serialize buf size).2.getD i 0 = buf.getD i 0) ∧
      (size < pn.serializedSize → pn.serialize buf size = (0, buf)) := by
  by_cases hs : pn.serializedSize ≤ size
  · rw [serialize_of_le buf hs]
    refine ⟨hs, fun i hi => ?_, fun h => absurd h (by omega)⟩
    have hlen : (encodeCounts pn.positive.counts pn.positive.numNodes ++
        encodeCounts pn.negative.counts pn.negative.numNodes).length = pn.serializedSize := by
      simp [serializedSize, GCounter.serializedSize]
    rw [← hlen] at hi ⊢
    exact getD_append_drop hi
  · have hser : pn.serialize buf size = (0, buf) := by rw [serialize, if_pos (by omega)]
    rw [hser]
    exact ⟨Nat.zero_le _, fun _ _ => rfl, fun _ => rfl⟩

end Wire

end PNCounter
end Cauchy
