import Cauchy.Core.Wire

/-!
# The LWW-Register

`src/crdt/lww_register.c`.  A `cauchy_lww_register_t` is a 256-byte value buffer, the number
`value_size` of its bytes in use, and the stamp `(timestamp, node_id)` of the write it holds.
`set` and `merge` replace the register when the incoming stamp is lexicographically above the
register's; the two tests are written separately in the C code and are the one `supersedes`
here.

The buffer is `value : Nat → UInt8`, the memory that starts at `reg->value`: its first
`CAUCHY_LWW_MAX_VALUE_SIZE` bytes are the buffer, and what lies past them is not part of the
register.  The writers (`set`, `deserialize`) copy at most `CAUCHY_LWW_MAX_VALUE_SIZE` bytes,
but the readers (`get`, the `memcmp` of `equals`, the `memcpy` of `serialize`) read
`value_size` bytes, so they stay inside the buffer exactly when `value_size` does:
`InBuffer`.

`deserialize_leaves_oversized_register` is why that is not a property of every register the
code reaches: `cauchy_lww_deserialize` stores the three header fields into the register before
it checks `value_size` against the bound, and returns `CAUCHY_ERR_INVALID` with the register
already holding the oversized `value_size`.

`set` takes the value pointer as `Option (List UInt8)`, `none` for `NULL`, with the bytes at the
pointer; `memcpy` from it reads `value_size` of them, and the model reads past the end of the
list as `0`, which only a caller that breaks the `value_size` contract sees.  The null checks of
the register arguments are left out: every register here exists.
-/

set_option autoImplicit false

namespace Cauchy

/-- `CAUCHY_LWW_MAX_VALUE_SIZE`. -/
def maxValueSize : Nat := 256

/-- `cauchy_lww_register_t`. -/
structure LWWRegister where
  value : Nat → UInt8
  valueSize : Nat
  timestamp : Nat
  nodeId : Nat

namespace LWWRegister

/-- `cauchy_lww_init`: the all-zero register. -/
def init : LWWRegister := ⟨fun _ => 0, 0, 0, 0⟩

/-- `memcpy (dst, src, n)` on the value buffer. -/
def copyInto (dst src : Nat → UInt8) (n : Nat) : Nat → UInt8 :=
  fun i => if i < n then src i else dst i

/-- The accept test of `cauchy_lww_set` and `cauchy_lww_merge`: the stamp `(ts, node)` is
lexicographically above the register's. -/
def supersedes (ts node : Nat) (reg : LWWRegister) : Bool :=
  ts > reg.timestamp || (ts == reg.timestamp && node > reg.nodeId)

/-- `cauchy_lww_set`. -/
def set (reg : LWWRegister) (value : Option (List UInt8)) (valueSize timestamp nodeId : Nat) :
    Result × LWWRegister :=
  if valueSize > maxValueSize then (.errFull, reg)
  else if supersedes timestamp nodeId reg then
    (.ok, { value := match value with
              | some v => if valueSize > 0 then copyInto reg.value (v.getD · 0) valueSize
                          else reg.value
              | none => reg.value
            valueSize, timestamp, nodeId })
  else (.ok, reg)

/-- `cauchy_lww_copy`: `memcpy` of the whole structure. -/
def copy (_dst src : LWWRegister) : LWWRegister := src

/-- `cauchy_lww_merge`. -/
def merge (dst src : LWWRegister) : LWWRegister :=
  if supersedes src.timestamp src.nodeId dst then copy dst src else dst

/-- `cauchy_lww_equals`: the same stamp, the same `value_size`, and `memcmp` of that many bytes. -/
def equals (a b : LWWRegister) : Bool :=
  a.timestamp == b.timestamp && a.nodeId == b.nodeId && a.valueSize == b.valueSize &&
    (List.range a.valueSize).all fun i => a.value i == b.value i

/-- `cauchy_lww_get`: `NULL` for an empty register, otherwise the `value_size` bytes a caller
reads through the pointer it returns. -/
def get (reg : LWWRegister) : Option (List UInt8) :=
  if reg.valueSize = 0 then none else some ((List.range reg.valueSize).map reg.value)

/-- `cauchy_lww_serialized_size`: the three 8-byte header fields and the value, summed as a
`usize`. -/
def serializedSize (reg : LWWRegister) : Nat := (8 + 8 + 8 + reg.valueSize) % 2 ^ 64

/-- `cauchy_lww_serialize` into a buffer of `size` bytes: what it returns and the buffer after
the call.  Nothing is written when `size` is below `serialized_size`; otherwise the `memcpy`s
write the header and `value_size` bytes of the value, whatever `serialized_size` came to. -/
def serialize (reg : LWWRegister) (buf : List UInt8) (size : Nat) : Nat × List UInt8 :=
  if size < reg.serializedSize then (0, buf)
  else (reg.serializedSize,
    encodeU64 reg.timestamp ++ encodeU64 reg.nodeId ++ encodeU64 reg.valueSize ++
      (List.range reg.valueSize).map reg.value ++ buf.drop (8 + 8 + 8 + reg.valueSize))

/-- `cauchy_lww_deserialize` from a buffer of `size` bytes.  The header is stored into the
register before `value_size` is checked. -/
def deserialize (reg : LWWRegister) (buf : List UInt8) (size : Nat) : Result × LWWRegister :=
  if size < 8 + 8 + 8 then (.errInvalid, reg)
  else
    let reg := { reg with
      timestamp := readU64 buf 0, nodeId := readU64 buf 8, valueSize := readU64 buf 16 }
    if reg.valueSize > maxValueSize then (.errInvalid, reg)
    else if size < 24 + reg.valueSize then (.errInvalid, reg)
    else if reg.valueSize > 0 then
      (.ok, { reg with value := copyInto reg.value (fun i => buf.getD (24 + i) 0) reg.valueSize })
    else (.ok, reg)

/-! ## Registers the code reaches -/

/-- Every byte `get`, `equals` and `serialize` read is one of the register's buffer. -/
def InBuffer (reg : LWWRegister) : Prop := reg.valueSize ≤ maxValueSize

instance (reg : LWWRegister) : Decidable reg.InBuffer := inferInstanceAs (Decidable (_ ≤ _))

/-- The `serialized_size` of a register whose value fits its buffer does not wrap. -/
theorem serializedSize_of_inBuffer {reg : LWWRegister} (h : reg.InBuffer) :
    reg.serializedSize = 8 + 8 + 8 + reg.valueSize :=
  Nat.mod_eq_of_lt (by unfold InBuffer maxValueSize at h; omega)

/-- The registers reachable from `cauchy_lww_init` by `set`, `merge`, `copy` and `deserialize`
calls on any arguments, whatever each call returns. -/
inductive Reachable : LWWRegister → Prop
  | init : Reachable init
  | set {reg : LWWRegister} (value : Option (List UInt8)) (valueSize ts node : Nat) :
      Reachable reg → Reachable (reg.set value valueSize ts node).2
  | merge {reg src : LWWRegister} : Reachable reg → Reachable src → Reachable (reg.merge src)
  | copy {reg src : LWWRegister} : Reachable reg → Reachable src → Reachable (reg.copy src)
  | deserialize {reg : LWWRegister} (buf : List UInt8) (size : Nat) :
      Reachable reg → Reachable (reg.deserialize buf size).2

/-- The header of a peer's buffer claiming a 257-byte value, with no value bytes after it. -/
def oversizedHeader : List UInt8 := List.replicate 16 0 ++ [1, 1, 0, 0, 0, 0, 0, 0]

/-- **`deserialize` leaves an oversized register behind.**  Fed the 24-byte header above,
`cauchy_lww_deserialize` returns `CAUCHY_ERR_INVALID` but has already set `value_size` to `257`,
so the reachable register it leaves is not `InBuffer`: `get` hands out 257 bytes of a 256-byte
buffer. -/
theorem deserialize_leaves_oversized_register :
    (deserialize init oversizedHeader 24).1 = .errInvalid ∧
      Reachable (deserialize init oversizedHeader 24).2 ∧
      (deserialize init oversizedHeader 24).2.valueSize = 257 ∧
      ¬ InBuffer (deserialize init oversizedHeader 24).2 ∧
      ((deserialize init oversizedHeader 24).2.get.map List.length) = some 257 := by
  have hs : (deserialize init oversizedHeader 24).2.valueSize = 257 := by decide
  exact ⟨by decide, .deserialize _ _ .init, hs, by simp [InBuffer, hs, maxValueSize],
    by simp [get, hs]⟩

/-! ## The wire format -/

/-- A register the wire format carries: its value fits the buffer, and its stamp is a pair of
`u64`s. -/
structure WF (reg : LWWRegister) : Prop where
  inBuffer : reg.InBuffer
  timestamp_lt : reg.timestamp < 2 ^ 64
  nodeId_lt : reg.nodeId < 2 ^ 64

theorem serialize_of_le (reg : LWWRegister) (buf : List UInt8) {size : Nat}
    (hs : reg.serializedSize ≤ size) :
    reg.serialize buf size = (reg.serializedSize,
      encodeU64 reg.timestamp ++ encodeU64 reg.nodeId ++ encodeU64 reg.valueSize ++
        (List.range reg.valueSize).map reg.value ++ buf.drop (8 + 8 + 8 + reg.valueSize)) := by
  rw [serialize, if_neg (by omega)]

/-- What a decode does: fail before it writes, fail after it wrote the header, or succeed. -/
theorem deserialize_cases (reg : LWWRegister) (buf : List UInt8) (size : Nat) :
    (size < 24 ∧ reg.deserialize buf size = (.errInvalid, reg)) ∨
      (24 ≤ size ∧ (maxValueSize < readU64 buf 16 ∨ size < 24 + readU64 buf 16) ∧
        reg.deserialize buf size =
          (.errInvalid, ⟨reg.value, readU64 buf 16, readU64 buf 0, readU64 buf 8⟩)) ∨
      (24 ≤ size ∧ readU64 buf 16 ≤ maxValueSize ∧ 24 + readU64 buf 16 ≤ size ∧
        reg.deserialize buf size = (.ok, ⟨copyInto reg.value (fun i => buf.getD (24 + i) 0)
          (readU64 buf 16), readU64 buf 16, readU64 buf 0, readU64 buf 8⟩)) := by
  unfold deserialize
  split
  · exact .inl ⟨by omega, rfl⟩
  · dsimp only
    split
    · exact .inr (.inl ⟨by omega, .inl (by omega), rfl⟩)
    · split
      · exact .inr (.inl ⟨by omega, .inr (by omega), rfl⟩)
      · refine .inr (.inr ⟨by omega, by omega, by omega, ?_⟩)
        split
        · rfl
        · have h0 : readU64 buf 16 = 0 := by omega
          simp only [h0]
          congr

section Wire

variable {reg : LWWRegister}

/-- The three header words of serialized bytes, read back at offsets `0`, `8` and `16`. -/
theorem readU64_header (t n v : Nat) (rest : List UInt8) :
    readU64 (encodeU64 t ++ encodeU64 n ++ encodeU64 v ++ rest) 0 = t % 2 ^ 64 ∧
      readU64 (encodeU64 t ++ encodeU64 n ++ encodeU64 v ++ rest) 8 = n % 2 ^ 64 ∧
      readU64 (encodeU64 t ++ encodeU64 n ++ encodeU64 v ++ rest) 16 = v % 2 ^ 64 :=
  ⟨by simpa using readU64_append_encodeU64 t [] (encodeU64 n ++ encodeU64 v ++ rest),
    by simpa using readU64_append_encodeU64 n (encodeU64 t) (encodeU64 v ++ rest),
    by simpa using readU64_append_encodeU64 v (encodeU64 t ++ encodeU64 n) rest⟩

/-- **Registers round-trip through their bytes.**  A register that fits the format, serialized
into a buffer of `size ≥ serialized_size` bytes, returns that size, and the buffer decodes, with
any `size'` that covers the bytes and into any register, to a register `cauchy_lww_equals` to
it. -/
theorem deserialize_serialize (h : WF reg) (buf : List UInt8) {size size' : Nat}
    (hs : reg.serializedSize ≤ size) (hs' : reg.serializedSize ≤ size') (y : LWWRegister) :
    (reg.serialize buf size).1 = reg.serializedSize ∧
      (y.deserialize (reg.serialize buf size).2 size').1 = .ok ∧
      (y.deserialize (reg.serialize buf size).2 size').2.equals reg = true := by
  rw [serialize_of_le reg buf hs, List.append_assoc _ ((List.range _).map _)]
  refine ⟨rfl, ?_⟩
  set bytes := (List.range reg.valueSize).map reg.value ++ buf.drop (8 + 8 + 8 + reg.valueSize)
  obtain ⟨h0, h8, h16⟩ := readU64_header reg.timestamp reg.nodeId reg.valueSize bytes
  have hv : reg.valueSize < 2 ^ 64 := lt_of_le_of_lt h.inBuffer (by norm_num [maxValueSize])
  have hval : ∀ i < reg.valueSize, (encodeU64 reg.timestamp ++ encodeU64 reg.nodeId ++
      encodeU64 reg.valueSize ++ bytes).getD (24 + i) 0 = reg.value i := fun i hi => by
    rw [List.getD_append_right _ _ _ _ (by simp), List.getD_append _ _ _ _ (by simp; omega)]
    simp [hi]
  rw [serializedSize_of_inBuffer h.inBuffer] at hs'
  rcases deserialize_cases y (encodeU64 reg.timestamp ++ encodeU64 reg.nodeId ++
      encodeU64 reg.valueSize ++ bytes) size' with ⟨h24, -⟩ | ⟨-, hbad, -⟩ | ⟨-, -, -, hd⟩
  · omega
  · have := h.inBuffer
    unfold InBuffer at this
    omega
  · rw [hd, h0, h8, h16, Nat.mod_eq_of_lt h.timestamp_lt, Nat.mod_eq_of_lt h.nodeId_lt,
      Nat.mod_eq_of_lt hv]
    refine ⟨rfl, ?_⟩
    simp only [equals, beq_self_eq_true, Bool.and_true, Bool.true_and, List.all_eq_true,
      List.mem_range, beq_iff_eq]
    intro i hi
    simp only [copyInto, hi, if_true, hval i hi]

/-- **Bytes round-trip through registers.**  When a decode succeeds, serializing the register it
leaves returns the bytes it consumed: the header, then the value. -/
theorem serialize_deserialize {buf : List UInt8} {size : Nat}
    (h : (reg.deserialize buf size).1 = .ok) (buf' : List UInt8) {size' : Nat}
    (hs : (reg.deserialize buf size).2.serializedSize ≤ size') :
    ((reg.deserialize buf size).2.serialize buf' size').1 =
        (reg.deserialize buf size).2.serializedSize ∧
      ((reg.deserialize buf size).2.serialize buf' size').2.take
          (reg.deserialize buf size).2.serializedSize =
        (List.range (reg.deserialize buf size).2.serializedSize).map fun j => buf.getD j 0 := by
  rw [serialize_of_le _ buf' hs]
  refine ⟨rfl, ?_⟩
  rcases deserialize_cases reg buf size with ⟨-, hd⟩ | ⟨-, -, hd⟩ | ⟨-, hv, -, hd⟩ <;>
    rw [hd] at h ⊢
  · cases h
  · cases h
  · dsimp only [serializedSize]
    rw [Nat.mod_eq_of_lt (show 8 + 8 + 8 + readU64 buf 16 < 2 ^ 64 by
      unfold maxValueSize at hv; omega), List.take_left' (by simp; omega)]
    have hval : (List.range (readU64 buf 16)).map (copyInto reg.value
        (fun i => buf.getD (24 + i) 0) (readU64 buf 16)) =
        (List.range (readU64 buf 16)).map fun i => buf.getD (24 + i) 0 :=
      List.map_congr_left fun i hi => by simp [copyInto, List.mem_range.1 hi]
    rw [encodeU64_readU64, encodeU64_readU64, encodeU64_readU64, hval, List.range_add,
      List.range_add (8 + 8), List.range_add 8]
    simp only [List.map_append, List.map_map, Function.comp_def, Nat.zero_add]

/-- A decode that succeeds leaves a register the format carries. -/
theorem wf_of_deserialize_ok {buf : List UInt8} {size : Nat}
    (h : (reg.deserialize buf size).1 = .ok) : WF (reg.deserialize buf size).2 := by
  rcases deserialize_cases reg buf size with ⟨-, hd⟩ | ⟨-, -, hd⟩ | ⟨-, hv, -, hd⟩ <;>
    rw [hd] at h ⊢
  · cases h
  · cases h
  · exact ⟨hv, readU64_lt _ _, readU64_lt _ _⟩

/-- The decoder reads no byte at or past `size`. -/
theorem deserialize_congr {buf buf' : List UInt8} {size : Nat}
    (h : ∀ i < size, buf.getD i 0 = buf'.getD i 0) :
    reg.deserialize buf size = reg.deserialize buf' size := by
  have hr : ∀ k, k + 8 ≤ size → readU64 buf k = readU64 buf' k :=
    fun k hk => readU64_congr fun j hj => h _ (by omega)
  rcases deserialize_cases reg buf size with ⟨h24, hd⟩ | ⟨h24, hbad, hd⟩ | ⟨h24, hv, hs, hd⟩
  · rcases deserialize_cases reg buf' size with ⟨-, hd'⟩ | ⟨h24', -⟩ | ⟨h24', -⟩
    · rw [hd, hd']
    all_goals omega
  · have h16 := hr 16 (by omega)
    rcases deserialize_cases reg buf' size with ⟨h24', -⟩ | ⟨-, -, hd'⟩ | ⟨-, hv', hs', -⟩
    · omega
    · rw [hd, hd', hr 0 (by omega), hr 8 (by omega), h16]
    · rw [h16] at hbad; omega
  · have h16 := hr 16 (by omega)
    rcases deserialize_cases reg buf' size with ⟨h24', -⟩ | ⟨-, hbad', -⟩ | ⟨-, -, -, hd'⟩
    · omega
    · rw [← h16] at hbad'; omega
    · have hcopy : copyInto reg.value (fun i => buf.getD (24 + i) 0) (readU64 buf 16) =
          copyInto reg.value (fun i => buf'.getD (24 + i) 0) (readU64 buf 16) := by
        funext i
        unfold copyInto
        split
        · exact h _ (by omega)
        · rfl
      rw [hd, hd', hcopy, hr 0 (by omega), hr 8 (by omega), h16]

/-- While `serialized_size` does not wrap, the serializer writes no byte at or past what it
returns, which is at most `size`, and writes nothing when `size` is too small. -/
theorem serialize_frame (reg : LWWRegister) (hw : 8 + 8 + 8 + reg.valueSize < 2 ^ 64)
    (buf : List UInt8) (size : Nat) :
    (reg.serialize buf size).1 ≤ size ∧
      (∀ i, (reg.serialize buf size).1 ≤ i → (reg.serialize buf size).2.getD i 0 = buf.getD i 0) ∧
      (size < reg.serializedSize → reg.serialize buf size = (0, buf)) := by
  by_cases hs : reg.serializedSize ≤ size
  · rw [serialize_of_le reg buf hs]
    refine ⟨hs, fun i hi => ?_, fun h => absurd h (by omega)⟩
    have hlen : (encodeU64 reg.timestamp ++ encodeU64 reg.nodeId ++ encodeU64 reg.valueSize ++
        (List.range reg.valueSize).map reg.value).length = 8 + 8 + 8 + reg.valueSize := by
      simp; omega
    rw [show reg.serializedSize = _ from Nat.mod_eq_of_lt hw, ← hlen] at hi
    rw [← hlen]
    exact getD_append_drop hi
  · have hser : reg.serialize buf size = (0, buf) := by rw [serialize, if_pos (by omega)]
    rw [hser]
    exact ⟨Nat.zero_le _, fun _ _ => rfl, fun _ => rfl⟩

/-- The header of a peer's buffer claiming a value of `2 ^ 64 - 8` bytes. -/
def hugeHeader : List UInt8 := List.replicate 16 0 ++ encodeU64 (2 ^ 64 - 8)

/-- **`serialized_size` wraps.**  Fed `hugeHeader`, `cauchy_lww_deserialize` returns
`CAUCHY_ERR_INVALID` with `value_size = 2 ^ 64 - 8` left in the register.  Its
`serialized_size`, `24 + value_size` as a `usize`, wraps to `16`, so `cauchy_lww_serialize` into
a 16-byte buffer passes its size check, returns `16`, and goes on writing the 24-byte header and
the value past the buffer's end: the byte at offset `16` is the low byte of `value_size`. -/
theorem serialize_writes_past_size :
    (deserialize init hugeHeader 24).1 = .errInvalid ∧
      Reachable (deserialize init hugeHeader 24).2 ∧
      (deserialize init hugeHeader 24).2.serializedSize = 16 ∧
      ((deserialize init hugeHeader 24).2.serialize (List.replicate 16 0) 16).1 = 16 ∧
      ((deserialize init hugeHeader 24).2.serialize (List.replicate 16 0) 16).2.getD 16 0 = 248 := by
  have hd : deserialize init hugeHeader 24 = (.errInvalid, ⟨fun _ => 0, 2 ^ 64 - 8, 0, 0⟩) := rfl
  have hsz : (⟨fun _ => 0, 2 ^ 64 - 8, 0, 0⟩ : LWWRegister).serializedSize = 16 := rfl
  rw [hd, serialize_of_le _ _ (le_of_eq hsz)]
  refine ⟨rfl, hd ▸ .deserialize _ _ .init, hsz, hsz, ?_⟩
  -- the offset lies in the header: read it there, never forming the value's bytes
  rw [List.getD_append _ _ _ _ (by simp only [List.length_append, length_encodeU64,
      List.length_map, List.length_range]; omega),
    List.getD_append _ _ _ _ (by simp only [List.length_append, length_encodeU64]; omega)]
  rfl

/-- A decode that fails before the header is read leaves the register; one that fails after has
overwritten the header. -/
theorem deserialize_of_ne_ok {buf : List UInt8} {size : Nat}
    (h : (reg.deserialize buf size).1 ≠ .ok) :
    (reg.deserialize buf size).2 = reg ∨ (24 ≤ size ∧
      (reg.deserialize buf size).2 =
        ⟨reg.value, readU64 buf 16, readU64 buf 0, readU64 buf 8⟩) := by
  rcases deserialize_cases reg buf size with ⟨-, hd⟩ | ⟨h24, -, hd⟩ | ⟨-, -, -, hd⟩ <;>
    rw [hd] at h ⊢
  · exact .inl rfl
  · exact .inr ⟨h24, rfl⟩
  · exact absurd rfl h

end Wire

end LWWRegister
end Cauchy
