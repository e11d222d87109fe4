import Cauchy.Core.Types

/-!
# Little-endian words and the counter wire format

The encoders of the library write their integers into the buffer with `memcpy`, and the decoders
read them back the same way; on a little-endian host those are `readU32`, `readU64`, `encodeU32`
and `encodeU64` of `Cauchy.Core.Types`.  The first half of this file
proves, once and for any width `k`, what the wire formats need of them.  `readLE` and `encodeLE`
are the words as recursions on the number of bytes, equal to the four definitions
(`readU64_eq`, `encodeU64_eq`, …).  Reading back the bytes of `n` gives `n` modulo `256 ^ k`
(`readLE_append_encodeLE`), encoding the word read from a buffer gives back its bytes
(`encodeLE_readLE`), and a read looks at no byte outside its `k` (`readLE_congr`).

`cauchy_vclock_serialize` and `cauchy_gcounter_serialize` are one function on two structs of the
same layout — `num_nodes` as a `u32`, then the first `num_nodes` entries as `u64`s — and so are the
two decoders.  The second half models that format once, over the entries `f : Nat → Nat` and the
`num_nodes` `n` (`serializeCounts`, `deserializeCounts`), and proves its two round trips
(`deserializeCounts_encodeCounts`, `encodeCounts_of_deserializeCounts`) and its bounds
(`deserializeCounts_congr`, `serializeCounts_frame`); the vector clock and the G-Counter inherit
them.
-/

set_option autoImplicit false

namespace Cauchy

/-! ## Words of any width -/

/-- The `k`-byte little-endian word at `buf[off .. off + k)`. -/
def readLE : Nat → List UInt8 → Nat → Nat
  | 0, _, _ => 0
  | k + 1, buf, off => (buf.getD off 0).toNat + 256 * readLE k buf (off + 1)

/-- The `k` little-endian bytes of `n`; the bytes above the `k`-th are dropped. -/
def encodeLE : Nat → Nat → List UInt8
  | 0, _ => []
  | k + 1, n => (n % 256).toUInt8 :: encodeLE k (n / 256)

theorem toUInt8_toNat (x : UInt8) : x.toNat.toUInt8 = x :=
  UInt8.toNat.inj (UInt8.toNat_ofNat_of_lt x.toNat_lt)

@[simp] theorem length_encodeLE (k n : Nat) : (encodeLE k n).length = k := by
  induction k generalizing n with
  | zero => rfl
  | succ k ih => simp [encodeLE, ih]

theorem readLE_eq_foldr (k : Nat) (buf : List UInt8) (off : Nat) :
    readLE k buf off =
      (List.range k).foldr (fun j acc => (buf.getD (off + j) 0).toNat + 256 * acc) 0 := by
  induction k generalizing off with
  | zero => rfl
  | succ k ih =>
    rw [List.range_succ_eq_map, List.foldr_cons, List.foldr_map, readLE, ih]
    simp only [Nat.add_zero, Nat.succ_eq_add_one, Nat.add_assoc, Nat.add_comm 1]

theorem encodeLE_eq_map (k n : Nat) :
    encodeLE k n = (List.range k).map fun j => (n / 256 ^ j % 256).toUInt8 := by
  induction k generalizing n with
  | zero => rfl
  | succ k ih =>
    rw [List.range_succ_eq_map, List.map_cons, List.map_map, encodeLE, ih]
    simp only [pow_zero, Nat.div_one, Function.comp_def, Nat.succ_eq_add_one, pow_succ',
      Nat.div_div_eq_div_mul]

theorem readU32_eq (buf : List UInt8) (off : Nat) : readU32 buf off = readLE 4 buf off :=
  (readLE_eq_foldr 4 buf off).symm

theorem readU64_eq (buf : List UInt8) (off : Nat) : readU64 buf off = readLE 8 buf off :=
  (readLE_eq_foldr 8 buf off).symm

theorem encodeU32_eq (n : Nat) : encodeU32 n = encodeLE 4 n := (encodeLE_eq_map 4 n).symm

theorem encodeU64_eq (n : Nat) : encodeU64 n = encodeLE 8 n := (encodeLE_eq_map 8 n).symm

/-- Reading back the bytes of `n`, wherever they sit in a buffer, gives `n` modulo `256 ^ k`. -/
theorem readLE_append_encodeLE (k n : Nat) (pre rest : List UInt8) :
    readLE k (pre ++ encodeLE k n ++ rest) pre.length = n % 256 ^ k := by
  induction k generalizing pre n with
  | zero => simp [readLE, Nat.mod_one]
  | succ k ih =>
    have hbyte : (pre ++ encodeLE (k + 1) n ++ rest).getD pre.length 0 = (n % 256).toUInt8 := by
      rw [List.append_assoc, List.getD_append_right _ _ _ _ le_rfl, Nat.sub_self]; rfl
    have hrest : pre ++ encodeLE (k + 1) n ++ rest = pre ++ [(n % 256).toUInt8] ++
        encodeLE k (n / 256) ++ rest := by simp [encodeLE]
    rw [readLE, hbyte, UInt8.toNat_ofNat_of_lt (Nat.mod_lt _ (by norm_num)), hrest,
      show pre.length + 1 = (pre ++ [(n % 256).toUInt8]).length by simp, ih, pow_succ',
      Nat.mod_mul]

/-- Encoding the word read from a buffer gives back the bytes it was read from. -/
theorem encodeLE_readLE (k : Nat) (buf : List UInt8) (off : Nat) :
    encodeLE k (readLE k buf off) = (List.range k).map fun j => buf.getD (off + j) 0 := by
  induction k generalizing off with
  | zero => rfl
  | succ k ih =>
    have hb := (buf.getD off 0).toNat_lt
    have hmod : ((buf.getD off 0).toNat + 256 * readLE k buf (off + 1)) % 256 =
        (buf.getD off 0).toNat := by omega
    have hdiv : ((buf.getD off 0).toNat + 256 * readLE k buf (off + 1)) / 256 =
        readLE k buf (off + 1) := by omega
    rw [readLE, encodeLE, hmod, hdiv, toUInt8_toNat, ih, List.range_succ_eq_map, List.map_cons,
      List.map_map]
    simp only [Nat.add_zero, Function.comp_def, Nat.succ_eq_add_one, Nat.add_assoc,
      Nat.add_comm 1]

theorem readLE_lt (k : Nat) (buf : List UInt8) (off : Nat) : readLE k buf off < 256 ^ k := by
  induction k generalizing off with
  | zero => simp [readLE]
  | succ k ih =>
    have hb := (buf.getD off 0).toNat_lt
    have hr := ih (off + 1)
    rw [readLE, pow_succ']
    omega

/-- A read looks only at its own `k` bytes. -/
theorem readLE_congr {k : Nat} {buf buf' : List UInt8} {off : Nat}
    (h : ∀ j < k, buf.getD (off + j) 0 = buf'.getD (off + j) 0) :
    readLE k buf off = readLE k buf' off := by
  induction k generalizing off with
  | zero => rfl
  | succ k ih =>
    have h0 : buf.getD off 0 = buf'.getD off 0 := h 0 (Nat.succ_pos _)
    rw [readLE, readLE, h0, ih fun j hj => by
      simpa only [Nat.add_assoc, Nat.add_comm 1] using h (j + 1) (by omega)]

/-! ## `u64` words -/

theorem readU64_append_encodeU64 (n : Nat) (pre rest : List UInt8) :
    readU64 (pre ++ encodeU64 n ++ rest) pre.length = n % 2 ^ 64 := by
  rw [readU64_eq, encodeU64_eq, readLE_append_encodeLE]; norm_num

theorem encodeU64_readU64 (buf : List UInt8) (off : Nat) :
    encodeU64 (readU64 buf off) = (List.range 8).map fun j => buf.getD (off + j) 0 := by
  rw [encodeU64_eq, readU64_eq, encodeLE_readLE]

theorem readU64_lt (buf : List UInt8) (off : Nat) : readU64 buf off < 2 ^ 64 := by
  rw [readU64_eq]; exact lt_of_lt_of_eq (readLE_lt 8 buf off) (by norm_num)

theorem readU64_congr {buf buf' : List UInt8} {off : Nat}
    (h : ∀ j < 8, buf.getD (off + j) 0 = buf'.getD (off + j) 0) :
    readU64 buf off = readU64 buf' off := by
  rw [readU64_eq, readU64_eq]; exact readLE_congr h

@[simp] theorem length_encodeU64 (n : Nat) : (encodeU64 n).length = 8 := by
  rw [encodeU64_eq, length_encodeLE]

/-- Bytes written over the front of a buffer leave every byte after them as it was. -/
theorem getD_append_drop {bytes buf : List UInt8} {i : Nat} (h : bytes.length ≤ i) :
    (bytes ++ buf.drop bytes.length).getD i 0 = buf.getD i 0 := by
  rw [List.getD_append_right _ _ _ _ h, List.getD_eq_getElem?_getD, List.getElem?_drop,
    Nat.add_sub_cancel' h, ← List.getD_eq_getElem?_getD]

/-! ## The counter format -/

/-- `sizeof (u32) + num_nodes * sizeof (u64)`. -/
def countsSize (n : Nat) : Nat := 4 + n * 8

/-- The `memcpy` of the first `n` entries: `f 0, …, f (n - 1)` as `u64`s. -/
def encodeEntries (f : Nat → Nat) (n : Nat) : List UInt8 :=
  (List.range n).flatMap fun i => encodeU64 (f i)

/-- What the serializers write: `num_nodes`, then the entries below it. -/
def encodeCounts (f : Nat → Nat) (n : Nat) : List UInt8 := encodeU32 n ++ encodeEntries f n

/-- The serializer of the format into a buffer of `size` bytes: the count it returns and the
buffer after.  Nothing is written when `size` is below `countsSize n`. -/
def serializeCounts (f : Nat → Nat) (n : Nat) (buf : List UInt8) (size : Nat) :
    Nat × List UInt8 :=
  if size < countsSize n then (0, buf)
  else (countsSize n, encodeCounts f n ++ buf.drop (countsSize n))

/-- The decoder of the format from a buffer of `size` bytes, up to its write into the target:
`none` where it returns `CAUCHY_ERR_INVALID`, which it does before touching the target, and
otherwise `num_nodes` and the entries the target ends with: what `memcpy` copies below
`num_nodes`, the zeros `init` wrote above it. -/
def deserializeCounts (buf : List UInt8) (size : Nat) : Option (Nat × (Nat → Nat)) :=
  if size < 4 then none
  else
    let n := readU32 buf 0
    if n > maxNodes then none
    else if size < countsSize n then none
    else some (n, fun i => if i < n then readU64 buf (4 + i * 8) else 0)

section Counts

variable {f g : Nat → Nat} {n : Nat}

theorem encodeEntries_succ (f : Nat → Nat) (n : Nat) :
    encodeEntries f (n + 1) = encodeEntries f n ++ encodeU64 (f n) := by
  simp [encodeEntries, List.range_succ, List.flatMap_append]

@[simp] theorem length_encodeEntries (f : Nat → Nat) (n : Nat) :
    (encodeEntries f n).length = n * 8 := by
  induction n with
  | zero => rfl
  | succ n ih => rw [encodeEntries_succ, List.length_append, ih, encodeU64_eq, length_encodeLE,
      Nat.succ_mul]

@[simp] theorem length_encodeCounts (f : Nat → Nat) (n : Nat) :
    (encodeCounts f n).length = countsSize n := by
  simp [encodeCounts, countsSize, encodeU32_eq]

theorem encodeEntries_congr (h : ∀ i < n, f i = g i) : encodeEntries f n = encodeEntries g n := by
  induction n with
  | zero => rfl
  | succ n ih =>
    rw [encodeEntries_succ, encodeEntries_succ, ih fun i hi => h i (by omega), h n (by omega)]

/-- Entry `i` of the bytes of the entries reads back as `f i`, wherever the bytes sit. -/
theorem readU64_append_encodeEntries {i : Nat} (hi : i < n) (pre rest : List UInt8) :
    readU64 (pre ++ encodeEntries f n ++ rest) (pre.length + i * 8) = f i % 2 ^ 64 := by
  induction n generalizing rest with
  | zero => omega
  | succ n ih =>
    rw [encodeEntries_succ]
    rcases Nat.lt_succ_iff_lt_or_eq.1 hi with hi | rfl
    · rw [← List.append_assoc, List.append_assoc _ _ rest]; exact ih hi _
    · rw [← List.append_assoc, show pre.length + i * 8 = (pre ++ encodeEntries f i).length by simp,
        readU64_eq, encodeU64_eq, readLE_append_encodeLE]
      norm_num

/-- The bytes of the entries read from a buffer are the bytes they were read from. -/
theorem encodeEntries_readU64 (buf : List UInt8) (off n : Nat) :
    encodeEntries (fun i => readU64 buf (off + i * 8)) n =
      (List.range (n * 8)).map fun j => buf.getD (off + j) 0 := by
  induction n with
  | zero => rfl
  | succ n ih =>
    rw [encodeEntries_succ, ih, readU64_eq, encodeU64_eq, encodeLE_readLE, Nat.succ_mul,
      List.range_add, List.map_append, List.map_map]
    simp only [Function.comp_def, Nat.add_assoc]

/-- **The counter format round-trips from values.**  The bytes of `n ≤ CAUCHY_MAX_NODES` entries,
each a `u64`, decode from any buffer that starts with them and any `size` that covers them, to
`n` and those entries, with zeros above. -/
theorem deserializeCounts_encodeCounts (hn : n ≤ maxNodes) (hf : ∀ i < n, f i < 2 ^ 64)
    (rest : List UInt8) {size : Nat} (hs : countsSize n ≤ size) :
    deserializeCounts (encodeCounts f n ++ rest) size =
      some (n, fun i => if i < n then f i else 0) := by
  have hn32 : readU32 (encodeCounts f n ++ rest) 0 = n := by
    have h := readLE_append_encodeLE 4 n [] (encodeEntries f n ++ rest)
    rw [List.nil_append, List.length_nil] at h
    rw [readU32_eq, encodeCounts, encodeU32_eq, List.append_assoc, h]
    exact Nat.mod_eq_of_lt (by unfold maxNodes at hn; omega)
  have hsz : ¬ size < 4 := by unfold countsSize at hs; omega
  simp only [deserializeCounts, hsz, hn32, if_false, show ¬ n > maxNodes by omega,
    show ¬ size < countsSize n by omega, Option.some.injEq, Prod.mk.injEq, true_and]
  funext i
  split
  · rename_i hi
    rw [encodeCounts, List.append_assoc, show 4 + i * 8 = (encodeU32 n).length + i * 8 by
      simp [encodeU32_eq], ← List.append_assoc, readU64_append_encodeEntries hi,
      Nat.mod_eq_of_lt (hf i hi)]
  · rfl

/-- What a decode that succeeds returns: at most `CAUCHY_MAX_NODES` entries, covered by `size`,
each a `u64`, zero from `num_nodes` on. -/
theorem deserializeCounts_some {buf : List UInt8} {size : Nat}
    (h : deserializeCounts buf size = some (n, f)) :
    n = readU32 buf 0 ∧ n ≤ maxNodes ∧ countsSize n ≤ size ∧
      (∀ i, f i = if i < n then readU64 buf (4 + i * 8) else 0) := by
  unfold deserializeCounts at h
  split at h
  · cases h
  · simp only [gt_iff_lt] at h
    split at h
    · cases h
    · split at h
      · cases h
      · obtain ⟨rfl, rfl⟩ := Prod.mk.inj (Option.some.inj h)
        exact ⟨rfl, by omega, by omega, fun _ => rfl⟩

/-- **The counter format round-trips from bytes.**  When a decode succeeds, the bytes of what it
returns are the bytes it consumed. -/
theorem encodeCounts_of_deserializeCounts {buf : List UInt8} {size : Nat}
    (h : deserializeCounts buf size = some (n, f)) :
    encodeCounts f n = (List.range (countsSize n)).map fun j => buf.getD j 0 := by
  obtain ⟨rfl, -, -, hf⟩ := deserializeCounts_some h
  rw [encodeCounts, encodeEntries_congr (g := fun i => readU64 buf (4 + i * 8))
    fun i hi => by rw [hf, if_pos hi], encodeEntries_readU64, encodeU32_eq, readU32_eq,
    encodeLE_readLE, countsSize, List.range_add, List.map_append, List.map_map]
  simp only [Nat.zero_add, Function.comp_def]

theorem deserializeCounts_lt {buf : List UInt8} {size : Nat}
    (h : deserializeCounts buf size = some (n, f)) (i : Nat) : f i < 2 ^ 64 := by
  rw [(deserializeCounts_some h).2.2.2 i]
  split
  · exact readU64_eq buf _ ▸ readLE_lt 8 buf _
  · positivity

/-- **The decoder reads only below `size`.**  Two buffers that agree on their first `size` bytes
decode alike. -/
theorem deserializeCounts_congr {buf buf' : List UInt8} {size : Nat}
    (h : ∀ i < size, buf.getD i 0 = buf'.getD i 0) :
    deserializeCounts buf size = deserializeCounts buf' size := by
  unfold deserializeCounts
  split
  · rfl
  · have h32 : readU32 buf 0 = readU32 buf' 0 := by
      rw [readU32_eq, readU32_eq]
      exact readLE_congr fun j hj => h _ (by omega)
    simp only [h32]
    split
    · rfl
    · split
      · rfl
      · rename_i hs
        simp only [Option.some.injEq, Prod.mk.injEq, true_and]
        funext i
        split
        · rw [readU64_eq, readU64_eq]
          refine readLE_congr fun j hj => h _ ?_
          unfold countsSize at hs
          have : (i + 1) * 8 ≤ readU32 buf' 0 * 8 := Nat.mul_le_mul_right 8 (by omega)
          rw [Nat.succ_mul] at this
          omega
        · rfl

/-- **The serializer writes only below `size`.**  It returns at most `size`, writes nothing past
what it returns, and returns `0` without writing when `size` is below `countsSize n`. -/
theorem serializeCounts_frame (f : Nat → Nat) (n : Nat) (buf : List UInt8) (size : Nat) :
    (serializeCounts f n buf size).1 ≤ size ∧
      (∀ i, (serializeCounts f n buf size).1 ≤ i →
        (serializeCounts f n buf size).2.getD i 0 = buf.getD i 0) ∧
      (size < countsSize n → serializeCounts f n buf size = (0, buf)) := by
  unfold serializeCounts
  split
  · exact ⟨Nat.zero_le _, fun _ _ => rfl, fun _ => rfl⟩
  · refine ⟨by omega, fun i hi => ?_, fun h => absurd h ‹_›⟩
    rw [← length_encodeCounts f n] at hi ⊢
    exact getD_append_drop hi

end Counts

end Cauchy
