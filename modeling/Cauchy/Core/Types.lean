import Mathlib

/-!
# Core types: result codes, causality, UIDs and the payload hash

`include/cauchy/types.h` and the two copies of `hash_data` (in `g_set.c` and `or_set.c`).

* `Result` is `cauchy_result_t`: every fallible operation of the library returns one, and the
  models below return it alongside the updated state.
* `Uid` is `cauchy_uid_t`, the `(node_id, timestamp)` pair an OR-Set entry is tagged with.
  `Uid.compare` is `cauchy_uid_compare` — timestamp first, then node — and `Uid.equals` is
  `cauchy_uid_equals`, which is plain equality of the two fields.
* `hashData` is FNV-1a over the payload bytes.  `g_set.c` and `or_set.c` each carry a `static`
  copy of it, character for character the same; both sets use this one definition.

Every `u64` and `usize` of the C code is a `Nat` here.  Where the code's arithmetic on one can
wrap, the model reduces modulo `2 ^ 64` explicitly (`hashData`, `usizePred`, the counters); a
value that is only stored, copied and compared (a node id, a caller's timestamp) needs no
reduction.
-/

set_option autoImplicit false

namespace Cauchy

/-- `cauchy_result_t`. -/
inductive Result where
  | ok
  | errNomem
  | errInvalid
  | errNotfound
  | errExists
  | errFull
  | errEmpty
  | errTimeout
  | errConcurrent
  | errCausal
  | errNetwork
  | errInternal
  deriving DecidableEq, Repr

/-- `cauchy_causality_t`: how two clocks (or counters) are ordered. -/
inductive Causality where
  | happensBefore
  | concurrent
  | happensAfter
  | equal
  deriving DecidableEq, Repr

/-- The verdict at the end of `cauchy_vclock_compare` and `cauchy_gcounter_compare`, from the
flags `a_less` (some entry of `a` is below `b`'s) and `a_greater` (some entry is above). -/
def Causality.ofFlags (aLess aGreater : Bool) : Causality :=
  if !aLess && !aGreater then .equal
  else if aLess && !aGreater then .happensBefore
  else if !aLess && aGreater then .happensAfter
  else .concurrent

/-- The verdict with the two arguments swapped. -/
def Causality.dual : Causality → Causality
  | .happensBefore => .happensAfter
  | .happensAfter => .happensBefore
  | c => c

theorem Causality.ofFlags_le_iff (aLess aGreater : Bool) :
    (ofFlags aLess aGreater = .equal ∨ ofFlags aLess aGreater = .happensBefore) ↔
      aGreater = false := by
  cases aLess <;> cases aGreater <;> decide

theorem Causality.ofFlags_eq_happensAfter_iff (aLess aGreater : Bool) :
    ofFlags aLess aGreater = .happensAfter ↔ aLess = false ∧ aGreater = true := by
  cases aLess <;> cases aGreater <;> decide

theorem Causality.ofFlags_eq_equal_iff (aLess aGreater : Bool) :
    ofFlags aLess aGreater = .equal ↔ aLess = false ∧ aGreater = false := by
  cases aLess <;> cases aGreater <;> decide

/-- `cauchy_uid_t`: the node that minted an identifier and that node's logical timestamp. -/
structure Uid where
  nodeId : Nat
  timestamp : Nat
  deriving DecidableEq, Repr

namespace Uid

/-- `cauchy_uid_create`. -/
def create (node ts : Nat) : Uid := ⟨node, ts⟩

/-- `cauchy_uid_compare`: timestamp first, node id second; `-1`, `0` or `1`. -/
def compare (a b : Uid) : Int :=
  if a.timestamp ≠ b.timestamp then (if a.timestamp < b.timestamp then -1 else 1)
  else if a.nodeId ≠ b.nodeId then (if a.nodeId < b.nodeId then -1 else 1)
  else 0

/-- `cauchy_uid_equals`. -/
def equals (a b : Uid) : Bool := a.nodeId == b.nodeId && a.timestamp == b.timestamp

@[simp] theorem equals_iff {a b : Uid} : equals a b = true ↔ a = b := by
  cases a; cases b; simp [equals, and_comm]

/-- A later timestamp makes a UID greater, whatever the nodes. -/
theorem compare_eq_one_of_lt {a b : Uid} (h : b.timestamp < a.timestamp) : compare a b = 1 := by
  rw [compare, if_pos (by omega), if_neg (by omega)]

end Uid

/-- `CAUCHY_MAX_NODES`: the number of node slots of a vector clock and of a G-Counter. -/
def maxNodes : Nat := 64

/-- `n - 1` in `usize` arithmetic: `0` wraps to `2 ^ 64 - 1`. -/
def usizePred (n : Nat) : Nat := (n + (2 ^ 64 - 1)) % 2 ^ 64

theorem usizePred_of_pos {n : Nat} (h0 : 0 < n) (h : n < 2 ^ 64) : usizePred n = n - 1 := by
  unfold usizePred; omega

/-- Whatever `n` is, a decrement is undone by an increment modulo `2 ^ 64`. -/
theorem usizePred_iterate_add_mod (k n : Nat) : (usizePred^[k] n + k) % 2 ^ 64 = n % 2 ^ 64 := by
  induction k generalizing n with
  | zero => rfl
  | succ k ih =>
    have h := ih (usizePred n)
    rw [Function.iterate_succ_apply]
    unfold usizePred at h ⊢
    omega

/-- `k` decrements of a `usize` that is at least `k` do not wrap. -/
theorem usizePred_iterate_of_le {k n : Nat} (hk : k ≤ n) (hn : n < 2 ^ 64) :
    usizePred^[k] n = n - k := by
  induction k generalizing n with
  | zero => rfl
  | succ k ih =>
    rw [Function.iterate_succ_apply, usizePred_of_pos (by omega) hn, ih (by omega) (by omega)]
    omega

/-! ## FNV-1a -/

/-- The FNV-1a 64-bit offset basis. -/
def fnvOffsetBasis : Nat := 14695981039346656037

/-- The FNV-1a 64-bit prime. -/
def fnvPrime : Nat := 1099511628211

/-- `hash_data`: FNV-1a over the bytes, `hash ^= byte; hash *= prime` in `u64` arithmetic. -/
def hashData (data : List UInt8) : Nat :=
  data.foldl (fun hash b => (hash ^^^ b.toNat) * fnvPrime % 2 ^ 64) fnvOffsetBasis

/-! ## Little-endian words

The wire formats store integers with `memcpy` from and to host memory; on a little-endian host
that is the byte order below.  A buffer is the list of its bytes; a read
past its end gives `0`, which only a caller that passes a `size` larger than its buffer sees.
-/

/-- The `u64` at `buf[off .. off + 8)`. -/
def readU64 (buf : List UInt8) (off : Nat) : Nat :=
  (List.range 8).foldr (fun j acc => (buf.getD (off + j) 0).toNat + 256 * acc) 0

/-- The eight bytes of a `u64`. -/
def encodeU64 (n : Nat) : List UInt8 := (List.range 8).map fun j => (n / 256 ^ j % 256).toUInt8

/-- The `u32` at `buf[off .. off + 4)`. -/
def readU32 (buf : List UInt8) (off : Nat) : Nat :=
  (List.range 4).foldr (fun j acc => (buf.getD (off + j) 0).toNat + 256 * acc) 0

/-- The four bytes of a `u32`. -/
def encodeU32 (n : Nat) : List UInt8 := (List.range 4).map fun j => (n / 256 ^ j % 256).toUInt8

end Cauchy
