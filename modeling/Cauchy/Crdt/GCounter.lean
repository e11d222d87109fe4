import Cauchy.Core.VClock

/-!
# The G-Counter

`src/crdt/g_counter.c`.  A `cauchy_gcounter_t` is an array `counts[CAUCHY_MAX_NODES]` of `u64`
and a `num_nodes`; node `k` bumps only `counts[k]`, the value is the sum of the first
`num_nodes` entries, and merge is the entry-wise maximum.

The array is a function `Nat → Nat` of the index.  The code reads and writes only indices below
`num_nodes`, and nothing it does lets `num_nodes` grow past `CAUCHY_MAX_NODES` (`init` clamps
it, `merge` takes the larger of two), so the entries from `maxNodes` on stand for no memory and
are never looked at.  The type does not carry `num_nodes ≤ CAUCHY_MAX_NODES`: that is a fact
about the states the code reaches, not about every `cauchy_gcounter_t`.

`u64` arithmetic is `Nat` arithmetic reduced modulo `2 ^ 64` where the code adds: the `+=` of
`cauchy_gcounter_add` and the running sum of `cauchy_gcounter_value`.  `merge` and `compare` only
compare and copy entries.  `cauchy_gcounter_increment` is `counts[k]++`, the same update as
`add` with delta `1`, and is written as that.

`compare` is the loop `cauchy_vclock_compare` also runs (`compareEntries`), and the serializer
and the decoder are the counter format of `Cauchy.Core.Wire`, shared with the vector clock.
`merge` differs from `cauchy_vclock_merge` in one check, `i < src->num_nodes`; on counters whose
entries from `num_nodes` on are zero (`WF`, which every counter the code reaches has:
`Reachable.wf`) the two agree, and `merge` is the entry-wise maximum (`merge_counts_of_wf`).
`reachable_merge_semilattice` is what follows: over reachable counters, of any `num_nodes`,
merge is commutative, associative and idempotent under `cauchy_gcounter_equals`, and it is the
least upper bound in the order `cauchy_gcounter_compare` decides.  A merge of a counter with
itself through one pointer writes nothing (no entry is above itself), so the aliased call is
`merge a a`.

* `reachable_zero_above`: reachable clocks and counters have at most `CAUCHY_MAX_NODES` nodes and
  zeros from `num_nodes` on, which is what the merge and comparison laws rest on.
* `clock_compare_classifies`: both comparisons classify the zero-extended entries exactly, and
  clock merge is a join.
* `counter_steps_can_decrease`: `add` wraps a count and the value's `u64` sum wraps, so a step
  can take a counter below where it was, or lower its value while raising every count.
-/

set_option autoImplicit false

namespace Cauchy

/-- `cauchy_gcounter_t`. -/
@[ext] structure GCounter where
  counts : Nat → Nat
  numNodes : Nat

namespace GCounter

/-- `cauchy_gcounter_init`: all counts zero, `num_nodes` clamped to `CAUCHY_MAX_NODES`. -/
def init (numNodes : Nat) : GCounter := ⟨fun _ => 0, min numNodes maxNodes⟩

/-- `cauchy_gcounter_add`: `counts[node_id] += delta` when `node_id < num_nodes`. -/
def add (g : GCounter) (nodeId delta : Nat) : GCounter :=
  if nodeId < g.numNodes then
    { g with counts := Function.update g.counts nodeId ((g.counts nodeId + delta) % 2 ^ 64) }
  else g

/-- `cauchy_gcounter_increment`: `counts[node_id]++` when `node_id < num_nodes`. -/
def increment (g : GCounter) (nodeId : Nat) : GCounter := g.add nodeId 1

/-- `cauchy_gcounter_value`: the `u64` sum of the first `num_nodes` counts. -/
def value (g : GCounter) : Nat :=
  (List.range g.numNodes).foldl (fun sum i => (sum + g.counts i) % 2 ^ 64) 0

/-- `cauchy_gcounter_get`. -/
def get (g : GCounter) (nodeId : Nat) : Nat := if nodeId < g.numNodes then g.counts nodeId else 0

/-- `cauchy_gcounter_merge`: for every `i` below the larger `num_nodes`, take `src`'s count when
`i < src.num_nodes` and it is the larger; then take the larger `num_nodes`.  The loop's
iterations touch distinct indices, so it is written index by index. -/
def merge (dst src : GCounter) : GCounter where
  counts i :=
    if i < max dst.numNodes src.numNodes ∧ i < src.numNodes ∧ src.counts i > dst.counts i then
      src.counts i
    else dst.counts i
  numNodes := if src.numNodes > dst.numNodes then src.numNodes else dst.numNodes

/-- `cauchy_gcounter_equals`: the same `num_nodes` and the same first `num_nodes` counts. -/
def equals (a b : GCounter) : Bool :=
  a.numNodes == b.numNodes && (List.range a.numNodes).all fun i => a.counts i == b.counts i

/-- `cauchy_gcounter_compare`: the comparison loop of `cauchy_vclock_compare`. -/
def compare (a b : GCounter) : Causality := compareEntries a.counts a.numNodes b.counts b.numNodes

/-- `cauchy_gcounter_copy`: `memcpy` of the whole structure. -/
def copy (_dst src : GCounter) : GCounter := src

/-- `cauchy_gcounter_serialized_size`. -/
def serializedSize (g : GCounter) : Nat := countsSize g.numNodes

/-- `cauchy_gcounter_serialize` into a buffer of `size` bytes. -/
def serialize (g : GCounter) (buf : List UInt8) (size : Nat) : Nat × List UInt8 :=
  serializeCounts g.counts g.numNodes buf size

/-- `cauchy_gcounter_deserialize` from a buffer of `size` bytes: the checks, then `init` and the
`memcpy` of the counts. -/
def deserialize (g : GCounter) (buf : List UInt8) (size : Nat) : Result × GCounter :=
  match deserializeCounts buf size with
  | none => (.errInvalid, g)
  | some (n, f) => (.ok, { init n with counts := f })

/-! ## One lemma per operation -/

@[simp] theorem init_counts (n i : Nat) : (init n).counts i = 0 := rfl

@[simp] theorem init_numNodes (n : Nat) : (init n).numNodes = min n maxNodes := rfl

@[simp] theorem add_numNodes (g : GCounter) (k d : Nat) : (g.add k d).numNodes = g.numNodes := by
  unfold add; split <;> rfl

theorem add_counts (g : GCounter) (k d i : Nat) :
    (g.add k d).counts i =
      if k < g.numNodes ∧ i = k then (g.counts k + d) % 2 ^ 64 else g.counts i := by
  unfold add
  by_cases hk : k < g.numNodes <;> by_cases hi : i = k <;> simp [hk, hi]

@[simp] theorem merge_numNodes (d s : GCounter) :
    (d.merge s).numNodes = max d.numNodes s.numNodes := by
  simp only [merge, gt_iff_lt]; split <;> omega

theorem merge_counts (d s : GCounter) (i : Nat) :
    (d.merge s).counts i =
      if i < s.numNodes then max (d.counts i) (s.counts i) else d.counts i := by
  simp only [merge, gt_iff_lt]
  split <;> split <;> omega

theorem value_eq (g : GCounter) :
    g.value = (∑ i in Finset.range g.numNodes, g.counts i) % 2 ^ 64 := by
  unfold value
  induction g.numNodes with
  | zero => rfl
  | succ n ih =>
    rw [List.range_succ, List.foldl_append, ih, Finset.sum_range_succ]
    simp [Nat.mod_add_mod]

theorem equals_iff (a b : GCounter) :
    a.equals b = true ↔ a.numNodes = b.numNodes ∧ ∀ i < a.numNodes, a.counts i = b.counts i := by
  simp [equals]

/-- What a decode does: fail and leave the counter, or succeed with the counter format's
result. -/
theorem deserialize_cases (g : GCounter) (buf : List UInt8) (size : Nat) :
    (deserializeCounts buf size = none ∧ g.deserialize buf size = (.errInvalid, g)) ∨
      ∃ n f, deserializeCounts buf size = some (n, f) ∧
        g.deserialize buf size = (.ok, { init n with counts := f }) := by
  unfold deserialize
  split
  · rename_i h; exact .inl ⟨h, rfl⟩
  · rename_i n f h; exact .inr ⟨n, f, h, rfl⟩

/-! ## Counters the code reaches -/

/-- The representation invariant: at most `CAUCHY_MAX_NODES` nodes, every count from `num_nodes`
on zero, every count a `u64`. -/
structure WF (g : GCounter) : Prop where
  numNodes_le : g.numNodes ≤ maxNodes
  zero_above : ∀ i, g.numNodes ≤ i → g.counts i = 0
  lt : ∀ i, g.counts i < 2 ^ 64

/-- The counters reachable from `cauchy_gcounter_init` by `increment`, `add`, `merge`, `copy` and
`deserialize` calls on any arguments, whatever each call returns. -/
inductive Reachable : GCounter → Prop
  | init (n : Nat) : Reachable (init n)
  | increment {g : GCounter} (k : Nat) : Reachable g → Reachable (g.increment k)
  | add {g : GCounter} (k d : Nat) : Reachable g → Reachable (g.add k d)
  | merge {g src : GCounter} : Reachable g → Reachable src → Reachable (g.merge src)
  | copy {g src : GCounter} : Reachable g → Reachable src → Reachable (g.copy src)
  | deserialize {g : GCounter} (buf : List UInt8) (size : Nat) :
      Reachable g → Reachable (g.deserialize buf size).2

section WF

variable {g src : GCounter}

theorem wf_init (n : Nat) : WF (init n) :=
  ⟨Nat.min_le_right _ _, fun _ _ => rfl, fun _ => by simp⟩

theorem WF.add (h : WF g) (k d : Nat) : WF (g.add k d) where
  numNodes_le := by simpa using h.numNodes_le
  zero_above i hi := by
    rw [add_numNodes] at hi
    rw [add_counts, if_neg (by omega), h.zero_above i hi]
  lt i := by rw [add_counts]; split <;> [exact Nat.mod_lt _ (by norm_num); exact h.lt i]

/-- Adding `0` leaves a counter whose counts are `u64`s as it was. -/
theorem WF.add_zero (h : WF g) (k : Nat) : g.add k 0 = g := by
  unfold GCounter.add
  split
  · rw [Nat.add_zero, Nat.mod_eq_of_lt (h.lt k), Function.update_eq_self]
  · rfl

/-- On a well-formed source, `merge` is the larger of each count. -/
theorem merge_counts_of_wf (hs : WF src) (g : GCounter) (i : Nat) :
    (g.merge src).counts i = max (g.counts i) (src.counts i) := by
  rw [merge_counts]
  split
  · rfl
  · rw [hs.zero_above i (by omega), Nat.max_zero]

theorem WF.merge (h : WF g) (hs : WF src) : WF (g.merge src) where
  numNodes_le := by simpa using ⟨h.numNodes_le, hs.numNodes_le⟩
  zero_above i hi := by
    rw [merge_numNodes] at hi
    rw [merge_counts_of_wf hs, h.zero_above i (by omega), hs.zero_above i (by omega)]; rfl
  lt i := by rw [merge_counts_of_wf hs]; exact max_lt (h.lt i) (hs.lt i)

/-- A decode that succeeds leaves a well-formed counter. -/
theorem wf_of_deserializeCounts {buf : List UInt8} {size n : Nat} {f : Nat → Nat}
    (h : deserializeCounts buf size = some (n, f)) : WF { init n with counts := f } := by
  obtain ⟨-, hn, -, hf⟩ := deserializeCounts_some h
  refine ⟨by simp, fun i hi => ?_, deserializeCounts_lt h⟩
  simp only [init_numNodes, Nat.min_eq_left hn] at hi
  show f i = 0
  rw [hf, if_neg (by omega)]

theorem WF.deserialize (h : WF g) (buf : List UInt8) (size : Nat) :
    WF (g.deserialize buf size).2 := by
  rcases deserialize_cases g buf size with ⟨-, hd⟩ | ⟨n, f, hc, hd⟩ <;> rw [hd]
  exacts [h, wf_of_deserializeCounts hc]

theorem Reachable.wf (h : Reachable g) : WF g := by
  induction h with
  | init n => exact wf_init n
  | increment k _ ih => exact ih.add k 1
  | add k d _ ih => exact ih.add k d
  | merge _ _ ih ih' => exact ih.merge ih'
  | copy _ _ _ ih' => exact ih'
  | deserialize buf size _ ih => exact ih.deserialize buf size

/-- A decode that succeeds leaves the counter `init` and the same decode leave, whatever it
decoded into. -/
theorem reachable_of_deserialize_ok {buf : List UInt8} {size : Nat}
    (h : (g.deserialize buf size).1 = .ok) : Reachable (g.deserialize buf size).2 := by
  rcases deserialize_cases g buf size with ⟨-, hd⟩ | ⟨n, f, hc, hd⟩ <;> rw [hd] at h ⊢
  · cases h
  · have := Reachable.deserialize buf size (.init 0)
    rwa [deserialize, hc] at this

/-- **Reachable clocks and counters stay inside their arrays.**  Every vector clock reachable
from `cauchy_vclock_init` by `increment`, `set`, `merge`, `min`, `copy` and `deserialize`, and
every G-Counter reachable from `cauchy_gcounter_init` by `increment`, `add`, `merge`, `copy` and
`deserialize`, has at most `CAUCHY_MAX_NODES` nodes and a zero at every index from `num_nodes`
on; a decode that succeeds, into any clock or counter, leaves one of those. -/
theorem reachable_zero_above :
    (∀ vc : VClock, vc.Reachable →
        vc.numNodes ≤ maxNodes ∧ ∀ i, vc.numNodes ≤ i → vc.entries i = 0) ∧
      (∀ (vc : VClock) (buf : List UInt8) (size : Nat),
        (vc.deserialize buf size).1 = .ok → (vc.deserialize buf size).2.Reachable) ∧
      (∀ g : GCounter, g.Reachable →
        g.numNodes ≤ maxNodes ∧ ∀ i, g.numNodes ≤ i → g.counts i = 0) ∧
      ∀ (g : GCounter) (buf : List UInt8) (size : Nat),
        (g.deserialize buf size).1 = .ok → (g.deserialize buf size).2.Reachable :=
  ⟨fun _ h => ⟨h.wf.numNodes_le, h.wf.zero_above⟩, fun _ _ _ => VClock.reachable_of_deserialize_ok,
    fun _ h => ⟨h.wf.numNodes_le, h.wf.zero_above⟩, fun _ _ _ => reachable_of_deserialize_ok⟩

end WF

/-! ## Merge is a join -/

section Order

variable {a b c : GCounter}

/-- **`compare` is the product order.**  On well-formed counters, `a` is `EQUAL` or
`HAPPENS_BEFORE` `b` exactly when every count of `a` is at most `b`'s. -/
theorem compare_le_iff (ha : WF a) (hb : WF b) :
    (a.compare b = .equal ∨ a.compare b = .happensBefore) ↔ ∀ i, a.counts i ≤ b.counts i :=
  compareEntries_le_iff_of_zero ha.zero_above hb.zero_above

theorem equals_of_eq (hn : a.numNodes = b.numNodes) (hc : a.counts = b.counts) :
    a.equals b = true :=
  (equals_iff a b).2 ⟨hn, fun i _ => congrFun hc i⟩

/-- What `cauchy_gcounter_merge` promises three counters, under `cauchy_gcounter_equals` and in
the order `cauchy_gcounter_compare` decides. -/
structure MergeLaws (a b c : GCounter) : Prop where
  comm : (a.merge b).equals (b.merge a) = true
  assoc : ((a.merge b).merge c).equals (a.merge (b.merge c)) = true
  idem : (a.merge a).equals a = true
  /-- `merge (a, b)` is above `a`… -/
  le_left : a.compare (a.merge b) = .equal ∨ a.compare (a.merge b) = .happensBefore
  /-- … and above `b`… -/
  le_right : b.compare (a.merge b) = .equal ∨ b.compare (a.merge b) = .happensBefore
  /-- … and below every `c` above both. -/
  least : (a.compare c = .equal ∨ a.compare c = .happensBefore) →
    (b.compare c = .equal ∨ b.compare c = .happensBefore) →
    (a.merge b).compare c = .equal ∨ (a.merge b).compare c = .happensBefore

theorem mergeLaws_of_wf (ha : WF a) (hb : WF b) (hc : WF c) : MergeLaws a b c where
  comm := equals_of_eq (by simp [max_comm]) (funext fun i => by
    rw [merge_counts_of_wf hb, merge_counts_of_wf ha, max_comm])
  assoc := equals_of_eq (by simp [max_assoc]) (funext fun i => by
    simp only [merge_counts_of_wf hc, merge_counts_of_wf (hb.merge hc), merge_counts_of_wf hb,
      max_assoc])
  idem := equals_of_eq (by simp) (funext fun i => by rw [merge_counts_of_wf ha, max_self])
  le_left := (compare_le_iff ha (ha.merge hb)).2 fun i => by
    rw [merge_counts_of_wf hb]; exact le_max_left _ _
  le_right := (compare_le_iff hb (ha.merge hb)).2 fun i => by
    rw [merge_counts_of_wf hb]; exact le_max_right _ _
  least hac hbc := by
    rw [compare_le_iff ha hc] at hac
    rw [compare_le_iff hb hc] at hbc
    exact (compare_le_iff (ha.merge hb) hc).2 fun i => by
      rw [merge_counts_of_wf hb]; exact max_le (hac i) (hbc i)

/-- **G-Counter merge is a join.**  For any counters reachable from `cauchy_gcounter_init`,
whatever their `num_nodes`, merge is commutative, associative and idempotent under
`cauchy_gcounter_equals`, and `merge (a, b)` is the least upper bound of `a` and `b` in the order
`cauchy_gcounter_compare` decides. -/
theorem reachable_merge_semilattice (ha : Reachable a) (hb : Reachable b) (hc : Reachable c) :
    MergeLaws a b c :=
  mergeLaws_of_wf ha.wf hb.wf hc.wf

theorem mixed_merge_semilattice :
    Reachable (init 2) ∧ Reachable ((init 3).increment 1) ∧ Reachable ((init 4).add 0 5) ∧
      MergeLaws (init 2) ((init 3).increment 1) ((init 4).add 0 5) :=
  ⟨.init 2, .increment 1 (.init 3), .add 0 5 (.init 4),
    reachable_merge_semilattice (.init 2) (.increment 1 (.init 3)) (.add 0 5 (.init 4))⟩

/-- On any two counters, `compare` classifies the counts as `get` reads them, `0` past
`num_nodes`. -/
theorem compare_classifies (a b : GCounter) : Classifies (a.compare b) a.get b.get :=
  compareEntries_classifies _ _ _ _

theorem compare_swap (a b : GCounter) : b.compare a = (a.compare b).dual :=
  (compare_classifies a b).dual_eq (compare_classifies b a)

/-- **Comparisons classify, and clock merge is a join.**  For vector clocks reachable from
`cauchy_vclock_init`, of any `num_nodes`, `cauchy_vclock_compare (a, b)` is `EQUAL`,
`HAPPENS_BEFORE`, `HAPPENS_AFTER` or `CONCURRENT` exactly as the zero-extended entries are equal,
below, above or neither, and `compare (b, a)` is its dual; `cauchy_vclock_merge` is commutative,
associative and idempotent under `cauchy_vclock_equals`, and the least upper bound in that order.
`cauchy_gcounter_compare` classifies any two counters the same way. -/
theorem clock_compare_classifies {a b c : VClock} (ha : a.Reachable) (hb : b.Reachable)
    (hc : c.Reachable) :
    Classifies (a.compare b) a.get b.get ∧ b.compare a = (a.compare b).dual ∧
      VClock.MergeLaws a b c ∧
      ∀ g g' : GCounter,
        Classifies (g.compare g') g.get g'.get ∧ g'.compare g = (g.compare g').dual :=
  ⟨VClock.compare_classifies a b, VClock.compare_swap a b,
    VClock.mergeLaws_of_wf ha.wf hb.wf hc.wf,
    fun g g' => ⟨compare_classifies g g', compare_swap g g'⟩⟩

theorem mixed_clocks_classify :
    VClock.Reachable (VClock.init 2) ∧ VClock.Reachable ((VClock.init 3).increment 1) ∧
      VClock.Reachable VClock.twoNodeClock ∧
      Classifies ((VClock.init 2).compare ((VClock.init 3).increment 1)) (VClock.init 2).get
        ((VClock.init 3).increment 1).get ∧
      ((VClock.init 3).increment 1).compare (VClock.init 2) =
        ((VClock.init 2).compare ((VClock.init 3).increment 1)).dual ∧
      VClock.MergeLaws (VClock.init 2) ((VClock.init 3).increment 1) VClock.twoNodeClock ∧
      ∀ g g' : GCounter,
        Classifies (g.compare g') g.get g'.get ∧ g'.compare g = (g.compare g').dual :=
  have h2 : VClock.Reachable (VClock.init 2) := .init 2
  have h3 : VClock.Reachable ((VClock.init 3).increment 1) := .increment 1 (.init 3)
  have h5 : VClock.Reachable VClock.twoNodeClock := .set 1 5 (by norm_num) (.init 2)
  ⟨h2, h3, h5, clock_compare_classifies h2 h3 h5⟩

end Order

/-! ## Wrapping -/

/-- A one-node counter incremented once. -/
def oneCounted : GCounter := (init 1).increment 0

/-- A two-node counter whose first count is the largest `u64`. -/
def topCounted : GCounter := (init 2).add 0 (2 ^ 64 - 1)

/-- **Counts and the value wrap.**  `cauchy_gcounter_add (oneCounted, 0, 2^64 - 1)` wraps the
count from `1` to `0`: the state after is `HAPPENS_BEFORE` the state before, and the value falls.
On `topCounted`, `increment (1)`, and a merge with a counter whose node `1` has count `1`, only
raise counts, yet the value wraps from `2^64 - 1` to `0`. -/
theorem counter_steps_can_decrease :
    Reachable oneCounted ∧ (oneCounted.add 0 (2 ^ 64 - 1)).compare oneCounted = .happensBefore ∧
      (oneCounted.add 0 (2 ^ 64 - 1)).value < oneCounted.value ∧
    Reachable topCounted ∧ topCounted.compare (topCounted.increment 1) = .happensBefore ∧
      (topCounted.increment 1).value < topCounted.value ∧
      Reachable ((init 2).increment 1) ∧
      topCounted.compare (topCounted.merge ((init 2).increment 1)) = .happensBefore ∧
      (topCounted.merge ((init 2).increment 1)).value < topCounted.value :=
  ⟨.increment 0 (.init 1), by decide, by decide, .add 0 _ (.init 2), by decide, by decide,
    .increment 1 (.init 2), by decide, by decide⟩

/-! ## The wire format -/

section Wire

variable {g : GCounter}

theorem serialize_of_le (buf : List UInt8) {size : Nat} (hs : g.serializedSize ≤ size) :
    g.serialize buf size =
      (g.serializedSize, encodeCounts g.counts g.numNodes ++ buf.drop g.serializedSize) := by
  rw [serialize, serializeCounts, if_neg (by unfold serializedSize at hs; omega)]; rfl

/-- The bytes of a well-formed counter, followed by anything, decode into any counter as it. -/
theorem deserialize_encodeCounts (h : WF g) (rest : List UInt8) {size : Nat}
    (hs : g.serializedSize ≤ size) (y : GCounter) :
    y.deserialize (encodeCounts g.counts g.numNodes ++ rest) size = (.ok, g) := by
  rw [deserialize, deserializeCounts_encodeCounts h.numNodes_le (fun i _ => h.lt i) _ hs]
  refine congrArg _ (GCounter.ext (funext fun i => ?_) (Nat.min_eq_left h.numNodes_le))
  show (if i < g.numNodes then g.counts i else 0) = g.counts i
  exact readEntry_of_zero h.zero_above i

/-- **Counters round-trip through their bytes.** -/
theorem deserialize_serialize (h : WF g) (buf : List UInt8) {size size' : Nat}
    (hs : g.serializedSize ≤ size) (hs' : g.serializedSize ≤ size') (y : GCounter) :
    (g.serialize buf size).1 = g.serializedSize ∧
      y.deserialize (g.serialize buf size).2 size' = (.ok, g) := by
  rw [serialize_of_le buf hs]
  exact ⟨rfl, deserialize_encodeCounts h _ hs' y⟩

theorem serializedSize_of_deserializeCounts {buf : List UInt8} {size n : Nat} {f : Nat → Nat}
    (hc : deserializeCounts buf size = some (n, f)) :
    ({ init n with counts := f } : GCounter).serializedSize = countsSize n := by
  simp [serializedSize, Nat.min_eq_left (deserializeCounts_some hc).2.1]

/-- **Bytes round-trip through counters.**  When a decode succeeds, serializing the counter it
leaves returns the bytes it consumed. -/
theorem serialize_deserialize {buf : List UInt8} {size : Nat}
    (h : (g.deserialize buf size).1 = .ok) (buf' : List UInt8) {size' : Nat}
    (hs : (g.deserialize buf size).2.serializedSize ≤ size') :
    ((g.deserialize buf size).2.serialize buf' size').1 =
        (g.deserialize buf size).2.serializedSize ∧
      ((g.deserialize buf size).2.serialize buf' size').2.take
          (g.deserialize buf size).2.serializedSize =
        (List.range (g.deserialize buf size).2.serializedSize).map fun j => buf.getD j 0 := by
  rw [serialize_of_le buf' hs]
  refine ⟨rfl, ?_⟩
  rcases deserialize_cases g buf size with ⟨-, hd⟩ | ⟨n, f, hc, hd⟩ <;> rw [hd] at h ⊢
  · cases h
  · have hn : (init n).numNodes = n := Nat.min_eq_left (deserializeCounts_some hc).2.1
    rw [List.take_left' (by simp [serializedSize])]
    simp only [serializedSize, hn]
    exact encodeCounts_of_deserializeCounts hc

/-- A decode that fails leaves the counter as it was. -/
theorem deserialize_of_ne_ok {buf : List UInt8} {size : Nat}
    (h : (g.deserialize buf size).1 ≠ .ok) : (g.deserialize buf size).2 = g := by
  rcases deserialize_cases g buf size with ⟨-, hd⟩ | ⟨n, f, -, hd⟩ <;> rw [hd] at h ⊢
  exact absurd rfl h

/-- A decode that succeeds leaves a well-formed counter. -/
theorem wf_of_deserialize_ok {buf : List UInt8} {size : Nat}
    (h : (g.deserialize buf size).1 = .ok) : WF (g.deserialize buf size).2 := by
  rcases deserialize_cases g buf size with ⟨-, hd⟩ | ⟨n, f, hc, hd⟩ <;> rw [hd] at h ⊢
  · cases h
  · exact wf_of_deserializeCounts hc

/-- The decoder reads no byte at or past `size`. -/
theorem deserialize_congr {buf buf' : List UInt8} {size : Nat}
    (h : ∀ i < size, buf.getD i 0 = buf'.getD i 0) :
    g.deserialize buf size = g.deserialize buf' size := by
  rw [deserialize, deserialize, deserializeCounts_congr h]

/-- The serializer writes no byte at or past what it returns, which is at most `size`, and
writes nothing when `size` is too small. -/
theorem serialize_frame (g : GCounter) (buf : List UInt8) (size : Nat) :
    (g.serialize buf size).1 ≤ size ∧
      (∀ i, (g.serialize buf size).1 ≤ i → (g.serialize buf size).2.getD i 0 = buf.getD i 0) ∧
      (size < g.serializedSize → g.serialize buf size = (0, buf)) :=
  serializeCounts_frame _ _ _ _

end Wire

end GCounter
end Cauchy
