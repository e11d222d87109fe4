import Cauchy.Core.Wire

/-!
# Vector clocks

`src/core/vclock.c`.  A `cauchy_vclock_t` is an array `entries[CAUCHY_MAX_NODES]` of `u64` and a
`num_nodes`, the same layout as a `cauchy_gcounter_t`; `init` clamps `num_nodes` to
`CAUCHY_MAX_NODES` and zeroes every entry, `increment`, `get` and `set` touch only indices below
`num_nodes`, and `merge` takes the larger of each entry below the larger `num_nodes`.  Unlike
`cauchy_gcounter_merge`, it does not check `i < src->num_nodes` before it reads `src`'s entry.

The array is a function `Nat → Nat`, and the `u64`s are numbers below `2 ^ 64`: `increment`
wraps, `set` stores the caller's `u64`.  `cauchy_vclock_prune` is declared in `vclock.h` but has no
definition in `src/`, so it is not modelled.

`compareEntries` is the comparison loop that `cauchy_vclock_compare` and `cauchy_gcounter_compare`
share, defined once: on clocks whose entries above `num_nodes` are zero (`WF`, which every clock
the code reaches has: `Reachable.wf`) it is the product order of the entries
(`compare_le_iff`, `compare_eq_happensAfter_iff`), and `equals` is equality of the entries.
On any clocks at all, the verdict classifies the entries as `get` reads them, zero past
`num_nodes` (`compare_classifies`), so `compare (b, a)` is the dual of `compare (a, b)`; on
well-formed clocks `merge` is their join (`mergeLaws_of_wf`).

`cauchy_vclock_min` scans only the indices below both `num_nodes`.  When `dst` has no more nodes
than `src` it is the meet (`min_glb_of_numNodes_le`); otherwise `dst`'s entries past `src`'s
nodes stay as they were, and the result can be above `src` (`min_above_shorter_clock`).

The serializer and the decoder are the counter format of `Cauchy.Core.Wire` applied to the
clock; `deserialize_serialize` and `serialize_deserialize` are its two round trips on clocks.
-/

set_option autoImplicit false

namespace Cauchy

/-! ## The comparison loop -/

/-- The loop of `cauchy_vclock_compare` and `cauchy_gcounter_compare`, over the entries `a`, `b`
and the `num_nodes` `an`, `bn`: one pass over the larger `num_nodes`, a missing entry read as
`0`, recording whether some entry of `a` is below and whether some is above `b`'s. -/
def compareEntries (a : Nat → Nat) (an : Nat) (b : Nat → Nat) (bn : Nat) : Causality :=
  let flags := (List.range (max an bn)).foldl (fun (fl : Bool × Bool) i =>
    let av := if i < an then a i else 0
    let bv := if i < bn then b i else 0
    (fl.1 || decide (av < bv), fl.2 || decide (av > bv))) (false, false)
  Causality.ofFlags flags.1 flags.2

theorem foldl_flags (l : List Nat) (p q : Nat → Bool) (x y : Bool) :
    l.foldl (fun (fl : Bool × Bool) i => (fl.1 || p i, fl.2 || q i)) (x, y) =
      (x || l.any p, y || l.any q) := by
  induction l generalizing x y with
  | nil => simp
  | cons a l ih => simp [ih, Bool.or_assoc]

section Compare

variable {a b : Nat → Nat} {an bn : Nat}

/-- The comparison is the verdict of two scans: is some entry of `a` below `b`'s, is some above. -/
theorem compareEntries_eq (a : Nat → Nat) (an : Nat) (b : Nat → Nat) (bn : Nat) :
    compareEntries a an b bn = Causality.ofFlags
      ((List.range (max an bn)).any fun i =>
        decide ((if i < an then a i else 0) < (if i < bn then b i else 0)))
      ((List.range (max an bn)).any fun i =>
        decide ((if i < bn then b i else 0) < (if i < an then a i else 0))) := by
  simp only [compareEntries, foldl_flags, Bool.false_or, gt_iff_lt]

/-- `a` is `EQUAL` or `HAPPENS_BEFORE` `b` exactly when no entry of `a` is above `b`'s. -/
theorem compareEntries_le_iff :
    (compareEntries a an b bn = .equal ∨ compareEntries a an b bn = .happensBefore) ↔
      ∀ i < max an bn, (if i < an then a i else 0) ≤ (if i < bn then b i else 0) := by
  rw [compareEntries_eq, Causality.ofFlags_le_iff, List.any_eq_false]
  simp only [List.mem_range, decide_eq_true_eq, not_lt]

theorem compareEntries_eq_happensAfter_iff :
    compareEntries a an b bn = .happensAfter ↔
      (∀ i < max an bn, (if i < bn then b i else 0) ≤ (if i < an then a i else 0)) ∧
        ∃ i < max an bn, (if i < bn then b i else 0) < (if i < an then a i else 0) := by
  rw [compareEntries_eq, Causality.ofFlags_eq_happensAfter_iff, List.any_eq_false,
    List.any_eq_true]
  simp only [List.mem_range, decide_eq_true_eq, not_lt]

theorem compareEntries_eq_equal_iff :
    compareEntries a an b bn = .equal ↔
      ∀ i < max an bn, (if i < an then a i else 0) = (if i < bn then b i else 0) := by
  rw [compareEntries_eq, Causality.ofFlags_eq_equal_iff, List.any_eq_false, List.any_eq_false]
  simp only [List.mem_range, decide_eq_true_eq, not_lt]
  exact ⟨fun h i hi => le_antisymm (h.2 i hi) (h.1 i hi),
    fun h => ⟨fun i hi => (h i hi).ge, fun i hi => (h i hi).le⟩⟩

/-- The entries as the loop reads them, when every entry from `num_nodes` on is zero. -/
theorem readEntry_of_zero (ha : ∀ i, an ≤ i → a i = 0) (i : Nat) :
    (if i < an then a i else 0) = a i := by
  split
  · rfl
  · rw [ha i (by omega)]

section Zero

variable (ha : ∀ i, an ≤ i → a i = 0) (hb : ∀ i, bn ≤ i → b i = 0)
include ha hb

/-- For entries that are zero from `num_nodes` on, `EQUAL` or `HAPPENS_BEFORE` is the product
order. -/
theorem compareEntries_le_iff_of_zero :
    (compareEntries a an b bn = .equal ∨ compareEntries a an b bn = .happensBefore) ↔
      ∀ i, a i ≤ b i := by
  rw [compareEntries_le_iff]
  simp only [readEntry_of_zero ha, readEntry_of_zero hb]
  refine ⟨fun h i => ?_, fun h i _ => h i⟩
  by_cases hi : i < max an bn
  · exact h i hi
  · rw [ha i (by omega), hb i (by omega)]

theorem compareEntries_eq_happensAfter_iff_of_zero :
    compareEntries a an b bn = .happensAfter ↔ (∀ i, b i ≤ a i) ∧ ∃ i, b i < a i := by
  rw [compareEntries_eq_happensAfter_iff]
  simp only [readEntry_of_zero ha, readEntry_of_zero hb]
  have hout : ∀ i, ¬ i < max an bn → a i = 0 ∧ b i = 0 :=
    fun i hi => ⟨ha i (by omega), hb i (by omega)⟩
  constructor
  · rintro ⟨hle, i, -, hlt⟩
    refine ⟨fun j => ?_, i, hlt⟩
    by_cases hj : j < max an bn
    · exact hle j hj
    · rw [(hout j hj).1, (hout j hj).2]
  · rintro ⟨hle, i, hlt⟩
    refine ⟨fun j _ => hle j, i, ?_, hlt⟩
    by_contra hi
    rw [(hout i hi).1, (hout i hi).2] at hlt
    exact lt_irrefl _ hlt

theorem compareEntries_eq_equal_iff_of_zero : compareEntries a an b bn = .equal ↔ a = b := by
  rw [compareEntries_eq_equal_iff]
  simp only [readEntry_of_zero ha, readEntry_of_zero hb]
  refine ⟨fun h => funext fun i => ?_, fun h i _ => congrFun h i⟩
  by_cases hi : i < max an bn
  · exact h i hi
  · rw [ha i (by omega), hb i (by omega)]

end Zero

/-- What a verdict says about two vectors `x` and `y`, entry by entry: `EQUAL` when they are
equal, `HAPPENS_BEFORE` when every entry of `x` is at most `y`'s and one is below, `HAPPENS_AFTER`
in the dual case, and `CONCURRENT` when each is below the other somewhere. -/
structure Classifies (c : Causality) (x y : Nat → Nat) : Prop where
  equal_iff : c = .equal ↔ x = y
  happensBefore_iff : c = .happensBefore ↔ (∀ i, x i ≤ y i) ∧ ∃ i, x i < y i
  happensAfter_iff : c = .happensAfter ↔ (∀ i, y i ≤ x i) ∧ ∃ i, y i < x i
  concurrent_iff : c = .concurrent ↔ (∃ i, x i < y i) ∧ ∃ i, y i < x i

/-- The verdict of the two flags classifies `x` and `y` when `a_less` records that some entry of
`x` is below `y`'s and `a_greater` that some is above. -/
theorem Causality.ofFlags_classifies {p q : Bool} {x y : Nat → Nat}
    (hp : p = true ↔ ∃ i, x i < y i) (hq : q = true ↔ ∃ i, y i < x i) :
    Classifies (ofFlags p q) x y := by
  have hle : (∀ i, x i ≤ y i) ↔ q = false := by
    rw [← Bool.not_eq_true, hq]; simp only [not_exists, not_lt]
  have hge : (∀ i, y i ≤ x i) ↔ p = false := by
    rw [← Bool.not_eq_true, hp]; simp only [not_exists, not_lt]
  have heq : x = y ↔ p = false ∧ q = false := by
    rw [← hle, ← hge, funext_iff]
    exact ⟨fun h => ⟨fun i => (h i).ge, fun i => (h i).le⟩,
      fun h i => le_antisymm (h.2 i) (h.1 i)⟩
  refine ⟨?_, ?_, ?_, ?_⟩ <;> simp only [heq, hle, hge, ← hp, ← hq] <;>
    cases p <;> cases q <;> decide

/-- An entry where the zero-extended vectors differ lies below the larger `num_nodes`. -/
theorem lt_max_of_readEntry_lt {i : Nat}
    (h : (if i < an then a i else 0) < (if i < bn then b i else 0)) : i < max an bn := by
  by_contra hi
  rw [if_neg (by omega), if_neg (by omega)] at h
  exact lt_irrefl 0 h

/-- **The loop classifies.**  On any entries and `num_nodes`, the verdict of `compareEntries` is
what `Classifies` says of the vectors zero-extended past each `num_nodes`. -/
theorem compareEntries_classifies (a : Nat → Nat) (an : Nat) (b : Nat → Nat) (bn : Nat) :
    Classifies (compareEntries a an b bn) (fun i => if i < an then a i else 0)
      (fun i => if i < bn then b i else 0) := by
  rw [compareEntries_eq]
  apply Causality.ofFlags_classifies <;>
    simp only [List.any_eq_true, List.mem_range, decide_eq_true_eq]
  · exact ⟨fun ⟨i, _, h⟩ => ⟨i, h⟩, fun ⟨i, h⟩ => ⟨i, lt_max_of_readEntry_lt h, h⟩⟩
  · exact ⟨fun ⟨i, _, h⟩ => ⟨i, h⟩, fun ⟨i, h⟩ => ⟨i, max_comm an bn ▸ lt_max_of_readEntry_lt h, h⟩⟩

/-- A verdict on `y` and `x` that classifies is the dual of one on `x` and `y`. -/
theorem Classifies.dual_eq {c c' : Causality} {x y : Nat → Nat} (h : Classifies c x y)
    (h' : Classifies c' y x) : c' = c.dual := by
  cases c with
  | happensBefore => exact h'.happensAfter_iff.2 (h.happensBefore_iff.1 rfl)
  | concurrent => exact h'.concurrent_iff.2 (h.concurrent_iff.1 rfl).symm
  | happensAfter => exact h'.happensBefore_iff.2 (h.happensAfter_iff.1 rfl)
  | equal => exact h'.equal_iff.2 (h.equal_iff.1 rfl).symm

end Compare

/-! ## The clock -/

/-- `cauchy_vclock_t`. -/
@[ext] structure VClock where
  entries : Nat → Nat
  numNodes : Nat

namespace VClock

/-- `cauchy_vclock_init`: every entry zero, `num_nodes` clamped to `CAUCHY_MAX_NODES`. -/
def init (numNodes : Nat) : VClock := ⟨fun _ => 0, min numNodes maxNodes⟩

/-- `cauchy_vclock_copy`: `memcpy` of the whole structure. -/
def copy (_dst src : VClock) : VClock := src

/-- `cauchy_vclock_increment`: `entries[node_id]++` when `node_id < num_nodes`. -/
def increment (vc : VClock) (nodeId : Nat) : VClock :=
  if nodeId < vc.numNodes then
    { vc with entries := Function.update vc.entries nodeId ((vc.entries nodeId + 1) % 2 ^ 64) }
  else vc

/-- `cauchy_vclock_get`. -/
def get (vc : VClock) (nodeId : Nat) : Nat := if nodeId < vc.numNodes then vc.entries nodeId else 0

/-- `cauchy_vclock_set`: `entries[node_id] = value` when `node_id < num_nodes`. -/
def set (vc : VClock) (nodeId value : Nat) : VClock :=
  if nodeId < vc.numNodes then { vc with entries := Function.update vc.entries nodeId value }
  else vc

/-- `cauchy_vclock_merge`: for every `i` below the larger `num_nodes`, take `src`'s entry when it
is the larger; then take the larger `num_nodes`.  The loop's iterations touch distinct indices. -/
def merge (dst src : VClock) : VClock where
  entries i :=
    if i < max dst.numNodes src.numNodes ∧ src.entries i > dst.entries i then src.entries i
    else dst.entries i
  numNodes := if src.numNodes > dst.numNodes then src.numNodes else dst.numNodes

/-- `cauchy_vclock_compare`. -/
def compare (a b : VClock) : Causality := compareEntries a.entries a.numNodes b.entries b.numNodes

/-- `cauchy_vclock_happens_before`. -/
def happensBefore (a b : VClock) : Bool := a.compare b == .happensBefore

/-- `cauchy_vclock_concurrent`. -/
def concurrent (a b : VClock) : Bool := a.compare b == .concurrent

/-- `cauchy_vclock_equals`: `compare` says `EQUAL`. -/
def equals (a b : VClock) : Bool := a.compare b == .equal

/-- `cauchy_vclock_is_empty`. -/
def isEmpty (vc : VClock) : Bool := (List.range vc.numNodes).all fun i => vc.entries i == 0

/-- `cauchy_vclock_sum`: the `u64` sum of the first `num_nodes` entries. -/
def sum (vc : VClock) : Nat :=
  (List.range vc.numNodes).foldl (fun s i => (s + vc.entries i) % 2 ^ 64) 0

/-- `cauchy_vclock_min`: the smaller of each entry below both `num_nodes`. -/
def min (dst src : VClock) : VClock :=
  { dst with entries := fun i =>
      if i < dst.numNodes ∧ i < src.numNodes ∧ src.entries i < dst.entries i then src.entries i
      else dst.entries i }

/-- `cauchy_vclock_serialized_size`. -/
def serializedSize (vc : VClock) : Nat := countsSize vc.numNodes

/-- `cauchy_vclock_serialize` into a buffer of `size` bytes. -/
def serialize (vc : VClock) (buf : List UInt8) (size : Nat) : Nat × List UInt8 :=
  serializeCounts vc.entries vc.numNodes buf size

/-- `cauchy_vclock_deserialize` from a buffer of `size` bytes: the checks, then `init` and the
`memcpy` of the entries. -/
def deserialize (vc : VClock) (buf : List UInt8) (size : Nat) : Result × VClock :=
  match deserializeCounts buf size with
  | none => (.errInvalid, vc)
  | some (n, f) => (.ok, { init n with entries := f })

/-! ## One lemma per operation -/

@[simp] theorem init_entries (n i : Nat) : (init n).entries i = 0 := rfl

@[simp] theorem init_numNodes (n : Nat) : (init n).numNodes = Min.min n maxNodes := rfl

@[simp] theorem increment_numNodes (vc : VClock) (k : Nat) :
    (vc.increment k).numNodes = vc.numNodes := by
  unfold increment; split <;> rfl

theorem increment_entries (vc : VClock) (k i : Nat) :
    (vc.increment k).entries i =
      if k < vc.numNodes ∧ i = k then (vc.entries k + 1) % 2 ^ 64 else vc.entries i := by
  unfold increment
  by_cases hk : k < vc.numNodes <;> by_cases hi : i = k <;> simp [hk, hi]

@[simp] theorem set_numNodes (vc : VClock) (k v : Nat) : (vc.set k v).numNodes = vc.numNodes := by
  unfold set; split <;> rfl

theorem set_entries (vc : VClock) (k v i : Nat) :
    (vc.set k v).entries i = if k < vc.numNodes ∧ i = k then v else vc.entries i := by
  unfold set
  by_cases hk : k < vc.numNodes <;> by_cases hi : i = k <;> simp [hk, hi]

@[simp] theorem merge_numNodes (d s : VClock) :
    (d.merge s).numNodes = max d.numNodes s.numNodes := by
  simp only [merge, gt_iff_lt]; split <;> omega

@[simp] theorem min_numNodes (d s : VClock) : (d.min s).numNodes = d.numNodes := rfl

/-- What a decode does: fail and leave the clock, or succeed with the counter format's result. -/
theorem deserialize_cases (vc : VClock) (buf : List UInt8) (size : Nat) :
    (deserializeCounts buf size = none ∧ vc.deserialize buf size = (.errInvalid, vc)) ∨
      ∃ n f, deserializeCounts buf size = some (n, f) ∧
        vc.deserialize buf size = (.ok, { init n with entries := f }) := by
  unfold deserialize
  split
  · rename_i h; exact .inl ⟨h, rfl⟩
  · rename_i n f h; exact .inr ⟨n, f, h, rfl⟩

/-! ## Clocks the code reaches -/

/-- The representation invariant: at most `CAUCHY_MAX_NODES` nodes, every entry from `num_nodes`
on zero, every entry a `u64`. -/
structure WF (vc : VClock) : Prop where
  numNodes_le : vc.numNodes ≤ maxNodes
  zero_above : ∀ i, vc.numNodes ≤ i → vc.entries i = 0
  lt : ∀ i, vc.entries i < 2 ^ 64

/-- The clocks reachable from `cauchy_vclock_init` by the calls that write a clock, on any
arguments (a `set` with a `u64` value). -/
inductive Reachable : VClock → Prop
  | init (n : Nat) : Reachable (init n)
  | increment {vc : VClock} (k : Nat) : Reachable vc → Reachable (vc.increment k)
  | set {vc : VClock} (k v : Nat) : v < 2 ^ 64 → Reachable vc → Reachable (vc.set k v)
  | merge {vc src : VClock} : Reachable vc → Reachable src → Reachable (vc.merge src)
  | copy {vc src : VClock} : Reachable vc → Reachable src → Reachable (vc.copy src)
  | min {vc src : VClock} : Reachable vc → Reachable src → Reachable (vc.min src)
  | deserialize {vc : VClock} (buf : List UInt8) (size : Nat) :
      Reachable vc → Reachable (vc.deserialize buf size).2

section WF

variable {vc src : VClock}

theorem wf_init (n : Nat) : WF (init n) :=
  ⟨Nat.min_le_right _ _, fun _ _ => rfl, fun _ => by simp⟩

theorem WF.increment (h : WF vc) (k : Nat) : WF (vc.increment k) where
  numNodes_le := by simpa using h.numNodes_le
  zero_above i hi := by
    rw [increment_numNodes] at hi
    rw [increment_entries, if_neg (by omega), h.zero_above i hi]
  lt i := by rw [increment_entries]; split <;> [exact Nat.mod_lt _ (by norm_num); exact h.lt i]

theorem WF.set (h : WF vc) (k : Nat) {v : Nat} (hv : v < 2 ^ 64) : WF (vc.set k v) where
  numNodes_le := by simpa using h.numNodes_le
  zero_above i hi := by
    rw [set_numNodes] at hi
    rw [set_entries, if_neg (by omega), h.zero_above i hi]
  lt i := by rw [set_entries]; split <;> [exact hv; exact h.lt i]

/-- On well-formed clocks, `merge` is the larger of each entry. -/
theorem merge_entries (h : WF vc) (hs : WF src) (i : Nat) :
    (vc.merge src).entries i = max (vc.entries i) (src.entries i) := by
  simp only [merge, gt_iff_lt]
  split
  · omega
  · rename_i hi
    by_cases hm : i < max vc.numNodes src.numNodes
    · omega
    · rw [h.zero_above i (by omega), hs.zero_above i (by omega)]; rfl

theorem WF.merge (h : WF vc) (hs : WF src) : WF (vc.merge src) where
  numNodes_le := by simpa using ⟨h.numNodes_le, hs.numNodes_le⟩
  zero_above i hi := by
    rw [merge_numNodes] at hi
    rw [merge_entries h hs, h.zero_above i (by omega), hs.zero_above i (by omega)]; rfl
  lt i := by rw [merge_entries h hs]; exact max_lt (h.lt i) (hs.lt i)

theorem WF.min (h : WF vc) (src : VClock) : WF (vc.min src) where
  numNodes_le := h.numNodes_le
  zero_above i hi := by
    simp only [VClock.min] at hi ⊢
    rw [if_neg (by omega)]
    exact h.zero_above i hi
  lt i := by
    simp only [VClock.min]
    split
    · exact lt_trans (by omega) (h.lt i)
    · exact h.lt i

/-- A decode that succeeds leaves a well-formed clock. -/
theorem wf_of_deserializeCounts {buf : List UInt8} {size n : Nat} {f : Nat → Nat}
    (h : deserializeCounts buf size = some (n, f)) : WF { init n with entries := f } := by
  obtain ⟨-, hn, -, hf⟩ := deserializeCounts_some h
  refine ⟨by simp, fun i hi => ?_, deserializeCounts_lt h⟩
  simp only [init_numNodes, Nat.min_eq_left hn] at hi
  show f i = 0
  rw [hf, if_neg (by omega)]

theorem WF.deserialize (h : WF vc) (buf : List UInt8) (size : Nat) :
    WF (vc.deserialize buf size).2 := by
  rcases deserialize_cases vc buf size with ⟨-, hd⟩ | ⟨n, f, hc, hd⟩ <;> rw [hd]
  exacts [h, wf_of_deserializeCounts hc]

/-- A decode that succeeds leaves the clock `init` and the same decode leave, whatever it
decoded into. -/
theorem reachable_of_deserialize_ok {buf : List UInt8} {size : Nat}
    (h : (vc.deserialize buf size).1 = .ok) : Reachable (vc.deserialize buf size).2 := by
  rcases deserialize_cases vc buf size with ⟨-, hd⟩ | ⟨n, f, hc, hd⟩ <;> rw [hd] at h ⊢
  · cases h
  · have := Reachable.deserialize buf size (.init 0)
    rwa [deserialize, hc] at this

theorem Reachable.wf (h : Reachable vc) : WF vc := by
  induction h with
  | init n => exact wf_init n
  | increment k _ ih => exact ih.increment k
  | set k _ hv _ ih => exact ih.set k hv
  | merge _ _ ih ih' => exact ih.merge ih'
  | copy _ _ _ ih' => exact ih'
  | min _ _ ih _ => exact ih.min _
  | deserialize buf size _ ih => exact ih.deserialize buf size

end WF

section Order

variable {a b : VClock}

/-- **`compare` is the product order.**  On well-formed clocks, `a` is `EQUAL` or
`HAPPENS_BEFORE` `b` exactly when every entry of `a` is at most `b`'s. -/
theorem compare_le_iff (ha : WF a) (hb : WF b) :
    (a.compare b = .equal ∨ a.compare b = .happensBefore) ↔ ∀ i, a.entries i ≤ b.entries i :=
  compareEntries_le_iff_of_zero ha.zero_above hb.zero_above

theorem compare_eq_happensAfter_iff (ha : WF a) (hb : WF b) :
    a.compare b = .happensAfter ↔
      (∀ i, b.entries i ≤ a.entries i) ∧ ∃ i, b.entries i < a.entries i :=
  compareEntries_eq_happensAfter_iff_of_zero ha.zero_above hb.zero_above

/-- On well-formed clocks, `equals` is equality of the entries. -/
theorem equals_iff (ha : WF a) (hb : WF b) : a.equals b = true ↔ a.entries = b.entries := by
  rw [equals, beq_iff_eq]
  exact compareEntries_eq_equal_iff_of_zero ha.zero_above hb.zero_above

/-- On any two clocks, `compare` classifies the entries as `get` reads them, `0` past
`num_nodes`. -/
theorem compare_classifies (a b : VClock) : Classifies (a.compare b) a.get b.get :=
  compareEntries_classifies _ _ _ _

theorem compare_swap (a b : VClock) : b.compare a = (a.compare b).dual :=
  (compare_classifies a b).dual_eq (compare_classifies b a)

variable {c : VClock}

/-- What `cauchy_vclock_merge` promises three clocks, under `cauchy_vclock_equals` and in the
order `cauchy_vclock_compare` decides. -/
structure MergeLaws (a b c : VClock) : Prop where
  comm : (a.merge b).equals (b.merge a) = true
  assoc : ((a.merge b).merge c).equals (a.merge (b.merge c)) = true
  idem : (a.merge a).equals a = true
  /-- `merge (a, b)` is above `a`… -/
  le_left : a.compare (a.merge b) = .equal ∨ a.compare (a.merge b) = .happensBefore
  /-- … and above `b`… -/
  le_right : b.compare (a.merge b) = .equal ∨ b.compare (a.merge b) = .happensBefore
  /-- … and below every `c` above both. -/
  least : (a.compare c = .equal ∨ a.compare c = .happensBefore) →
    (b.compare c = .equal ∨ b.compare c = .happensBefore) →
    (a.merge b).compare c = .equal ∨ (a.merge b).compare c = .happensBefore

theorem mergeLaws_of_wf (ha : WF a) (hb : WF b) (hc : WF c) : MergeLaws a b c where
  comm := (equals_iff (ha.merge hb) (hb.merge ha)).2 (funext fun i => by
    rw [merge_entries ha hb, merge_entries hb ha, max_comm])
  assoc := (equals_iff ((ha.merge hb).merge hc) (ha.merge (hb.merge hc))).2 (funext fun i => by
    simp only [merge_entries (ha.merge hb) hc, merge_entries ha (hb.merge hc), merge_entries ha hb,
      merge_entries hb hc, max_assoc])
  idem := (equals_iff (ha.merge ha) ha).2 (funext fun i => by rw [merge_entries ha ha, max_self])
  le_left := (compare_le_iff ha (ha.merge hb)).2 fun i => by
    rw [merge_entries ha hb]; exact le_max_left _ _
  le_right := (compare_le_iff hb (ha.merge hb)).2 fun i => by
    rw [merge_entries ha hb]; exact le_max_right _ _
  least hac hbc := by
    rw [compare_le_iff ha hc] at hac
    rw [compare_le_iff hb hc] at hbc
    exact (compare_le_iff (ha.merge hb) hc).2 fun i => by
      rw [merge_entries ha hb]; exact max_le (hac i) (hbc i)

/-- On a well-formed `dst`, `min` is the smaller entry below `src`'s `num_nodes`, and `dst`'s
entry past it. -/
theorem min_entries (h : WF a) (b : VClock) (i : Nat) :
    (a.min b).entries i =
      if i < b.numNodes then Min.min (a.entries i) (b.entries i) else a.entries i := by
  simp only [VClock.min]
  by_cases hi : i < a.numNodes
  · split_ifs <;> omega
  · rw [h.zero_above i (by omega)]; split_ifs <;> omega

/-- When `dst` has no more nodes than `src`, `min` is the greatest lower bound of well-formed
clocks in the order `compare` decides. -/
theorem min_glb_of_numNodes_le (ha : WF a) (hb : WF b) (hn : a.numNodes ≤ b.numNodes) :
    ((a.min b).compare a = .equal ∨ (a.min b).compare a = .happensBefore) ∧
      ((a.min b).compare b = .equal ∨ (a.min b).compare b = .happensBefore) ∧
      ∀ c : VClock, WF c → (c.compare a = .equal ∨ c.compare a = .happensBefore) →
        (c.compare b = .equal ∨ c.compare b = .happensBefore) →
        c.compare (a.min b) = .equal ∨ c.compare (a.min b) = .happensBefore := by
  have hm : ∀ i, (a.min b).entries i = Min.min (a.entries i) (b.entries i) := fun i => by
    rw [min_entries ha]
    split
    · rfl
    · rw [ha.zero_above i (by omega), Nat.zero_min]
  refine ⟨(compare_le_iff (ha.min b) ha).2 fun i => ?_, (compare_le_iff (ha.min b) hb).2
    fun i => ?_, fun c hc hca hcb => (compare_le_iff hc (ha.min b)).2 fun i => ?_⟩
  · rw [hm]; exact Nat.min_le_left _ _
  · rw [hm]; exact Nat.min_le_right _ _
  · rw [hm]
    exact le_min ((compare_le_iff hc ha).1 hca i) ((compare_le_iff hc hb).1 hcb i)

/-- Two nodes, `(5, 2)`, below three, `(3, 7, 1)`: the meet is `(3, 2)`. -/
theorem twoThree_min_glb :
    let a := ((init 2).set 0 5).set 1 2
    let b := (((init 3).set 0 3).set 1 7).set 2 1
    WF a ∧ WF b ∧ a.numNodes ≤ b.numNodes ∧ (a.min b).entries 0 = 3 ∧ (a.min b).entries 1 = 2 ∧
      ((a.min b).compare a = .equal ∨ (a.min b).compare a = .happensBefore) ∧
      ((a.min b).compare b = .equal ∨ (a.min b).compare b = .happensBefore) ∧
      ∀ c : VClock, WF c → (c.compare a = .equal ∨ c.compare a = .happensBefore) →
        (c.compare b = .equal ∨ c.compare b = .happensBefore) →
        c.compare (a.min b) = .equal ∨ c.compare (a.min b) = .happensBefore :=
  have ha : WF (((init 2).set 0 5).set 1 2) :=
    ((wf_init 2).set 0 (by norm_num)).set 1 (by norm_num)
  have hb : WF ((((init 3).set 0 3).set 1 7).set 2 1) :=
    (((wf_init 3).set 0 (by norm_num)).set 1 (by norm_num)).set 2 (by norm_num)
  ⟨ha, hb, by decide, by decide, by decide, min_glb_of_numNodes_le ha hb (by decide)⟩

end Order

/-- A clock of two nodes whose second entry is `5`. -/
def twoNodeClock : VClock := (init 2).set 1 5

/-- **`min` keeps the entries past `src`'s nodes.**  `cauchy_vclock_min (a, b)` of the two-node
clock `twoNodeClock` and a fresh one-node clock scans index `0` only, so it leaves `a` as it was,
and the result is `HAPPENS_AFTER` `b` rather than below it. -/
theorem min_above_shorter_clock :
    Reachable twoNodeClock ∧ Reachable (init 1) ∧
      (twoNodeClock.min (init 1)).compare twoNodeClock = .equal ∧
      (twoNodeClock.min (init 1)).compare (init 1) = .happensAfter :=
  ⟨.set 1 5 (by norm_num) (.init 2), .init 1, by decide, by decide⟩

/-! ## The wire format -/

section Wire

variable {vc : VClock}

theorem serialize_of_le (buf : List UInt8) {size : Nat} (hs : vc.serializedSize ≤ size) :
    vc.serialize buf size =
      (vc.serializedSize, encodeCounts vc.entries vc.numNodes ++ buf.drop vc.serializedSize) := by
  rw [serialize, serializeCounts, if_neg (by unfold serializedSize at hs; omega)]; rfl

/-- **Clocks round-trip through their bytes.**  A well-formed clock serialized into a buffer of
`size ≥ serialized_size` bytes returns that size, and the buffer decodes, with any `size'` that
covers the bytes and into any clock, to the same clock. -/
theorem deserialize_serialize (h : WF vc) (buf : List UInt8) {size size' : Nat}
    (hs : vc.serializedSize ≤ size) (hs' : vc.serializedSize ≤ size') (y : VClock) :
    (vc.serialize buf size).1 = vc.serializedSize ∧
      y.deserialize (vc.serialize buf size).2 size' = (.ok, vc) := by
  refine ⟨by rw [serialize_of_le buf hs], ?_⟩
  rw [serialize_of_le buf hs, deserialize,
    deserializeCounts_encodeCounts h.numNodes_le (fun i _ => h.lt i) _ hs']
  refine congrArg _ (VClock.ext (funext fun i => ?_) (Nat.min_eq_left h.numNodes_le))
  show (if i < vc.numNodes then vc.entries i else 0) = vc.entries i
  exact readEntry_of_zero h.zero_above i

/-- **Bytes round-trip through clocks.**  When a decode succeeds, serializing the clock it leaves
into a buffer large enough returns the bytes it consumed. -/
theorem serialize_deserialize {buf : List UInt8} {size : Nat}
    (h : (vc.deserialize buf size).1 = .ok) (buf' : List UInt8) {size' : Nat}
    (hs : (vc.deserialize buf size).2.serializedSize ≤ size') :
    ((vc.deserialize buf size).2.serialize buf' size').1 =
        (vc.deserialize buf size).2.serializedSize ∧
      ((vc.deserialize buf size).2.serialize buf' size').2.take
          (vc.deserialize buf size).2.serializedSize =
        (List.range (vc.deserialize buf size).2.serializedSize).map fun j => buf.getD j 0 := by
  rw [serialize_of_le buf' hs]
  refine ⟨rfl, ?_⟩
  rcases deserialize_cases vc buf size with ⟨-, hd⟩ | ⟨n, f, hc, hd⟩ <;> rw [hd] at h ⊢
  · cases h
  · have hn : (init n).numNodes = n := Nat.min_eq_left (deserializeCounts_some hc).2.1
    rw [List.take_left' (by simp [serializedSize])]
    simp only [serializedSize, hn]
    exact encodeCounts_of_deserializeCounts hc

/-- A decode that fails leaves the clock as it was. -/
theorem deserialize_of_ne_ok {buf : List UInt8} {size : Nat}
    (h : (vc.deserialize buf size).1 ≠ .ok) : (vc.deserialize buf size).2 = vc := by
  rcases deserialize_cases vc buf size with ⟨-, hd⟩ | ⟨n, f, -, hd⟩ <;> rw [hd] at h ⊢
  exact absurd rfl h

/-- A decode that succeeds leaves a well-formed clock. -/
theorem wf_of_deserialize_ok {buf : List UInt8} {size : Nat}
    (h : (vc.deserialize buf size).1 = .ok) : WF (vc.deserialize buf size).2 := by
  rcases deserialize_cases vc buf size with ⟨-, hd⟩ | ⟨n, f, hc, hd⟩ <;> rw [hd] at h ⊢
  · cases h
  · exact wf_of_deserializeCounts hc

/-- The decoder reads no byte at or past `size`. -/
theorem deserialize_congr {buf buf' : List UInt8} {size : Nat}
    (h : ∀ i < size, buf.getD i 0 = buf'.getD i 0) :
    vc.deserialize buf size = vc.deserialize buf' size := by
  rw [deserialize, deserialize, deserializeCounts_congr h]

/-- The serializer writes no byte at or past what it returns, which is at most `size`, and
writes nothing when `size` is too small. -/
theorem serialize_frame (vc : VClock) (buf : List UInt8) (size : Nat) :
    (vc.serialize buf size).1 ≤ size ∧
      (∀ i, (vc.serialize buf size).1 ≤ i → (vc.serialize buf size).2.getD i 0 = buf.getD i 0) ∧
      (size < vc.serializedSize → vc.serialize buf size = (0, buf)) :=
  serializeCounts_frame _ _ _ _

end Wire

end VClock
end Cauchy
