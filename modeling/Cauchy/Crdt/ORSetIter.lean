import Cauchy.Crdt.GSet
import Cauchy.Crdt.ORSetContents

/-!
# Iterating over an OR-Set

`cauchy_orset_iter_init` and `cauchy_orset_iter_next` walk the table in the order of the
whole-table loops, bucket by bucket and each chain from its head, and yield the payload of every
live entry.  The header calls this an "iterator for unique active elements" and gives the
iterator a `last_data` field "to skip duplicate values", but nothing reads that field: a payload
held by two live entries is yielded twice.

The iterator's state is the bucket index and the chain from `current` on.  Its scans of the
buckets always end, so they are recursions over the bucket indices they visit (`firstLive`).  The
outer loop of `iter_next` can spin for ever on a removed entry it lands on after the last bucket,
so it is run with fuel (`iterNextLoop`); from the states `iter_init` and `iter_next` leave
(`Iter.Settled`) its first turn returns.

* `iterate_iterInit`: for every set, `iter_init` followed by `iter_next` until it returns `false`
  yields the payloads of the live entries, in table order, and then returns `false`.
* `count_and_iteration_repeat_payload`: after `add ([1])` twice, `cauchy_orset_count` is `2` and
  the iteration yields `[1]` twice, while `[1]` is the only payload `contains` accepts.
* `remove_during_iteration`: `current` points into the table, so a `remove` between two calls
  can tombstone the entry it stands on.  `iter_next` then moves to the next bucket without
  walking the rest of the chain, skipping its live entries, and in the last bucket it never
  returns (`iterNextLoop_spins`).
* `iterators_yield_each_once`: the G-Set iterator (`GSet.iterate_iterInit`) and this one, on a
  set nobody modifies, yield each element once and then return `false`.
-/

set_option autoImplicit false

namespace Cauchy
namespace ORSet

/-! ## The iterator -/

/-- `cauchy_orset_iter_t`: the bucket being walked and the chain from `current` on (`[]` is
`NULL`).  `last_data` and `last_size` are only ever set to `NULL` and `0`, and nothing reads them,
so they are not modelled. -/
structure Iter where
  bucketIdx : Nat
  current : List Entry
  deriving DecidableEq, Repr

/-- The scan of buckets `is`, in order: in each, skip the removed entries at the head of its chain
(`while (current && current->removed) current = current->next`) and stop at the first bucket
where an entry is left; past the last bucket, `bucket_idx = num_buckets` and `current = NULL`. -/
def firstLive (s : ORSet) : List Nat → Iter
  | [] => ⟨s.numBuckets, []⟩
  | i :: is =>
    match (s.buckets i).dropWhile (·.removed) with
    | [] => firstLive s is
    | c => ⟨i, c⟩

/-- `cauchy_orset_iter_init`: the scan from bucket `0`. -/
def iterInit (s : ORSet) : Iter := firstLive s (List.range' 0 s.numBuckets)

/-- What `iter_next` does after it has yielded the entry before `rest` in bucket `idx`:
`do current = current->next; while (current && current->removed);` and, if that leaves `NULL`,
`while (++bucket_idx < num_buckets)` scans the following buckets. -/
def afterYield (s : ORSet) (idx : Nat) (rest : List Entry) : Iter :=
  match rest.dropWhile (·.removed) with
  | [] => firstLive s (List.range' (idx + 1) (s.numBuckets - (idx + 1)))
  | c => ⟨idx, c⟩

/-- The loop of `cauchy_orset_iter_next`, for at most `fuel` turns:
`while (current || bucket_idx < num_buckets - 1)`, yield `current` if it is live, and otherwise
`if (++bucket_idx < num_buckets) current = buckets[bucket_idx]`.  `some (some d, it)` is a
`true` return with `*data = d`, `some (none, it)` a `false` return, and `none` a loop still
running when the fuel is spent. -/
def iterNextLoop (s : ORSet) : Nat → Iter → Option (Option (List UInt8) × Iter)
  | 0, _ => none
  | fuel + 1, ⟨idx, cur⟩ =>
    if cur ≠ [] ∨ idx < s.numBuckets - 1 then
      let bumped : Iter :=
        ⟨idx + 1, if idx + 1 < s.numBuckets then s.buckets (idx + 1) else cur⟩
      match cur with
      | e :: rest =>
        if !e.removed then some (some e.data, afterYield s idx rest)
        else iterNextLoop s fuel bumped
      | [] => iterNextLoop s fuel bumped
    else some (none, ⟨idx, cur⟩)

/-- `cauchy_orset_iter_next`.  Each turn that does not return moves to the next bucket, and once
past the last one a loop that has not returned never will, so `num_buckets + 1` turns are as
many as any call that returns takes. -/
def iterNext (s : ORSet) (it : Iter) : Option (Option (List UInt8) × Iter) :=
  iterNextLoop s (s.numBuckets + 1) it

/-- The payloads `while (cauchy_orset_iter_next (&it, &data, &size))` sees from `it` over at most
`n` calls: `some ds` when a call returned `false` after the others yielded `ds`, and `none` when
the calls ran out first or one of them never returned. -/
def iterate (s : ORSet) : Nat → Iter → Option (List (List UInt8))
  | 0, _ => none
  | n + 1, it =>
    match iterNext s it with
    | some (some d, it') => (iterate s n it').map (d :: ·)
    | some (none, _) => some []
    | none => none

/-! ## What is left to yield -/

/-- The live entries of a chain, which skipping its removed head does not change. -/
def live (l : List Entry) : List Entry := l.filter fun e => !e.removed

@[simp] theorem live_nil : live [] = [] := rfl

@[simp] theorem live_append (l l' : List Entry) : live (l ++ l') = live l ++ live l' :=
  List.filter_append _ _

theorem live_cons_of_live {e : Entry} (he : e.removed = false) (l : List Entry) :
    live (e :: l) = e :: live l := by
  simp [live, he]

theorem live_dropWhile (l : List Entry) : live (l.dropWhile (·.removed)) = live l := by
  induction l with
  | nil => rfl
  | cons e l ih =>
    cases he : e.removed
    · simp [he]
    · simp only [List.dropWhile_cons, he, ↓reduceIte, ih]
      simp [live, he]

theorem dropWhile_removed_cons {l c : List Entry} {e : Entry}
    (h : l.dropWhile (·.removed) = e :: c) : e.removed = false := by
  simpa using List.head_dropWhile_not (·.removed) l (by simp [h]) |>.symm.trans (by simp [h])

/-- The entries a state of the iterator has still to yield: the live ones of `current` and of the
buckets after `bucket_idx`. -/
def pending (s : ORSet) (it : Iter) : List Entry :=
  live (it.current ++
    (List.range' (it.bucketIdx + 1) (s.numBuckets - (it.bucketIdx + 1))).flatMap s.buckets)

/-- The states `iter_init` and `iter_next` leave: at a live entry of a bucket, or past the last
bucket with `current = NULL`. -/
def Iter.Settled (s : ORSet) (it : Iter) : Prop :=
  (it.current = [] ∧ s.numBuckets ≤ it.bucketIdx) ∨
    ∃ e rest, it.current = e :: rest ∧ e.removed = false ∧ it.bucketIdx < s.numBuckets

variable {s : ORSet}

/-- A scan of the buckets `j, …, num_buckets - 1` settles, with their live entries to yield. -/
theorem firstLive_spec (k : Nat) :
    ∀ j, j + k = s.numBuckets → (firstLive s (List.range' j k)).Settled s ∧
      pending s (firstLive s (List.range' j k)) = live ((List.range' j k).flatMap s.buckets) := by
  induction k with
  | zero =>
    intro j _
    exact ⟨.inl ⟨rfl, le_rfl⟩, by simp [pending, firstLive]⟩
  | succ k ih =>
    intro j hj
    rw [List.range'_succ, List.flatMap_cons, live_append, ← live_dropWhile (s.buckets j)]
    cases hd : (s.buckets j).dropWhile (·.removed) with
    | nil =>
      simp only [firstLive, hd, live_nil, List.nil_append]
      exact ih (j + 1) (by omega)
    | cons e rest =>
      simp only [firstLive, hd]
      refine ⟨.inr ⟨e, rest, rfl, dropWhile_removed_cons hd, show j < _ by omega⟩, ?_⟩
      simp only [pending, live_append, show s.numBuckets - (j + 1) = k by omega]

theorem iterInit_spec (s : ORSet) :
    (iterInit s).Settled s ∧ pending s (iterInit s) = live s.elems := by
  have h := firstLive_spec (s := s) s.numBuckets 0 (Nat.zero_add _)
  rwa [elems, Buckets.entries, List.range_eq_range']

theorem afterYield_spec {idx : Nat} (hidx : idx < s.numBuckets) (rest : List Entry) :
    (afterYield s idx rest).Settled s ∧ pending s (afterYield s idx rest) =
      live (rest ++ (List.range' (idx + 1) (s.numBuckets - (idx + 1))).flatMap s.buckets) := by
  rw [live_append, ← live_dropWhile rest]
  cases hd : rest.dropWhile (·.removed) with
  | nil =>
    simp only [afterYield, hd, live_nil, List.nil_append]
    exact firstLive_spec _ _ (by omega)
  | cons e rest' =>
    simp only [afterYield, hd]
    exact ⟨.inr ⟨e, rest', rfl, dropWhile_removed_cons hd, hidx⟩, by rw [pending, live_append]⟩

/-- From a settled state, `iter_next` returns on its first turn: the next entry to yield and a
settled state with the rest, or `false` when there is none. -/
theorem iterNext_spec {it : Iter} (h : it.Settled s) :
    match pending s it with
    | [] => iterNext s it = some (none, it)
    | e :: es => ∃ it', iterNext s it = some (some e.data, it') ∧ it'.Settled s ∧
        pending s it' = es := by
  obtain ⟨idx, cur⟩ := it
  rcases h with ⟨hc, hidx⟩ | ⟨e, rest, hc, he, hidx⟩
  · dsimp only at hc hidx
    subst hc
    have hp : pending s ⟨idx, []⟩ = [] := by
      simp [pending, show s.numBuckets - (idx + 1) = 0 by omega]
    rw [hp]
    simp only [iterNext, iterNextLoop]
    rw [if_neg (by simp; omega)]
  · dsimp only at hc hidx
    subst hc
    have hp : pending s ⟨idx, e :: rest⟩ = e :: live (rest ++
        (List.range' (idx + 1) (s.numBuckets - (idx + 1))).flatMap s.buckets) := by
      rw [pending, List.cons_append, live_cons_of_live he]
    rw [hp]
    obtain ⟨hset, hpend⟩ := afterYield_spec hidx rest
    refine ⟨afterYield s idx rest, ?_, hset, hpend⟩
    simp only [iterNext, iterNextLoop]
    rw [if_pos (.inl (List.cons_ne_nil _ _))]
    simp [he]

/-- From a settled state, enough calls of `iter_next` yield the payloads of the pending entries
and then return `false`. -/
theorem iterate_spec (n : Nat) :
    ∀ it : Iter, it.Settled s → (pending s it).length < n →
      iterate s n it = some ((pending s it).map (·.data)) := by
  induction n with
  | zero => intro _ _ h; omega
  | succ n ih =>
    intro it h hn
    have hs := iterNext_spec h
    revert hs hn
    cases pending s it with
    | nil => intro _ hs; simp [iterate, hs]
    | cons e es =>
      rintro hn ⟨it', hnext, hset, hpend⟩
      rw [iterate, hnext]
      dsimp only
      simp only [List.length_cons] at hn
      rw [ih it' hset (by rw [hpend]; omega), hpend]
      rfl

/-- **Iteration yields every live entry once.**  For every set, `iter_init` and then `iter_next`,
called until it returns `false`, yield the payloads of the live entries in table order, each
entry once; it returns `false` on the call after the last. -/
theorem iterate_iterInit (s : ORSet) :
    iterate s (s.liveCount + 1) (iterInit s) =
      some ((s.elems.filter fun e => !e.removed).map (·.data)) := by
  obtain ⟨hset, hpend⟩ := iterInit_spec s
  rw [iterate_spec _ _ hset (by simp [hpend, live, liveCount, List.countP_eq_length_filter]),
    hpend]
  rfl

/-- **Count and iteration count entries, not payloads.**  `twiceAdded` is a fresh set after
`add ([1])` twice: `[1]` is the only payload it contains, yet `cauchy_orset_count` is `2` and the
iterator yields `[1]` twice before returning `false`. -/
theorem count_and_iteration_repeat_payload :
    ReachableSet twiceAdded ∧ twiceAdded.count = 2 ∧
      (∀ x, twiceAdded.contains x = true ↔ x = [1]) ∧
      iterate twiceAdded 3 (iterInit twiceAdded) = some [[1], [1]] := by
  refine ⟨twiceAdded_reachable, rfl, fun x => ?_, by decide⟩
  have he : twiceAdded.elems =
      [⟨[1], hashData [1], Uid.create 0 2, false⟩, ⟨[1], hashData [1], Uid.create 0 1, false⟩] := by
    decide
  rw [contains_iff_exists (reachableSet_valid twiceAdded_reachable).toLayout, he]
  constructor
  · rintro ⟨e, he', -, rfl⟩
    simp only [List.mem_cons, List.mem_singleton, List.not_mem_nil, or_false] at he'
    rcases he' with rfl | rfl <;> rfl
  · rintro rfl
    exact ⟨_, List.mem_cons_self _ _, rfl, rfl⟩

/-! ## Removing while iterating -/

/-- Past the last bucket on a removed entry, the loop of `iter_next` never returns: each turn
bumps `bucket_idx` and, finding no bucket there, leaves `current` where it is. -/
theorem iterNextLoop_spins {idx : Nat} {cur : List Entry} (hidx : s.numBuckets ≤ idx + 1)
    (hc : cur.head?.map (·.removed) = some true) (fuel : Nat) :
    iterNextLoop s fuel ⟨idx, cur⟩ = none := by
  obtain ⟨e, rest, rfl, he⟩ : ∃ e rest, cur = e :: rest ∧ e.removed = true := by
    cases cur with
    | nil => cases hc
    | cons e rest => exact ⟨e, rest, rfl, Option.some.inj hc⟩
  induction fuel generalizing idx with
  | zero => rfl
  | succ n ih =>
    simp only [iterNextLoop, ne_eq, reduceCtorEq, not_false_eq_true, true_or, ↓reduceIte, he,
      Bool.not_true, Bool.false_eq_true, if_neg (show ¬ idx + 1 < s.numBuckets by omega)]
    exact ih (by omega)

/-- `[3]`, then `[1]` twice, into a table of two buckets: all three land in bucket `0`, `[3]`
last in its chain. -/
def sharedBucket : ORSet := ((((init 2 0).add [3] true).2.add [1] true).2.add [1] true).2

/-- `[1]` twice into a table of one bucket. -/
def singleBucket : ORSet := (((init 1 0).add [1] true).2.add [1] true).2

/-- **Removing while iterating skips or spins.**  The first `iter_next` on `sharedBucket` yields
`[1]` and leaves `current` on the second entry of bucket `0`.  A `remove ([1])` then tombstones
that entry under the iterator; the next `iter_next` moves on to bucket `1` without walking the
rest of the chain, and returns `false`, though `[3]` is still live there.  On `singleBucket` the
same calls leave `current` on a tombstone in the last bucket, and `iter_next` never returns: at
every `bucket_idx`, and from `buckets[0]`, where the `usize` index wrapping back to `0` would put
it, the loop turns without yielding. -/
theorem remove_during_iteration :
    ReachableSet sharedBucket ∧
      iterNext sharedBucket (iterInit sharedBucket) =
        some (some [1], ⟨0, (sharedBucket.buckets 0).drop 1⟩) ∧
      iterate (sharedBucket.remove [1]).2 1 ⟨0, ((sharedBucket.remove [1]).2.buckets 0).drop 1⟩ =
        some [] ∧
      (sharedBucket.remove [1]).2.contains [3] = true ∧
    ReachableSet singleBucket ∧
      iterNext singleBucket (iterInit singleBucket) =
        some (some [1], ⟨0, (singleBucket.buckets 0).drop 1⟩) ∧
      ∀ idx fuel,
        iterNextLoop (singleBucket.remove [1]).2 fuel
            ⟨idx, ((singleBucket.remove [1]).2.buckets 0).drop 1⟩ = none ∧
          iterNextLoop (singleBucket.remove [1]).2 fuel
            ⟨idx, (singleBucket.remove [1]).2.buckets 0⟩ = none :=
  ⟨.add _ _ (.add _ _ (.add _ _ (.init _ _))), by decide, by decide, by decide,
    .add _ _ (.add _ _ (.init _ _)), by decide, fun idx fuel =>
      have hnb : (singleBucket.remove [1]).2.numBuckets ≤ idx + 1 :=
        (show (singleBucket.remove [1]).2.numBuckets = 1 by decide) ▸ Nat.le_add_left 1 idx
      ⟨iterNextLoop_spins hnb (by decide) fuel, iterNextLoop_spins hnb (by decide) fuel⟩⟩

/-! ## Both iterators -/

/-- **Both iterators yield each element once.**  For every reachable G-Set,
`cauchy_gset_iter_init` and then `cauchy_gset_iter_next` until it returns `false` yield every
payload of the set, each once.  For every OR-Set not modified meanwhile, the OR-Set iterator
yields the payload of every live entry, once, of no tombstoned one, and then returns `false`. -/
theorem iterators_yield_each_once :
    (∀ s : GSet, s.Reachable → ∃ ds, s.iterate (s.elems.length + 1) s.iterInit = some ds ∧
        ds.Nodup ∧ ∀ x, x ∈ ds ↔ x ∈ s.toFinset) ∧
      ∀ s : ORSet, iterate s (s.liveCount + 1) (iterInit s) =
        some ((s.elems.filter fun e => !e.removed).map (·.data)) :=
  ⟨fun s hs => ⟨_, s.iterate_iterInit, hs.wf.nodup, fun x => by simp [GSet.toFinset]⟩,
    iterate_iterInit⟩

end ORSet
end Cauchy
