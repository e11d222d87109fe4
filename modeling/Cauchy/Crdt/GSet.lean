import Cauchy.Core.Types
import Cauchy.Crdt.Buckets

/-!
# The grow-only set

`src/crdt/g_set.c`.  A `cauchy_gset_t` is a chained hash table of byte strings: `num_buckets`
chains fixed at `cauchy_gset_init` (`0` asks for the default of `16`), each element a node
holding a private copy of its payload and the payload's FNV-1a hash.  The set never removes an
element, so its whole life is `add` and `merge`, and `merge` is nothing but `add` of every
element of the source, bucket by bucket, stopping at the first error.

The allocations an `add` makes (the node from the set's pool or the heap, then the payload
copy) either both succeed or the call returns `CAUCHY_ERR_NOMEM` with the set as it was; the
model takes their outcome as an argument, `alloc`, so that every failure pattern is covered.
`merge` takes one such outcome per `add` it makes, as a function `Nat → Bool`.

What the set is *for* is a finite set of byte strings, `toFinset`: the payloads of its nodes.
`WF` is the representation invariant — every node in the chain its hash selects, its stored hash
the FNV-1a of its payload, its payload non-empty, no payload twice, `count` the number of nodes —
and the section on refinement proves that every reachable set satisfies it and that `contains`,
`add`, `merge`, `subset` and `equals` are `∈`, `insert`, `∪`, `⊆` and `=` on `toFinset`.

The iterator (`cauchy_gset_iter_init` / `cauchy_gset_iter_next`) is here too, since the 2P-Set's
`count` is a loop over it.  `pending` is what an iterator has still to yield; `iterNext` yields
the head of it, which is the measure the loops over the iterator terminate by, and
`iterate_iterInit` says that a whole iteration yields the payloads of the nodes in table order.
-/

set_option autoImplicit false

namespace Cauchy

/-- `cauchy_gset_elem_t`: the payload (its length is the node's `size`) and its stored hash. -/
structure GSet.Elem where
  data : List UInt8
  hash : Nat
  deriving DecidableEq, Repr

/-- `cauchy_gset_t`.  The element pool only changes where a node's memory comes from, so it is
not modelled; `num_buckets` is positive because `cauchy_gset_init` replaces `0` by `16`. -/
structure GSet where
  buckets : Nat → List GSet.Elem
  numBuckets : Nat
  count : Nat
  numBuckets_pos : 0 < numBuckets

namespace GSet

/-- The test every chain walk of `g_set.c` applies to a node: same hash, same size, same bytes. -/
def Elem.sameAs (e : Elem) (h : Nat) (data : List UInt8) : Bool :=
  e.hash == h && e.data.length == data.length && e.data == data

@[simp] theorem Elem.sameAs_iff {e : Elem} {h : Nat} {data : List UInt8} :
    e.sameAs h data = true ↔ e.hash = h ∧ e.data = data := by
  simp only [Elem.sameAs, Bool.and_eq_true, beq_iff_eq]
  constructor
  · rintro ⟨⟨h1, -⟩, h3⟩; exact ⟨h1, h3⟩
  · rintro ⟨h1, rfl⟩; exact ⟨⟨h1, rfl⟩, rfl⟩

/-- `cauchy_gset_init`, when its allocations succeed. -/
def init (initialCapacity : Nat) : GSet where
  buckets := fun _ => []
  numBuckets := if initialCapacity = 0 then 16 else initialCapacity
  count := 0
  numBuckets_pos := by split <;> omega

/-- The nodes of the set, in the order the whole-table loops visit them. -/
def elems (s : GSet) : List Elem := Buckets.entries s.numBuckets s.buckets

/-- The finite set of byte strings the table stands for. -/
def toFinset (s : GSet) : Finset (List UInt8) := (s.elems.map Elem.data).toFinset

/-- `cauchy_gset_contains`. -/
def contains (s : GSet) (data : List UInt8) : Bool :=
  if data.length = 0 then false
  else
    let h := hashData data
    (s.buckets (h % s.numBuckets)).any (·.sameAs h data)

/-- The end of `cauchy_gset_add` once both allocations succeeded: the new node goes on the head
of its chain and `count` goes up. -/
def insertNew (s : GSet) (data : List UInt8) : GSet :=
  { s with
    buckets := Function.update s.buckets (hashData data % s.numBuckets)
      (⟨data, hashData data⟩ :: s.buckets (hashData data % s.numBuckets))
    count := s.count + 1 }

/-- `cauchy_gset_add`.  `alloc` is whether the node and the payload copy can be allocated. -/
def add (s : GSet) (data : List UInt8) (alloc : Bool) : Result × GSet :=
  if data.length = 0 then (.errInvalid, s)
  else
    let h := hashData data
    if (s.buckets (h % s.numBuckets)).any (·.sameAs h data) then (.ok, s)
    else if alloc then (.ok, s.insertNew data)
    else (.errNomem, s)

/-- The loops of `cauchy_gset_merge`: `add` each node in turn, returning the first error.  The
`n`-th `add` is given the allocation outcome `alloc n`. -/
def mergeFrom (alloc : Nat → Bool) (dst : GSet) : List Elem → Result × GSet
  | [] => (.ok, dst)
  | e :: es =>
    let res := dst.add e.data (alloc 0)
    if res.1 = .ok then mergeFrom (fun n => alloc (n + 1)) res.2 es else res

/-- `cauchy_gset_merge`. -/
def merge (dst src : GSet) (alloc : Nat → Bool) : Result × GSet := mergeFrom alloc dst src.elems

/-- `cauchy_gset_subset`. -/
def subset (a b : GSet) : Bool := a.elems.all fun e => b.contains e.data

/-- `cauchy_gset_equals`. -/
def equals (a b : GSet) : Bool := a.count == b.count && subset a b && subset b a

/-! ## The iterator -/

/-- `cauchy_gset_iter_t`: the bucket being read and the rest of its chain. -/
structure Iter where
  bucketIdx : Nat
  current : List Elem

/-- `while (!iter->current && iter->bucket_idx < set->num_buckets - 1)`: step over empty
chains, stopping in the last bucket. -/
def advance (s : GSet) : Nat → List Elem → Iter
  | idx, [] =>
    if idx < s.numBuckets - 1 then advance s (idx + 1) (s.buckets (idx + 1)) else ⟨idx, []⟩
  | idx, e :: es => ⟨idx, e :: es⟩
termination_by idx _ => s.numBuckets - 1 - idx

/-- `cauchy_gset_iter_init`. -/
def iterInit (s : GSet) : Iter := s.advance 0 (s.buckets 0)

/-- `cauchy_gset_iter_next`: the payload of the current node, and the iterator moved past it. -/
def iterNext (s : GSet) (it : Iter) : Option (List UInt8 × Iter) :=
  match it.current with
  | [] => none
  | e :: rest => some (e.data, s.advance it.bucketIdx rest)

/-- What an iterator has still to yield: the rest of its chain, then every later chain. -/
def pending (s : GSet) (it : Iter) : List Elem :=
  it.current ++
    (List.range' (it.bucketIdx + 1) (s.numBuckets - 1 - it.bucketIdx)).flatMap s.buckets

theorem pending_advance (s : GSet) (idx : Nat) (cur : List Elem) :
    s.pending (s.advance idx cur) = s.pending ⟨idx, cur⟩ := by
  induction idx, cur using advance.induct s with
  | case1 idx h ih =>
    rw [advance, if_pos h, ih]
    have hn : s.numBuckets - 1 - idx = s.numBuckets - 1 - (idx + 1) + 1 := by omega
    simp [pending, hn, List.range'_succ]
  | case2 idx h => rw [advance, if_neg h]
  | case3 idx e es => rw [advance]

theorem pending_iterInit (s : GSet) : s.pending s.iterInit = s.elems := by
  rw [iterInit, pending_advance]
  obtain ⟨n, hn⟩ : ∃ n, s.numBuckets = n + 1 :=
    ⟨_, (Nat.succ_pred_eq_of_pos s.numBuckets_pos).symm⟩
  simp [pending, elems, Buckets.entries, hn, List.range_eq_range', List.range'_succ]

/-- Each step of the iterator yields the first pending node and leaves the rest pending. -/
theorem iterNext_pending {s : GSet} {it it' : Iter} {d : List UInt8}
    (h : s.iterNext it = some (d, it')) :
    ∃ e, e.data = d ∧ s.pending it = e :: s.pending it' := by
  unfold iterNext at h
  split at h
  · cases h
  · rename_i e rest hcur
    obtain ⟨rfl, rfl⟩ := Prod.mk.inj (Option.some.inj h)
    exact ⟨e, rfl, by rw [pending_advance]; simp [pending, hcur]⟩

/-- An iterator whose chain is used up stands in the last bucket. -/
def Settled (s : GSet) (it : Iter) : Prop := it.current = [] → s.numBuckets - 1 ≤ it.bucketIdx

theorem settled_advance (s : GSet) (idx : Nat) (cur : List Elem) :
    s.Settled (s.advance idx cur) := by
  induction idx, cur using advance.induct s with
  | case1 idx h ih => rwa [advance, if_pos h]
  | case2 idx h => rw [advance, if_neg h]; intro; simpa using h
  | case3 idx e es => rw [advance]; intro h; cases h

theorem settled_iterInit (s : GSet) : s.Settled s.iterInit := settled_advance _ _ _

/-- A settled iterator that yields nothing has nothing pending. -/
theorem pending_eq_nil {s : GSet} {it : Iter} (hs : s.Settled it) (h : s.iterNext it = none) :
    s.pending it = [] := by
  unfold iterNext at h
  split at h
  · rename_i hcur
    have hb := hs hcur
    simp [pending, hcur, show s.numBuckets - 1 - it.bucketIdx = 0 by omega]
  · cases h

theorem settled_of_iterNext {s : GSet} {it it' : Iter} {d : List UInt8}
    (h : s.iterNext it = some (d, it')) : s.Settled it' := by
  unfold iterNext at h
  split at h
  · cases h
  · obtain ⟨rfl, rfl⟩ := Prod.mk.inj (Option.some.inj h); exact settled_advance _ _ _

/-- The payloads `while (cauchy_gset_iter_next (&it, &data, &size))` sees from `it` over at most
`n` calls: `some ds` when a call returned `false` after the others yielded `ds`, and `none` when
the calls ran out first. -/
def iterate (s : GSet) : Nat → Iter → Option (List (List UInt8))
  | 0, _ => none
  | n + 1, it =>
    match s.iterNext it with
    | some (d, it') => (s.iterate n it').map (d :: ·)
    | none => some []

/-- From a settled iterator, one call more than there are pending nodes yields their payloads
and then returns `false`. -/
theorem iterate_spec {s : GSet} (n : Nat) :
    ∀ it : Iter, s.Settled it → (s.pending it).length < n →
      s.iterate n it = some ((s.pending it).map (·.data)) := by
  induction n with
  | zero => intro _ _ h; omega
  | succ n ih =>
    intro it hs hn
    cases h : s.iterNext it with
    | none => rw [iterate, h, pending_eq_nil hs h]; rfl
    | some r =>
      obtain ⟨d, it'⟩ := r
      obtain ⟨e, rfl, hp⟩ := iterNext_pending h
      rw [hp, List.length_cons] at hn
      rw [iterate, h, hp]
      simp only [ih it' (settled_of_iterNext h) (by omega), Option.map_some', List.map_cons]

/-- **Iteration yields every node once.**  `iter_init` and then `iter_next` until it returns
`false` yield the payloads of the nodes in table order, each once. -/
theorem iterate_iterInit (s : GSet) :
    s.iterate (s.elems.length + 1) s.iterInit = some (s.elems.map (·.data)) := by
  rw [iterate_spec _ _ (settled_iterInit s) (by rw [pending_iterInit]; omega), pending_iterInit]

/-! ## The representation invariant -/

/-- The representation invariant of a G-Set. -/
structure WF (s : GSet) : Prop where
  /-- Every node sits in the chain its stored hash selects. -/
  placed : Buckets.Placed s.numBuckets s.buckets Elem.hash
  /-- The stored hash is the FNV-1a of the payload. -/
  hash_eq : ∀ e ∈ s.elems, e.hash = hashData e.data
  /-- No payload is empty (`add` refuses size `0`). -/
  data_ne : ∀ e ∈ s.elems, e.data ≠ []
  /-- No payload occurs twice. -/
  nodup : (s.elems.map Elem.data).Nodup
  /-- `count` is the number of nodes. -/
  count_eq : s.count = s.elems.length

variable {s t : GSet} {x : List UInt8}

theorem mem_toFinset : x ∈ s.toFinset ↔ ∃ e ∈ s.elems, e.data = x := by
  simp [toFinset]

theorem ne_nil_of_mem (hs : WF s) (hx : x ∈ s.toFinset) : x ≠ [] := by
  obtain ⟨e, he, rfl⟩ := mem_toFinset.1 hx
  exact hs.data_ne e he

theorem count_eq_card (hs : WF s) : s.count = s.toFinset.card := by
  rw [toFinset, List.toFinset_card_of_nodup hs.nodup, List.length_map, hs.count_eq]

/-- The walk of chain `hash x % num_buckets` finds `x` exactly when `x` is in the set. -/
theorem any_chain_iff (hs : WF s) :
    (s.buckets (hashData x % s.numBuckets)).any (·.sameAs (hashData x) x) = true ↔
      x ∈ s.toFinset := by
  rw [List.any_eq_true, mem_toFinset]
  constructor
  · rintro ⟨e, he, hse⟩
    exact ⟨e, Buckets.mem_entries.2 ⟨_, Nat.mod_lt _ s.numBuckets_pos, he⟩,
      (Elem.sameAs_iff.1 hse).2⟩
  · rintro ⟨e, he, rfl⟩
    have hh := hs.hash_eq e he
    refine ⟨e, ?_, Elem.sameAs_iff.2 ⟨hh, rfl⟩⟩
    rw [← hh]
    exact Buckets.mem_chain_of_placed hs.placed he

theorem contains_iff (hs : WF s) : s.contains x = true ↔ x ∈ s.toFinset := by
  unfold contains
  split
  · rename_i h
    simp only [Bool.false_eq_true, false_iff]
    exact fun hx => ne_nil_of_mem hs hx (List.length_eq_zero.1 h)
  · exact any_chain_iff hs

theorem wf_init (cap : Nat) : WF (init cap) where
  placed := fun _ _ _ h => by cases h
  hash_eq := by simp [elems, init]
  data_ne := by simp [elems, init]
  nodup := by simp [elems, init]
  count_eq := by simp [elems, init]

@[simp] theorem toFinset_init (cap : Nat) : (init cap).toFinset = ∅ := by
  simp [toFinset, elems, init]

theorem elems_insertNew_perm (s : GSet) (x : List UInt8) :
    (s.insertNew x).elems.Perm (⟨x, hashData x⟩ :: s.elems) :=
  Buckets.entries_push_perm (Nat.mod_lt _ s.numBuckets_pos) _ _

theorem toFinset_insertNew (s : GSet) (x : List UInt8) :
    (s.insertNew x).toFinset = insert x s.toFinset := by
  rw [toFinset, List.toFinset_eq_of_perm _ _ ((elems_insertNew_perm s x).map _)]
  simp [toFinset]

theorem WF.insertNew (hs : WF s) (hx : x ≠ []) (hnot : x ∉ s.toFinset) :
    WF (s.insertNew x) where
  placed := hs.placed.update fun e he => by
    rcases List.mem_cons.1 he with rfl | he
    · rfl
    · exact hs.placed _ (Nat.mod_lt _ s.numBuckets_pos) e he
  hash_eq e he := by
    rcases List.mem_cons.1 ((elems_insertNew_perm s x).subset he) with rfl | he
    · rfl
    · exact hs.hash_eq e he
  data_ne e he := by
    rcases List.mem_cons.1 ((elems_insertNew_perm s x).subset he) with rfl | he
    · exact hx
    · exact hs.data_ne e he
  nodup := by
    refine ((elems_insertNew_perm s x).map Elem.data).nodup_iff.2
      (List.nodup_cons.2 ⟨?_, hs.nodup⟩)
    simpa [toFinset] using hnot
  count_eq := by
    simp only [GSet.insertNew, hs.count_eq]
    exact ((elems_insertNew_perm s x).length_eq).symm

/-! ## `add` and `merge` -/

/-- What an `add` can do: insert a new node for a payload that was not there, or leave the set
alone — reporting `ok` only when the payload was already there. -/
theorem add_cases (hs : WF s) (x : List UInt8) (a : Bool) :
    (s.add x a = (.ok, s.insertNew x) ∧ x ≠ [] ∧ x ∉ s.toFinset) ∨
      ((s.add x a).2 = s ∧ ((s.add x a).1 = .ok → x ∈ s.toFinset)) := by
  unfold add
  split
  · exact .inr ⟨rfl, by simp⟩
  · rename_i hlen
    have hx : x ≠ [] := fun h => hlen (by simp [h])
    dsimp only
    split
    · rename_i hany; exact .inr ⟨rfl, fun _ => (any_chain_iff hs).1 hany⟩
    · rename_i hany
      have hnot : x ∉ s.toFinset := fun h => hany ((any_chain_iff hs).2 h)
      split
      · exact .inl ⟨rfl, hx, hnot⟩
      · exact .inr ⟨rfl, by simp⟩

theorem WF.add (hs : WF s) (x : List UInt8) (a : Bool) : WF (s.add x a).2 := by
  rcases add_cases hs x a with ⟨h, hx, hnot⟩ | ⟨h, -⟩
  · rw [h]; exact hs.insertNew hx hnot
  · rwa [h]

theorem toFinset_add (hs : WF s) (x : List UInt8) (a : Bool) :
    (s.add x a).2.toFinset = if (s.add x a).1 = .ok then insert x s.toFinset else s.toFinset := by
  rcases add_cases hs x a with ⟨h, -, -⟩ | ⟨h, hok⟩
  · rw [h]; exact toFinset_insertNew s x
  · rw [h]
    split
    · rename_i hr; exact (Finset.insert_eq_of_mem (hok hr)).symm
    · rfl

/-- How far a merge of the payloads `D` into `dst` got: a well-formed set between `dst` and
`dst ∪ D`, all of the way when it reports `ok`. -/
structure MergeResult (dst : GSet) (D : Finset (List UInt8)) (r : Result × GSet) : Prop where
  wf : WF r.2
  le : dst.toFinset ⊆ r.2.toFinset
  ge : r.2.toFinset ⊆ dst.toFinset ∪ D
  ok : r.1 = .ok → r.2.toFinset = dst.toFinset ∪ D

theorem mergeFrom_spec (es : List Elem) :
    ∀ (alloc : Nat → Bool) {dst : GSet}, WF dst →
      MergeResult dst (es.map Elem.data).toFinset (mergeFrom alloc dst es) := by
  induction es with
  | nil =>
    intro _ dst hd
    simp only [mergeFrom]
    exact ⟨hd, subset_refl _, Finset.subset_union_left, fun _ => by simp⟩
  | cons e es ih =>
    intro alloc dst hd
    have hs := toFinset_add hd e.data (alloc 0)
    simp only [mergeFrom]
    split
    · rename_i hok
      rw [if_pos hok] at hs
      obtain ⟨hw, hle, hge, hk⟩ := ih (fun n => alloc (n + 1)) (hd.add e.data (alloc 0))
      rw [hs] at hle hge hk
      refine ⟨hw, (Finset.subset_insert _ _).trans hle, hge.trans ?_, fun h => ?_⟩
      · intro y; simp only [Finset.mem_union, Finset.mem_insert, List.map_cons,
          List.toFinset_cons]; tauto
      · rw [hk h, List.map_cons, List.toFinset_cons, Finset.insert_union,
          Finset.union_insert]
    · rename_i hok
      rw [if_neg hok] at hs
      exact ⟨hd.add _ _, hs ▸ subset_refl _, hs ▸ Finset.subset_union_left,
        fun h => absurd h hok⟩

theorem merge_spec (hd : WF s) (t : GSet) (alloc : Nat → Bool) :
    MergeResult s t.toFinset (s.merge t alloc) :=
  mergeFrom_spec t.elems alloc hd

theorem subset_iff (ht : WF t) : s.subset t = true ↔ s.toFinset ⊆ t.toFinset := by
  simp [subset, contains_iff ht, Finset.subset_iff, mem_toFinset]

theorem equals_iff (hs : WF s) (ht : WF t) : s.equals t = true ↔ s.toFinset = t.toFinset := by
  rw [equals, Bool.and_eq_true, Bool.and_eq_true, beq_iff_eq, subset_iff ht, subset_iff hs,
    count_eq_card hs, count_eq_card ht]
  constructor
  · rintro ⟨⟨-, h1⟩, h2⟩; exact Finset.Subset.antisymm h1 h2
  · intro h; rw [h]; exact ⟨⟨rfl, subset_refl _⟩, subset_refl _⟩

/-! ## Refinement -/

/-- The G-Sets a program can build: `cauchy_gset_init`, then `add` and `merge` with any
allocation outcomes, whatever the calls return. -/
inductive Reachable : GSet → Prop
  | init (cap : Nat) : Reachable (init cap)
  | add {s : GSet} (x : List UInt8) (alloc : Bool) : Reachable s → Reachable (s.add x alloc).2
  | merge {s t : GSet} (alloc : Nat → Bool) : Reachable s → Reachable t →
      Reachable (s.merge t alloc).2

theorem Reachable.wf {s : GSet} (h : Reachable s) : WF s := by
  induction h with
  | init cap => exact wf_init cap
  | add x alloc _ ih => exact ih.add x alloc
  | merge alloc _ _ ih _ => exact (merge_spec ih _ alloc).wf

/-- The finite-set reading of one G-Set: the representation invariant, the set it stands for,
membership, and `add`. -/
structure Represents (s : GSet) : Prop where
  wf : WF s
  nonempty : ∀ x ∈ s.toFinset, x ≠ []
  count_eq_card : s.count = s.toFinset.card
  contains_iff : ∀ x, s.contains x = true ↔ x ∈ s.toFinset
  add_ok : ∀ x alloc, (s.add x alloc).1 = .ok →
    (s.add x alloc).2.toFinset = insert x s.toFinset

/-- The finite-set reading of the operations that take two G-Sets. -/
structure RepresentsPair (s t : GSet) : Prop where
  merge_ok : ∀ alloc, (s.merge t alloc).1 = .ok →
    (s.merge t alloc).2.toFinset = s.toFinset ∪ t.toFinset
  merge_err : ∀ alloc, (s.merge t alloc).1 ≠ .ok →
    s.toFinset ⊆ (s.merge t alloc).2.toFinset ∧
      (s.merge t alloc).2.toFinset ⊆ s.toFinset ∪ t.toFinset
  subset_iff : s.subset t = true ↔ s.toFinset ⊆ t.toFinset
  equals_iff : s.equals t = true ↔ s.toFinset = t.toFinset

/-- **The G-Set implements finite sets.**  Every reachable G-Set stands for the finite set of
its payloads, and its operations are the set operations on it. -/
theorem reachable_refines_finset {s t : GSet} (hs : Reachable s) (ht : Reachable t) :
    Represents s ∧ RepresentsPair s t := by
  have hws := hs.wf
  have hwt := ht.wf
  refine ⟨⟨hws, fun x => ne_nil_of_mem hws, count_eq_card hws, fun x => contains_iff hws,
    fun x a h => by rw [toFinset_add hws, if_pos h]⟩,
    ⟨fun a => (merge_spec hws t a).ok,
      fun a _ => ⟨(merge_spec hws t a).le, (merge_spec hws t a).ge⟩,
      subset_iff hwt, equals_iff hws hwt⟩⟩

/-- `s` holds `[1]` and `[2]` in two buckets, `t` holds `[2]` and `[3]`: the merge reports `ok`
when its allocation succeeds and an error when it fails, and both readings apply. -/
theorem twoSets_refine_finset :
    let s := (((init 2).add [1] true).2.add [2] true).2
    let t := (((init 4).add [2] true).2.add [3] true).2
    Reachable s ∧ Reachable t ∧ s.toFinset = {[1], [2]} ∧ t.toFinset = {[2], [3]} ∧
      (s.merge t fun _ => true).1 = .ok ∧ (s.merge t fun _ => false).1 ≠ .ok ∧
      Represents s ∧ RepresentsPair s t :=
  have hs : Reachable (((init 2).add [1] true).2.add [2] true).2 := .add _ _ (.add _ _ (.init 2))
  have ht : Reachable (((init 4).add [2] true).2.add [3] true).2 := .add _ _ (.add _ _ (.init 4))
  ⟨hs, ht, by decide, by decide, by decide, by decide, reachable_refines_finset hs ht⟩

end GSet
end Cauchy
