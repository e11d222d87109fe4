import Cauchy.Core.Types
import Cauchy.Crdt.Buckets

/-!
# The observed-remove set

`src/crdt/or_set.c`.  A `cauchy_orset_t` is a chained hash table like the G-Set's, but its nodes
are *entries*: a payload, its hash, a tag and a tombstone flag.  Every successful `add` pushes a
new entry whose tag is `(node_id, ++timestamp)`; `remove` tombstones the live entries for a
payload in its chain; `merge` walks the source table and, for each source entry, either finds the
destination's entry with the same hash and tag (`find_entry_by_tag`) and copies the tombstone
over, or pushes a copy of the source entry.  Nothing ever deletes an entry.

The abstract state of a set is what its operations are about: the set of
`(payload, tag, removed)` triples of its entries, `triples`.  While tags are unique within a
set this is the graph of the partial map `view : Uid → Option (payload × removed)`, and `view`
is what the proofs compute with: `view_insertCopy`, `view_markRemoved` and `mergeFrom_spec` say what
each write of the code does to it.

`timestamp` is a `u64` that `add` increments only once the entry's two allocations have
succeeded, and the entry it tags is never freed while the set lives; since every entry is a
distinct live allocation, the counter is bounded by the number of entries the address space can
hold and cannot wrap.  The model therefore increments it as a plain `Nat`.  The same argument
covers `entry_count` and the increments of `active_count`; the decrements of `active_count` are
`usizePred`, which does wrap, since whether they can is a question about the code.
-/

set_option autoImplicit false

namespace Cauchy

/-- `cauchy_orset_entry_t`: payload (its length is `size`), stored hash, tag, tombstone. -/
structure ORSet.Entry where
  data : List UInt8
  hash : Nat
  tag : Uid
  removed : Bool
  deriving DecidableEq, Repr

/-- `cauchy_orset_t`.  The entry pool only changes where an entry's memory comes from, so it is
not modelled. -/
structure ORSet where
  buckets : Nat → List ORSet.Entry
  numBuckets : Nat
  entryCount : Nat
  activeCount : Nat
  nodeId : Nat
  timestamp : Nat
  numBuckets_pos : 0 < numBuckets

namespace ORSet

/-- The test of `cauchy_orset_remove` and `cauchy_orset_contains`: a live entry with this hash,
size and bytes. -/
def Entry.visible (e : Entry) (h : Nat) (data : List UInt8) : Bool :=
  !e.removed && e.hash == h && e.data.length == data.length && e.data == data

@[simp] theorem Entry.visible_iff {e : Entry} {h : Nat} {data : List UInt8} :
    e.visible h data = true ↔ e.removed = false ∧ e.hash = h ∧ e.data = data := by
  simp only [Entry.visible, Bool.and_eq_true, Bool.not_eq_true', beq_iff_eq]
  constructor
  · rintro ⟨⟨⟨h0, h1⟩, -⟩, h3⟩; exact ⟨h0, h1, h3⟩
  · rintro ⟨h0, h1, rfl⟩; exact ⟨⟨⟨h0, h1⟩, rfl⟩, rfl⟩

/-- `cauchy_orset_init`, when its allocations succeed. -/
def init (initialCapacity nodeId : Nat) : ORSet where
  buckets := fun _ => []
  numBuckets := if initialCapacity = 0 then 16 else initialCapacity
  entryCount := 0
  activeCount := 0
  nodeId := nodeId
  timestamp := 0
  numBuckets_pos := by split <;> omega

/-- The entries, in the order the whole-table loops visit them. -/
def elems (s : ORSet) : List Entry := Buckets.entries s.numBuckets s.buckets

/-- `cauchy_orset_add`.  `alloc` is whether the entry and the payload copy can be allocated. -/
def add (s : ORSet) (data : List UInt8) (alloc : Bool) : Result × ORSet :=
  if data.length = 0 then (.errInvalid, s)
  else
    let h := hashData data
    let idx := h % s.numBuckets
    if alloc then
      let ts := s.timestamp + 1
      (.ok, { s with
        buckets := Function.update s.buckets idx
          (⟨data, h, Uid.create s.nodeId ts, false⟩ :: s.buckets idx)
        entryCount := s.entryCount + 1
        activeCount := s.activeCount + 1
        timestamp := ts })
    else (.errNomem, s)

/-- `cauchy_orset_remove`: tombstone every live entry for the payload in its chain, one
`active_count--` each; `NOTFOUND` when there was none. -/
def remove (s : ORSet) (data : List UInt8) : Result × ORSet :=
  if data.length = 0 then (.errInvalid, s)
  else
    let h := hashData data
    let idx := h % s.numBuckets
    let chain := s.buckets idx
    (if chain.any (·.visible h data) then .ok else .errNotfound,
      { s with
        buckets := Function.update s.buckets idx
          (chain.map fun e => if e.visible h data then { e with removed := true } else e)
        activeCount := usizePred^[chain.countP (·.visible h data)] s.activeCount })

/-- `cauchy_orset_contains`. -/
def contains (s : ORSet) (data : List UInt8) : Bool :=
  if data.length = 0 then false
  else
    let h := hashData data
    (s.buckets (h % s.numBuckets)).any (·.visible h data)

/-- `cauchy_orset_count`. -/
def count (s : ORSet) : Nat := s.activeCount

/-- `find_entry_by_tag`: the first entry of chain `hash % num_buckets` with this hash and tag. -/
def findEntryByTag (s : ORSet) (hash : Nat) (tag : Uid) : Option Entry :=
  (s.buckets (hash % s.numBuckets)).find? fun e => e.hash == hash && Uid.equals e.tag tag

/-- `existing->removed = true; dst->active_count--`, for the entry `find_entry_by_tag` returned
from chain `hash % num_buckets`. -/
def markRemoved (s : ORSet) (hash : Nat) (e : Entry) : ORSet :=
  { s with
    buckets := Function.update s.buckets (hash % s.numBuckets)
      ((s.buckets (hash % s.numBuckets)).replace e { e with removed := true })
    activeCount := usizePred s.activeCount }

/-- The copy of a source entry that `cauchy_orset_merge` pushes when `dst` has no entry with
its tag: same payload, hash, tag and tombstone. -/
def insertCopy (s : ORSet) (e : Entry) : ORSet :=
  { s with
    buckets := Function.update s.buckets (e.hash % s.numBuckets)
      (e :: s.buckets (e.hash % s.numBuckets))
    entryCount := s.entryCount + 1
    activeCount := if !e.removed then s.activeCount + 1 else s.activeCount }

/-- The loops of `cauchy_orset_merge` over the source entries.  The `n`-th source entry is given
the allocation outcome `alloc n`, used only if it has to be copied. -/
def mergeFrom (alloc : Nat → Bool) (dst : ORSet) : List Entry → Result × ORSet
  | [] => (.ok, dst)
  | se :: es =>
    match dst.findEntryByTag se.hash se.tag with
    | some ex =>
      mergeFrom (fun n => alloc (n + 1))
        (if se.removed && !ex.removed then dst.markRemoved se.hash ex else dst) es
    | none =>
      if alloc 0 then mergeFrom (fun n => alloc (n + 1)) (dst.insertCopy se) es
      else (.errNomem, dst)

/-- `cauchy_orset_merge`. -/
def merge (dst src : ORSet) (alloc : Nat → Bool) : Result × ORSet :=
  mergeFrom alloc dst src.elems

/-! ## The abstract state -/

/-- What a list of entries says about tag `t`: the payload and tombstone of its first entry
carrying `t`. -/
def viewList (l : List Entry) (t : Uid) : Option (List UInt8 × Bool) :=
  (l.find? (·.tag == t)).map fun e => (e.data, e.removed)

/-- The abstract state of a set at tag `t`. -/
def view (s : ORSet) (t : Uid) : Option (List UInt8 × Bool) := viewList s.elems t

/-- The abstract state of a set: the `(payload, tag, removed)` triples of its entries. -/
def triples (s : ORSet) : Finset (List UInt8 × Uid × Bool) :=
  (s.elems.map fun e => (e.data, e.tag, e.removed)).toFinset

/-- Two readings of one tag combined as `merge` combines them: the payload of the first, the
tombstones of both. -/
def joinView :
    Option (List UInt8 × Bool) → Option (List UInt8 × Bool) → Option (List UInt8 × Bool)
  | some (d, r), some (_, r') => some (d, r || r')
  | some v, none => some v
  | none, w => w

@[simp] theorem joinView_none_left (w : Option (List UInt8 × Bool)) : joinView none w = w := rfl

@[simp] theorem joinView_none_right (v : Option (List UInt8 × Bool)) : joinView v none = v := by
  rcases v with _ | ⟨d, r⟩ <;> rfl

@[simp] theorem joinView_self (v : Option (List UInt8 × Bool)) : joinView v v = v := by
  rcases v with _ | ⟨d, r⟩ <;> simp [joinView]

theorem joinView_assoc (u v w : Option (List UInt8 × Bool)) :
    joinView (joinView u v) w = joinView u (joinView v w) := by
  rcases u with _ | ⟨d, r⟩ <;> rcases v with _ | ⟨d', r'⟩ <;> rcases w with _ | ⟨d'', r''⟩ <;>
    simp [joinView, Bool.or_assoc]

/-- Two readings of one tag that carry one payload wherever both are defined, as two copies of
one entry do. -/
def Joinable (v w : Option (List UInt8 × Bool)) : Prop :=
  ∀ d r d' r', v = some (d, r) → w = some (d', r') → d = d'

theorem joinView_comm {v w : Option (List UInt8 × Bool)} (h : Joinable v w) :
    joinView v w = joinView w v := by
  rcases v with _ | ⟨d, r⟩ <;> rcases w with _ | ⟨d', r'⟩ <;> try rfl
  obtain rfl := h d r d' r' rfl rfl
  simp [joinView, Bool.or_comm]

/-- The join holds a tag when either side does, removed when either side has it removed. -/
theorem joinView_eq_some_iff {v w : Option (List UInt8 × Bool)} (h : Joinable v w)
    {d : List UInt8} {r : Bool} :
    joinView v w = some (d, r) ↔ ((∃ r₁, v = some (d, r₁)) ∨ ∃ r₂, w = some (d, r₂)) ∧
      (r = true ↔ v = some (d, true) ∨ w = some (d, true)) := by
  rcases v with _ | ⟨d₁, r₁⟩ <;> rcases w with _ | ⟨d₂, r₂⟩
  · simp [joinView]
  · by_cases hd : d₂ = d <;> cases r <;> cases r₂ <;> simp [joinView, hd]
  · by_cases hd : d₁ = d <;> cases r <;> cases r₁ <;> simp [joinView, hd]
  · obtain rfl := h d₁ r₁ d₂ r₂ rfl rfl
    by_cases hd : d₁ = d <;> cases r <;> cases r₁ <;> cases r₂ <;> simp [joinView, hd]

theorem viewList_cons (e : Entry) (l : List Entry) (t : Uid) :
    viewList (e :: l) t = if e.tag = t then some (e.data, e.removed) else viewList l t := by
  by_cases h : e.tag = t <;> simp [viewList, List.find?_cons, h]

theorem viewList_eq_none_iff {l : List Entry} {t : Uid} :
    viewList l t = none ↔ ∀ e ∈ l, e.tag ≠ t := by
  simp [viewList]

theorem viewList_eq_some_iff {l : List Entry} (hnd : (l.map Entry.tag).Nodup) {t : Uid}
    {v : List UInt8 × Bool} :
    viewList l t = some v ↔ ∃ e ∈ l, e.tag = t ∧ (e.data, e.removed) = v := by
  induction l with
  | nil => simp [viewList]
  | cons a l ih =>
    rw [List.map_cons, List.nodup_cons] at hnd
    rw [viewList_cons]
    split
    · rename_i h
      subst h
      constructor
      · intro hv; exact ⟨a, List.mem_cons_self _ _, rfl, Option.some.inj hv⟩
      · rintro ⟨e, he, het, rfl⟩
        rcases List.mem_cons.1 he with rfl | he
        · rfl
        · exact absurd (List.mem_map.2 ⟨e, he, het⟩) hnd.1
    · rename_i h
      rw [ih hnd.2]
      constructor
      · rintro ⟨e, he, het, hv⟩; exact ⟨e, List.mem_cons_of_mem _ he, het, hv⟩
      · rintro ⟨e, he, het, hv⟩
        rcases List.mem_cons.1 he with rfl | he
        · exact absurd het h
        · exact ⟨e, he, het, hv⟩

/-- With unique tags, the reading of a list does not depend on its order. -/
theorem viewList_perm {l l' : List Entry} (hp : l.Perm l') (hnd : (l.map Entry.tag).Nodup)
    (t : Uid) : viewList l t = viewList l' t := by
  have hnd' := (hp.map Entry.tag).nodup_iff.1 hnd
  cases h : viewList l' t with
  | none =>
    rw [viewList_eq_none_iff] at h ⊢
    exact fun e he => h e (hp.subset he)
  | some v =>
    rw [viewList_eq_some_iff hnd'] at h
    rw [viewList_eq_some_iff hnd]
    obtain ⟨e, he, h1, h2⟩ := h
    exact ⟨e, hp.symm.subset he, h1, h2⟩

theorem mem_of_mem_replace {l : List Entry} {x y z : Entry} (h : z ∈ l.replace x y) :
    z = y ∨ z ∈ l := by
  induction l with
  | nil => simp at h
  | cons a l ih =>
    rw [List.replace_cons] at h
    split at h
    · rcases List.mem_cons.1 h with rfl | h
      · exact .inl rfl
      · exact .inr (List.mem_cons_of_mem _ h)
    · rcases List.mem_cons.1 h with rfl | h
      · exact .inr (List.mem_cons_self _ _)
      · exact (ih h).imp_right (List.mem_cons_of_mem _)

theorem map_replace {β : Type} (f : Entry → β) {l : List Entry} {x y : Entry} (hf : f y = f x) :
    (l.replace x y).map f = l.map f := by
  induction l with
  | nil => rfl
  | cons a l ih =>
    rw [List.replace_cons]
    split
    · rename_i h; rw [beq_iff_eq.1 h] at hf; simp [hf]
    · simp [ih]

theorem viewList_replace {l : List Entry} {x y : Entry} (hnd : (l.map Entry.tag).Nodup)
    (hx : x ∈ l) (htag : y.tag = x.tag) (t : Uid) :
    viewList (l.replace x y) t = if x.tag = t then some (y.data, y.removed) else viewList l t := by
  induction l with
  | nil => cases hx
  | cons a l ih =>
    rw [List.map_cons, List.nodup_cons] at hnd
    rw [List.replace_cons]
    split
    · rename_i h
      obtain rfl := beq_iff_eq.1 h
      rw [viewList_cons, viewList_cons, htag]
      by_cases hxt : x.tag = t <;> simp [hxt]
    · rename_i h
      have hax : x ≠ a := fun e => by simp [e] at h
      have hxl : x ∈ l := (List.mem_cons.1 hx).resolve_left hax
      have htg : a.tag ≠ x.tag := fun e => hnd.1 (e ▸ List.mem_map_of_mem _ hxl)
      rw [viewList_cons, viewList_cons, ih hnd.2 hxl]
      by_cases hat : a.tag = t
      · rw [if_pos hat, if_neg (fun e => htg (hat.trans e.symm)), if_pos hat]
      · rw [if_neg hat, if_neg hat]

/-! ## The representation invariant -/

/-- Where a set's entries sit and what they store.  This is the part of `WF` that says nothing
about tags, so it holds of every set, also of one that merged a replica minting the same tags. -/
structure Layout (s : ORSet) : Prop where
  /-- Every entry sits in the chain its stored hash selects. -/
  placed : Buckets.Placed s.numBuckets s.buckets Entry.hash
  /-- The stored hash is the FNV-1a of the payload. -/
  hash_eq : ∀ e ∈ s.elems, e.hash = hashData e.data
  /-- No payload is empty. -/
  data_ne : ∀ e ∈ s.elems, e.data ≠ []

/-- The representation invariant of one OR-Set. -/
structure WF (s : ORSet) : Prop where
  /-- Every entry sits in the chain its stored hash selects. -/
  placed : Buckets.Placed s.numBuckets s.buckets Entry.hash
  /-- The stored hash is the FNV-1a of the payload. -/
  hash_eq : ∀ e ∈ s.elems, e.hash = hashData e.data
  /-- No payload is empty. -/
  data_ne : ∀ e ∈ s.elems, e.data ≠ []
  /-- No two entries carry the same tag. -/
  tags_nodup : (s.elems.map Entry.tag).Nodup

variable {s : ORSet}

theorem WF.layout (hs : WF s) : Layout s := ⟨hs.placed, hs.hash_eq, hs.data_ne⟩

theorem mem_triples_iff (hnd : (s.elems.map Entry.tag).Nodup) {d : List UInt8} {t : Uid}
    {r : Bool} : (d, t, r) ∈ s.triples ↔ s.view t = some (d, r) := by
  rw [triples, List.mem_toFinset, view, viewList_eq_some_iff hnd]
  simp only [List.mem_map, Prod.mk.injEq]
  constructor
  · rintro ⟨e, he, h1, h2, h3⟩; exact ⟨e, he, h2, h1, h3⟩
  · rintro ⟨e, he, h2, h1, h3⟩; exact ⟨e, he, h1, h2, h3⟩

/-- Sets with unique tags have the same abstract state when they read the same at every tag. -/
theorem triples_eq_of_view {s' : ORSet} (hs : (s.elems.map Entry.tag).Nodup)
    (hs' : (s'.elems.map Entry.tag).Nodup) (h : ∀ t, s.view t = s'.view t) :
    s.triples = s'.triples := by
  ext ⟨d, t, r⟩
  rw [mem_triples_iff hs, mem_triples_iff hs', h]

theorem wf_init (cap node : Nat) : WF (init cap node) where
  placed := fun _ _ _ h => by cases h
  hash_eq := by simp [elems, init]
  data_ne := by simp [elems, init]
  tags_nodup := by simp [elems, init]

@[simp] theorem elems_init (cap node : Nat) : (init cap node).elems = [] := by
  simp [elems, init]

/-- The chain walk of `cauchy_orset_contains` misses no live entry of the payload. -/
theorem contains_iff_exists (hs : Layout s) (x : List UInt8) :
    s.contains x = true ↔ ∃ e ∈ s.elems, e.removed = false ∧ e.data = x := by
  rw [contains]
  split
  · rename_i hl
    simp only [Bool.false_eq_true, false_iff, not_exists, not_and]
    exact fun e he _ hd => hs.data_ne e he (hd ▸ List.length_eq_zero.1 hl)
  · simp only [List.any_eq_true, Entry.visible_iff]
    constructor
    · rintro ⟨e, he, h0, -, h2⟩
      exact ⟨e, Buckets.mem_entries.2 ⟨_, Nat.mod_lt _ s.numBuckets_pos, he⟩, h0, h2⟩
    · rintro ⟨e, he, h0, rfl⟩
      have hh := hs.hash_eq e he
      exact ⟨e, hh ▸ Buckets.mem_chain_of_placed hs.placed he, h0, hh, rfl⟩

theorem contains_iff (hs : WF s) (x : List UInt8) :
    s.contains x = true ↔ ∃ t, s.view t = some (x, false) := by
  simp only [contains_iff_exists hs.layout, view, viewList_eq_some_iff hs.tags_nodup,
    Prod.mk.injEq]
  constructor
  · rintro ⟨e, he, h1, h2⟩; exact ⟨e.tag, e, he, rfl, h2, h1⟩
  · rintro ⟨t, e, he, -, h2, h1⟩; exact ⟨e, he, h1, h2⟩

/-! ## What each write does -/

/-- An entry without its tombstone: what a copy preserves. -/
def Entry.core (e : Entry) : List UInt8 × Nat × Uid := (e.data, e.hash, e.tag)

theorem elems_insertCopy_perm (s : ORSet) (e : Entry) :
    (s.insertCopy e).elems.Perm (e :: s.elems) :=
  Buckets.entries_push_perm (Nat.mod_lt _ s.numBuckets_pos) _ _

@[simp] theorem insertCopy_nodeId (s : ORSet) (e : Entry) : (s.insertCopy e).nodeId = s.nodeId :=
  rfl

@[simp] theorem insertCopy_timestamp (s : ORSet) (e : Entry) :
    (s.insertCopy e).timestamp = s.timestamp := rfl

theorem mem_insertCopy {e z : Entry} (h : z ∈ (s.insertCopy e).elems) : z = e ∨ z ∈ s.elems :=
  List.mem_cons.1 ((elems_insertCopy_perm s e).subset h)

theorem Layout.insertCopy (hs : Layout s) {e : Entry} (hh : e.hash = hashData e.data)
    (hd : e.data ≠ []) : Layout (s.insertCopy e) where
  placed := hs.placed.update fun z hz => by
    rcases List.mem_cons.1 hz with rfl | hz
    · rfl
    · exact hs.placed _ (Nat.mod_lt _ s.numBuckets_pos) z hz
  hash_eq z hz := by rcases mem_insertCopy hz with rfl | hz; exacts [hh, hs.hash_eq z hz]
  data_ne z hz := by rcases mem_insertCopy hz with rfl | hz; exacts [hd, hs.data_ne z hz]

theorem WF.insertCopy (hs : WF s) {e : Entry} (hh : e.hash = hashData e.data) (hd : e.data ≠ [])
    (ht : e.tag ∉ s.elems.map Entry.tag) : WF (s.insertCopy e) :=
  have hl := hs.layout.insertCopy hh hd
  ⟨hl.placed, hl.hash_eq, hl.data_ne, ((elems_insertCopy_perm s e).map Entry.tag).nodup_iff.2
    (List.nodup_cons.2 ⟨ht, hs.tags_nodup⟩)⟩

theorem view_insertCopy (hs : WF s) {e : Entry} (ht : e.tag ∉ s.elems.map Entry.tag) (t : Uid) :
    (s.insertCopy e).view t = if e.tag = t then some (e.data, e.removed) else s.view t := by
  rw [view, viewList_perm (elems_insertCopy_perm s e) ((elems_insertCopy_perm s e).map
    Entry.tag |>.nodup_iff.2 (List.nodup_cons.2 ⟨ht, hs.tags_nodup⟩)), viewList_cons]
  rfl

@[simp] theorem markRemoved_nodeId (s : ORSet) (h : Nat) (e : Entry) :
    (s.markRemoved h e).nodeId = s.nodeId := rfl

@[simp] theorem markRemoved_timestamp (s : ORSet) (h : Nat) (e : Entry) :
    (s.markRemoved h e).timestamp = s.timestamp := rfl

theorem elems_markRemoved (hs : Layout s) {e : Entry} {h : Nat} (hh : e.hash = h) :
    (s.markRemoved h e).elems = s.elems.replace e { e with removed := true } := by
  refine Buckets.entries_update_replace (Nat.mod_lt _ s.numBuckets_pos) fun j hj hji hej => ?_
  exact hji (by rw [← hs.placed j hj e hej, hh])

theorem mem_markRemoved (hs : Layout s) {e z : Entry} {h : Nat} (hh : e.hash = h)
    (hz : z ∈ (s.markRemoved h e).elems) : z = { e with removed := true } ∨ z ∈ s.elems := by
  rw [elems_markRemoved hs hh] at hz
  exact mem_of_mem_replace hz

theorem Layout.markRemoved (hs : Layout s) {e : Entry} {h : Nat} (he : e ∈ s.elems)
    (hh : e.hash = h) : Layout (s.markRemoved h e) where
  placed := hs.placed.update fun z hz => by
    rcases mem_of_mem_replace hz with rfl | hz
    · exact hh ▸ rfl
    · exact hs.placed _ (Nat.mod_lt _ s.numBuckets_pos) z hz
  hash_eq z hz := by
    rcases mem_markRemoved hs hh hz with rfl | hz; exacts [hs.hash_eq e he, hs.hash_eq z hz]
  data_ne z hz := by
    rcases mem_markRemoved hs hh hz with rfl | hz; exacts [hs.data_ne e he, hs.data_ne z hz]

theorem WF.markRemoved (hs : WF s) {e : Entry} {h : Nat} (he : e ∈ s.elems) (hh : e.hash = h) :
    WF (s.markRemoved h e) :=
  have hl := hs.layout.markRemoved he hh
  ⟨hl.placed, hl.hash_eq, hl.data_ne, by
    rw [elems_markRemoved hs.layout hh,
      map_replace Entry.tag (show Entry.tag { e with removed := true } = e.tag from rfl)]
    exact hs.tags_nodup⟩

theorem view_markRemoved (hs : WF s) {e : Entry} {h : Nat} (he : e ∈ s.elems) (hh : e.hash = h)
    (t : Uid) :
    (s.markRemoved h e).view t = if e.tag = t then some (e.data, true) else s.view t := by
  rw [view, elems_markRemoved hs.layout hh,
    viewList_replace hs.tags_nodup he
      (show ({ e with removed := true } : Entry).tag = e.tag from rfl)]
  rfl

theorem findEntryByTag_some {h : Nat} {tag : Uid} {ex : Entry}
    (hf : s.findEntryByTag h tag = some ex) : ex ∈ s.elems ∧ ex.hash = h ∧ ex.tag = tag := by
  have hp := List.find?_some hf
  simp only [Bool.and_eq_true, beq_iff_eq, Uid.equals_iff] at hp
  exact ⟨Buckets.mem_entries.2 ⟨_, Nat.mod_lt _ s.numBuckets_pos,
    List.mem_of_find?_eq_some hf⟩, hp⟩

/-- When every entry with the tag has the hash being looked up, `find_entry_by_tag` misses only
if there is no entry with the tag. -/
theorem findEntryByTag_none (hs : WF s) {h : Nat} {tag : Uid}
    (hag : ∀ e ∈ s.elems, e.tag = tag → e.hash = h) (hf : s.findEntryByTag h tag = none) :
    ∀ e ∈ s.elems, e.tag ≠ tag := by
  intro e he het
  rw [findEntryByTag, List.find?_eq_none] at hf
  have hh := hag e he het
  exact hf e (hh ▸ Buckets.mem_chain_of_placed hs.placed he) (by simp [hh, het])

/-- The entry a successful `add` pushes. -/
def newEntry (s : ORSet) (data : List UInt8) : Entry :=
  ⟨data, hashData data, Uid.create s.nodeId (s.timestamp + 1), false⟩

/-- What an `add` can do: nothing, or push `newEntry` and advance the counter. -/
theorem add_cases (s : ORSet) (x : List UInt8) (alloc : Bool) :
    (s.add x alloc).2 = s ∨ (x ≠ [] ∧
      s.add x alloc =
        (.ok, { s.insertCopy (s.newEntry x) with timestamp := s.timestamp + 1 })) := by
  unfold add
  split
  · exact .inl rfl
  · rename_i hl
    dsimp only
    split
    · exact .inr ⟨fun h => hl (by simp [h]), rfl⟩
    · exact .inl rfl

theorem WF.withTimestamp (hs : WF s) (ts : Nat) : WF { s with timestamp := ts } :=
  ⟨hs.placed, hs.hash_eq, hs.data_ne, hs.tags_nodup⟩

/-- A set whose entries are, in order, those of a set with only their tombstones changed, and
still where their hashes put them, keeps its layout. -/
theorem Layout.of_cores (hs : Layout s) {s' : ORSet}
    (hp : Buckets.Placed s'.numBuckets s'.buckets Entry.hash)
    (hc : s'.elems.map Entry.core = s.elems.map Entry.core) : Layout s' := by
  have hmem : ∀ e ∈ s'.elems, ∃ e₀ ∈ s.elems, e₀.core = e.core := fun e he =>
    List.mem_map.1 (hc ▸ List.mem_map_of_mem Entry.core he)
  refine ⟨hp, fun e he => ?_, fun e he => ?_⟩
  · obtain ⟨e₀, he₀, hc₀⟩ := hmem e he
    have h1 : e₀.hash = e.hash := congrArg (·.2.1) hc₀
    have h2 : e₀.data = e.data := congrArg (·.1) hc₀
    rw [← h1, ← h2]; exact hs.hash_eq e₀ he₀
  · obtain ⟨e₀, he₀, hc₀⟩ := hmem e he
    rw [← show e₀.data = e.data from congrArg (·.1) hc₀]; exact hs.data_ne e₀ he₀

/-- ... and, for a well-formed set, its unique tags. -/
theorem WF.of_cores (hs : WF s) {s' : ORSet}
    (hp : Buckets.Placed s'.numBuckets s'.buckets Entry.hash)
    (hc : s'.elems.map Entry.core = s.elems.map Entry.core) : WF s' :=
  have hl := hs.layout.of_cores hp hc
  have ht : s'.elems.map Entry.tag = (s'.elems.map Entry.core).map (·.2.2) := by
    rw [List.map_map]; rfl
  ⟨hl.placed, hl.hash_eq, hl.data_ne, by rw [ht, hc, List.map_map]; exact hs.tags_nodup⟩

theorem cores_remove (s : ORSet) (x : List UInt8) :
    (s.remove x).2.elems.map Entry.core = s.elems.map Entry.core := by
  unfold remove
  split
  · rfl
  · refine Buckets.map_entries_update _ _ _ ?_
    rw [List.map_map]
    refine List.map_congr_left fun e _ => ?_
    simp only [Function.comp]
    split <;> rfl

theorem placed_remove (hs : Layout s) (x : List UInt8) :
    Buckets.Placed (s.remove x).2.numBuckets (s.remove x).2.buckets Entry.hash := by
  unfold ORSet.remove
  split
  · exact hs.placed
  · refine hs.placed.update fun e he => ?_
    obtain ⟨e₀, he₀, rfl⟩ := List.mem_map.1 he
    have := hs.placed _ (Nat.mod_lt _ s.numBuckets_pos) e₀ he₀
    split <;> exact this

theorem Layout.remove (hs : Layout s) (x : List UInt8) : Layout (s.remove x).2 :=
  hs.of_cores (placed_remove hs x) (cores_remove s x)

theorem WF.remove (hs : WF s) (x : List UInt8) : WF (s.remove x).2 :=
  hs.of_cores (placed_remove hs.layout x) (cores_remove s x)

@[simp] theorem remove_nodeId (s : ORSet) (x : List UInt8) : (s.remove x).2.nodeId = s.nodeId := by
  unfold remove; split <;> rfl

@[simp] theorem remove_timestamp (s : ORSet) (x : List UInt8) :
    (s.remove x).2.timestamp = s.timestamp := by
  unfold remove; split <;> rfl

/-! ## Merge -/

/-- Entries of `l` and `l'` that carry the same tag are copies of one another. -/
def AgreeOn (l l' : List Entry) : Prop :=
  ∀ e ∈ l, ∀ e' ∈ l', e.tag = e'.tag → e.core = e'.core

theorem view_eq_of_mem (hs : WF s) {e : Entry} (he : e ∈ s.elems) :
    s.view e.tag = some (e.data, e.removed) :=
  (viewList_eq_some_iff hs.tags_nodup).2 ⟨e, he, rfl, rfl⟩

theorem viewList_singleton (se : Entry) (t : Uid) :
    viewList [se] t = if se.tag = t then some (se.data, se.removed) else none := by
  rw [viewList_cons]; rfl

/-- What one turn of the merge loop does to the destination, for the source entry `se`. -/
structure StepResult (dst : ORSet) (se : Entry) (d : ORSet) : Prop where
  wf : WF d
  origin : ∀ e ∈ d.elems, e.core = se.core ∨ e.core ∈ dst.elems.map Entry.core
  nodeId_eq : d.nodeId = dst.nodeId
  timestamp_eq : d.timestamp = dst.timestamp
  view_eq : ∀ t, d.view t = joinView (dst.view t) (viewList [se] t)

/-- A source entry whose tag the destination has: its entry takes the source's tombstone. -/
theorem found_step (hs : WF s) {se ex : Entry} (hex : ex ∈ s.elems) (hh : ex.hash = se.hash)
    (ht : ex.tag = se.tag) (hd : ex.data = se.data) :
    StepResult s se (if se.removed && !ex.removed then s.markRemoved se.hash ex else s) := by
  have hj : ∀ t, (if se.tag = t then some (ex.data, ex.removed || se.removed) else s.view t) =
      joinView (s.view t) (viewList [se] t) := by
    intro t
    rw [viewList_singleton]
    split
    · rename_i htt; rw [← htt, ← ht, view_eq_of_mem hs hex]; rfl
    · simp
  split
  · rename_i hc
    simp only [Bool.and_eq_true, Bool.not_eq_true'] at hc
    refine ⟨hs.markRemoved hex hh, fun e he => ?_, rfl, rfl, fun t => ?_⟩
    · rcases mem_markRemoved hs.layout hh he with rfl | he
      · exact .inl (by simp only [Entry.core, hd, hh, ht])
      · exact .inr (List.mem_map_of_mem Entry.core he)
    · rw [view_markRemoved hs hex hh, ← hj, ht, hc.1, hc.2]; rfl
  · rename_i hc
    refine ⟨hs, fun e he => .inr (List.mem_map_of_mem Entry.core he), rfl, rfl, fun t => ?_⟩
    rw [← hj]
    split
    · rename_i htt
      have hr : (ex.removed || se.removed) = ex.removed := by
        cases h1 : ex.removed <;> cases h2 : se.removed <;> simp_all
      rw [hr, ← htt, ← ht, view_eq_of_mem hs hex]
    · rfl

/-- A source entry whose tag the destination lacks: a copy of it is pushed. -/
theorem copy_step (hs : WF s) {se : Entry} (hh : se.hash = hashData se.data) (hd : se.data ≠ [])
    (hnone : ∀ e ∈ s.elems, e.tag ≠ se.tag) : StepResult s se (s.insertCopy se) := by
  have ht : se.tag ∉ s.elems.map Entry.tag := fun h => by
    obtain ⟨e, he, het⟩ := List.mem_map.1 h; exact hnone e he het
  refine ⟨hs.insertCopy hh hd ht, fun e he => ?_, rfl, rfl, fun t => ?_⟩
  · rcases mem_insertCopy he with rfl | he
    · exact .inl rfl
    · exact .inr (List.mem_map_of_mem Entry.core he)
  · rw [view_insertCopy hs ht, viewList_singleton]
    split
    · rename_i htt
      have hn : s.view t = none :=
        viewList_eq_none_iff.2 fun e he het => hnone e he (het.trans htt.symm)
      rw [hn]; rfl
    · simp

/-- What a (possibly interrupted) merge of the source entries `es` into `dst` leaves: a
well-formed set whose entries are copies of entries of `dst` or `es`, under the same node and
counter, and reading as the join of `dst` and `es` when the merge reports `ok`. -/
structure MergeFromResult (dst : ORSet) (es : List Entry) (r : Result × ORSet) : Prop where
  wf : WF r.2
  origin : ∀ e ∈ r.2.elems, e.core ∈ dst.elems.map Entry.core ∨ e.core ∈ es.map Entry.core
  nodeId_eq : r.2.nodeId = dst.nodeId
  timestamp_eq : r.2.timestamp = dst.timestamp
  view_ok : r.1 = .ok → ∀ t, r.2.view t = joinView (dst.view t) (viewList es t)

theorem MergeFromResult.cons {dst d : ORSet} {se : Entry} {es : List Entry} {r : Result × ORSet}
    (hs : StepResult dst se d) (hnd : se.tag ∉ es.map Entry.tag) (hr : MergeFromResult d es r) :
    MergeFromResult dst (se :: es) r := by
  refine ⟨hr.wf, fun e he => ?_, hr.nodeId_eq.trans hs.nodeId_eq,
    hr.timestamp_eq.trans hs.timestamp_eq, fun hok t => ?_⟩
  · rcases hr.origin e he with h | h
    · obtain ⟨e₀, he₀, hc⟩ := List.mem_map.1 h
      rcases hs.origin e₀ he₀ with h' | h'
      · exact .inr (by rw [← hc, h']; exact List.mem_map_of_mem _ (List.mem_cons_self _ _))
      · exact .inl (hc ▸ h')
    · exact .inr (List.mem_cons_of_mem _ h)
  · rw [hr.view_ok hok t, hs.view_eq t, viewList_singleton, viewList_cons]
    split
    · rename_i htt
      rw [viewList_eq_none_iff.2 fun e he het => hnd (List.mem_map.2 ⟨e, he, het.trans htt.symm⟩),
        joinView_none_right]
    · simp

theorem StepResult.agreeOn {dst d : ORSet} {se : Entry} {es : List Entry}
    (hs : StepResult dst se d) (hnd : se.tag ∉ es.map Entry.tag)
    (hag : AgreeOn dst.elems (se :: es)) :
    AgreeOn d.elems es := by
  intro e he e' he' het
  rcases hs.origin e he with h | h
  · have : se.tag = e'.tag := (congrArg (·.2.2) h).symm.trans het
    exact absurd (this ▸ List.mem_map_of_mem Entry.tag he') hnd
  · obtain ⟨e₀, he₀, hc⟩ := List.mem_map.1 h
    rw [← hc]
    exact hag e₀ he₀ e' (List.mem_cons_of_mem _ he') ((congrArg (·.2.2) hc).trans het)

theorem mergeFrom_spec (es : List Entry) :
    ∀ (alloc : Nat → Bool) {dst : ORSet}, WF dst → (∀ e ∈ es, e.hash = hashData e.data) →
      (∀ e ∈ es, e.data ≠ []) → (es.map Entry.tag).Nodup → AgreeOn dst.elems es →
      MergeFromResult dst es (mergeFrom alloc dst es) := by
  induction es with
  | nil =>
    intro _ dst hd _ _ _ _
    exact ⟨hd, fun e he => .inl (List.mem_map_of_mem _ he), rfl, rfl,
      fun _ t => by simp [mergeFrom, viewList]⟩
  | cons se es ih =>
    intro alloc dst hd hh hne hnd hag
    rw [List.map_cons, List.nodup_cons] at hnd
    have hh' : ∀ e ∈ es, e.hash = hashData e.data := fun e he => hh e (List.mem_cons_of_mem _ he)
    have hne' : ∀ e ∈ es, e.data ≠ [] := fun e he => hne e (List.mem_cons_of_mem _ he)
    have next : ∀ (d : ORSet) (alloc' : Nat → Bool), StepResult dst se d →
        MergeFromResult dst (se :: es) (mergeFrom alloc' d es) := fun d alloc' hs =>
      MergeFromResult.cons hs hnd.1 (ih alloc' hs.wf hh' hne' hnd.2 (hs.agreeOn hnd.1 hag))
    simp only [mergeFrom]
    split
    · rename_i ex hf
      obtain ⟨hex, hxh, hxt⟩ := findEntryByTag_some hf
      have hc := hag ex hex se (List.mem_cons_self _ _) hxt
      exact next _ _ (found_step hd hex hxh hxt (congrArg (·.1) hc))
    · rename_i hf
      have hnone := findEntryByTag_none hd (fun e he het =>
        congrArg (·.2.1) (hag e he se (List.mem_cons_self _ _) het)) hf
      split
      · exact next _ _ (copy_step hd (hh se (List.mem_cons_self _ _))
          (hne se (List.mem_cons_self _ _)) hnone)
      · exact ⟨hd, fun e he => .inl (List.mem_map_of_mem _ he), rfl, rfl, fun h => by cases h⟩

/-- `cauchy_orset_merge` of well-formed sets that agree on their common tags. -/
theorem merge_spec {dst src : ORSet} (hd : WF dst) (hs : WF src) (hag : AgreeOn dst.elems src.elems)
    (alloc : Nat → Bool) : MergeFromResult dst src.elems (dst.merge src alloc) :=
  mergeFrom_spec src.elems alloc hd hs.hash_eq hs.data_ne hs.tags_nodup hag

theorem AgreeOn.symm {l l' : List Entry} (h : AgreeOn l l') : AgreeOn l' l :=
  fun e he e' he' het => (h e' he' e he het.symm).symm

/-- Within one well-formed set a tag names one entry. -/
theorem WF.agreeOn_self (hs : WF s) : AgreeOn s.elems s.elems := fun _ he _ he' het =>
  congrArg Entry.core (List.inj_on_of_nodup_map hs.tags_nodup he he' het)

/-- A merge result agrees with whatever both of its inputs agree with. -/
theorem MergeFromResult.agreeOn {dst : ORSet} {es l : List Entry} {r : Result × ORSet}
    (hr : MergeFromResult dst es r) (h1 : AgreeOn dst.elems l) (h2 : AgreeOn es l) :
    AgreeOn r.2.elems l := by
  intro e he e' he' het
  rcases hr.origin e he with h | h <;>
  · obtain ⟨e₀, he₀, hc⟩ := List.mem_map.1 h
    have ht : e₀.tag = e.tag := congrArg (·.2.2) hc
    rw [← hc]
    first
      | exact h1 e₀ he₀ e' he' (ht.trans het)
      | exact h2 e₀ he₀ e' he' (ht.trans het)

/-- Replicas that agree read one payload at a tag they both have. -/
theorem view_joinable {a b : ORSet} (ha : WF a) (hb : WF b) (hag : AgreeOn a.elems b.elems)
    (t : Uid) : Joinable (a.view t) (b.view t) := by
  intro d r d' r' h h'
  obtain ⟨e, he, het, hv⟩ := (viewList_eq_some_iff ha.tags_nodup).1 h
  obtain ⟨e', he', het', hv'⟩ := (viewList_eq_some_iff hb.tags_nodup).1 h'
  have hc := hag e he e' he' (het.trans het'.symm)
  obtain ⟨rfl, -⟩ := Prod.mk.inj hv
  obtain ⟨rfl, -⟩ := Prod.mk.inj hv'
  exact congrArg (·.1) hc

end ORSet
end Cauchy
