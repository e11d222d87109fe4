import Cauchy.Crdt.ORSetReplicas

/-!
# What one OR-Set holds

`Cauchy.Crdt.ORSetReplicas` proves the OR-Set correct as a system of replicas with distinct node
ids.  This file looks at one set on its own: any set a program can reach from `cauchy_orset_init`
through `add`, `remove` and `merge` with any other set reached the same way, node ids equal or
not, calls failing or not (`ReachableSet`).  Tags need not be unique here, since a merge with a replica that
minted the same tags keeps both entries; what survives is the tag-free `Layout`.

* `reachableSet_valid`: such a set keeps its `Layout` (every entry in chain
  `FNV-1a(payload) % num_buckets`, storing that hash, with a non-empty payload), and
  `active_count` counts its live entries, as a `usize`.
* `reachableSet_counts_exact`: with fewer than `2 ^ 64` entries, as every set the code builds
  has, `active_count` is exactly the number of live entries and `entry_count` the number of
  entries, and the decrements of `remove` and `merge` never wrap.  `merge_loop_exact` follows
  `cauchy_orset_merge`'s loop itself: every state it passes through counts exactly, so each
  tombstone it copies onto a live entry lowers `active_count` by one.
* `reachableSet_observedRemove`: on the set of `(payload, tag, removed)` triples, an `add` that
  returns `OK` inserts the triple it mints; `remove` of a non-empty payload returns `NOTFOUND`
  and changes nothing exactly when no live triple carries it, and otherwise tombstones exactly
  the live triples carrying it; `contains` asks whether a live triple carries the payload.
  `remove` of the empty payload returns `ERR_INVALID` instead: `remove_empty_payload_invalid`.
* `equals_iff`: `cauchy_orset_equals (a, b)` compares the counts and checks that every payload
  live in `a` is contained in `b`.  The count counts entries, not payloads, so
  `equals_counts_entries` finds two sets with different contents that it calls equal one way
  round and not the other.
-/

set_option autoImplicit false

namespace Cauchy
namespace ORSet

/-! ## Reachable sets -/

/-- The sets a program can reach from `cauchy_orset_init` through `add`, `remove` and `merge`
with any set reached the same way, whatever each call returns. -/
inductive ReachableSet : ORSet → Prop
  | init (cap node : Nat) : ReachableSet (init cap node)
  | add {s : ORSet} (x : List UInt8) (alloc : Bool) : ReachableSet s →
      ReachableSet (s.add x alloc).2
  | remove {s : ORSet} (x : List UInt8) : ReachableSet s → ReachableSet (s.remove x).2
  | merge {s src : ORSet} (alloc : Nat → Bool) : ReachableSet s → ReachableSet src →
      ReachableSet (s.merge src alloc).2

/-! ## The invariant -/

/-- The number of live entries, which `active_count` is meant to hold. -/
def liveCount (s : ORSet) : Nat := s.elems.countP fun e => !e.removed

/-- The invariant of a reachable set. -/
structure Valid (s : ORSet) extends Layout s : Prop where
  /-- `active_count` counts the live entries, as a `usize`. -/
  activeCount_mod : s.activeCount % 2 ^ 64 = s.liveCount % 2 ^ 64

variable {s : ORSet}

theorem valid_init (cap node : Nat) : Valid (init cap node) :=
  ⟨(wf_init cap node).layout, by rw [liveCount, elems_init]; rfl⟩

theorem liveCount_insertCopy (s : ORSet) (e : Entry) :
    (s.insertCopy e).liveCount = s.liveCount + if e.removed then 0 else 1 := by
  rw [liveCount, ((elems_insertCopy_perm s e).countP_eq _), List.countP_cons, liveCount]
  cases e.removed <;> rfl

theorem Valid.insertCopy (hs : Valid s) {e : Entry} (hh : e.hash = hashData e.data)
    (hd : e.data ≠ []) : Valid (s.insertCopy e) := by
  refine ⟨hs.toLayout.insertCopy hh hd, ?_⟩
  have h := hs.activeCount_mod
  rw [liveCount_insertCopy]
  show (if !e.removed then s.activeCount + 1 else s.activeCount) % _ = _
  cases e.removed <;> simp only [Bool.not_false, Bool.not_true, Bool.false_eq_true, ↓reduceIte,
    Nat.add_zero] <;> omega

theorem countP_replace {p : Entry → Bool} {l : List Entry} {a b : Entry} (ha : a ∈ l) :
    (l.replace a b).countP p + (if p a then 1 else 0) = l.countP p + if p b then 1 else 0 := by
  induction l with
  | nil => cases ha
  | cons c l ih =>
    rw [List.replace_cons]
    split
    · rename_i h
      obtain rfl := beq_iff_eq.1 h
      simp only [List.countP_cons]; omega
    · rename_i h
      have hl : a ∈ l := (List.mem_cons.1 ha).resolve_left fun e => by simp [e] at h
      simp only [List.countP_cons]
      have := ih hl
      omega

/-- Tombstoning a live entry takes one entry off the live ones. -/
theorem liveCount_markRemoved (hs : Layout s) {e : Entry} {h : Nat} (he : e ∈ s.elems)
    (hh : e.hash = h) (hr : e.removed = false) :
    (s.markRemoved h e).liveCount + 1 = s.liveCount := by
  have hc := countP_replace (p := fun e => !e.removed) (b := { e with removed := true }) he
  simp only [hr, Bool.not_false, Bool.not_true, Bool.false_eq_true, ↓reduceIte] at hc
  unfold liveCount
  rw [elems_markRemoved hs hh]
  omega

theorem Valid.markRemoved (hs : Valid s) {e : Entry} {h : Nat} (he : e ∈ s.elems)
    (hh : e.hash = h) (hr : e.removed = false) : Valid (s.markRemoved h e) := by
  refine ⟨hs.toLayout.markRemoved he hh, ?_⟩
  have hl := liveCount_markRemoved hs.toLayout he hh hr
  have h1 := hs.activeCount_mod
  have h2 := usizePred_iterate_add_mod 1 s.activeCount
  rw [Function.iterate_one] at h2
  show usizePred s.activeCount % _ = _
  omega

theorem Valid.add (hs : Valid s) (x : List UInt8) (alloc : Bool) : Valid (s.add x alloc).2 := by
  rcases add_cases s x alloc with h | ⟨hx, h⟩
  · rw [h]; exact hs
  · rw [h]
    have hv := hs.insertCopy (e := s.newEntry x) rfl hx
    exact ⟨⟨hv.placed, hv.hash_eq, hv.data_ne⟩, hv.activeCount_mod⟩

/-- `remove` tombstones the visible entries of one chain, and counts one decrement for each. -/
theorem countP_live_tombstone (h : Nat) (x : List UInt8) (c : List Entry) :
    (c.map fun e => if e.visible h x then { e with removed := true } else e).countP
        (fun e => !e.removed) + c.countP (·.visible h x) = c.countP fun e => !e.removed := by
  induction c with
  | nil => rfl
  | cons e c ih =>
    simp only [List.map_cons, List.countP_cons]
    by_cases hv : e.visible h x = true
    · have hr : e.removed = false := (Entry.visible_iff.1 hv).1
      simp only [hv, hr, Bool.not_true, Bool.not_false, Bool.false_eq_true, ↓reduceIte]
      omega
    · simp only [hv, Bool.false_eq_true, ↓reduceIte]
      omega

/-- The number of entries `remove (x)` tombstones, one `active_count--` each: the live entries of
`x`'s chain that carry `x`. -/
def removeCount (s : ORSet) (x : List UInt8) : Nat :=
  (s.buckets (hashData x % s.numBuckets)).countP (·.visible (hashData x) x)

theorem removeCount_of_length_eq_zero (hs : Layout s) {x : List UInt8} (hl : x.length = 0) :
    s.removeCount x = 0 :=
  List.countP_eq_zero.2 fun e he hv =>
    hs.data_ne e (Buckets.mem_entries.2 ⟨_, Nat.mod_lt _ s.numBuckets_pos, he⟩)
      ((Entry.visible_iff.1 hv).2.2.trans (List.length_eq_zero.1 hl))

theorem remove_activeCount (hs : Layout s) (x : List UInt8) :
    (s.remove x).2.activeCount = usizePred^[s.removeCount x] s.activeCount := by
  by_cases hl : x.length = 0
  · rw [removeCount_of_length_eq_zero hs hl, ORSet.remove, if_pos hl]; rfl
  · rw [ORSet.remove, if_neg hl]; rfl

/-- `remove (x)` takes `removeCount x` entries off the live ones. -/
theorem liveCount_remove (hs : Layout s) (x : List UInt8) :
    (s.remove x).2.liveCount + s.removeCount x = s.liveCount := by
  by_cases hl : x.length = 0
  · rw [removeCount_of_length_eq_zero hs hl, ORSet.remove, if_pos hl]; rfl
  · have hp := ((Buckets.entries_update_perm (Nat.mod_lt (hashData x) s.numBuckets_pos) s.buckets
      ((s.buckets (hashData x % s.numBuckets)).map fun e =>
        if e.visible (hashData x) x then { e with removed := true } else e)).countP_eq
      fun e => !e.removed)
    rw [List.countP_append, List.countP_append] at hp
    have hc := countP_live_tombstone (hashData x) x (s.buckets (hashData x % s.numBuckets))
    rw [ORSet.remove, if_neg hl]
    unfold liveCount elems removeCount
    dsimp only
    omega

theorem Valid.remove (hs : Valid s) (x : List UInt8) : Valid (s.remove x).2 := by
  refine ⟨hs.toLayout.remove x, ?_⟩
  have hl := liveCount_remove hs.toLayout x
  have hi := usizePred_iterate_add_mod (s.removeCount x) s.activeCount
  have h1 := hs.activeCount_mod
  rw [remove_activeCount hs.toLayout]
  omega

theorem Valid.mergeFrom (es : List Entry) (hes : ∀ e ∈ es, e.hash = hashData e.data ∧ e.data ≠ []) :
    ∀ (alloc : Nat → Bool) {dst : ORSet}, Valid dst → Valid (mergeFrom alloc dst es).2 := by
  induction es with
  | nil => exact fun _ _ hd => hd
  | cons se es ih =>
    intro alloc dst hd
    have ih' := ih fun e he => hes e (List.mem_cons_of_mem _ he)
    obtain ⟨hh, hne⟩ := hes se (List.mem_cons_self _ _)
    simp only [ORSet.mergeFrom]
    split
    · rename_i ex hf
      obtain ⟨hex, hxh, -⟩ := findEntryByTag_some hf
      split
      · rename_i hc
        simp only [Bool.and_eq_true, Bool.not_eq_true'] at hc
        exact ih' _ (hd.markRemoved hex hxh hc.2)
      · exact ih' _ hd
    · split
      · exact ih' _ (hd.insertCopy hh hne)
      · exact hd

theorem Valid.merge (hs : Valid s) {src : ORSet} (hsrc : Layout src) (alloc : Nat → Bool) :
    Valid (s.merge src alloc).2 :=
  Valid.mergeFrom src.elems (fun e he => ⟨hsrc.hash_eq e he, hsrc.data_ne e he⟩) alloc hs

/-- **Every reachable set keeps its layout and its count.** -/
theorem reachableSet_valid (h : ReachableSet s) : Valid s := by
  induction h with
  | init cap node => exact valid_init cap node
  | add x a _ ih => exact ih.add x a
  | remove x _ ih => exact ih.remove x
  | merge a _ _ ih ih' => exact ih.merge ih'.toLayout a

/-! ## The observed-remove operations on triples -/

/-- An entry after `remove x`: tombstoned when it carries `x`. -/
def Entry.tombstone (x : List UInt8) (e : Entry) : Entry :=
  if e.data = x then { e with removed := true } else e

/-- A triple after `remove x`: tombstoned when it carries `x`. -/
def tombstoneTriple (x : List UInt8) (p : List UInt8 × Uid × Bool) : List UInt8 × Uid × Bool :=
  if p.1 = x then (p.1, p.2.1, true) else p

theorem mem_triples {d : List UInt8} {t : Uid} {r : Bool} :
    (d, t, r) ∈ s.triples ↔ ∃ e ∈ s.elems, e.data = d ∧ e.tag = t ∧ e.removed = r := by
  simp [triples]

theorem contains_iff_triples (hs : Layout s) (x : List UInt8) :
    s.contains x = true ↔ ∃ t, (x, t, false) ∈ s.triples := by
  simp only [contains_iff_exists hs, mem_triples]
  constructor
  · rintro ⟨e, he, h1, h2⟩; exact ⟨e.tag, e, he, h2, rfl, h1⟩
  · rintro ⟨t, e, he, h2, -, h1⟩; exact ⟨e, he, h1, h2⟩

theorem triples_insertCopy (s : ORSet) (e : Entry) :
    (s.insertCopy e).triples = insert (e.data, e.tag, e.removed) s.triples := by
  rw [triples, List.toFinset_eq_of_perm _ _ ((elems_insertCopy_perm s e).map _), List.map_cons,
    List.toFinset_cons]
  rfl

theorem add_of_ok {x : List UInt8} {alloc : Bool} (h : (s.add x alloc).1 = .ok) :
    (s.add x alloc).2 = { s.insertCopy (s.newEntry x) with timestamp := s.timestamp + 1 } := by
  unfold ORSet.add at h ⊢
  split at h
  · cases h
  · rename_i hl
    rw [if_neg hl]
    dsimp only at h ⊢
    split at h
    · rename_i ha; rw [if_pos ha]; rfl
    · cases h

theorem contains_nil (s : ORSet) : s.contains [] = false := rfl

theorem remove_nil (s : ORSet) : s.remove [] = (.errInvalid, s) := rfl

theorem remove_fst {x : List UInt8} (hx : x ≠ []) :
    (s.remove x).1 = if s.contains x then .ok else .errNotfound := by
  have hl : ¬x.length = 0 := fun h => hx (List.length_eq_zero.1 h)
  simp only [ORSet.remove, ORSet.contains, if_neg hl]

theorem remove_of_not_contains {x : List UInt8} (hx : x ≠ []) (hc : s.contains x = false) :
    s.remove x = (.errNotfound, s) := by
  have hl : ¬x.length = 0 := fun h => hx (List.length_eq_zero.1 h)
  simp only [ORSet.contains, if_neg hl, List.any_eq_false] at hc
  have hmap : ∀ e ∈ s.buckets (hashData x % s.numBuckets),
      (if e.visible (hashData x) x then { e with removed := true } else e) = e :=
    fun e he => if_neg (hc e he)
  simp only [ORSet.remove, if_neg hl, List.map_congr_left hmap, List.map_id',
    Function.update_eq_self, List.countP_eq_zero.2 hc, Function.iterate_zero, id]
  simp [List.any_eq_false.2 hc]

theorem elems_remove (hs : Layout s) {x : List UInt8} (hx : x ≠ []) :
    (s.remove x).2.elems = s.elems.map (Entry.tombstone x) := by
  have hl : ¬x.length = 0 := fun h => hx (List.length_eq_zero.1 h)
  simp only [ORSet.remove, if_neg hl]
  refine Buckets.entries_update_map (fun e he => ?_) (fun j hj hji e he => ?_)
  · have hh := hs.hash_eq e (Buckets.mem_entries.2 ⟨_, Nat.mod_lt _ s.numBuckets_pos, he⟩)
    unfold Entry.tombstone
    by_cases hd : e.data = x
    · obtain ⟨d, hsh, t, r⟩ := e
      cases r <;> simp_all
    · simp [hd]
  · have hd : e.data ≠ x := fun hd => hji (by
      rw [← hs.placed j hj e he, hs.hash_eq e (Buckets.mem_entries.2 ⟨j, hj, he⟩), hd])
    simp [Entry.tombstone, hd]

theorem triples_remove (hs : Layout s) {x : List UInt8} (hx : x ≠ []) :
    (s.remove x).2.triples = s.triples.image (tombstoneTriple x) := by
  ext ⟨d, t, r⟩
  simp only [triples, elems_remove hs hx, List.map_map, List.mem_toFinset, List.mem_map,
    Finset.mem_image, Function.comp, Prod.exists]
  constructor
  · rintro ⟨e, he, h⟩
    exact ⟨e.data, e.tag, e.removed, ⟨e, he, rfl⟩, by
      rw [← h]; unfold Entry.tombstone tombstoneTriple; split <;> rfl⟩
  · rintro ⟨d', t', r', ⟨e, he, h⟩, h'⟩
    refine ⟨e, he, ?_⟩
    rw [← h', ← h]; unfold Entry.tombstone tombstoneTriple; split <;> rfl

/-- What the observed-remove specification asks of one set: where its entries sit, and what
`add`, `remove` and `contains` do to its triples. -/
structure ObservedRemove (s : ORSet) : Prop where
  /-- Every entry sits in chain `FNV-1a(payload) % num_buckets`. -/
  placed : ∀ e ∈ s.elems, e ∈ s.buckets (hashData e.data % s.numBuckets)
  /-- Every entry stores the FNV-1a of its payload. -/
  hash_eq : ∀ e ∈ s.elems, e.hash = hashData e.data
  /-- An `add` that returns `OK` inserts the live triple tagged `(node_id, timestamp + 1)`, and
  nothing else. -/
  add_ok : ∀ x alloc, (s.add x alloc).1 = .ok →
    (s.add x alloc).2.triples = insert (x, Uid.create s.nodeId (s.timestamp + 1), false) s.triples
  /-- `remove` of a non-empty payload returns `NOTFOUND` and changes nothing exactly when no
  live triple carries it. -/
  remove_notFound : ∀ x, x ≠ [] →
    ((s.remove x).1 = .errNotfound ∧ (s.remove x).2 = s ↔ ∀ t, (x, t, false) ∉ s.triples)
  /-- Otherwise it returns `OK` and tombstones exactly the live triples carrying the payload. -/
  remove_ok : ∀ x, (∃ t, (x, t, false) ∈ s.triples) →
    (s.remove x).1 = .ok ∧ (s.remove x).2.triples = s.triples.image (tombstoneTriple x)
  /-- `remove` of the empty payload returns `ERR_INVALID` and changes nothing. -/
  remove_empty : s.remove [] = (.errInvalid, s)
  /-- `contains` holds exactly when a live triple carries the payload. -/
  contains_live : ∀ x, s.contains x = true ↔ ∃ t, (x, t, false) ∈ s.triples

theorem observedRemove_of_layout (hs : Layout s) : ObservedRemove s where
  placed e he := hs.hash_eq e he ▸ Buckets.mem_chain_of_placed hs.placed he
  hash_eq := hs.hash_eq
  add_ok x alloc h := by
    rw [add_of_ok h]
    exact triples_insertCopy s (s.newEntry x)
  remove_notFound x hx := by
    rw [← not_exists, ← contains_iff_triples hs, Bool.not_eq_true]
    constructor
    · rintro ⟨h, -⟩
      rw [remove_fst hx] at h
      revert h; cases s.contains x <;> simp
    · intro hc; rw [remove_of_not_contains hx hc]; exact ⟨rfl, rfl⟩
  remove_ok x h := by
    have hc := (contains_iff_triples hs x).2 h
    have hx : x ≠ [] := by rintro rfl; exact absurd hc (by simp [contains_nil])
    exact ⟨by rw [remove_fst hx, hc, if_pos rfl], triples_remove hs hx⟩
  remove_empty := remove_nil s
  contains_live := contains_iff_triples hs

/-- **A reachable OR-Set implements the observed-remove operations on its triples.** -/
theorem reachableSet_observedRemove (h : ReachableSet s) : ObservedRemove s :=
  observedRemove_of_layout (reachableSet_valid h).toLayout

/-- `[1]` added twice: one payload, two live entries. -/
def twiceAdded : ORSet := (((init 0 0).add [1] true).2.add [1] true).2

/-- `[1]` and then `[2]` added: two payloads, two live entries. -/
def pairAdded : ORSet := (((init 0 0).add [1] true).2.add [2] true).2

theorem twiceAdded_reachable : ReachableSet twiceAdded := .add _ _ (.add _ _ (.init _ _))

theorem twiceAdded_observedRemove : ReachableSet twiceAdded ∧ ObservedRemove twiceAdded :=
  ⟨twiceAdded_reachable, reachableSet_observedRemove twiceAdded_reachable⟩

/-- A fresh set holds no live triple for the empty payload, and `remove` of it is rejected
rather than reported `NOTFOUND`. -/
theorem remove_empty_payload_invalid :
    ReachableSet (init 0 0) ∧ (∀ t, ([], t, false) ∉ (init 0 0).triples) ∧
      ((init 0 0).remove []).1 = .errInvalid :=
  ⟨.init 0 0, fun t => by simp [triples], rfl⟩

/-! ## Equality -/

/-- `cauchy_orset_equals`: the counts first, then every live entry of `a`, in table order, must
have its payload contained in `b`. -/
def equals (a b : ORSet) : Bool :=
  if a.activeCount ≠ b.activeCount then false
  else a.elems.all fun e => e.removed || b.contains e.data

/-- `equals` is the comparison of the counts and the inclusion of `a`'s contents in `b`'s. -/
theorem equals_iff {a : ORSet} (ha : Layout a) (b : ORSet) :
    a.equals b = true ↔ a.count = b.count ∧ ∀ x, a.contains x = true → b.contains x = true := by
  unfold equals count
  split
  · rename_i hne; simp [hne]
  · rename_i heq
    simp only [not_not] at heq
    simp only [heq, true_and, contains_iff_exists ha, List.all_eq_true, Bool.or_eq_true,
      forall_exists_index, and_imp]
    constructor
    · rintro h x e he hr rfl; exact (h e he).resolve_left (by simp [hr])
    · intro h e he
      cases hr : e.removed
      · exact .inr (h _ e he hr rfl)
      · exact .inl rfl

/-- **`equals` counts entries.**  `twiceAdded` holds `[1]` under two tags and `pairAdded` holds
`[1]` and `[2]`; both count two, so `equals` accepts the first against the second, though only the
second contains `[2]`, and rejects the second against the first. -/
theorem equals_counts_entries :
    ReachableSet twiceAdded ∧ ReachableSet pairAdded ∧
      twiceAdded.equals pairAdded = true ∧ pairAdded.equals twiceAdded = false ∧
      twiceAdded.contains [2] = false ∧ pairAdded.contains [2] = true :=
  ⟨twiceAdded_reachable, .add _ _ (.add _ _ (.init _ _)), by decide, by decide, by decide,
    by decide⟩

/-! ## Exact counts -/

/-- The counters hold exactly what they count: `active_count` the live entries and
`entry_count` all of them. -/
structure Exact (s : ORSet) extends Layout s : Prop where
  activeCount_eq : s.activeCount = s.liveCount
  entryCount_eq : s.entryCount = s.elems.length

theorem exact_init (cap node : Nat) : Exact (init cap node) :=
  ⟨(wf_init cap node).layout, by rw [liveCount, elems_init]; rfl, by rw [elems_init]; rfl⟩

theorem length_markRemoved (s : ORSet) (h : Nat) (e : Entry) :
    (s.markRemoved h e).elems.length = s.elems.length :=
  Buckets.length_entries_update (Nat.mod_lt _ s.numBuckets_pos) _ List.length_replace

theorem length_remove (s : ORSet) (x : List UInt8) :
    (s.remove x).2.elems.length = s.elems.length := by
  simpa using congrArg List.length (cores_remove s x)

theorem remove_entryCount (s : ORSet) (x : List UInt8) :
    (s.remove x).2.entryCount = s.entryCount := by
  unfold ORSet.remove; split <;> rfl

theorem length_add_le (s : ORSet) (x : List UInt8) (alloc : Bool) :
    s.elems.length ≤ (s.add x alloc).2.elems.length := by
  rcases add_cases s x alloc with h | ⟨-, h⟩ <;> rw [h]
  exact (le_of_eq (elems_insertCopy_perm s _).length_eq.symm).trans' (Nat.le_succ _)

/-- `merge` only adds entries. -/
theorem length_mergeFrom_le (es : List Entry) :
    ∀ (alloc : Nat → Bool) (dst : ORSet),
      dst.elems.length ≤ (mergeFrom alloc dst es).2.elems.length := by
  induction es with
  | nil => exact fun _ _ => le_rfl
  | cons se es ih =>
    intro alloc dst
    simp only [ORSet.mergeFrom]
    split
    · refine le_trans (le_of_eq ?_) (ih _ _)
      split
      · exact (length_markRemoved _ _ _).symm
      · rfl
    · split
      · exact le_trans (by rw [(elems_insertCopy_perm dst se).length_eq]; exact Nat.le_succ _)
          (ih _ _)
      · exact le_rfl

variable (hn : s.elems.length < 2 ^ 64)

theorem Exact.insertCopy (hs : Exact s) {e : Entry} (hh : e.hash = hashData e.data)
    (hd : e.data ≠ []) : Exact (s.insertCopy e) := by
  refine ⟨hs.toLayout.insertCopy hh hd, ?_, ?_⟩
  · rw [liveCount_insertCopy, ← hs.activeCount_eq]
    show (if !e.removed then s.activeCount + 1 else s.activeCount) = _
    cases e.removed <;> rfl
  · rw [(elems_insertCopy_perm s e).length_eq, List.length_cons, ← hs.entryCount_eq]; rfl

theorem Exact.add (hs : Exact s) (x : List UInt8) (alloc : Bool) : Exact (s.add x alloc).2 := by
  rcases add_cases s x alloc with h | ⟨hx, h⟩
  · rw [h]; exact hs
  · rw [h]
    have hv := hs.insertCopy (e := s.newEntry x) rfl hx
    exact ⟨⟨hv.placed, hv.hash_eq, hv.data_ne⟩, hv.activeCount_eq, hv.entryCount_eq⟩

include hn in
/-- Tombstoning a live entry, as `merge` does, lowers `active_count` by one, without wrapping. -/
theorem Exact.markRemoved_activeCount (hs : Exact s) {e : Entry} {h : Nat} (he : e ∈ s.elems)
    (hr : e.removed = false) : (s.markRemoved h e).activeCount + 1 = s.activeCount := by
  have hpos : 0 < s.liveCount := List.countP_pos_iff.2 ⟨e, he, by simp [hr]⟩
  have hle : s.liveCount ≤ s.elems.length := List.countP_le_length _
  have ha := hs.activeCount_eq
  show usizePred s.activeCount + 1 = _
  rw [usizePred_of_pos (by omega) (by omega)]
  omega

include hn in
theorem Exact.markRemoved (hs : Exact s) {e : Entry} {h : Nat} (he : e ∈ s.elems)
    (hh : e.hash = h) (hr : e.removed = false) : Exact (s.markRemoved h e) := by
  refine ⟨hs.toLayout.markRemoved he hh, ?_, ?_⟩
  · have hl := liveCount_markRemoved hs.toLayout he hh hr
    have ha := hs.markRemoved_activeCount hn he hr (h := h)
    have ha' := hs.activeCount_eq
    omega
  · rw [length_markRemoved, ← hs.entryCount_eq]; rfl

include hn in
/-- `remove` lowers `active_count` by the number of entries it tombstones, without wrapping. -/
theorem Exact.remove_activeCount (hs : Exact s) (x : List UInt8) :
    (s.remove x).2.activeCount + s.removeCount x = s.activeCount := by
  have hl := liveCount_remove hs.toLayout x
  have hL : s.liveCount ≤ s.elems.length := List.countP_le_length _
  have ha := hs.activeCount_eq
  rw [ORSet.remove_activeCount hs.toLayout, usizePred_iterate_of_le (by omega) (by omega)]
  omega

include hn in
theorem Exact.remove (hs : Exact s) (x : List UInt8) : Exact (s.remove x).2 := by
  refine ⟨hs.toLayout.remove x, ?_, by rw [remove_entryCount, length_remove, hs.entryCount_eq]⟩
  have ha := hs.remove_activeCount hn x
  have hl := liveCount_remove hs.toLayout x
  have ha' := hs.activeCount_eq
  omega

theorem Exact.mergeFrom (es : List Entry)
    (hes : ∀ e ∈ es, e.hash = hashData e.data ∧ e.data ≠ []) :
    ∀ (alloc : Nat → Bool) {dst : ORSet}, Exact dst →
      (mergeFrom alloc dst es).2.elems.length < 2 ^ 64 → Exact (mergeFrom alloc dst es).2 := by
  induction es with
  | nil => exact fun _ _ hd _ => hd
  | cons se es ih =>
    intro alloc dst hd
    have ih' := ih fun e he => hes e (List.mem_cons_of_mem _ he)
    obtain ⟨hh, hne⟩ := hes se (List.mem_cons_self _ _)
    simp only [ORSet.mergeFrom]
    split
    · rename_i ex hf
      obtain ⟨hex, hxh, -⟩ := findEntryByTag_some hf
      split
      · rename_i hc
        simp only [Bool.and_eq_true, Bool.not_eq_true'] at hc
        intro hn
        have hlen := (length_mergeFrom_le es _ _).trans_lt hn
        rw [length_markRemoved] at hlen
        exact ih' _ (hd.markRemoved hlen hex hxh hc.2) hn
      · exact ih' _ hd
    · split
      · exact ih' _ (hd.insertCopy hh hne)
      · exact fun _ => hd

/-- The loop's state after `k` source entries has no more entries than its result. -/
theorem length_mergeFrom_take_le (es : List Entry) :
    ∀ (alloc : Nat → Bool) (dst : ORSet) (k : Nat),
      (mergeFrom alloc dst (es.take k)).2.elems.length ≤
        (mergeFrom alloc dst es).2.elems.length := by
  induction es with
  | nil => intro alloc dst k; simp
  | cons se es ih =>
    intro alloc dst k
    cases k with
    | zero => exact length_mergeFrom_le (se :: es) alloc dst
    | succ k =>
      simp only [List.take_succ_cons, ORSet.mergeFrom]
      split
      · exact ih _ _ k
      · split
        · exact ih _ _ k
        · exact le_rfl

/-- Every reachable set with fewer than `2 ^ 64` entries counts exactly. -/
theorem reachableSet_exact (h : ReachableSet s) : s.elems.length < 2 ^ 64 → Exact s := by
  induction h with
  | init cap node => exact fun _ => exact_init cap node
  | add x a _ ih => exact fun hn => (ih ((length_add_le _ x a).trans_lt hn)).add x a
  | remove x _ ih =>
    intro hn
    rw [length_remove] at hn
    exact (ih hn).remove hn x
  | merge a _ hsrc ih _ =>
    intro hn
    exact Exact.mergeFrom _ (fun e he => ⟨(reachableSet_valid hsrc).hash_eq e he,
      (reachableSet_valid hsrc).data_ne e he⟩) a (ih ((length_mergeFrom_le _ _ _).trans_lt hn)) hn

include hn in
/-- **The counts are exact.**  In a set reachable from `cauchy_orset_init` through `add`,
`remove` and `merge`, calls failing or not, with fewer than `2 ^ 64` entries (each entry is an
allocation of its own), `active_count` is the number of live entries and `entry_count` the
number of entries.  `remove (x)` lowers `active_count` by the number of entries it tombstones,
and tombstoning a live entry, the one decrement of `merge`, by one: neither wraps. -/
theorem reachableSet_counts_exact (h : ReachableSet s) :
    s.activeCount = s.liveCount ∧ s.entryCount = s.elems.length ∧
      (∀ x, (s.remove x).2.activeCount + s.removeCount x = s.activeCount) ∧
      ∀ e ∈ s.elems, e.removed = false → (s.markRemoved e.hash e).activeCount + 1 = s.activeCount :=
  have hs := reachableSet_exact h hn
  ⟨hs.activeCount_eq, hs.entryCount_eq, hs.remove_activeCount hn,
    fun _ he hr => hs.markRemoved_activeCount hn he hr⟩

/-- **The merge loop never wraps `active_count`.**  Merging a reachable set into a reachable
set, with fewer than `2 ^ 64` entries in the result, every state the loop of
`cauchy_orset_merge` passes through — after the first `k` source entries, whichever allocations
fail — counts exactly, and tombstoning a live entry there, as the loop does when it copies a
tombstone, lowers `active_count` by exactly one. -/
theorem merge_loop_exact {dst src : ORSet} (hd : ReachableSet dst) (hsrc : ReachableSet src)
    (alloc : Nat → Bool) (hn : (dst.merge src alloc).2.elems.length < 2 ^ 64) (k : Nat) :
    (mergeFrom alloc dst (src.elems.take k)).2.activeCount =
        (mergeFrom alloc dst (src.elems.take k)).2.liveCount ∧
      ∀ ex ∈ (mergeFrom alloc dst (src.elems.take k)).2.elems, ex.removed = false →
        ((mergeFrom alloc dst (src.elems.take k)).2.markRemoved ex.hash ex).activeCount + 1 =
          (mergeFrom alloc dst (src.elems.take k)).2.activeCount := by
  have hk := (length_mergeFrom_take_le src.elems alloc dst k).trans_lt hn
  have hv := reachableSet_valid hsrc
  have hex := Exact.mergeFrom _ (fun e he => ⟨hv.hash_eq e (List.mem_of_mem_take he),
    hv.data_ne e (List.mem_of_mem_take he)⟩) alloc
    (reachableSet_exact hd ((length_mergeFrom_le _ _ _).trans_lt hk)) hk
  exact ⟨hex.activeCount_eq, fun _ he hr => hex.markRemoved_activeCount hk he hr⟩

/-- Merging into `twiceAdded` the same set after `remove [1]` copies both tombstones: after the
first source entry, one live entry is left. -/
theorem twiceAdded_merge_loop :
    let src := (twiceAdded.remove [1]).2
    ReachableSet twiceAdded ∧ ReachableSet src ∧
      (twiceAdded.merge src fun _ => true).2.elems.length < 2 ^ 64 ∧
      (twiceAdded.merge src fun _ => true).2.activeCount = 0 ∧
      (mergeFrom (fun _ => true) twiceAdded (src.elems.take 1)).2.activeCount = 1 ∧
      (mergeFrom (fun _ => true) twiceAdded (src.elems.take 1)).2.activeCount =
        (mergeFrom (fun _ => true) twiceAdded (src.elems.take 1)).2.liveCount ∧
      ∀ ex ∈ (mergeFrom (fun _ => true) twiceAdded (src.elems.take 1)).2.elems,
        ex.removed = false →
        ((mergeFrom (fun _ => true) twiceAdded (src.elems.take 1)).2.markRemoved ex.hash
            ex).activeCount + 1 =
          (mergeFrom (fun _ => true) twiceAdded (src.elems.take 1)).2.activeCount := by
  intro src
  have hsrc : ReachableSet src := .remove _ twiceAdded_reachable
  have hn : (twiceAdded.merge src fun _ => true).2.elems.length < 2 ^ 64 := by decide
  exact ⟨twiceAdded_reachable, hsrc, hn, by decide, by decide,
    merge_loop_exact twiceAdded_reachable hsrc _ hn 1⟩

theorem twiceAdded_counts_exact :
    ReachableSet twiceAdded ∧ twiceAdded.elems.length < 2 ^ 64 ∧
      twiceAdded.activeCount = twiceAdded.liveCount ∧
      twiceAdded.entryCount = twiceAdded.elems.length ∧
      (∀ x, (twiceAdded.remove x).2.activeCount + twiceAdded.removeCount x =
        twiceAdded.activeCount) ∧
      ∀ e ∈ twiceAdded.elems, e.removed = false →
        (twiceAdded.markRemoved e.hash e).activeCount + 1 = twiceAdded.activeCount :=
  ⟨twiceAdded_reachable, by decide, reachableSet_counts_exact (by decide) twiceAdded_reachable⟩

end ORSet
end Cauchy
