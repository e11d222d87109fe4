import Cauchy.Crdt.GSet

/-!
# The two-phase set

`src/crdt/2p_set.c`.  A `cauchy_2pset_t` is two G-Sets, `added` and `removed`: an element is
present when it is in the first and not the second.  `add` is refused — silently, with `OK` —
for an element already in `removed`, `remove` is refused with `NOTFOUND` for one never added,
and `merge` merges the two halves in turn, returning at the first error.  `count` is a loop over
`added`'s iterator that counts the payloads `removed` does not contain.

Everything here rests on `GSet.reachable_refines_finset`: a 2P-Set reachable from `init` has two
reachable halves, so its halves stand for the finite sets `A` and `R`, and

* `merge_ok_spec` — a merge that reports `ok` leaves `A_a ∪ A_b` and `R_a ∪ R_b`, so that
  `contains` is `x ∈ (A_a ∪ A_b) \ (R_a ∪ R_b)`, `count` is the size of that set, and merge is
  commutative, associative and idempotent under `equals`;
* `tombstone_permanent` — once `x ∈ R`, no later `add`, `remove` or `merge` takes it out of `R`,
  `contains x` stays false and `add x` changes nothing.
-/

set_option autoImplicit false

namespace Cauchy

/-- `cauchy_2pset_t`. -/
structure TwoPSet where
  added : GSet
  removed : GSet

namespace TwoPSet

/-- `cauchy_2pset_init`: both halves are created with the same capacity. -/
def init (initialCapacity : Nat) : TwoPSet :=
  ⟨GSet.init initialCapacity, GSet.init initialCapacity⟩

/-- `cauchy_2pset_add`: an element in `removed` cannot come back. -/
def add (s : TwoPSet) (data : List UInt8) (alloc : Bool) : Result × TwoPSet :=
  if s.removed.contains data then (.ok, s)
  else
    let r := s.added.add data alloc
    (r.1, { s with added := r.2 })

/-- `cauchy_2pset_remove`: only an element that was added can be removed. -/
def remove (s : TwoPSet) (data : List UInt8) (alloc : Bool) : Result × TwoPSet :=
  if !s.added.contains data then (.errNotfound, s)
  else
    let r := s.removed.add data alloc
    (r.1, { s with removed := r.2 })

/-- `cauchy_2pset_contains`. -/
def contains (s : TwoPSet) (data : List UInt8) : Bool :=
  s.added.contains data && !s.removed.contains data

/-- The loop of `cauchy_2pset_count`: walk `added` with its iterator, counting the payloads
`removed` does not contain. -/
def countLoop (added removed : GSet) (it : GSet.Iter) (count : Nat) : Nat :=
  match h : added.iterNext it with
  | none => count
  | some (data, it') =>
    countLoop added removed it' (if removed.contains data then count else count + 1)
termination_by (added.pending it).length
decreasing_by
  obtain ⟨e, -, he⟩ := GSet.iterNext_pending h
  simp_wf
  rw [he]
  simp

/-- `cauchy_2pset_count`. -/
def count (s : TwoPSet) : Nat := countLoop s.added s.removed s.added.iterInit 0

/-- `cauchy_2pset_merge`: `added` first; if that fails, `removed` is not touched.  Each half's
merge gets its own allocation outcomes. -/
def merge (dst src : TwoPSet) (allocAdded allocRemoved : Nat → Bool) : Result × TwoPSet :=
  let r := dst.added.merge src.added allocAdded
  if r.1 ≠ .ok then (r.1, { dst with added := r.2 })
  else
    let r' := dst.removed.merge src.removed allocRemoved
    (r'.1, ⟨r.2, r'.2⟩)

/-- `cauchy_2pset_equals`. -/
def equals (a b : TwoPSet) : Bool := a.added.equals b.added && a.removed.equals b.removed

/-! ## Reachable 2P-Sets -/

/-- The 2P-Sets a program can build from `init` with `add`, `remove` and `merge`, whatever the
calls return. -/
inductive Reachable : TwoPSet → Prop
  | init (cap : Nat) : Reachable (init cap)
  | add {s : TwoPSet} (x : List UInt8) (alloc : Bool) : Reachable s → Reachable (s.add x alloc).2
  | remove {s : TwoPSet} (x : List UInt8) (alloc : Bool) : Reachable s →
      Reachable (s.remove x alloc).2
  | merge {s t : TwoPSet} (a₁ a₂ : Nat → Bool) : Reachable s → Reachable t →
      Reachable (s.merge t a₁ a₂).2

/-- Both halves of a reachable 2P-Set are reachable G-Sets. -/
theorem Reachable.halves {s : TwoPSet} (h : Reachable s) :
    GSet.Reachable s.added ∧ GSet.Reachable s.removed := by
  induction h with
  | init cap => exact ⟨.init cap, .init cap⟩
  | add x alloc _ ih =>
    unfold TwoPSet.add; split
    · exact ih
    · exact ⟨.add x alloc ih.1, ih.2⟩
  | remove x alloc _ ih =>
    unfold TwoPSet.remove; split
    · exact ih
    · exact ⟨ih.1, .add x alloc ih.2⟩
  | merge a₁ a₂ _ _ ih ih' =>
    unfold TwoPSet.merge; dsimp only; split
    · exact ⟨.merge a₁ ih.1 ih'.1, ih.2⟩
    · exact ⟨.merge a₁ ih.1 ih'.1, .merge a₂ ih.2 ih'.2⟩

/-! ## `count` -/

theorem countLoop_eq (added removed : GSet) (it : GSet.Iter) (c : Nat)
    (hs : added.Settled it) :
    countLoop added removed it c =
      c + ((added.pending it).filter fun e => !removed.contains e.data).length := by
  induction it, c using countLoop.induct added removed with
  | case1 it c h =>
    rw [countLoop, h]
    simp [GSet.pending_eq_nil hs h]
  | case2 it c data it' h ih =>
    obtain ⟨e, rfl, he⟩ := GSet.iterNext_pending h
    rw [countLoop, h]
    simp only [dite_eq_ite] at ih ⊢
    rw [ih (GSet.settled_of_iterNext h), he, List.filter_cons]
    split <;> simp_all
    omega

/-- `count` is the number of added payloads that are not removed. -/
theorem count_eq_card {s : TwoPSet} (ha : s.added.WF) (hr : s.removed.WF) :
    s.count = (s.added.toFinset \ s.removed.toFinset).card := by
  rw [count, countLoop_eq _ _ _ _ (GSet.settled_iterInit _), GSet.pending_iterInit, zero_add]
  have hnd : ((s.added.elems.map GSet.Elem.data).filter fun d => !s.removed.contains d).Nodup :=
    ha.nodup.filter _
  have hf : (s.added.elems.filter fun e => !s.removed.contains e.data).map GSet.Elem.data =
      (s.added.elems.map GSet.Elem.data).filter fun d => !s.removed.contains d := by
    rw [List.filter_map]; rfl
  rw [← List.length_map _ GSet.Elem.data, hf, ← List.toFinset_card_of_nodup hnd]
  congr 1
  ext y
  rw [List.mem_toFinset, List.mem_filter, Finset.mem_sdiff, ← GSet.contains_iff hr, GSet.toFinset,
    List.mem_toFinset]
  simp

/-! ## Merge -/

/-- The payloads ever added. -/
def addedSet (s : TwoPSet) : Finset (List UInt8) := s.added.toFinset

/-- The tombstones. -/
def removedSet (s : TwoPSet) : Finset (List UInt8) := s.removed.toFinset

variable {a b c : TwoPSet}

/-- A merge that reports `ok` merged both halves, and both reported `ok`. -/
theorem merge_of_ok {p q : Nat → Bool} (h : (a.merge b p q).1 = .ok) :
    (a.added.merge b.added p).1 = .ok ∧ (a.removed.merge b.removed q).1 = .ok ∧
      (a.merge b p q).2 = ⟨(a.added.merge b.added p).2, (a.removed.merge b.removed q).2⟩ := by
  unfold merge at h ⊢
  dsimp only at h ⊢
  split at h
  · exact absurd h ‹_›
  · rw [if_neg ‹_›]; exact ⟨not_not.1 ‹_›, h, rfl⟩

theorem sets_merge_of_ok (ha : Reachable a) {p q : Nat → Bool}
    (h : (a.merge b p q).1 = .ok) :
    (a.merge b p q).2.addedSet = a.addedSet ∪ b.addedSet ∧
      (a.merge b p q).2.removedSet = a.removedSet ∪ b.removedSet := by
  obtain ⟨h1, h2, h3⟩ := merge_of_ok h
  rw [addedSet, removedSet, h3]
  exact ⟨(GSet.merge_spec ha.halves.1.wf _ p).ok h1, (GSet.merge_spec ha.halves.2.wf _ q).ok h2⟩

theorem contains_iff (ha : Reachable a) (x : List UInt8) :
    a.contains x = true ↔ x ∈ a.addedSet \ a.removedSet := by
  rw [contains, Bool.and_eq_true, Bool.not_eq_true', Finset.mem_sdiff, addedSet, removedSet,
    ← GSet.contains_iff ha.halves.1.wf, ← GSet.contains_iff ha.halves.2.wf]
  simp

theorem equals_iff (ha : Reachable a) (hb : Reachable b) :
    a.equals b = true ↔ a.addedSet = b.addedSet ∧ a.removedSet = b.removedSet := by
  rw [equals, Bool.and_eq_true, GSet.equals_iff ha.halves.1.wf hb.halves.1.wf,
    GSet.equals_iff ha.halves.2.wf hb.halves.2.wf, addedSet, addedSet, removedSet, removedSet]

/-- What `cauchy_2pset_merge` promises, for reachable sets `a`, `b` and `c`. -/
structure MergeLaws (a b c : TwoPSet) : Prop where
  /-- After a merge that reports `ok`, `x` is present iff it was added on either side and
  removed on neither. -/
  contains_iff : ∀ p q, (a.merge b p q).1 = .ok → ∀ x,
    (a.merge b p q).2.contains x = true ↔
      x ∈ (a.addedSet ∪ b.addedSet) \ (a.removedSet ∪ b.removedSet)
  /-- ... and `count` is the number of such payloads. -/
  count_eq : ∀ p q, (a.merge b p q).1 = .ok →
    (a.merge b p q).2.count = ((a.addedSet ∪ b.addedSet) \ (a.removedSet ∪ b.removedSet)).card
  comm : ∀ p q p' q', (a.merge b p q).1 = .ok → (b.merge a p' q').1 = .ok →
    (a.merge b p q).2.equals (b.merge a p' q').2 = true
  assoc : ∀ p₁ q₁ p₂ q₂ p₃ q₃ p₄ q₄, (a.merge b p₁ q₁).1 = .ok →
    ((a.merge b p₁ q₁).2.merge c p₂ q₂).1 = .ok → (b.merge c p₃ q₃).1 = .ok →
    (a.merge (b.merge c p₃ q₃).2 p₄ q₄).1 = .ok →
    ((a.merge b p₁ q₁).2.merge c p₂ q₂).2.equals (a.merge (b.merge c p₃ q₃).2 p₄ q₄).2 = true
  idem : ∀ p q, (a.merge a p q).1 = .ok → (a.merge a p q).2.equals a = true

/-- **2P-Set merge** is the union of both halves, so presence is `(A_a ∪ A_b) \ (R_a ∪ R_b)`,
`count` is its size, and merge is commutative, associative and idempotent under `equals`. -/
theorem merge_laws (ha : Reachable a) (hb : Reachable b) (hc : Reachable c) : MergeLaws a b c where
  contains_iff p q h x := by
    obtain ⟨hA, hR⟩ := sets_merge_of_ok ha h
    rw [contains_iff (.merge p q ha hb), hA, hR]
  count_eq p q h := by
    have hm := (Reachable.merge p q ha hb).halves
    obtain ⟨hA, hR⟩ := sets_merge_of_ok ha h
    rw [count_eq_card hm.1.wf hm.2.wf, ← hA, ← hR, addedSet, removedSet]
  comm p q p' q' h h' := by
    obtain ⟨hA, hR⟩ := sets_merge_of_ok ha h
    obtain ⟨hA', hR'⟩ := sets_merge_of_ok hb h'
    rw [equals_iff (.merge p q ha hb) (.merge p' q' hb ha), hA, hR, hA', hR',
      Finset.union_comm a.addedSet, Finset.union_comm a.removedSet]
    exact ⟨rfl, rfl⟩
  assoc p₁ q₁ p₂ q₂ p₃ q₃ p₄ q₄ h₁ h₂ h₃ h₄ := by
    have hab := Reachable.merge p₁ q₁ ha hb
    have hbc := Reachable.merge p₃ q₃ hb hc
    obtain ⟨hA₁, hR₁⟩ := sets_merge_of_ok ha h₁
    obtain ⟨hA₂, hR₂⟩ := sets_merge_of_ok hab h₂
    obtain ⟨hA₃, hR₃⟩ := sets_merge_of_ok hb h₃
    obtain ⟨hA₄, hR₄⟩ := sets_merge_of_ok ha h₄
    rw [equals_iff (.merge p₂ q₂ hab hc) (.merge p₄ q₄ ha hbc), hA₂, hR₂, hA₄, hR₄, hA₁, hR₁,
      hA₃, hR₃, Finset.union_assoc, Finset.union_assoc]
    exact ⟨rfl, rfl⟩
  idem p q h := by
    obtain ⟨hA, hR⟩ := sets_merge_of_ok ha h
    rw [equals_iff (.merge p q ha ha) ha, hA, hR, Finset.union_self, Finset.union_self]
    exact ⟨rfl, rfl⟩

/-- `a` added `[1]` and `[2]` and removed `[1]`; `b` added `[3]`; `c` added `[2]` and removed it.
All the merges the laws speak of report `ok` when every allocation succeeds. -/
theorem threeSets_merge_laws :
    let a := ((((init 2).add [1] true).2.add [2] true).2.remove [1] true).2
    let b := ((init 4).add [3] true).2
    let c := (((init 1).add [2] true).2.remove [2] true).2
    Reachable a ∧ Reachable b ∧ Reachable c ∧
      (a.merge b (fun _ => true) (fun _ => true)).1 = .ok ∧
      (b.merge a (fun _ => true) (fun _ => true)).1 = .ok ∧
      (a.merge a (fun _ => true) (fun _ => true)).1 = .ok ∧
      ((a.merge b (fun _ => true) (fun _ => true)).2.merge c (fun _ => true) (fun _ => true)).1 =
        .ok ∧
      (b.merge c (fun _ => true) (fun _ => true)).1 = .ok ∧
      (a.merge (b.merge c (fun _ => true) (fun _ => true)).2 (fun _ => true) (fun _ => true)).1 =
        .ok ∧
      MergeLaws a b c :=
  have ha : Reachable ((((init 2).add [1] true).2.add [2] true).2.remove [1] true).2 :=
    .remove _ _ (.add _ _ (.add _ _ (.init 2)))
  have hb : Reachable ((init 4).add [3] true).2 := .add _ _ (.init 4)
  have hc : Reachable (((init 1).add [2] true).2.remove [2] true).2 :=
    .remove _ _ (.add _ _ (.init 1))
  ⟨ha, hb, hc, by decide, by decide, by decide, by decide, by decide, by decide,
    merge_laws ha hb hc⟩

/-! ## Tombstones are permanent -/

theorem removed_add (s : TwoPSet) (x : List UInt8) (alloc : Bool) :
    (s.add x alloc).2.removed = s.removed := by
  unfold TwoPSet.add; split <;> rfl

theorem removedSet_subset_remove {s : TwoPSet} (hr : s.removed.WF) (x : List UInt8) (alloc : Bool) :
    s.removedSet ⊆ (s.remove x alloc).2.removedSet := by
  unfold TwoPSet.remove removedSet
  split
  · exact subset_refl _
  · dsimp only
    rw [GSet.toFinset_add hr]
    split
    · exact Finset.subset_insert _ _
    · exact subset_refl _

theorem removedSet_subset_merge {s t : TwoPSet} (hr : s.removed.WF) (p q : Nat → Bool) :
    s.removedSet ⊆ (s.merge t p q).2.removedSet := by
  unfold TwoPSet.merge removedSet
  dsimp only
  split
  · exact subset_refl _
  · exact (GSet.merge_spec hr _ q).le

/-- The states a replica passes through after `s`: any sequence of `add`, `remove`, and `merge`
from reachable sources, whatever each call returns. -/
inductive Later (s : TwoPSet) : TwoPSet → Prop
  | refl : Later s s
  | add {u : TwoPSet} (x : List UInt8) (alloc : Bool) : Later s u → Later s (u.add x alloc).2
  | remove {u : TwoPSet} (x : List UInt8) (alloc : Bool) : Later s u →
      Later s (u.remove x alloc).2
  | merge {u t : TwoPSet} (p q : Nat → Bool) : Later s u → Reachable t →
      Later s (u.merge t p q).2

theorem Later.reachable {s u : TwoPSet} (hs : Reachable s) (h : Later s u) : Reachable u := by
  induction h with
  | refl => exact hs
  | add x alloc _ ih => exact .add x alloc ih
  | remove x alloc _ ih => exact .remove x alloc ih
  | merge p q _ ht ih => exact .merge p q ih ht

theorem Later.removedSet_subset {s u : TwoPSet} (hs : Reachable s) (h : Later s u) :
    s.removedSet ⊆ u.removedSet := by
  induction h with
  | refl => exact subset_refl _
  | add x alloc _ ih => unfold removedSet at ih ⊢; rwa [removed_add]
  | remove x alloc hl ih =>
    exact ih.trans (removedSet_subset_remove (hl.reachable hs).halves.2.wf x alloc)
  | merge p q hl _ ih => exact ih.trans (removedSet_subset_merge (hl.reachable hs).halves.2.wf p q)

/-- **Tombstones are permanent.**  Once `x` is in `removed`, it stays there through any later
`add`, `remove` and `merge`, `contains x` stays false, and `add x` changes nothing. -/
theorem tombstone_permanent {s u : TwoPSet} {x : List UInt8} (hs : Reachable s)
    (hx : x ∈ s.removedSet) (hu : Later s u) :
    x ∈ u.removedSet ∧ u.contains x = false ∧ ∀ alloc, u.add x alloc = (.ok, u) := by
  have hxu := hu.removedSet_subset hs hx
  have hc : u.removed.contains x = true := (GSet.contains_iff (hu.reachable hs).halves.2.wf).2 hxu
  refine ⟨hxu, by simp [contains, hc], fun alloc => by simp [TwoPSet.add, hc]⟩

theorem tombstone_permanent_after_remove :
    let s := (((init 0).add [1] true).2.remove [1] true).2
    let u := (s.add [1] true).2
    [1] ∈ u.removedSet ∧ u.contains [1] = false ∧ ∀ alloc, u.add [1] alloc = (.ok, u) :=
  tombstone_permanent (.remove [1] true (.add [1] true (.init 0))) (by decide) (.add _ _ .refl)

end TwoPSet
end Cauchy
