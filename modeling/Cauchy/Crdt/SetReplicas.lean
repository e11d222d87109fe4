import Cauchy.Crdt.TwoPSet

/-!
# Replicas of the grow-only and two-phase sets

A system of `R` replicas of a G-Set (or of a 2P-Set), each created by `init` and then changed by
the calls a program makes: `add` (and `remove`) on one replica, and `merge` of one replica into
another, each with any allocation outcomes.  What such a system is for is an abstract system of
finite sets: every replica knows the payloads added (and removed) at the replicas whose changes
have reached it, a merge takes the union, and a 2P-Set replica shows the payloads it knows were
added and does not know were removed.  `Op.spec` is that abstract system, and this file proves
that every run of the code refines it.

* `GSet.run_refines`: in every run a replica holds only payloads of its abstract state; in a run
  in which no allocation fails it holds exactly its abstract state, so that `contains`, `count`
  and `equals` read the abstract system.
* `TwoPSet.run_refines_abs`: the same refinement for the 2P-Set, both halves at once, with
  `contains` and `count` reading the abstract `A \ R`.  On the way, every reachable 2P-Set has
  its tombstones among its added payloads (`Reachable.removedSet_subset`), so the refusal in
  `cauchy_2pset_add` of a tombstoned payload never changes what `added` holds.
-/

set_option autoImplicit false

namespace Cauchy

/-- Two replica maps related replica by replica stay so when both change at replica `k` to
related values. -/
theorem forall_update_rel {R : Nat} {α β : Type} {P : α → β → Prop} {s : Fin R → α}
    {S : Fin R → β} (h : ∀ r, P (s r) (S r)) (k : Fin R) {v : α} {V : β} (hk : P v V)
    (r : Fin R) : P (Function.update s k v r) (Function.update S k V r) := by
  by_cases hr : r = k
  · subst hr; simpa using hk
  · simpa [Function.update_noteq hr] using h r

namespace GSet

variable {R : Nat} {s t : GSet} {x : List UInt8}

/-! ## `add` and `merge` when no allocation fails -/

/-- A replica of the abstract G-Set learns the payload `x`; `g_set.c` holds no empty payload. -/
def learn (x : List UInt8) (A : Finset (List UInt8)) : Finset (List UInt8) :=
  if x = [] then A else insert x A

theorem subset_learn (x : List UInt8) (A : Finset (List UInt8)) : A ⊆ learn x A := by
  unfold learn; split
  · exact subset_refl _
  · exact Finset.subset_insert _ _

theorem learn_of_ne (hx : x ≠ []) (A : Finset (List UInt8)) : learn x A = insert x A :=
  if_neg hx

theorem learn_subset_learn {A B : Finset (List UInt8)} (h : A ⊆ B) (x : List UInt8) :
    learn x A ⊆ learn x B := by
  unfold learn; split
  · exact h
  · exact Finset.insert_subset_insert _ h

theorem toFinset_add_subset (hs : WF s) (a : Bool) :
    (s.add x a).2.toFinset ⊆ learn x s.toFinset := by
  rcases add_cases hs x a with ⟨h, hx, -⟩ | ⟨h, -⟩
  · rw [h, toFinset_insertNew, learn_of_ne hx]
  · rw [h]; exact subset_learn x _

/-- `add` whose allocations succeed reports `ok` for every non-empty payload. -/
theorem add_true_fst (s : GSet) (hx : x ≠ []) : (s.add x true).1 = .ok := by
  unfold add
  rw [if_neg fun h => hx (List.length_eq_zero.1 h)]
  dsimp only; split <;> rfl

theorem toFinset_add_true (hs : WF s) (x : List UInt8) :
    (s.add x true).2.toFinset = learn x s.toFinset := by
  by_cases hx : x = []
  · subst hx; rw [learn, if_pos rfl]; rfl
  · rw [toFinset_add hs, if_pos (add_true_fst s hx), learn_of_ne hx]

/-- A merge whose allocations all succeed adds every payload of the source: they are non-empty. -/
theorem mergeFrom_fst {alloc : Nat → Bool} (ha : ∀ n, alloc n = true) (es : List Elem)
    (hes : ∀ e ∈ es, e.data ≠ []) (dst : GSet) : (mergeFrom alloc dst es).1 = .ok := by
  induction es generalizing alloc dst with
  | nil => rfl
  | cons e es ih =>
    have h0 : (dst.add e.data (alloc 0)).1 = .ok := by
      rw [ha 0]; exact add_true_fst dst (hes e (List.mem_cons_self _ _))
    simp only [mergeFrom, h0, if_true]
    exact ih (fun n => ha (n + 1)) (fun e' he' => hes e' (List.mem_cons_of_mem _ he')) _

theorem merge_fst (ht : WF t) {alloc : Nat → Bool} (ha : ∀ n, alloc n = true) (s : GSet) :
    (s.merge t alloc).1 = .ok :=
  mergeFrom_fst ha t.elems ht.data_ne s

/-! ## The replica system and its abstract model -/

/-- A call on one replica of a system of `R` G-Sets, with the allocation outcomes it meets. -/
inductive Op (R : Nat) where
  | add (k : Fin R) (data : List UInt8) (alloc : Bool)
  | merge (i j : Fin R) (alloc : Nat → Bool)

namespace Op

/-- The call on the replicas: `cauchy_gset_add` on replica `k`, or `cauchy_gset_merge` of
replica `j` into replica `i`. -/
def apply (s : Fin R → GSet) : Op R → Fin R → GSet
  | add k x a => Function.update s k ((s k).add x a).2
  | merge i j a => Function.update s i ((s i).merge (s j) a).2

/-- The call on the abstract system. -/
def spec (S : Fin R → Finset (List UInt8)) : Op R → Fin R → Finset (List UInt8)
  | add k x _ => Function.update S k (learn x (S k))
  | merge i j _ => Function.update S i (S i ∪ S j)

/-- No allocation the call makes fails. -/
def AllocOk : Op R → Prop
  | add _ _ a => a = true
  | merge _ _ a => ∀ n, a n = true

end Op

/-- The replicas after the calls `ops`, replica `r` created with capacity `caps r`. -/
def run (caps : Fin R → Nat) (ops : List (Op R)) : Fin R → GSet :=
  ops.foldl Op.apply fun r => init (caps r)

/-- The abstract system after the calls `ops`. -/
def specRun (ops : List (Op R)) : Fin R → Finset (List UInt8) :=
  ops.foldl Op.spec fun _ => ∅

/-- A replica holds only payloads of its abstract state `S`. -/
structure Below (s : GSet) (S : Finset (List UInt8)) : Prop where
  reachable : Reachable s
  subset : s.toFinset ⊆ S

/-- A replica holds exactly its abstract state `S`. -/
structure Exactly (s : GSet) (S : Finset (List UInt8)) : Prop where
  reachable : Reachable s
  toFinset_eq : s.toFinset = S

variable {S T : Finset (List UInt8)}

theorem Below.add (h : Below s S) (x : List UInt8) (a : Bool) : Below (s.add x a).2 (learn x S) :=
  ⟨.add x a h.reachable,
    (toFinset_add_subset h.reachable.wf a).trans (learn_subset_learn h.subset x)⟩

theorem Below.merge (h : Below s S) (h' : Below t T) (a : Nat → Bool) :
    Below (s.merge t a).2 (S ∪ T) :=
  ⟨.merge a h.reachable h'.reachable,
    (merge_spec h.reachable.wf t a).ge.trans (Finset.union_subset_union h.subset h'.subset)⟩

theorem Exactly.add (h : Exactly s S) (x : List UInt8) : Exactly (s.add x true).2 (learn x S) :=
  ⟨.add x true h.reachable, h.toFinset_eq ▸ toFinset_add_true h.reachable.wf x⟩

theorem Exactly.merge (h : Exactly s S) (h' : Exactly t T) {a : Nat → Bool}
    (ha : ∀ n, a n = true) : Exactly (s.merge t a).2 (S ∪ T) :=
  ⟨.merge a h.reachable h'.reachable, by
    rw [(merge_spec h.reachable.wf t a).ok (merge_fst h'.reachable.wf ha s), h.toFinset_eq,
      h'.toFinset_eq]⟩

/-- One call keeps every replica below its abstract state. -/
theorem Op.below_apply {s : Fin R → GSet} {S : Fin R → Finset (List UInt8)}
    (h : ∀ r, Below (s r) (S r)) : ∀ op : Op R, ∀ r, Below (op.apply s r) (op.spec S r)
  | .add k x a => forall_update_rel h k ((h k).add x a)
  | .merge i j a => forall_update_rel h i ((h i).merge (h j) a)

/-- One call whose allocations succeed keeps every replica at its abstract state. -/
theorem Op.exactly_apply {s : Fin R → GSet} {S : Fin R → Finset (List UInt8)}
    (h : ∀ r, Exactly (s r) (S r)) : ∀ op : Op R, op.AllocOk → ∀ r,
      Exactly (op.apply s r) (op.spec S r)
  | .add k x a, ha => by
    cases (show a = true from ha); exact forall_update_rel h k ((h k).add x)
  | .merge i j a, ha => forall_update_rel h i ((h i).merge (h j) ha)

theorem run_below (caps : Fin R → Nat) (ops : List (Op R)) :
    ∀ r, Below (run caps ops r) (specRun ops r) := by
  unfold run specRun
  induction ops using List.reverseRecOn with
  | nil => exact fun r => ⟨.init (caps r), by simp⟩
  | append_singleton ops op ih =>
    simp only [List.foldl_append, List.foldl_cons, List.foldl_nil]
    exact Op.below_apply ih op

theorem run_exactly (caps : Fin R → Nat) (ops : List (Op R)) (hok : ∀ op ∈ ops, op.AllocOk) :
    ∀ r, Exactly (run caps ops r) (specRun ops r) := by
  unfold run specRun
  induction ops using List.reverseRecOn with
  | nil => exact fun r => ⟨.init (caps r), toFinset_init _⟩
  | append_singleton ops op ih =>
    simp only [List.foldl_append, List.foldl_cons, List.foldl_nil]
    exact Op.exactly_apply (ih fun o ho => hok o (List.mem_append_left _ ho)) op
      (hok op (List.mem_append_right _ (List.mem_singleton_self _)))

/-- What a run of a G-Set replica system gives against its abstract system. -/
structure RunRefines (caps : Fin R → Nat) (ops : List (Op R)) : Prop where
  /-- A replica never holds a payload its abstract state lacks. -/
  sound : ∀ r x, (run caps ops r).contains x = true → x ∈ specRun ops r
  /-- With no failed allocation, `contains` is membership in the abstract state ... -/
  contains_iff : (∀ op ∈ ops, op.AllocOk) → ∀ r x,
    (run caps ops r).contains x = true ↔ x ∈ specRun ops r
  /-- ... `count` is its size ... -/
  count_eq : (∀ op ∈ ops, op.AllocOk) → ∀ r, (run caps ops r).count = (specRun ops r).card
  /-- ... and two replicas are `equals` exactly when their abstract states are equal. -/
  equals_iff : (∀ op ∈ ops, op.AllocOk) → ∀ r r',
    (run caps ops r).equals (run caps ops r') = true ↔ specRun ops r = specRun ops r'

/-- **Every run of G-Set replicas refines the abstract system of finite sets**, exactly when no
allocation fails. -/
theorem run_refines (caps : Fin R → Nat) (ops : List (Op R)) : RunRefines caps ops where
  sound r x hx :=
    (run_below caps ops r).subset ((contains_iff (run_below caps ops r).reachable.wf).1 hx)
  contains_iff hok r x := by
    have h := run_exactly caps ops hok r
    rw [contains_iff h.reachable.wf, h.toFinset_eq]
  count_eq hok r := by
    have h := run_exactly caps ops hok r
    rw [count_eq_card h.reachable.wf, h.toFinset_eq]
  equals_iff hok r r' := by
    have h := run_exactly caps ops hok r
    have h' := run_exactly caps ops hok r'
    rw [equals_iff h.reachable.wf h'.reachable.wf, h.toFinset_eq, h'.toFinset_eq]

end GSet

namespace TwoPSet

variable {R : Nat} {s t : TwoPSet} {x : List UInt8}

/-! ## Tombstones are added payloads -/

theorem addedSet_subset_add (hs : s.added.WF) (x : List UInt8) (a : Bool) :
    s.addedSet ⊆ (s.add x a).2.addedSet := by
  unfold TwoPSet.add addedSet
  split
  · exact subset_refl _
  · dsimp only
    rw [GSet.toFinset_add hs]
    split
    · exact Finset.subset_insert _ _
    · exact subset_refl _

/-- What an `add` can do: nothing, for a tombstoned payload, or `add` it to `added`. -/
theorem add_cases (hs : Reachable s) (x : List UInt8) (a : Bool) :
    (x ∈ s.removedSet ∧ (s.add x a).2 = s) ∨
      (s.add x a).2 = ⟨(s.added.add x a).2, s.removed⟩ := by
  unfold TwoPSet.add
  split
  · exact .inl ⟨(GSet.contains_iff hs.halves.2.wf).1 ‹_›, rfl⟩
  · exact .inr rfl

/-- What a `remove` can do: nothing, for a payload never added, or `add` it to `removed`. -/
theorem remove_cases (hs : Reachable s) (x : List UInt8) (a : Bool) :
    (x ∉ s.addedSet ∧ (s.remove x a).2 = s) ∨
      (x ∈ s.addedSet ∧ (s.remove x a).2 = ⟨s.added, (s.removed.add x a).2⟩) := by
  have hc := GSet.contains_iff (x := x) hs.halves.1.wf
  unfold TwoPSet.remove
  split
  · rename_i hn
    exact .inl ⟨fun hx => by simp [hc.2 hx] at hn, rfl⟩
  · rename_i hn
    exact .inr ⟨hc.1 (by simpa using hn), rfl⟩

/-- **A reachable 2P-Set's tombstones are among its added payloads**: `remove` needs the payload
in `added`, and `merge` merges `removed` only after `added` merged in full. -/
theorem Reachable.removedSet_subset (h : Reachable s) : s.removedSet ⊆ s.addedSet := by
  induction h with
  | init cap => simp [removedSet, addedSet, TwoPSet.init]
  | add x a hs ih =>
    rw [removedSet, removed_add]
    exact ih.trans (addedSet_subset_add hs.halves.1.wf x a)
  | remove x a hs ih =>
    rcases remove_cases hs x a with ⟨-, he⟩ | ⟨hx, he⟩ <;> rw [he]
    · exact ih
    · refine (GSet.toFinset_add_subset hs.halves.2.wf a).trans ?_
      rw [GSet.learn_of_ne (GSet.ne_nil_of_mem hs.halves.1.wf hx)]
      exact Finset.insert_subset hx ih
  | merge a₁ a₂ hs ht ih ih' =>
    rename_i u v
    have hA := GSet.merge_spec hs.halves.1.wf v.added a₁
    unfold TwoPSet.merge removedSet addedSet at *
    dsimp only
    split
    · exact ih.trans hA.le
    · rename_i hok
      rw [hA.ok (not_not.1 hok)]
      exact (GSet.merge_spec hs.halves.2.wf v.removed a₂).ge.trans
        (Finset.union_subset_union ih ih')

/-! ## The replica system and its abstract model -/

/-- An abstract 2P-Set replica: the payloads it knows were added, and those it knows were
removed. -/
@[ext] structure Abs where
  added : Finset (List UInt8)
  removed : Finset (List UInt8)

namespace Abs

/-- The replica learns that `x` was added. -/
def add (A : Abs) (x : List UInt8) : Abs := ⟨GSet.learn x A.added, A.removed⟩

/-- The replica removes `x`, which it must know was added. -/
def remove (A : Abs) (x : List UInt8) : Abs :=
  if x ∈ A.added then ⟨A.added, insert x A.removed⟩ else A

/-- The replica learns what another one knows. -/
def merge (A B : Abs) : Abs := ⟨A.added ∪ B.added, A.removed ∪ B.removed⟩

/-- What the replica shows. -/
def present (A : Abs) : Finset (List UInt8) := A.added \ A.removed

end Abs

/-- A call on one replica of a system of `R` 2P-Sets, with the allocation outcomes it meets. -/
inductive Op (R : Nat) where
  | add (k : Fin R) (data : List UInt8) (alloc : Bool)
  | remove (k : Fin R) (data : List UInt8) (alloc : Bool)
  | merge (i j : Fin R) (allocAdded allocRemoved : Nat → Bool)

namespace Op

/-- The call on the replicas. -/
def apply (s : Fin R → TwoPSet) : Op R → Fin R → TwoPSet
  | add k x a => Function.update s k ((s k).add x a).2
  | remove k x a => Function.update s k ((s k).remove x a).2
  | merge i j a b => Function.update s i ((s i).merge (s j) a b).2

/-- The call on the abstract system. -/
def spec (S : Fin R → Abs) : Op R → Fin R → Abs
  | add k x _ => Function.update S k ((S k).add x)
  | remove k x _ => Function.update S k ((S k).remove x)
  | merge i j _ _ => Function.update S i ((S i).merge (S j))

/-- No allocation the call makes fails. -/
def AllocOk : Op R → Prop
  | add _ _ a | remove _ _ a => a = true
  | merge _ _ a b => (∀ n, a n = true) ∧ ∀ n, b n = true

end Op

/-- The replicas after the calls `ops`, replica `r` created with capacity `caps r`. -/
def run (caps : Fin R → Nat) (ops : List (Op R)) : Fin R → TwoPSet :=
  ops.foldl Op.apply fun r => init (caps r)

/-- The abstract system after the calls `ops`. -/
def specRun (ops : List (Op R)) : Fin R → Abs :=
  ops.foldl Op.spec fun _ => ⟨∅, ∅⟩

/-- A replica holds only what its abstract state knows, half by half. -/
structure Below (s : TwoPSet) (A : Abs) : Prop where
  reachable : Reachable s
  added : s.addedSet ⊆ A.added
  removed : s.removedSet ⊆ A.removed

/-- A replica holds exactly its abstract state. -/
structure Exactly (s : TwoPSet) (A : Abs) : Prop where
  reachable : Reachable s
  added : s.addedSet = A.added
  removed : s.removedSet = A.removed

variable {A B : Abs}

@[simp] theorem Abs.added_remove (A : Abs) (x : List UInt8) : (A.remove x).added = A.added := by
  unfold remove; split <;> rfl

theorem Abs.removed_subset_remove (A : Abs) (x : List UInt8) :
    A.removed ⊆ (A.remove x).removed := by
  unfold remove; split
  · exact Finset.subset_insert _ _
  · exact subset_refl _

@[simp] theorem addedSet_remove (s : TwoPSet) (x : List UInt8) (a : Bool) :
    (s.remove x a).2.addedSet = s.addedSet := by
  unfold TwoPSet.remove; split <;> rfl

theorem Below.add (h : Below s A) (x : List UInt8) (a : Bool) : Below (s.add x a).2 (A.add x) := by
  refine ⟨.add x a h.reachable, ?_, by rw [removedSet, removed_add]; exact h.removed⟩
  rcases add_cases h.reachable x a with ⟨-, he⟩ | he <;> rw [he]
  · exact h.added.trans (GSet.subset_learn x _)
  · exact (GSet.toFinset_add_subset h.reachable.halves.1.wf a).trans
      (GSet.learn_subset_learn h.added x)

theorem Below.remove (h : Below s A) (x : List UInt8) (a : Bool) :
    Below (s.remove x a).2 (A.remove x) := by
  refine ⟨.remove x a h.reachable, by simpa using h.added, ?_⟩
  rcases remove_cases h.reachable x a with ⟨-, he⟩ | ⟨hx, he⟩ <;> rw [he]
  · exact h.removed.trans (A.removed_subset_remove x)
  · rw [Abs.remove, if_pos (h.added hx),
      ← GSet.learn_of_ne (GSet.ne_nil_of_mem h.reachable.halves.1.wf hx)]
    exact (GSet.toFinset_add_subset h.reachable.halves.2.wf a).trans
      (GSet.learn_subset_learn h.removed x)

theorem Below.merge (h : Below s A) (h' : Below t B) (a b : Nat → Bool) :
    Below (s.merge t a b).2 (A.merge B) := by
  have hA := GSet.merge_spec h.reachable.halves.1.wf t.added a
  refine ⟨.merge a b h.reachable h'.reachable, ?_, ?_⟩ <;> unfold TwoPSet.merge <;> dsimp only
  · split <;> exact hA.ge.trans (Finset.union_subset_union h.added h'.added)
  · split
    · exact h.removed.trans Finset.subset_union_left
    · exact (GSet.merge_spec h.reachable.halves.2.wf t.removed b).ge.trans
        (Finset.union_subset_union h.removed h'.removed)

theorem Exactly.add (h : Exactly s A) (x : List UInt8) : Exactly (s.add x true).2 (A.add x) := by
  refine ⟨.add x true h.reachable, ?_, by rw [removedSet, removed_add]; exact h.removed⟩
  show _ = GSet.learn x A.added
  rw [← h.added]
  rcases add_cases h.reachable x true with ⟨hx, he⟩ | he <;> rw [he]
  · -- a tombstoned payload is already in `added`
    have hxa := h.reachable.removedSet_subset hx
    rw [GSet.learn_of_ne (GSet.ne_nil_of_mem h.reachable.halves.1.wf hxa),
      Finset.insert_eq_of_mem hxa]
  · exact GSet.toFinset_add_true h.reachable.halves.1.wf x

theorem Exactly.remove (h : Exactly s A) (x : List UInt8) :
    Exactly (s.remove x true).2 (A.remove x) := by
  refine ⟨.remove x true h.reachable, by simpa using h.added, ?_⟩
  rcases remove_cases h.reachable x true with ⟨hx, he⟩ | ⟨hx, he⟩ <;> rw [he, Abs.remove]
  · rw [if_neg (h.added ▸ hx), h.removed]
  · rw [if_pos (h.added ▸ hx), ← h.removed,
      ← GSet.learn_of_ne (GSet.ne_nil_of_mem h.reachable.halves.1.wf hx)]
    exact GSet.toFinset_add_true h.reachable.halves.2.wf x

/-- A merge whose allocations all succeed reports `ok`. -/
theorem merge_fst (ht : Reachable t) {a b : Nat → Bool} (ha : ∀ n, a n = true)
    (hb : ∀ n, b n = true) (s : TwoPSet) : (s.merge t a b).1 = .ok := by
  unfold TwoPSet.merge
  dsimp only
  rw [if_neg (not_not.2 (GSet.merge_fst ht.halves.1.wf ha _))]
  exact GSet.merge_fst ht.halves.2.wf hb _

theorem Exactly.merge (h : Exactly s A) (h' : Exactly t B) {a b : Nat → Bool}
    (ha : ∀ n, a n = true) (hb : ∀ n, b n = true) : Exactly (s.merge t a b).2 (A.merge B) := by
  obtain ⟨hA, hR⟩ := sets_merge_of_ok h.reachable (merge_fst h'.reachable ha hb s)
  exact ⟨.merge a b h.reachable h'.reachable, by rw [hA, h.added, h'.added]; rfl,
    by rw [hR, h.removed, h'.removed]; rfl⟩

/-- One call keeps every replica below its abstract state. -/
theorem Op.below_apply {s : Fin R → TwoPSet} {S : Fin R → Abs} (h : ∀ r, Below (s r) (S r)) :
    ∀ op : Op R, ∀ r, Below (op.apply s r) (op.spec S r)
  | .add k x a => forall_update_rel h k ((h k).add x a)
  | .remove k x a => forall_update_rel h k ((h k).remove x a)
  | .merge i j a b => forall_update_rel h i ((h i).merge (h j) a b)

/-- One call whose allocations succeed keeps every replica at its abstract state. -/
theorem Op.exactly_apply {s : Fin R → TwoPSet} {S : Fin R → Abs}
    (h : ∀ r, Exactly (s r) (S r)) :
    ∀ op : Op R, op.AllocOk → ∀ r, Exactly (op.apply s r) (op.spec S r)
  | .add k x a, ha => by cases (show a = true from ha); exact forall_update_rel h k ((h k).add x)
  | .remove k x a, ha => by
    cases (show a = true from ha); exact forall_update_rel h k ((h k).remove x)
  | .merge i j a b, ⟨ha, hb⟩ => forall_update_rel h i ((h i).merge (h j) ha hb)

theorem run_below (caps : Fin R → Nat) (ops : List (Op R)) :
    ∀ r, Below (run caps ops r) (specRun ops r) := by
  unfold run specRun
  induction ops using List.reverseRecOn with
  | nil => exact fun r => ⟨.init (caps r), by simp [addedSet, init], by simp [removedSet, init]⟩
  | append_singleton ops op ih =>
    simp only [List.foldl_append, List.foldl_cons, List.foldl_nil]
    exact Op.below_apply ih op

theorem run_exactly (caps : Fin R → Nat) (ops : List (Op R)) (hok : ∀ op ∈ ops, op.AllocOk) :
    ∀ r, Exactly (run caps ops r) (specRun ops r) := by
  unfold run specRun
  induction ops using List.reverseRecOn with
  | nil => exact fun r => ⟨.init (caps r), by simp [addedSet, init], by simp [removedSet, init]⟩
  | append_singleton ops op ih =>
    simp only [List.foldl_append, List.foldl_cons, List.foldl_nil]
    exact Op.exactly_apply (ih fun o ho => hok o (List.mem_append_left _ ho)) op
      (hok op (List.mem_append_right _ (List.mem_singleton_self _)))

/-- What a run of a 2P-Set replica system gives against its abstract system. -/
structure RunRefines (caps : Fin R → Nat) (ops : List (Op R)) : Prop where
  /-- A replica never holds an added payload or a tombstone its abstract state lacks. -/
  sound : ∀ r, Below (run caps ops r) (specRun ops r)
  /-- A replica's tombstones are among its added payloads. -/
  removed_subset_added : ∀ r, (run caps ops r).removedSet ⊆ (run caps ops r).addedSet
  /-- With no failed allocation, `contains` is membership in the abstract `A \ R` ... -/
  contains_iff : (∀ op ∈ ops, op.AllocOk) → ∀ r x,
    (run caps ops r).contains x = true ↔ x ∈ (specRun ops r).present
  /-- ... `count` is its size ... -/
  count_eq : (∀ op ∈ ops, op.AllocOk) → ∀ r,
    (run caps ops r).count = (specRun ops r).present.card
  /-- ... and two replicas are `equals` exactly when their abstract states are equal. -/
  equals_iff : (∀ op ∈ ops, op.AllocOk) → ∀ r r',
    (run caps ops r).equals (run caps ops r') = true ↔ specRun ops r = specRun ops r'

/-- **Every run of 2P-Set replicas refines the abstract system of added and removed sets**,
exactly when no allocation fails. -/
theorem run_refines_abs (caps : Fin R → Nat) (ops : List (Op R)) : RunRefines caps ops where
  sound := run_below caps ops
  removed_subset_added r := (run_below caps ops r).reachable.removedSet_subset
  contains_iff hok r x := by
    have h := run_exactly caps ops hok r
    rw [contains_iff h.reachable, h.added, h.removed, Abs.present]
  count_eq hok r := by
    have h := run_exactly caps ops hok r
    have hw := h.reachable.halves
    rw [count_eq_card hw.1.wf hw.2.wf, ← addedSet, ← removedSet, h.added, h.removed,
      Abs.present]
  equals_iff hok r r' := by
    have h := run_exactly caps ops hok r
    have h' := run_exactly caps ops hok r'
    rw [equals_iff h.reachable h'.reachable, h.added, h.removed, h'.added, h'.removed,
      Abs.ext_iff]

end TwoPSet
end Cauchy
