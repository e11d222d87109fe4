import Cauchy.Crdt.GCounter

/-!
# Systems of G-Counter replicas

`R` replicas, all created by `cauchy_gcounter_init N`; replica `k` counts only on its own index
`k`, and any replica may merge any other in, in any order and as often as it likes.  A run is
the list of calls made; `stateAt N ops n` is the system after the first `n` of them.

What a replica should know is defined from the run alone, never from the counters:
`Reaches ops k m r n` says that the state replica `k` had after `m` calls has reached replica `r`
by the time `n` calls have been made — it is `r` itself, or it was merged into `r`, or into a
replica that was later merged into `r`, and so on.  `Final ops k m` says that replica `k` makes
no update from call `m` on, so that its state after `m` calls is its final one.  `total ops i` is
what replica `i` added over the calls `ops`.  `Converges` states the three facts of the
convergence law against these:

* every entry `k` of every replica is a total replica `k` had at some earlier point;
* a state of `k` that reached `r` has all of its updates in `r`'s entry `k`;
* once the final state of every replica has reached every replica by the end of the run, all
  replicas are `cauchy_gcounter_equals` and their value is the sum of everything added.

`runs_converge` proves them when `N ≤ CAUCHY_MAX_NODES`, every replica index is below `N`, and
no replica's own total reaches `2 ^ 64`.  Without the first two, `init` clamps `num_nodes` to
`CAUCHY_MAX_NODES` and `add` drops the updates of a replica whose index is not below it:
`sixtyFiveReplicas_drop_update` is the run where replica `64` of `65` adds `1` and its own
entry stays `0`.

The proof is one invariant, `Inv`, kept by each call (`Inv.add`, `Inv.merge`) and so by every
run (`inv_run`): every replica has `num_nodes = N`, every entry is a past total, and each
replica's own entry is its current total.
-/

set_option autoImplicit false

namespace Cauchy
namespace GCounter

/-- A call made on a system of `R` replicas: replica `k` adds `delta` on its own index, or
replica `i` merges replica `j` in.  `cauchy_gcounter_increment` is `add` with delta `1`
(`GCounter.increment`), so it is the call `add k 1`. -/
inductive Op (R : Nat) where
  | add (k : Fin R) (delta : Nat)
  | merge (i j : Fin R)

variable {R : Nat}

/-- The system after one call: the replica the call names is replaced by its result. -/
def Op.apply (sys : Fin R → GCounter) : Op R → Fin R → GCounter
  | .add k d => Function.update sys k ((sys k).add k d)
  | .merge i j => Function.update sys i ((sys i).merge (sys j))

/-- What a call adds to index `i`. -/
def Op.amount (i : Nat) : Op R → Nat
  | .add k d => if k.val = i then d else 0
  | .merge _ _ => 0

/-- What a call adds, on whichever index. -/
def Op.delta : Op R → Nat
  | .add _ d => d
  | .merge _ _ => 0

/-- The replica a call updates: `add` updates its own index, `merge` updates no counter of its
own. -/
def Op.updater : Op R → Option (Fin R)
  | .add k _ => some k
  | .merge _ _ => none

/-- What replica `i` added over the calls `ops`. -/
def total (ops : List (Op R)) (i : Nat) : Nat := (ops.map (Op.amount i)).sum

/-- What all replicas added over the calls `ops`. -/
def totalAdded (ops : List (Op R)) : Nat := (ops.map Op.delta).sum

/-- The system after the calls `ops`, every replica created by `cauchy_gcounter_init N`. -/
def run (N : Nat) (ops : List (Op R)) : Fin R → GCounter := ops.foldl Op.apply fun _ => init N

/-- The system after the first `n` calls of `ops`. -/
def stateAt (N : Nat) (ops : List (Op R)) (n : Nat) : Fin R → GCounter := run N (ops.take n)

/-- `Reaches ops k m r n`: the state replica `k` had after `m` calls has reached replica `r` by
the time `n` calls have been made, through a chain of merges. -/
inductive Reaches (ops : List (Op R)) : Fin R → Nat → Fin R → Nat → Prop
  | refl (k : Fin R) (m : Nat) : Reaches ops k m k m
  | wait {k r : Fin R} {m n : Nat} {op : Op R} :
      Reaches ops k m r n → ops[n]? = some op → Reaches ops k m r (n + 1)
  | merge {k i j : Fin R} {m n : Nat} :
      Reaches ops k m j n → ops[n]? = some (.merge i j) → Reaches ops k m i (n + 1)

/-- Replica `k` makes no update from call `m` on: its state after `m` calls is its final one. -/
def Final (ops : List (Op R)) (k : Fin R) (m : Nat) : Prop := ∀ op ∈ ops.drop m, op.updater ≠ some k

instance (ops : List (Op R)) (k : Fin R) (m : Nat) : Decidable (Final ops k m) :=
  inferInstanceAs (Decidable (∀ op ∈ ops.drop m, op.updater ≠ some k))

/-- The convergence law of a run of `R` replicas created by `cauchy_gcounter_init N`. -/
structure Converges (N : Nat) (ops : List (Op R)) : Prop where
  /-- Every entry `k` is a total replica `k` had at some earlier point: nothing is invented. -/
  past : ∀ n ≤ ops.length, ∀ r k : Fin R,
    ∃ m ≤ n, (stateAt N ops n r).counts k = total (ops.take m) k
  /-- A state of `k` that reached `r` has all of its updates in `r`'s entry `k`. -/
  reflected : ∀ k m r n, Reaches ops k m r n → total (ops.take m) k ≤ (stateAt N ops n r).counts k
  /-- Once the final state of every replica has reached every replica, the replicas agree on the
  sum. -/
  final : (∀ k r, ∃ m, Final ops k m ∧ Reaches ops k m r ops.length) →
    (∀ r r', (run N ops r).equals (run N ops r') = true) ∧
    (∀ r, totalAdded ops < 2 ^ 64 → (run N ops r).value = totalAdded ops)

/-! ## Totals -/

@[simp] theorem total_nil (i : Nat) : total ([] : List (Op R)) i = 0 := rfl

@[simp] theorem total_append (ops ops' : List (Op R)) (i : Nat) :
    total (ops ++ ops') i = total ops i + total ops' i := by
  simp [total]

@[simp] theorem total_singleton (op : Op R) (i : Nat) : total [op] i = op.amount i := by
  simp [total]

theorem total_take_le (ops : List (Op R)) (m i : Nat) : total (ops.take m) i ≤ total ops i :=
  calc total (ops.take m) i ≤ total (ops.take m) i + total (ops.drop m) i := Nat.le_add_right _ _
    _ = total ops i := by rw [← total_append, List.take_append_drop]

theorem total_take_mono (ops : List (Op R)) {m n : Nat} (h : m ≤ n) (i : Nat) :
    total (ops.take m) i ≤ total (ops.take n) i := by
  simpa [List.take_take, Nat.min_eq_left h] using total_take_le (ops.take n) m i

/-- From its final state on, a replica adds nothing. -/
theorem total_take_of_final {ops : List (Op R)} {k : Fin R} {m : Nat} (h : Final ops k m) :
    total (ops.take m) k = total ops k := by
  have hdrop : total (ops.drop m) k = 0 := by
    refine List.sum_eq_zero fun x hx => ?_
    obtain ⟨op, hop, rfl⟩ := List.mem_map.1 hx
    have hk := h op hop
    cases op with
    | add k' d =>
      have : k'.val ≠ k.val := fun e => hk (by rw [Fin.ext e]; rfl)
      simp [Op.amount, this]
    | merge => rfl
  rw [← List.take_append_drop m ops, total_append, hdrop, List.take_append_drop, add_zero]

theorem total_eq_zero (ops : List (Op R)) {i : Nat} (hi : R ≤ i) : total ops i = 0 := by
  refine List.sum_eq_zero fun x hx => ?_
  obtain ⟨op, -, rfl⟩ := List.mem_map.1 hx
  cases op with
  | add k d => simp only [Op.amount]; split <;> omega
  | merge => rfl

theorem sum_total (ops : List (Op R)) {N : Nat} (hR : R ≤ N) :
    ∑ i in Finset.range N, total ops i = totalAdded ops := by
  induction ops with
  | nil => simp [totalAdded]
  | cons op ops ih =>
    have hop : ∑ i in Finset.range N, op.amount i = op.delta := by
      cases op with
      | merge => simp [Op.amount, Op.delta]
      | add k => simp [Op.amount, Op.delta, Finset.sum_ite_eq, show k.val < N by omega]
    simp only [total, totalAdded, List.map_cons, List.sum_cons] at ih ⊢
    rw [Finset.sum_add_distrib, hop, ih]

/-! ## The invariant -/

/-- The invariant of a system after the calls `ops`. -/
structure Inv (N : Nat) (ops : List (Op R)) (sys : Fin R → GCounter) : Prop where
  numNodes : ∀ r, (sys r).numNodes = N
  past : ∀ r i, ∃ m ≤ ops.length, (sys r).counts i = total (ops.take m) i
  own : ∀ k : Fin R, (sys k).counts k = total ops k

section Steps

variable {N : Nat} {ops : List (Op R)} {sys : Fin R → GCounter}

theorem Inv.past_le (h : Inv N ops sys) (r : Fin R) (i : Nat) : (sys r).counts i ≤ total ops i := by
  obtain ⟨m, -, hm⟩ := h.past r i
  exact hm ▸ total_take_le ops m i

/-- No call changes a replica's `num_nodes`. -/
theorem Inv.numNodes_apply (h : Inv N ops sys) (op : Op R) (r : Fin R) :
    (op.apply sys r).numNodes = N := by
  cases op <;> simp only [Op.apply, Function.update_apply] <;> split <;>
    simp [h.numNodes]

/-- A past total of the calls `ops` is a past total of any longer run. -/
theorem exists_past_append {ops : List (Op R)} {i c : Nat} (op : Op R)
    (h : ∃ m ≤ ops.length, c = total (ops.take m) i) :
    ∃ m ≤ (ops ++ [op]).length, c = total ((ops ++ [op]).take m) i := by
  obtain ⟨m, hm, hc⟩ := h
  exact ⟨m, by simp; omega, by rw [List.take_append_of_le_length hm]; exact hc⟩

/-- `add` on a replica's own index, short of overflow: that entry grows by `d`. -/
theorem Inv.counts_add (h : Inv N ops sys) (hR : R ≤ N) (k : Fin R) (d : Nat)
    (ht : total ops k + d < 2 ^ 64) (r : Fin R) (x : Nat) :
    ((Op.add k d).apply sys r).counts x =
      if r = k ∧ x = k.val then (sys r).counts x + d else (sys r).counts x := by
  by_cases hr : r = k
  · subst hr
    have hk : r.val < (sys r).numNodes := by rw [h.numNodes]; omega
    by_cases hx : x = r.val
    · subst hx
      simp only [Op.apply, Function.update_same, add_counts, hk, and_self, if_true]
      rw [h.own, Nat.mod_eq_of_lt ht]
    · simp [Op.apply, add_counts, hx]
  · simp [Op.apply, Function.update_noteq hr, hr]

theorem Inv.counts_merge (h : Inv N ops sys) (i j r : Fin R) (x : Nat) :
    ((Op.merge i j).apply sys r).counts x =
      if r = i ∧ x < N then max ((sys i).counts x) ((sys j).counts x) else (sys r).counts x := by
  by_cases hr : r = i
  · subst hr; simp [Op.apply, merge_counts, h.numNodes]
  · simp [Op.apply, Function.update_noteq hr, hr]

theorem Inv.add (h : Inv N ops sys) (hR : R ≤ N) (k : Fin R) (d : Nat)
    (ht : total ops k + d < 2 ^ 64) : Inv N (ops ++ [.add k d]) ((Op.add k d).apply sys) where
  numNodes := h.numNodes_apply _
  past r x := by
    rw [h.counts_add hR k d ht]
    split
    · next hx =>
      obtain ⟨rfl, rfl⟩ := hx
      refine ⟨(ops ++ [Op.add r d]).length, le_rfl, ?_⟩
      rw [List.take_length]
      simp [h.own, Op.amount]
    · exact exists_past_append _ (h.past r x)
  own k' := by
    rw [h.counts_add hR k d ht]
    by_cases hk : k' = k
    · subst hk; simp [h.own, Op.amount]
    · have : k.val ≠ k'.val := fun e => hk (Fin.ext e.symm)
      simp [hk, h.own, Op.amount, this]

theorem Inv.merge (h : Inv N ops sys) (i j : Fin R) :
    Inv N (ops ++ [.merge i j]) ((Op.merge i j).apply sys) where
  numNodes := h.numNodes_apply _
  past r x := by
    rw [h.counts_merge]
    split
    · next hx =>
      obtain ⟨rfl, -⟩ := hx
      rcases max_choice ((sys r).counts x) ((sys j).counts x) with hm | hm <;> rw [hm]
      exacts [exists_past_append _ (h.past r x), exists_past_append _ (h.past j x)]
    · exact exists_past_append _ (h.past r x)
  own k := by
    have hj := h.past_le j k
    have hk := h.own k
    rw [h.counts_merge]
    simp only [total_append, total_singleton, Op.amount, add_zero]
    split
    · next hki => obtain ⟨rfl, -⟩ := hki; omega
    · exact hk

/-- A call short of overflow never lowers an entry. -/
theorem Inv.counts_le_apply (h : Inv N ops sys) (hR : R ≤ N) (op : Op R)
    (ht : ∀ k : Fin R, total (ops ++ [op]) k < 2 ^ 64) (r : Fin R) (x : Nat) :
    (sys r).counts x ≤ (op.apply sys r).counts x := by
  cases op with
  | merge i j =>
    rw [h.counts_merge]
    split
    · next hx => obtain ⟨rfl, -⟩ := hx; omega
    · exact le_rfl
  | add k d =>
    have := ht k
    simp only [total_append, total_singleton, Op.amount, if_pos rfl] at this
    rw [h.counts_add hR k d this]
    split <;> omega

end Steps

/-- The invariant holds after every run whose replicas all index below `N ≤ CAUCHY_MAX_NODES`
and add less than `2 ^ 64` each. -/
theorem inv_run {N : Nat} (hN : N ≤ maxNodes) (hR : R ≤ N) (ops : List (Op R))
    (ht : ∀ k : Fin R, total ops k < 2 ^ 64) : Inv N ops (run N ops) := by
  induction ops using List.reverseRecOn with
  | nil => exact ⟨fun _ => by simp [run]; omega, fun _ _ => ⟨0, le_rfl, rfl⟩, fun _ => rfl⟩
  | append_singleton ops op ih =>
    have ih := ih fun k => lt_of_le_of_lt (by simp) (ht k)
    rw [run, List.foldl_append, List.foldl_cons, List.foldl_nil, ← run]
    have ht' := fun k => ht k
    simp only [total_append, total_singleton] at ht'
    cases op with
    | add k d => exact ih.add hR k d (by simpa only [Op.amount, if_pos rfl] using ht' k)
    | merge i j => exact ih.merge i j

theorem take_succ_of_getElem? {ops : List (Op R)} {n : Nat} {op : Op R} (h : ops[n]? = some op) :
    ops.take (n + 1) = ops.take n ++ [op] := by
  simp [List.take_succ, h]

theorem stateAt_succ {N : Nat} {ops : List (Op R)} {n : Nat} {op : Op R} (h : ops[n]? = some op) :
    stateAt N ops (n + 1) = op.apply (stateAt N ops n) := by
  simp [stateAt, run, take_succ_of_getElem? h, List.foldl_append]

/-! ## The convergence law -/

section Law

variable {N : Nat} {ops : List (Op R)} (hN : N ≤ maxNodes) (hR : R ≤ N)
  (ht : ∀ k : Fin R, total ops k < 2 ^ 64)
include hN hR ht

theorem inv_stateAt (n : Nat) : Inv N (ops.take n) (stateAt N ops n) :=
  inv_run hN hR _ fun k => lt_of_le_of_lt (total_take_le ops n k) (ht k)

theorem total_le_of_reaches {k r : Fin R} {m n : Nat} (h : Reaches ops k m r n) :
    total (ops.take m) k ≤ (stateAt N ops n r).counts k := by
  induction h with
  | refl m => exact ((inv_stateAt hN hR ht m).own k).ge
  | @wait r m n op _ hop ih =>
    rw [stateAt_succ hop]
    refine ih.trans ((inv_stateAt hN hR ht n).counts_le_apply hR op (fun k => ?_) r k)
    rw [← take_succ_of_getElem? hop]
    exact lt_of_le_of_lt (total_take_le ops _ k) (ht k)
  | @merge i j m n _ hop ih =>
    rw [stateAt_succ hop, (inv_stateAt hN hR ht n).counts_merge]
    simp only [true_and, show k.val < N by omega, if_true]
    exact ih.trans (le_max_right _ _)

/-- Once the final state of every replica has reached every replica, every entry is the whole
total. -/
theorem counts_eq_total (hall : ∀ k r, ∃ m, Final ops k m ∧ Reaches ops k m r ops.length)
    (r : Fin R) (i : Nat) : (run N ops r).counts i = total ops i := by
  have hinv : Inv N ops (run N ops) := by simpa [stateAt] using inv_stateAt hN hR ht ops.length
  by_cases hi : i < R
  · refine le_antisymm (hinv.past_le r i) ?_
    obtain ⟨m, hf, hm⟩ := hall ⟨i, hi⟩ r
    simpa [stateAt, total_take_of_final hf] using total_le_of_reaches hN hR ht hm
  · obtain ⟨m, -, hm⟩ := hinv.past r i
    rw [hm, total_eq_zero _ (by omega), total_eq_zero _ (by omega)]

/-- Once every final state has reached every replica, the replicas are all equal… -/
theorem run_equals_of_reaches (hall : ∀ k r, ∃ m, Final ops k m ∧ Reaches ops k m r ops.length)
    (r r' : Fin R) : (run N ops r).equals (run N ops r') = true := by
  have hinv : Inv N ops (run N ops) := by simpa [stateAt] using inv_stateAt hN hR ht ops.length
  rw [equals_iff, hinv.numNodes, hinv.numNodes]
  exact ⟨rfl, fun i _ => by rw [counts_eq_total hN hR ht hall, counts_eq_total hN hR ht hall]⟩

/-- … and the value of each is everything added, as a `u64`. -/
theorem run_value_of_reaches (hall : ∀ k r, ∃ m, Final ops k m ∧ Reaches ops k m r ops.length)
    (r : Fin R) : (run N ops r).value = totalAdded ops % 2 ^ 64 := by
  have hinv : Inv N ops (run N ops) := by simpa [stateAt] using inv_stateAt hN hR ht ops.length
  rw [value_eq, hinv.numNodes]
  simp only [counts_eq_total hN hR ht hall]
  rw [sum_total ops hR]

end Law

end GCounter
end Cauchy
