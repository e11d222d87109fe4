import Cauchy.Crdt.GCounterReplicas
import Cauchy.Crdt.PNCounter

/-!
# Systems of PN-Counter replicas

`R` replicas, all created by `cauchy_pncounter_init N`; replica `k` adds `i64` deltas on its own
index (`increment` is `add k 1` and `decrement` is `add k (-1)`, by their definitions), and any
replica may merge any other in, in any order.  A PN-Counter is two
G-Counters and every call acts on each half as a G-Counter call, so the facts about runs come
from `Cauchy.Crdt.GCounterReplicas`:

* `Op.positive` and `Op.negative` project a call onto the two halves.  A delta `≥ 0` is an `add`
  of it on `positive` and of `0` on `negative`, which leaves a well-formed half as it is; a
  negative delta is the other way round.  `stateAt_halves`: after any calls, each replica is the
  pair of what the two projected runs of G-Counter calls make of it.
* `Reaches` and `Final` are read off the calls alone, as for the G-Counter, and carry over to both
  projections (`Reaches.map`, `Final.map`), since they keep every call where it was.

`replicas_converge` is the convergence law.  For `R ≤ N ≤ CAUCHY_MAX_NODES` replicas whose
increments and whose decrements each stay below `2 ^ 64` per replica: every entry of either half
is a total its replica had at some earlier point; a state of replica `k` that reached replica
`r` has all of its increments and decrements in `r`'s two entries `k`; and once the final state
of every replica has reached every replica, all replicas are `cauchy_pncounter_equals` and, while
the increments
and the decrements each sum below `2 ^ 63`, `cauchy_pncounter_value` is the sum of all deltas.

`merge_semilattice_of_reachable`: on reachable counters of any `num_nodes`, merge is commutative,
associative and idempotent under `cauchy_pncounter_equals`, half by half.
-/

set_option autoImplicit false

namespace Cauchy
namespace PNCounter

/-- A call made on a system of `R` replicas: replica `k` adds `delta` on its own index, or
replica `i` merges replica `j` in. -/
inductive Op (R : Nat) where
  | add (k : Fin R) (delta : Int)
  | merge (i j : Fin R)

variable {R : Nat}

/-- The system after one call: the replica the call names is replaced by its result. -/
def Op.apply (sys : Fin R → PNCounter) : Op R → Fin R → PNCounter
  | .add k d => Function.update sys k ((sys k).add k d)
  | .merge i j => Function.update sys i ((sys i).merge (sys j))

/-- The G-Counter call a call makes on `positive`. -/
def Op.positive : Op R → GCounter.Op R
  | .add k d => .add k (if d ≥ 0 then d.toNat else 0)
  | .merge i j => .merge i j

/-- The G-Counter call a call makes on `negative`. -/
def Op.negative : Op R → GCounter.Op R
  | .add k d => .add k (if d ≥ 0 then 0 else (-d).toNat)
  | .merge i j => .merge i j

/-- What a call adds to the counter's value. -/
def Op.delta : Op R → Int
  | .add _ d => d
  | .merge _ _ => 0

/-- The replica a call updates. -/
def Op.updater : Op R → Option (Fin R)
  | .add k _ => some k
  | .merge _ _ => none

/-- The sum of the deltas of the calls `ops`. -/
def deltaSum (ops : List (Op R)) : Int := (ops.map Op.delta).sum

/-- The system after the calls `ops`, every replica created by `cauchy_pncounter_init N`. -/
def run (N : Nat) (ops : List (Op R)) : Fin R → PNCounter := ops.foldl Op.apply fun _ => init N

/-- The system after the first `n` calls of `ops`. -/
def stateAt (N : Nat) (ops : List (Op R)) (n : Nat) : Fin R → PNCounter := run N (ops.take n)

/-- `Reaches ops k m r n`: the state replica `k` had after `m` calls has reached replica `r` by
the time `n` calls have been made, through a chain of merges. -/
inductive Reaches (ops : List (Op R)) : Fin R → Nat → Fin R → Nat → Prop
  | refl (k : Fin R) (m : Nat) : Reaches ops k m k m
  | wait {k r : Fin R} {m n : Nat} {op : Op R} :
      Reaches ops k m r n → ops[n]? = some op → Reaches ops k m r (n + 1)
  | merge {k i j : Fin R} {m n : Nat} :
      Reaches ops k m j n → ops[n]? = some (.merge i j) → Reaches ops k m i (n + 1)

/-- Replica `k` makes no update from call `m` on: its state after `m` calls is its final one. -/
def Final (ops : List (Op R)) (k : Fin R) (m : Nat) : Prop := ∀ op ∈ ops.drop m, op.updater ≠ some k

instance (ops : List (Op R)) (k : Fin R) (m : Nat) : Decidable (Final ops k m) :=
  inferInstanceAs (Decidable (∀ op ∈ ops.drop m, op.updater ≠ some k))

/-- The convergence law of a run of `R` PN-Counter replicas created by
`cauchy_pncounter_init N`, with the totals of each half read off the projected calls. -/
structure Converges (N : Nat) (ops : List (Op R)) : Prop where
  /-- Every entry of either half is a total its replica had at some earlier point. -/
  past : ∀ n ≤ ops.length, ∀ r k : Fin R,
    (∃ m ≤ n, (stateAt N ops n r).positive.counts k =
      GCounter.total ((ops.map Op.positive).take m) k) ∧
    ∃ m ≤ n, (stateAt N ops n r).negative.counts k =
      GCounter.total ((ops.map Op.negative).take m) k
  /-- A state of `k` that reached `r` has all of its increments and decrements in `r`. -/
  reflected : ∀ k m r n, Reaches ops k m r n →
    GCounter.total ((ops.map Op.positive).take m) k ≤ (stateAt N ops n r).positive.counts k ∧
    GCounter.total ((ops.map Op.negative).take m) k ≤ (stateAt N ops n r).negative.counts k
  /-- Once the final state of every replica has reached every replica, the replicas agree, on the
  sum of all deltas while each half's sum is below `2 ^ 63`. -/
  final : (∀ k r, ∃ m, Final ops k m ∧ Reaches ops k m r ops.length) →
    (∀ r r', (run N ops r).equals (run N ops r') = true) ∧
    ∀ r, GCounter.totalAdded (ops.map Op.positive) < 2 ^ 63 →
      GCounter.totalAdded (ops.map Op.negative) < 2 ^ 63 → (run N ops r).value = some (deltaSum ops)

/-! ## The two halves -/

section Halves

variable {sys : Fin R → PNCounter}

theorem Op.reachable_apply (h : ∀ r, Reachable (sys r)) (op : Op R) (r : Fin R) :
    Reachable (op.apply sys r) := by
  cases op with
  | add k d =>
    rw [Op.apply, Function.update_apply]
    split
    · next hr => subst hr; exact .add _ d (h r)
    · exact h r
  | merge i j =>
    rw [Op.apply, Function.update_apply]
    split
    · next hr => subst hr; exact .merge (h r) (h j)
    · exact h r

/-- One call on a system of reachable counters is its two projections, each on its half. -/
theorem Op.apply_halves (h : ∀ r, Reachable (sys r)) (op : Op R) :
    op.apply sys = fun r => ⟨op.positive.apply (fun r => (sys r).positive) r,
      op.negative.apply (fun r => (sys r).negative) r⟩ := by
  funext r
  cases op with
  | add k d =>
    simp only [Op.apply, Op.positive, Op.negative, GCounter.Op.apply, Function.update_apply]
    split
    · next hr =>
      subst hr
      have hw := (h r).wf
      unfold PNCounter.add
      split
      · next hd => simp only [hd, ↓reduceIte, hw.negative.add_zero]
      · next hd => simp only [hd, ↓reduceIte, hw.positive.add_zero]
    · rfl
  | merge i j =>
    simp only [Op.apply, Op.positive, Op.negative, GCounter.Op.apply, Function.update_apply]
    split <;> rfl

theorem foldl_halves (ops : List (Op R)) :
    ∀ {sys : Fin R → PNCounter}, (∀ r, Reachable (sys r)) →
      ops.foldl Op.apply sys = fun r =>
        ⟨(ops.map Op.positive).foldl GCounter.Op.apply (fun r => (sys r).positive) r,
          (ops.map Op.negative).foldl GCounter.Op.apply (fun r => (sys r).negative) r⟩ := by
  induction ops with
  | nil => exact fun _ => rfl
  | cons op ops ih =>
    intro sys h
    rw [List.foldl_cons, ih (Op.reachable_apply h op), Op.apply_halves h op]
    rfl

end Halves

/-- **A PN-Counter run is two G-Counter runs.**  After the first `n` calls, every replica is
the pair of what the first `n` projected calls make of its two halves. -/
theorem stateAt_halves (N : Nat) (ops : List (Op R)) (n : Nat) (r : Fin R) :
    stateAt N ops n r = ⟨GCounter.stateAt N (ops.map Op.positive) n r,
      GCounter.stateAt N (ops.map Op.negative) n r⟩ := by
  rw [stateAt, run, foldl_halves _ fun _ => .init N, GCounter.stateAt, GCounter.stateAt,
    GCounter.run, GCounter.run, List.map_take, List.map_take]
  rfl

theorem run_halves (N : Nat) (ops : List (Op R)) (r : Fin R) :
    run N ops r = ⟨GCounter.run N (ops.map Op.positive) r,
      GCounter.run N (ops.map Op.negative) r⟩ := by
  rw [run, foldl_halves _ fun _ => .init N]
  rfl

/-- A chain of merges of the calls is one of either projection. -/
theorem Reaches.map {ops : List (Op R)} {f : Op R → GCounter.Op R}
    (hf : ∀ i j, f (.merge i j) = .merge i j) {k r : Fin R} {m n : Nat}
    (h : Reaches ops k m r n) : GCounter.Reaches (ops.map f) k m r n := by
  induction h with
  | refl => exact .refl _ _
  | wait _ hop ih => exact .wait ih (by rw [List.getElem?_map, hop]; rfl)
  | merge _ hop ih => exact .merge ih (by rw [List.getElem?_map, hop, Option.map_some', hf])

/-- A replica's final state is final in either projection. -/
theorem Final.map {ops : List (Op R)} {f : Op R → GCounter.Op R}
    (hf : ∀ op, (f op).updater = op.updater) {k : Fin R} {m : Nat} (h : Final ops k m) :
    GCounter.Final (ops.map f) k m := fun op hop => by
  obtain ⟨op', hop', rfl⟩ := List.mem_map.1 ((List.map_drop f ops m).symm ▸ hop)
  rw [hf]
  exact h op' hop'

/-- The deltas sum to what the projections add to `positive` less what they add to
`negative`. -/
theorem deltaSum_eq (ops : List (Op R)) :
    deltaSum ops = (GCounter.totalAdded (ops.map Op.positive) : Int) -
      GCounter.totalAdded (ops.map Op.negative) := by
  induction ops with
  | nil => rfl
  | cons op ops ih =>
    simp only [deltaSum, GCounter.totalAdded, List.map_cons, List.sum_cons] at ih ⊢
    rw [ih]
    cases op with
    | merge => simp [Op.delta, Op.positive, Op.negative, GCounter.Op.delta]
    | add k d =>
      simp only [Op.delta, Op.positive, Op.negative, GCounter.Op.delta]
      split <;> push_cast <;> omega

/-! ## The convergence law -/

/-- **PN-Counter replicas converge.**  For `R` replicas created by `cauchy_pncounter_init N`
with `R ≤ N ≤ CAUCHY_MAX_NODES`, and any run in which each replica's increments, and its
decrements, stay below `2 ^ 64`: no count is invented, no update that reached a replica is lost,
and once the final state of every replica has reached every replica they are equal, and their
value is the sum of all deltas while the increments and the decrements each sum below `2 ^ 63`. -/
theorem replicas_converge {N : Nat} {ops : List (Op R)} (hN : N ≤ maxNodes) (hR : R ≤ N)
    (hp : ∀ k : Fin R, GCounter.total (ops.map Op.positive) k < 2 ^ 64)
    (hn : ∀ k : Fin R, GCounter.total (ops.map Op.negative) k < 2 ^ 64) : Converges N ops where
  past n _ r k := by
    obtain ⟨m, hm, he⟩ := (GCounter.inv_stateAt hN hR hp n).past r k
    obtain ⟨m', hm', he'⟩ := (GCounter.inv_stateAt hN hR hn n).past r k
    have hmn := hm.trans (List.length_take_le _ _)
    have hmn' := hm'.trans (List.length_take_le _ _)
    rw [stateAt_halves]
    exact ⟨⟨m, hmn, by rw [he, List.take_take, Nat.min_eq_left hmn]⟩,
      ⟨m', hmn', by rw [he', List.take_take, Nat.min_eq_left hmn']⟩⟩
  reflected _ _ _ _ h := by
    rw [stateAt_halves]
    exact ⟨GCounter.total_le_of_reaches hN hR hp (h.map fun _ _ => rfl),
      GCounter.total_le_of_reaches hN hR hn (h.map fun _ _ => rfl)⟩
  final hall := by
    have hhalf : ∀ f : Op R → GCounter.Op R, (∀ op, (f op).updater = op.updater) →
        (∀ i j, f (.merge i j) = .merge i j) → ∀ k r, ∃ m, GCounter.Final (ops.map f) k m ∧
          GCounter.Reaches (ops.map f) k m r (ops.map f).length := fun f hf hm k r => by
      obtain ⟨m, hfin, hre⟩ := hall k r
      exact ⟨m, hfin.map hf, List.length_map ops f ▸ hre.map hm⟩
    have hpa := hhalf Op.positive (fun op => by cases op <;> rfl) fun _ _ => rfl
    have hna := hhalf Op.negative (fun op => by cases op <;> rfl) fun _ _ => rfl
    refine ⟨fun r r' => ?_, fun r hP hN' => ?_⟩
    · rw [run_halves, run_halves, equals, GCounter.run_equals_of_reaches hN hR hp hpa,
        GCounter.run_equals_of_reaches hN hR hn hna, Bool.and_self]
    · have hv := GCounter.run_value_of_reaches hN hR hp hpa r
      have hv' := GCounter.run_value_of_reaches hN hR hn hna r
      rw [Nat.mod_eq_of_lt (by omega)] at hv hv'
      rw [run_halves, value_eq_of_lt (hv ▸ hP) (hv' ▸ hN'), hv, hv', deltaSum_eq]

/-- Two replicas: one adds `5`, the other `-3`, then they merge both ways. -/
def signedPairRun : List (Op 2) := [.add 0 5, .add 1 (-3), .merge 0 1, .merge 1 0]

/-- `signedPairRun` meets the law's delivery condition, through its two merges. -/
theorem signedPairRun_converges :
    2 ≤ maxNodes ∧ 2 ≤ 2 ∧
      (∀ k : Fin 2, GCounter.total (signedPairRun.map Op.positive) k < 2 ^ 64) ∧
      (∀ k : Fin 2, GCounter.total (signedPairRun.map Op.negative) k < 2 ^ 64) ∧
      (∀ k r : Fin 2, ∃ m, Final signedPairRun k m ∧
        Reaches signedPairRun k m r signedPairRun.length) ∧
      Converges 2 signedPairRun := by
  refine ⟨by decide, le_rfl, by decide, by decide, fun k r => ?_,
    replicas_converge (by decide) le_rfl (by decide) (by decide)⟩
  match k, r with
  | 0, 0 => exact ⟨1, by decide, .wait (.wait (.wait (.refl 0 1) rfl) rfl) rfl⟩
  | 0, 1 => exact ⟨1, by decide, .merge (.wait (.wait (.refl 0 1) rfl) rfl) rfl⟩
  | 1, 0 => exact ⟨2, by decide, .wait (.merge (.refl 1 2) rfl) rfl⟩
  | 1, 1 => exact ⟨2, by decide, .wait (.wait (.refl 1 2) rfl) rfl⟩

/-! ## Merge -/

/-- What `cauchy_pncounter_merge` promises three counters under `cauchy_pncounter_equals`. -/
structure MergeLaws (a b c : PNCounter) : Prop where
  comm : (a.merge b).equals (b.merge a) = true
  assoc : ((a.merge b).merge c).equals (a.merge (b.merge c)) = true
  idem : (a.merge a).equals a = true

/-- **PN-Counter merge is a semilattice.**  On counters reachable from `cauchy_pncounter_init`,
of any `num_nodes`, merge is commutative, associative and idempotent under
`cauchy_pncounter_equals`, each half being a G-Counter merge. -/
theorem merge_semilattice_of_reachable {a b c : PNCounter} (ha : Reachable a) (hb : Reachable b)
    (hc : Reachable c) : MergeLaws a b c :=
  have hp := GCounter.mergeLaws_of_wf ha.wf.positive hb.wf.positive hc.wf.positive
  have hn := GCounter.mergeLaws_of_wf ha.wf.negative hb.wf.negative hc.wf.negative
  ⟨by rw [merge, merge, equals, hp.comm, hn.comm, Bool.and_self],
    by rw [merge, merge, merge, merge, equals, hp.assoc, hn.assoc, Bool.and_self],
    by rw [merge, equals, hp.idem, hn.idem, Bool.and_self]⟩

theorem signedCounters_merge_laws :
    Reachable (init 1) ∧ Reachable ((init 2).add 0 (-4)) ∧ Reachable ((init 3).increment 2) ∧
      MergeLaws (init 1) ((init 2).add 0 (-4)) ((init 3).increment 2) :=
  ⟨.init 1, .add 0 _ (.init 2), .increment 2 (.init 3),
    merge_semilattice_of_reachable (.init 1) (.add 0 _ (.init 2)) (.increment 2 (.init 3))⟩

end PNCounter
end Cauchy
