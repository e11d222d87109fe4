import Mathlib

/-!
# Chained hash tables

The G-Set and the OR-Set keep their elements in the same way: an array of `num_buckets`
singly linked chains, fixed when the set is created, an element living in chain
`hash % num_buckets` of its stored hash.  New nodes are pushed on the head of their chain
(`new->next = buckets[idx]; buckets[idx] = new`), and every loop that visits the whole table —
merge, subset, equals, the iterators — walks the buckets from `0` to `num_buckets - 1` and each
chain from its head.

The models represent the array as a function `Nat → List α` together with `num_buckets`; only
the indices below `num_buckets` are ever read.  This file proves, once, the facts about such
tables that both sets need:

* `entries nb b` lists the table in the order the whole-table loops visit it, and
  `mem_entries` says what is in it;
* `entries_push_perm` — pushing a node on chain `i` adds exactly that node, up to order;
* `map_entries_update` — rewriting chain `i` so that a projection of it is unchanged leaves that
  projection of the whole table unchanged (how tombstoning is seen through);
* `Placed` is the placement invariant, and `mem_chain_of_placed` is why a lookup that walks only
  chain `key % nb` finds everything there is to find.
-/

set_option autoImplicit false

namespace Cauchy
namespace Buckets

variable {α β : Type}

/-- The nodes of a table in the order `for (i = 0; i < num_buckets; i++) for (n = buckets[i];
n; n = n->next)` visits them. -/
def entries (nb : Nat) (b : Nat → List α) : List α := (List.range nb).flatMap b

@[simp] theorem mem_entries {nb : Nat} {b : Nat → List α} {x : α} :
    x ∈ entries nb b ↔ ∃ i < nb, x ∈ b i := by
  simp [entries]

theorem entries_succ (nb : Nat) (b : Nat → List α) :
    entries (nb + 1) b = entries nb b ++ b nb := by
  simp [entries, List.range_succ]

theorem entries_congr {nb : Nat} {b b' : Nat → List α} (h : ∀ i < nb, b i = b' i) :
    entries nb b = entries nb b' := by
  unfold entries List.flatMap
  rw [List.map_congr_left fun i hi => h i (List.mem_range.1 hi)]

@[simp] theorem entries_nil (nb : Nat) : entries nb (fun _ => ([] : List α)) = [] := by
  simp [entries]

theorem map_entries (f : α → β) (nb : Nat) (b : Nat → List α) :
    (entries nb b).map f = entries nb (fun i => (b i).map f) := by
  simp [entries, List.map_flatMap]

/-- Replacing chain `i` by `c` trades `b i` for `c` in the table, up to order. -/
theorem entries_update_perm {nb i : Nat} (hi : i < nb) (b : Nat → List α) (c : List α) :
    (entries nb (Function.update b i c) ++ b i).Perm (c ++ entries nb b) := by
  induction nb with
  | zero => omega
  | succ n ih =>
    rw [entries_succ, entries_succ]
    rcases Nat.lt_succ_iff_lt_or_eq.1 hi with hlt | rfl
    · rw [Function.update_noteq (by omega), List.append_assoc, ← List.append_assoc c]
      refine (List.perm_append_comm.append_left _).trans ?_
      rw [← List.append_assoc]
      exact (ih hlt).append_right _
    · have hb : ∀ j < i, Function.update b i c j = b j := fun j hj =>
        Function.update_noteq (by omega) _ _
      rw [Function.update_same, entries_congr hb, ← List.append_assoc]
      exact List.perm_append_comm.append_right _

/-- Pushing `x` on the head of chain `i`. -/
theorem length_entries_update {nb i : Nat} (hi : i < nb) (b : Nat → List α) {c : List α}
    (hc : c.length = (b i).length) :
    (entries nb (Function.update b i c)).length = (entries nb b).length := by
  have h := (entries_update_perm hi b c).length_eq
  simp only [List.length_append, hc] at h
  omega

theorem entries_push_perm {nb i : Nat} (hi : i < nb) (b : Nat → List α) (x : α) :
    (entries nb (Function.update b i (x :: b i))).Perm (x :: entries nb b) := by
  have h := entries_update_perm hi b (x :: b i)
  have h2 : (x :: entries nb b ++ b i).Perm (x :: b i ++ entries nb b) :=
    List.perm_append_comm.cons x
  exact (List.perm_append_right_iff (b i)).1 (h.trans h2.symm)

/-- Rewriting one chain without changing its image under `f` leaves the table's image under `f`
unchanged. -/
theorem map_entries_update {nb i : Nat} (f : α → β) (b : Nat → List α) (c : List α)
    (hc : c.map f = (b i).map f) :
    (entries nb (Function.update b i c)).map f = (entries nb b).map f := by
  rw [map_entries, map_entries]
  refine entries_congr fun j _ => ?_
  by_cases hj : j = i
  · subst hj; rw [Function.update_same, hc]
  · rw [Function.update_noteq hj]

/-- Rewriting chain `i` node by node with `g`, where `f` agrees with `g` on that chain and fixes
every node of the other chains, is rewriting the whole table with `f`. -/
theorem entries_update_map {nb i : Nat} {f g : α → α} {b : Nat → List α}
    (hg : ∀ x ∈ b i, g x = f x) (hf : ∀ j < nb, j ≠ i → ∀ x ∈ b j, f x = x) :
    entries nb (Function.update b i ((b i).map g)) = (entries nb b).map f := by
  rw [map_entries]
  refine entries_congr fun j hj => ?_
  by_cases hji : j = i
  · subst hji; rw [Function.update_same]; exact List.map_congr_left hg
  · rw [Function.update_noteq hji]
    exact ((List.map_congr_left (hf j hj hji)).trans (List.map_id' _)).symm

/-- Rewriting, in chain `i`, the one node `x` that no other chain holds is rewriting it in the
whole table. -/
theorem entries_update_replace [DecidableEq α] {nb i : Nat} {b : Nat → List α} {x y : α}
    (hi : i < nb) (hx : ∀ j < nb, j ≠ i → x ∉ b j) :
    entries nb (Function.update b i ((b i).replace x y)) = (entries nb b).replace x y := by
  induction nb with
  | zero => omega
  | succ n ih =>
    rw [entries_succ, entries_succ, List.replace_append]
    rcases Nat.lt_succ_iff_lt_or_eq.1 hi with hlt | rfl
    · rw [Function.update_noteq (by omega), ih hlt fun j hj => hx j (by omega)]
      split
      · rfl
      · have hxn : x ∉ b n := hx n (by omega) (by omega)
        rw [List.replace_of_not_mem (by simpa using ‹x ∉ entries n b›),
          List.replace_of_not_mem (by simpa using hxn)]
    · have hb : ∀ j < i, Function.update b i ((b i).replace x y) j = b j := fun j hj =>
        Function.update_noteq (by omega) _ _
      have hxi : x ∉ entries i b := fun h => by
        obtain ⟨j, hj, hxj⟩ := mem_entries.1 h
        exact hx j (by omega) (by omega) hxj
      rw [Function.update_same, entries_congr hb, if_neg hxi]

/-! ## Placement -/

/-- Every node of chain `i` has a key that selects chain `i`. -/
def Placed (nb : Nat) (b : Nat → List α) (key : α → Nat) : Prop :=
  ∀ i < nb, ∀ x ∈ b i, key x % nb = i

theorem mem_chain_of_placed {nb : Nat} {b : Nat → List α} {key : α → Nat}
    (hp : Placed nb b key) {x : α} (hx : x ∈ entries nb b) : x ∈ b (key x % nb) := by
  obtain ⟨i, hi, hxi⟩ := mem_entries.1 hx
  rwa [hp i hi x hxi]

/-- A node is in the table exactly when it is in the chain its key selects. -/
theorem mem_entries_iff_of_placed {nb : Nat} {b : Nat → List α} {key : α → Nat}
    (hnb : 0 < nb) (hp : Placed nb b key) {x : α} :
    x ∈ entries nb b ↔ x ∈ b (key x % nb) :=
  ⟨mem_chain_of_placed hp, fun h => mem_entries.2 ⟨_, Nat.mod_lt _ hnb, h⟩⟩

theorem Placed.update {nb i : Nat} {b : Nat → List α} {key : α → Nat} (hp : Placed nb b key)
    {c : List α} (hc : ∀ x ∈ c, key x % nb = i) : Placed nb (Function.update b i c) key := by
  intro j hj x hx
  by_cases hji : j = i
  · subst hji; rw [Function.update_same] at hx; exact hc x hx
  · rw [Function.update_noteq hji] at hx; exact hp j hj x hx

end Buckets
end Cauchy
