import Cauchy.Core.Types

/-!
# The lock-free block pool

`src/core/memory.c`.  A `cauchy_pool_t` keeps its free blocks on a Treiber stack: `free_list`
points at the top block, and a free block's first word points at the block below it.
`cauchy_pool_alloc` pops — load the top, read its link, compare-and-swap the top from the block
to the link, retry on failure — and falls back to `cauchy_aligned_alloc` when the stack is
empty; `cauchy_pool_free` pushes — load the top, write it into the block's first word,
compare-and-swap the top from it to the block, retry on failure.

A block is its address, a number: `cauchy_pool_create` with `initial_blocks = n` carves blocks
`0 … n-1` out of one allocation, and `cauchy_aligned_alloc` hands out addresses from `fresh` on,
each different from every block before it.  The pool never gives a block back to the system,
which is what the usual argument for tolerating ABA in a Treiber stack rests on.

`step` is one atomic step of one thread inside `alloc` or `free`, at the granularity of the C
code: a load, a read of a block's link, a write of it, a compare-and-swap.  `Threads` runs any
number of threads over one pool under any interleaving of those steps, and records beside it the
blocks each thread holds: obtained from `alloc`, and not yet given back by a `free` that has
returned.  The statistics counters (`allocated`, `freed`, `peak_use`, `total_allocs`) are
updated by atomic steps that touch nothing else, so they are left out here; `Cauchy.Core.PoolStats`
runs them beside sequential calls.

`aba_hands_out_held_block` is the interleaving that argument calls harmless: thread `1` reads block
`1`'s link, thread `2` pops blocks `1` and `0` and pushes `1` back, and thread `1`'s
compare-and-swap still succeeds and puts block `0` — held by thread `2` — back on the free
list, from which thread `3` then takes it.
-/

set_option autoImplicit false

namespace Cauchy

/-- The shared state of a `cauchy_pool_t` that `alloc` and `free` work on. -/
structure Pool where
  /-- `free_list`: the top of the stack of free blocks. -/
  head : Option Nat
  /-- The first word of every block: the link to the block below it while it is free. -/
  link : Nat → Option Nat
  /-- The address the next `cauchy_aligned_alloc` returns. -/
  fresh : Nat

namespace Pool

/-- `cauchy_pool_create` with `initial_blocks = n`: blocks `0 … n-1`, pushed in turn. -/
def create (n : Nat) : Pool :=
  (List.range n).foldl
    (fun (s : Pool) (i : Nat) => { s with link := Function.update s.link i s.head, head := i })
    ⟨none, fun _ => none, n⟩

@[simp]
theorem create_fresh (n : Nat) : (create n).fresh = n := by
  suffices ∀ (l : List Nat) (s : Pool), (l.foldl (fun (s : Pool) (i : Nat) =>
      { s with link := Function.update s.link i s.head, head := i }) s).fresh = s.fresh from
    this _ _
  intro l
  induction l with
  | nil => intro s; rfl
  | cons i l ih => intro s; exact ih _

/-- Where a thread is inside `cauchy_pool_alloc` or `cauchy_pool_free`, with the locals it has
read so far. -/
inductive Pc where
  /-- At the top of `alloc`'s loop. -/
  | alloc
  /-- `alloc` loaded `node` from `free_list`. -/
  | allocRead (node : Nat)
  /-- `alloc` read `next` from `node`; the compare-and-swap comes next. -/
  | allocCas (node : Nat) (next : Option Nat)
  /-- At the top of `free`'s loop. -/
  | free (block : Nat)
  /-- `free` loaded `head` from `free_list`. -/
  | freeWrite (block : Nat) (head : Option Nat)
  /-- `free` wrote `head` into the block; the compare-and-swap comes next. -/
  | freeCas (block : Nat) (head : Option Nat)
  deriving DecidableEq

/-- What a step leads to: the call goes on, or it returns. -/
inductive Next where
  | cont (pc : Pc)
  /-- `alloc` returned the block. -/
  | allocated (block : Nat)
  /-- `free` of the block returned. -/
  | freed (block : Nat)

/-- One atomic step of a thread at `pc`. -/
def step (s : Pool) : Pc → Pool × Next
  | .alloc =>
    match s.head with
    | none => ({ s with fresh := s.fresh + 1 }, .allocated s.fresh)
    | some node => (s, .cont (.allocRead node))
  | .allocRead node => (s, .cont (.allocCas node (s.link node)))
  | .allocCas node next =>
    if s.head = some node then ({ s with head := next }, .allocated node) else (s, .cont .alloc)
  | .free b => (s, .cont (.freeWrite b s.head))
  | .freeWrite b head => ({ s with link := Function.update s.link b head }, .cont (.freeCas b head))
  | .freeCas b head =>
    if s.head = head then ({ s with head := some b }, .freed b) else (s, .cont (.free b))

/-- The blocks on the free list, following links from the top for at most `fuel` blocks. -/
def freeList (s : Pool) (fuel : Nat) : List Nat :=
  go fuel s.head
where
  go : Nat → Option Nat → List Nat
    | 0, _ => []
    | _ + 1, none => []
    | n + 1, some b => b :: go n (s.link b)

/-! ## Threads -/

/-- Threads running `alloc` and `free` on one pool. -/
structure Threads where
  pool : Pool
  /-- Where each thread is, `none` when it is not inside a call. -/
  pc : Nat → Option Pc
  /-- The blocks each thread obtained from `alloc` and has not freed. -/
  held : Nat → List Nat

/-- One event of an interleaving. -/
inductive Event where
  /-- Thread `t` calls `cauchy_pool_alloc`. -/
  | alloc (t : Nat)
  /-- Thread `t` calls `cauchy_pool_free` on a block it holds. -/
  | free (t block : Nat)
  /-- Thread `t` takes its next atomic step. -/
  | tick (t : Nat)

namespace Threads

/-- A pool made by `cauchy_pool_create` with `n` initial blocks, no thread inside a call. -/
def init (n : Nat) : Threads := ⟨create n, fun _ => none, fun _ => []⟩

/-- The threads after one event, `none` when the event cannot happen: a call by a thread
already inside one, a `free` of a block the thread does not hold, a step of an idle thread. -/
def perform? (s : Threads) : Event → Option Threads
  | .alloc t => if s.pc t = none then some { s with pc := Function.update s.pc t (some .alloc) }
    else none
  | .free t b => if s.pc t = none ∧ b ∈ s.held t then
      some { s with pc := Function.update s.pc t (some (.free b)) }
    else none
  | .tick t =>
    match s.pc t with
    | none => none
    | some pc =>
      match s.pool.step pc with
      | (p, .cont pc') => some { s with pool := p, pc := Function.update s.pc t (some pc') }
      | (p, .allocated b) =>
        some ⟨p, Function.update s.pc t none, Function.update s.held t (b :: s.held t)⟩
      | (p, .freed b) =>
        some ⟨p, Function.update s.pc t none, Function.update s.held t ((s.held t).erase b)⟩

/-- The threads after an interleaving, `none` when one of its events cannot happen. -/
def run? (s : Threads) (es : List Event) : Option Threads := es.foldlM perform? s

/-- What the pool promises every interleaving: no block held by two threads, and no block on
the free list held by a thread. -/
def Safe (s : Threads) : Prop :=
  (∀ t t', t ≠ t' → ∀ b ∈ s.held t, b ∉ s.held t') ∧
    ∀ t, ∀ b ∈ s.held t, b ∉ s.pool.freeList s.pool.fresh

/-- Thread `1` stops before its compare-and-swap; thread `2` pops `1` and `0` and pushes `1`
back; thread `1`'s compare-and-swap succeeds. -/
def abaPrefix : List Event :=
  [.alloc 1, .tick 1, .tick 1,
   .alloc 2, .tick 2, .tick 2, .tick 2,
   .alloc 2, .tick 2, .tick 2, .tick 2,
   .free 2 1, .tick 2, .tick 2, .tick 2,
   .tick 1]

/-- `abaPrefix`, then thread `3` allocates. -/
def abaSchedule : List Event := abaPrefix ++ [.alloc 3, .tick 3, .tick 3, .tick 3]

/-- **The pool hands out a block that is held.**  From a pool of two blocks, `abaPrefix` leaves
block `0` at the top of the free list while thread `2` holds it, and `abaSchedule` then gives
it to thread `3` as well. -/
theorem aba_hands_out_held_block :
    (∃ s, (init 2).run? abaPrefix = some s ∧ s.pool.head = some 0 ∧ 0 ∈ s.held 2) ∧
    (∃ s, (init 2).run? abaSchedule = some s ∧ 0 ∈ s.held 2 ∧ 0 ∈ s.held 3 ∧ ¬ s.Safe) :=
  ⟨⟨((init 2).run? abaPrefix).getD (init 0), rfl, by decide, by decide⟩,
   ⟨((init 2).run? abaSchedule).getD (init 0), rfl, by decide, by decide,
    fun h => h.1 2 3 (by decide) 0 (by decide) (by decide)⟩⟩

end Threads
end Pool
end Cauchy
