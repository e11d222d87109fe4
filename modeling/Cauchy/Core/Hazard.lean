import Cauchy.Core.Pool

/-!
# Hazard pointers

`src/core/hazard.c`.  A thread protects a pointer by publishing it in one of the
`CAUCHY_MAX_HAZARD_POINTERS` slots of its hazard record and re-reading the location it came
from; it retires a pointer it has unlinked by pushing a `retired_node_t` — taken from the
domain's `retired_pool` — onto its own record's retired list; and `reclaim` walks that list,
runs the callback of every node whose pointer no slot of any record holds, unlinks the node and
gives it back to `retired_pool`.

The retired nodes live in pool blocks, and a node's first field, `ptr`, is the word the pool
links free blocks through, so the model's `Domain` keeps the pool's `link` as the nodes' `ptr`
and adds their `next` field beside it.  Each thread has a record of its own, and `init` gives a
domain the pool `cauchy_hazard_domain_create` makes, of 256 blocks.

The calls into `retired_pool` run at the granularity of `Pool.step`; the rest of each call —
publishing and re-reading in `protect`, the record's list update in `retire`, one iteration of
`reclaim`'s loop with its `is_hazardous` scan — is one atomic step here.  A coarser step admits
fewer interleavings, so every run of this model is a run of the code; it is enough to exhibit
`reclaim_runs_callback_twice`, and this file proves nothing about all runs.  Those results are
over the step-level model of `Cauchy.Core.HazardThreads`, in which `protect` loads, publishes and
re-reads in separate steps and `retire` takes its two fallbacks: `Cauchy.Core.HazardSafety` and
`Cauchy.Core.HazardSolo`.  There the pool's ABA interleaving (`Pool`) hands one
`retired_node_t` to two threads, both link it into their retired lists, and both reclaim it:
the callback of the pointer it holds runs twice, although every pointer is retired once and only
after it was unlinked.

The memory a `protect` reads from is a list of cells the program's data structure owns;
`unlink` empties one.  Allocation of hazard records never fails here, as the retired pool never
does, so the two early-callback paths of `cauchy_hazard_retire` are not taken in this model.
-/

set_option autoImplicit false

namespace Cauchy
namespace Hazard

/-- `CAUCHY_MAX_HAZARD_POINTERS`. -/
def maxHazardPointers : Nat := 4

/-- `CAUCHY_MAX_HAZARD_THREADS`. -/
def maxHazardThreads : Nat := 128

/-- The state of a hazard domain and of its retired nodes. -/
structure Domain where
  /-- `retired_pool`; a block's `link` is the `ptr` field of the retired node in it. -/
  pool : Pool
  /-- The `next` field of the retired node in each block. -/
  next : Nat → Option Nat
  /-- `hazards[i]` of each thread's record. -/
  slots : Nat → Nat → Option Nat
  /-- `retired_list` of each thread's record. -/
  retired : Nat → Option Nat
  /-- `retired_count` of each thread's record, a `u32`. -/
  retiredCount : Nat → Nat

/-- `cauchy_hazard_domain_create`: a retired pool of 256 blocks, every record empty. -/
def Domain.init : Domain :=
  ⟨Pool.create 256, fun _ => none, fun _ _ => none, fun _ => none, fun _ => 0⟩

/-- `is_hazardous`: some slot of the records of the first `threads` threads holds `ptr`. -/
def Domain.isHazardous (d : Domain) (threads : Nat) (ptr : Option Nat) : Bool :=
  (List.range threads).any fun t =>
    (List.range maxHazardPointers).any fun i => d.slots t i == ptr

/-- Where a thread is inside `retire` or `reclaim`. -/
inductive Pc where
  /-- Inside the `cauchy_pool_alloc` of `retire (p)`. -/
  | retire (p : Nat) (pc : Pool.Pc)
  /-- At the top of `reclaim`'s loop. -/
  | reclaim (prev curr : Option Nat)
  /-- Inside the `cauchy_pool_free` of the node `reclaim` just unlinked, `next` to come. -/
  | reclaimFree (prev next : Option Nat) (pc : Pool.Pc)
  deriving DecidableEq

/-- Threads calling into one hazard domain, and the program's memory they protect from. -/
structure System where
  dom : Domain
  /-- The number of threads, each with its own hazard record. -/
  threads : Nat
  /-- The locations `protect` reads pointers from. -/
  cells : List (Option Nat)
  /-- Where each thread is, `none` when it is not inside a call. -/
  pc : Nat → Option Pc
  /-- Every pointer retired so far. -/
  retiredPtrs : List Nat
  /-- The pointers whose retire callback has run, in the order it ran. -/
  callbacks : List (Option Nat)

/-- One event of an interleaving. -/
inductive Event where
  /-- Thread `t` protects, in slot `i`, the pointer in cell `c`. -/
  | protect (t i c : Nat)
  /-- Thread `t` clears slot `i`. -/
  | clear (t i : Nat)
  /-- The data structure unlinks the pointer in cell `c`. -/
  | unlink (c : Nat)
  /-- Thread `t` retires `p`. -/
  | retire (t p : Nat)
  /-- Thread `t` calls `cauchy_hazard_reclaim`. -/
  | reclaim (t : Nat)
  /-- Thread `t` takes its next atomic step. -/
  | tick (t : Nat)

namespace System

/-- The end of `retire` once `cauchy_pool_alloc` returned the node `rn`: fill it in, push it on
the record's list, and reclaim when the list is long. -/
def linkRetired (s : System) (t p rn : Nat) : System :=
  let d := s.dom
  let count := (d.retiredCount t + 1) % 2 ^ 32
  { s with
    dom := { d with
      pool := { d.pool with link := Function.update d.pool.link rn (some p) }
      next := Function.update d.next rn (d.retired t)
      retired := Function.update d.retired t (some rn)
      retiredCount := Function.update d.retiredCount t count }
    pc := Function.update s.pc t
      (if count ≥ maxHazardThreads * maxHazardPointers * 2 then some (.reclaim none (some rn))
       else none) }

/-- One iteration of `reclaim`'s loop at node `c`: a hazardous node stays, any other has its
callback run, is unlinked, and goes back to the pool. -/
def reclaimNode (s : System) (t : Nat) (prev : Option Nat) (c : Nat) : System :=
  let d := s.dom
  let next := d.next c
  let ptr := d.pool.link c
  if d.isHazardous s.threads ptr then
    { s with pc := Function.update s.pc t (some (.reclaim (some c) next)) }
  else
    { s with
      dom := match prev with
        | some pv => { d with next := Function.update d.next pv next }
        | none => { d with retired := Function.update d.retired t next }
      pc := Function.update s.pc t (some (.reclaimFree prev next (.free c)))
      callbacks := s.callbacks ++ [ptr] }

/-- The system after one atomic step of thread `t` at `pc`. -/
def tick (s : System) (t : Nat) : Pc → System
  | .retire p pc =>
    match s.dom.pool.step pc with
    | (pool, .cont pc') =>
      { s with dom := { s.dom with pool }, pc := Function.update s.pc t (some (.retire p pc')) }
    | (pool, .allocated rn) => linkRetired { s with dom := { s.dom with pool } } t p rn
    | (pool, .freed _) => { s with dom := { s.dom with pool }, pc := Function.update s.pc t none }
  | .reclaim _ none => { s with pc := Function.update s.pc t none }
  | .reclaim prev (some c) => reclaimNode s t prev c
  | .reclaimFree prev next pc =>
    match s.dom.pool.step pc with
    | (pool, .cont pc') =>
      { s with dom := { s.dom with pool },
               pc := Function.update s.pc t (some (.reclaimFree prev next pc')) }
    | (pool, _) =>
      { s with dom := { s.dom with
                 pool, retiredCount := Function.update s.dom.retiredCount t
                   ((s.dom.retiredCount t + (2 ^ 32 - 1)) % 2 ^ 32) },
               pc := Function.update s.pc t (some (.reclaim prev next)) }

/-- The system after one event, `none` when the event cannot happen: a call by a thread already
inside one or without a record, a slot index out of range, a retire of a pointer already
retired or still in a cell, a step of an idle thread. -/
def perform? (s : System) : Event → Option System
  | .protect t i c =>
    if s.pc t = none ∧ t < s.threads ∧ i < maxHazardPointers then
      some { s with dom := { s.dom with
        slots := Function.update s.dom.slots t
          (Function.update (s.dom.slots t) i (s.cells.getD c none)) } }
    else none
  | .clear t i =>
    if s.pc t = none ∧ t < s.threads ∧ i < maxHazardPointers then
      some { s with dom := { s.dom with
        slots := Function.update s.dom.slots t (Function.update (s.dom.slots t) i none) } }
    else none
  | .unlink c => some { s with cells := s.cells.set c none }
  | .retire t p =>
    if s.pc t = none ∧ t < s.threads ∧ p ∉ s.retiredPtrs ∧ some p ∉ s.cells then
      some { s with pc := Function.update s.pc t (some (.retire p .alloc)),
                    retiredPtrs := p :: s.retiredPtrs }
    else none
  | .reclaim t =>
    if s.pc t = none ∧ t < s.threads then
      some { s with pc := Function.update s.pc t (some (.reclaim none (s.dom.retired t))) }
    else none
  | .tick t => (s.pc t).map (s.tick t)

/-- The system after an interleaving, `none` when one of its events cannot happen. -/
def run? (s : System) (es : List Event) : Option System := es.foldlM perform? s

/-- A fresh domain used by `threads` threads over the cells `cells`. -/
def init (threads : Nat) (cells : List (Option Nat)) : System :=
  ⟨Domain.init, threads, cells, fun _ => none, [], []⟩

/-- Four threads.  Thread `0` starts retiring `1001` and stops before the compare-and-swap of
its `cauchy_pool_alloc`.  Thread `2` protects `1003`, which the program then unlinks.  Thread `1`
retires `1002` and `1003` and reclaims `1002`, which puts the block thread `0` read back on top
of the pool; thread `0`'s compare-and-swap succeeds and leaves the pool's top at the block that
holds `1003` in thread `1`'s list.  Thread `3` retires `1004` into that block, so it is in the
lists of threads `1` and `3`, and both reclaim it. -/
def doubleReclaim : List Event :=
  [.retire 0 1001, .tick 0, .tick 0,
   .protect 2 0 0, .unlink 0,
   .retire 1 1002, .tick 1, .tick 1, .tick 1,
   .retire 1 1003, .tick 1, .tick 1, .tick 1,
   .reclaim 1, .tick 1, .tick 1, .tick 1, .tick 1, .tick 1, .tick 1,
   .tick 0,
   .retire 3 1004, .tick 3, .tick 3, .tick 3,
   .reclaim 1, .tick 1,
   .reclaim 3, .tick 3]

/-- **A retire callback runs twice.**  On a domain whose retired pool never fails, with every
pointer retired once and only after it was unlinked, `doubleReclaim` runs the callback of
`1004` in the `reclaim` of thread `1` and again in the `reclaim` of thread `3`. -/
theorem reclaim_runs_callback_twice :
    ∃ s, (init 4 [some 1003]).run? doubleReclaim = some s ∧
      s.retiredPtrs.Nodup ∧ s.callbacks.count (some 1004) = 2 :=
  ⟨((init 4 [some 1003]).run? doubleReclaim).getD (init 0 []), rfl, by decide, by decide⟩

end System
end Hazard
end Cauchy
