import Cauchy.Core.Hazard
import Cauchy.Core.PoolSafety

/-!
# Hazard pointers, one load or store at a time

`Cauchy.Core.Hazard` takes `cauchy_hazard_protect`, `is_hazardous` and the list updates of
`retire` and `reclaim` as one atomic step each.  That is enough to exhibit a run of the code, but
it hides the race the code is written around, so it cannot carry a result about every run.  Here
each load and store of `src/core/hazard.c` that another thread can observe is its own step:

* `protect` loads `*pptr`, stores what it read in its slot, fences, and loads `*pptr` again,
  starting over until the two loads agree (lines 110-125);
* `is_hazardous` loads the slots one at a time, record after record from `head` (133-146);
* `retire` takes its `retired_node_t` from `retired_pool` one `Pool.step` at a time, and runs the
  callback at once when `get_hazard_record` or `cauchy_pool_alloc` returns `NULL` (148-174);
* `reclaim` reads a node's `next` and `ptr`, scans, and then either keeps the node or runs its
  callback, unlinks the node, and gives it back to `retired_pool` one `Pool.step` at a time, the
  last step decrementing `retired_count` (176-207).

A node's `next` and `ptr` are written only by the thread whose list it is on, so `reclaim` reads
both, and the `head` of the record list, in one step.

A thread gets its record at its first call, pushed on the head of the record list
(`get_hazard_record`, 38-70).  Nothing clears a record's `active` flag, so with one domain a
thread keeps its record, and `is_hazardous` finds every record active.  When the allocation of
the record fails, `protect`, `clear` and `reclaim` change nothing, so such calls are left out;
`retire` runs the callback at once (`Event.retireNoRecord`).  `cauchy_pool_alloc` fails when the
free list is empty and `cauchy_aligned_alloc` returns `NULL` (`Event.allocFail`).

The program's memory is a list of cells that `protect` reads from.  The program stores only
pointers that await no reclamation, those retired no more often than their callback has run, and
retires only such pointers, once no cell holds them.  A pointer whose callback has run may be
stored and retired again: its memory has been reused.
-/

set_option autoImplicit false

namespace Cauchy
namespace Hazard
namespace Threads

/-- Where a thread is inside a call. -/
inductive Pc where
  /-- `protect`'s loop for slot `i` is about to load `*pptr`, the cell `c`. -/
  | protectLoad (i c : Nat)
  /-- `protect` loaded `ptr` and is about to store it in slot `i`. -/
  | protectStore (i c : Nat) (ptr : Option Nat)
  /-- `protect` stored `ptr` and fenced; it is about to load `*pptr` again. -/
  | protectCheck (i c : Nat) (ptr : Option Nat)
  /-- Inside the `cauchy_pool_alloc` of `retire (p)`. -/
  | retire (p : Nat) (pc : Pool.Pc)
  /-- At the top of `reclaim`'s loop. -/
  | reclaim (prev curr : Option Nat)
  /-- Inside `is_hazardous (ptr)` for the node `curr`, whose `next` was read, with the slots
  `todo` still to load. -/
  | scan (prev : Option Nat) (curr : Nat) (next ptr : Option Nat) (todo : List (Nat × Nat))
  /-- Inside the `cauchy_pool_free` of the node `reclaim` just unlinked, `next` to come. -/
  | reclaimFree (prev next : Option Nat) (pc : Pool.Pc)
  deriving DecidableEq

/-- The slot a thread at `pc` is protecting into. -/
def Pc.protecting : Pc → Option Nat
  | .protectLoad i _ | .protectStore i _ _ | .protectCheck i _ _ => some i
  | _ => none

/-- The call into `retired_pool` a thread at `pc` is making. -/
def Pc.poolPc : Pc → Option Pool.Pc
  | .retire _ pc | .reclaimFree _ _ pc => some pc
  | _ => none

/-- The pointer a thread at `pc` is retiring. -/
def Pc.retiring : Pc → Option Nat
  | .retire p _ => some p
  | _ => none

/-- The node a thread at `pc` is giving back to `retired_pool`. -/
def Pc.returning : Pc → List Nat
  | .reclaimFree _ _ pc => pc.freeing
  | _ => []

/-- Threads calling into one hazard domain, and the program's memory they protect from. -/
structure State where
  dom : Domain
  /-- The threads whose records are on the list from `head`, the newest first. -/
  records : List Nat
  /-- The locations `protect` reads pointers from. -/
  cells : List (Option Nat)
  /-- Where each thread is, `none` when it is not inside a call. -/
  pc : Nat → Option Pc
  /-- The pointer of every `retire` so far, once for each time it was retired. -/
  retiredPtrs : List Nat
  /-- The pointers the retire callbacks have run on, in the order they ran. -/
  callbacks : List (Option Nat)

/-- One event of an interleaving. -/
inductive Event where
  /-- Thread `t` calls `protect` for slot `i` on the cell `c`. -/
  | protect (t i c : Nat)
  /-- Thread `t` clears slot `i`. -/
  | clear (t i : Nat)
  /-- The program stores `v` in cell `c`; `none` unlinks. -/
  | write (c : Nat) (v : Option Nat)
  /-- Thread `t` retires `p`. -/
  | retire (t p : Nat)
  /-- Thread `t`, which has no record, retires `p`, and the allocation of its record fails. -/
  | retireNoRecord (t p : Nat)
  /-- Thread `t`'s `retire` finds `retired_pool`'s free list empty, and `cauchy_aligned_alloc`
  returns `NULL`. -/
  | allocFail (t : Nat)
  /-- Thread `t` calls `cauchy_hazard_reclaim`. -/
  | reclaim (t : Nat)
  /-- Thread `t` takes its next atomic step. -/
  | tick (t : Nat)

/-- The thread an event starts a `retire` on. -/
def Event.retirer? : Event → Option Nat
  | .retire t _ => some t
  | _ => none

/-- The thread that takes the step; a store to a cell is the application's. -/
def Event.thread? : Event → Option Nat
  | .protect t _ _ | .clear t _ | .retire t _ | .retireNoRecord t _ | .allocFail t | .reclaim t
  | .tick t => some t
  | .write _ _ => none

namespace State

/-- The slots `is_hazardous` loads, in its order: the records of `records` from `head`, and in
each `hazards[0]` up to `hazards[CAUCHY_MAX_HAZARD_POINTERS - 1]`. -/
def scanOrder (records : List Nat) : List (Nat × Nat) :=
  records.flatMap fun u => (List.range maxHazardPointers).map fun i => (u, i)

/-- `get_hazard_record` for thread `t`: at its first call its record, every slot `NULL`, is
pushed on the head of the list. -/
def withRecord (s : State) (t : Nat) : State :=
  { s with records := if t ∈ s.records then s.records else t :: s.records }

/-- Thread `t` moved to `pc`. -/
def setPc (s : State) (t : Nat) (pc : Option Pc) : State :=
  { s with pc := Function.update s.pc t pc }

/-- Thread `t` stores `v` in its slot `i`. -/
def setSlot (s : State) (t i : Nat) (v : Option Nat) : State :=
  { s with dom := { s.dom with
    slots := Function.update s.dom.slots t (Function.update (s.dom.slots t) i v) } }

/-- `retired_pool` after a step of one of its calls. -/
def withPool (s : State) (pool : Pool) : State := { s with dom := { s.dom with pool } }

/-- The ghost record of a `retire (p)` call. -/
def logRetire (s : State) (p : Nat) : State := { s with retiredPtrs := p :: s.retiredPtrs }

/-- The ghost record of a retire callback run on `x`. -/
def logCallback (s : State) (x : Option Nat) : State := { s with callbacks := s.callbacks ++ [x] }

/-- Whether `p` awaits reclamation: it was retired more often than its callback has run. -/
def awaiting (s : State) (p : Nat) : Bool :=
  s.callbacks.count (some p) < s.retiredPtrs.count p

/-- The end of `retire` once `cauchy_pool_alloc` returned the node `rn`: fill it in, push it on
the record's list, and reclaim when the list is long. -/
def linkRetired (s : State) (t p rn : Nat) : State :=
  let d := s.dom
  let count := (d.retiredCount t + 1) % 2 ^ 32
  { s with
    dom := { d with
      pool := { d.pool with link := Function.update d.pool.link rn (some p) }
      next := Function.update d.next rn (d.retired t)
      retired := Function.update d.retired t (some rn)
      retiredCount := Function.update d.retiredCount t count }
    pc := Function.update s.pc t
      (if count ≥ maxHazardThreads * maxHazardPointers * 2 then some (.reclaim none (some rn))
       else none) }

/-- `is_hazardous` found no slot holding the pointer of node `c`: the callback runs on
`curr->ptr`, `c` is unlinked from after `prev`, and `cauchy_pool_free` of `c` starts. -/
def unlinkNode (s : State) (t : Nat) (prev : Option Nat) (c : Nat) (next : Option Nat) : State :=
  { s with
    dom := match prev with
      | some pv => { s.dom with next := Function.update s.dom.next pv next }
      | none => { s.dom with retired := Function.update s.dom.retired t next }
    pc := Function.update s.pc t (some (.reclaimFree prev next (.free c)))
    callbacks := s.callbacks ++ [s.dom.pool.link c] }

/-- `cauchy_pool_free` of `reclaim`'s node returned: `retired_count--`, and on to `next`. -/
def afterFree (s : State) (t : Nat) (pool : Pool) (prev next : Option Nat) : State :=
  { s with
    dom := { s.dom with
      pool
      retiredCount := Function.update s.dom.retiredCount t
        ((s.dom.retiredCount t + (2 ^ 32 - 1)) % 2 ^ 32) }
    pc := Function.update s.pc t (some (.reclaim prev next)) }

/-- The system after one atomic step of thread `t` at `pc`. -/
def tick (s : State) (t : Nat) : Pc → State
  | .protectLoad i c => s.setPc t (some (.protectStore i c (s.cells.getD c none)))
  | .protectStore i c ptr => (s.setSlot t i ptr).setPc t (some (.protectCheck i c ptr))
  | .protectCheck i c ptr =>
    if ptr = s.cells.getD c none then s.setPc t none else s.setPc t (some (.protectLoad i c))
  | .retire p pc =>
    match s.dom.pool.step pc with
    | (pool, .cont pc') => (s.withPool pool).setPc t (some (.retire p pc'))
    | (pool, .allocated rn) => (s.withPool pool).linkRetired t p rn
    | (pool, .freed _) => (s.withPool pool).setPc t none
  | .reclaim _ none => s.setPc t none
  | .reclaim prev (some c) =>
    s.setPc t (some (.scan prev c (s.dom.next c) (s.dom.pool.link c) (scanOrder s.records)))
  | .scan prev c next _ [] => s.unlinkNode t prev c next
  | .scan prev c next ptr ((u, i) :: todo) =>
    if s.dom.slots u i = ptr then s.setPc t (some (.reclaim (some c) next))
    else s.setPc t (some (.scan prev c next ptr todo))
  | .reclaimFree prev next pc =>
    match s.dom.pool.step pc with
    | (pool, .cont pc') => (s.withPool pool).setPc t (some (.reclaimFree prev next pc'))
    | (pool, _) => s.afterFree t pool prev next

/-- The system after one event, `none` when the event cannot happen: a call by a thread already
inside one, a slot index out of range, a store of a pointer awaiting reclamation, a retire of one
or of a pointer still in a cell, a failed record allocation by a thread that has a record, a
failed `cauchy_pool_alloc` while the free list is not empty, a step of an idle thread. -/
def perform? (s : State) : Event → Option State
  | .protect t i c =>
    if s.pc t = none ∧ i < maxHazardPointers then
      some ((s.withRecord t).setPc t (some (.protectLoad i c)))
    else none
  | .clear t i =>
    if s.pc t = none ∧ i < maxHazardPointers then some ((s.withRecord t).setSlot t i none)
    else none
  | .write c v =>
    if v.all fun p => !s.awaiting p then some { s with cells := s.cells.set c v } else none
  | .retire t p =>
    if s.pc t = none ∧ s.awaiting p = false ∧ some p ∉ s.cells then
      some (((s.withRecord t).setPc t (some (.retire p .alloc))).logRetire p)
    else none
  | .retireNoRecord t p =>
    if s.pc t = none ∧ t ∉ s.records ∧ s.awaiting p = false ∧ some p ∉ s.cells then
      some ((s.logRetire p).logCallback (some p))
    else none
  | .allocFail t =>
    match s.pc t with
    | some (.retire p .alloc) =>
      if s.dom.pool.head = none then
        some ((s.setPc t none).logCallback (some p))
      else none
    | _ => none
  | .reclaim t =>
    if s.pc t = none then
      some ((s.withRecord t).setPc t (some (.reclaim none (s.dom.retired t))))
    else none
  | .tick t => (s.pc t).map (s.tick t)

/-- The system after an interleaving, `none` when one of its events cannot happen. -/
def run? (s : State) (es : List Event) : Option State := es.foldlM perform? s

/-- A domain fresh from `cauchy_hazard_domain_create`, no thread inside a call, over the cells
`cells`. -/
def init (cells : List (Option Nat)) : State := ⟨Domain.init, [], cells, fun _ => none, [], []⟩

/-- Where each thread is inside `retired_pool`'s calls. -/
def poolPcs (s : State) (t : Nat) : Option Pool.Pc := (s.pc t).bind Pc.poolPc

/-- Thread `t` is not inside a `protect` on slot `i`: the slot holds what the last `protect` on it
returned, or `NULL`. -/
def Settled (s : State) (t i : Nat) : Prop := (s.pc t).bind Pc.protecting ≠ some i

instance (s : State) (t i : Nat) : Decidable (s.Settled t i) :=
  inferInstanceAs (Decidable (_ ≠ _))

/-- What `is_hazardous (ptr)` returns when no slot changes while it runs. -/
def hazardous (s : State) (ptr : Option Nat) : Bool :=
  (scanOrder s.records).any fun ui => s.dom.slots ui.1 ui.2 == ptr

/-- The nodes met following `next` from `head`, for at most `fuel` nodes. -/
def nodes (next : Nat → Option Nat) : Nat → Option Nat → List Nat
  | 0, _ => []
  | _ + 1, none => []
  | n + 1, some b => b :: nodes next n (next b)

/-- The nodes of thread `t`'s retired list: no list has more nodes than `retired_pool` has
made blocks. -/
def retiredNodes (s : State) (t : Nat) : List Nat :=
  nodes s.dom.next s.dom.pool.fresh (s.dom.retired t)

/-- `cauchy_hazard_domain_destroy`: the callbacks that have run, then those it runs for the nodes
left on the retired lists, record after record from `head` and each list from its head. -/
def domainDestroy (s : State) : List (Option Nat) :=
  s.callbacks ++ s.records.flatMap fun t => (s.retiredNodes t).map s.dom.pool.link

/-! ## What the updates leave alone -/

variable {s : State} {t : Nat}

@[simp] theorem setPc_dom (pc : Option Pc) : (s.setPc t pc).dom = s.dom := rfl
@[simp] theorem setPc_records (pc : Option Pc) : (s.setPc t pc).records = s.records := rfl
@[simp] theorem setPc_cells (pc : Option Pc) : (s.setPc t pc).cells = s.cells := rfl
@[simp] theorem setPc_pc (pc : Option Pc) : (s.setPc t pc).pc = Function.update s.pc t pc := rfl
@[simp] theorem setPc_retiredPtrs (pc : Option Pc) :
    (s.setPc t pc).retiredPtrs = s.retiredPtrs := rfl
@[simp] theorem setPc_callbacks (pc : Option Pc) : (s.setPc t pc).callbacks = s.callbacks := rfl

@[simp] theorem setPc_setPc (pc pc' : Option Pc) : (s.setPc t pc).setPc t pc' = s.setPc t pc' := by
  simp [setPc]

@[simp] theorem setSlot_pc {i : Nat} {v : Option Nat} : (s.setSlot t i v).pc = s.pc := rfl
@[simp] theorem setSlot_records {i : Nat} {v : Option Nat} :
    (s.setSlot t i v).records = s.records := rfl

@[simp] theorem withRecord_dom : (s.withRecord t).dom = s.dom := rfl
@[simp] theorem withRecord_cells : (s.withRecord t).cells = s.cells := rfl
@[simp] theorem withRecord_pc : (s.withRecord t).pc = s.pc := rfl
@[simp] theorem withRecord_retiredPtrs : (s.withRecord t).retiredPtrs = s.retiredPtrs := rfl
@[simp] theorem withRecord_callbacks : (s.withRecord t).callbacks = s.callbacks := rfl

@[simp] theorem logRetire_dom {p : Nat} : (s.logRetire p).dom = s.dom := rfl
@[simp] theorem logRetire_records {p : Nat} : (s.logRetire p).records = s.records := rfl
@[simp] theorem logRetire_cells {p : Nat} : (s.logRetire p).cells = s.cells := rfl
@[simp] theorem logRetire_pc {p : Nat} : (s.logRetire p).pc = s.pc := rfl
@[simp] theorem logRetire_retiredPtrs {p : Nat} :
    (s.logRetire p).retiredPtrs = p :: s.retiredPtrs := rfl
@[simp] theorem logRetire_callbacks {p : Nat} : (s.logRetire p).callbacks = s.callbacks := rfl

@[simp] theorem logCallback_dom {x : Option Nat} : (s.logCallback x).dom = s.dom := rfl
@[simp] theorem logCallback_records {x : Option Nat} : (s.logCallback x).records = s.records := rfl
@[simp] theorem logCallback_cells {x : Option Nat} : (s.logCallback x).cells = s.cells := rfl
@[simp] theorem logCallback_pc {x : Option Nat} : (s.logCallback x).pc = s.pc := rfl
@[simp] theorem logCallback_retiredPtrs {x : Option Nat} :
    (s.logCallback x).retiredPtrs = s.retiredPtrs := rfl
@[simp] theorem logCallback_callbacks {x : Option Nat} :
    (s.logCallback x).callbacks = s.callbacks ++ [x] := rfl

@[simp] theorem withPool_pc {q : Pool} : (s.withPool q).pc = s.pc := rfl
@[simp] theorem withPool_records {q : Pool} : (s.withPool q).records = s.records := rfl
@[simp] theorem withPool_cells {q : Pool} : (s.withPool q).cells = s.cells := rfl
@[simp] theorem withPool_retiredPtrs {q : Pool} : (s.withPool q).retiredPtrs = s.retiredPtrs := rfl
@[simp] theorem withPool_callbacks {q : Pool} : (s.withPool q).callbacks = s.callbacks := rfl

@[simp] theorem unlinkNode_pool {prev : Option Nat} {c : Nat} {nx : Option Nat} :
    (s.unlinkNode t prev c nx).dom.pool = s.dom.pool := by cases prev <;> rfl
@[simp] theorem unlinkNode_slots {prev : Option Nat} {c : Nat} {nx : Option Nat} :
    (s.unlinkNode t prev c nx).dom.slots = s.dom.slots := by cases prev <;> rfl
@[simp] theorem unlinkNode_retiredCount {prev : Option Nat} {c : Nat} {nx : Option Nat} :
    (s.unlinkNode t prev c nx).dom.retiredCount = s.dom.retiredCount := by cases prev <;> rfl
@[simp] theorem unlinkNode_pc {prev : Option Nat} {c : Nat} {nx : Option Nat} :
    (s.unlinkNode t prev c nx).pc = Function.update s.pc t (some (.reclaimFree prev nx (.free c))) :=
  rfl
@[simp] theorem unlinkNode_callbacks {prev : Option Nat} {c : Nat} {nx : Option Nat} :
    (s.unlinkNode t prev c nx).callbacks = s.callbacks ++ [s.dom.pool.link c] := rfl

@[simp] theorem poolPcs_withPool {q : Pool} : (s.withPool q).poolPcs = s.poolPcs := rfl
@[simp] theorem poolPcs_logRetire {p : Nat} : (s.logRetire p).poolPcs = s.poolPcs := rfl
@[simp] theorem poolPcs_logCallback {x : Option Nat} :
    (s.logCallback x).poolPcs = s.poolPcs := rfl

/-- A thread's step moves no other thread. -/
theorem tick_pc_ne {u : Nat} (hu : u ≠ t) (q : Pc) : (s.tick t q).pc u = s.pc u := by
  cases q with
  | retire p pc =>
    rcases hs : s.dom.pool.step pc with ⟨p', _ | _ | _⟩ <;>
      simp [tick, hs, linkRetired, withPool, Function.update_noteq hu]
  | reclaim prev curr => cases curr <;> simp [tick, Function.update_noteq hu]
  | scan prev c nx ptr todo =>
    rcases todo with _ | ⟨⟨u', i⟩, todo⟩
    · simp [tick, Function.update_noteq hu]
    · simp only [tick]
      split_ifs <;> simp [Function.update_noteq hu]
  | reclaimFree prev nx pc =>
    rcases hs : s.dom.pool.step pc with ⟨p', _ | _ | _⟩ <;>
      simp [tick, hs, afterFree, withPool, Function.update_noteq hu]
  | protectCheck i c ptr =>
    simp only [tick]
    split_ifs <;> simp [Function.update_noteq hu]
  | _ => simp [tick, Function.update_noteq hu]

/-- A step of one thread moves no other. -/
theorem perform_pc_ne {e : Event} {s' : State} (he : s.perform? e = some s')
    (ht : e.thread? ≠ some t) : s'.pc t = s.pc t := by
  cases e with
  | tick u =>
    obtain ⟨q, -, rfl⟩ := Option.map_eq_some'.1 he
    exact tick_pc_ne (fun h => ht (by rw [h]; rfl)) q
  | allocFail u =>
    simp only [perform?] at he
    split at he
    · simp only [Option.ite_none_right_eq_some, Option.some.injEq] at he
      obtain ⟨-, rfl⟩ := he
      simp [Function.update_noteq fun h : t = u => ht (by rw [h]; rfl)]
    · cases he
  | _ =>
    simp only [perform?, Option.ite_none_right_eq_some, Option.some.injEq] at he
    obtain ⟨-, rfl⟩ := he
    simp_all [Event.thread?, Function.update_noteq, eq_comm]

/-- A thread that takes no step of an interleaving stays where it is. -/
theorem run?_pc_ne {es : List Event} {s' : State} (hs : s.run? es = some s')
    (ht : ∀ e ∈ es, e.thread? ≠ some t) : s'.pc t = s.pc t := by
  induction es generalizing s with
  | nil => cases hs; rfl
  | cons e es ih =>
    obtain ⟨s1, h1, hs⟩ := Option.bind_eq_some.1 hs
    rw [ih hs fun e' he' => ht e' (List.mem_cons_of_mem e he'),
      perform_pc_ne h1 (ht e (List.mem_cons_self e es))]

theorem mem_withRecord {u : Nat} : u ∈ (s.withRecord t).records ↔ u = t ∨ u ∈ s.records := by
  unfold withRecord
  split_ifs with h
  · exact ⟨Or.inr, fun hu => hu.elim (fun e => e ▸ h) id⟩
  · exact List.mem_cons

theorem mem_scanOrder {records : List Nat} {u i : Nat} :
    (u, i) ∈ scanOrder records ↔ u ∈ records ∧ i < maxHazardPointers := by
  simp [scanOrder]

theorem hazardous_iff {ptr : Option Nat} : s.hazardous ptr = true ↔
    ∃ u i, u ∈ s.records ∧ i < maxHazardPointers ∧ s.dom.slots u i = ptr := by
  simp [hazardous, scanOrder]

end State
end Threads
end Hazard
end Cauchy
