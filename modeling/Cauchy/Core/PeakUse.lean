import Mathlib

/-!
# Raising `peak_use` from several threads

After `cauchy_pool_alloc` pops a block, it raises `peak_use` to the `in_use` it computed:

    u64 peak = cauchy_atomic_load_u64(&pool->peak_use);
    while (in_use > peak) {
        if (cauchy_atomic_cas_u64(&pool->peak_use, &peak, in_use)) break;
    }

`cauchy_atomic_cas_u64` is a strong compare-and-swap: it fails only when `peak_use` differs from
`peak`, and then copies `peak_use` into `peak`.  This file runs any number of threads through this
loop, under every interleaving of their steps.  A thread's steps are its load and each loop test
together with the CAS it leads to: the test reads only locals, so joining it to the CAS changes no
interleaving of the accesses to `peak_use`.  The `in_use` of each thread is its input; how it was
computed is `Cauchy.Core.PoolStats`'s subject.  Values are `u64`s, compared unsigned, which is the
order of `Nat`.

* `inv_of_schedule`: along every schedule, `peak_use` never decreases, is its first value or some
  thread's `in_use`, and is at least the `in_use` of every thread that has left the loop.
* `run_peakUse_eq_max`: once every thread has left the loop, `peak_use` is the maximum of its
  first value and all the threads' `in_use`: no raise is lost.
* `done_of_count`: the loop is wait-free: with `n` threads, a thread has left it once it has taken
  `n + 3` steps, whatever the other threads do.
-/

set_option autoImplicit false

namespace Cauchy
namespace Pool
namespace Peak

/-- Where a thread is in the loop that raises `peak_use`, with the `in_use` it computed. -/
inductive Pc where
  /-- Before `u64 peak = cauchy_atomic_load_u64(&pool->peak_use)`. -/
  | load (inUse : Nat)
  /-- At the test `in_use > peak`, with its copy `peak`. -/
  | test (inUse peak : Nat)
  /-- Past the loop. -/
  | done (inUse : Nat)
  deriving DecidableEq, Repr

namespace Pc

/-- The thread's `in_use`. -/
def inUse : Pc → Nat
  | load v | test v _ | done v => v

/-- One step of a thread while `peak_use` holds `cell`: the load; or the loop test with the
`cauchy_atomic_cas_u64` it leads to, which writes `in_use` when `peak_use` still equals `peak` and
otherwise copies `peak_use` into `peak`.  The new `peak_use`, and where the thread is. -/
def step (cell : Nat) : Pc → Nat × Pc
  | load v => (cell, test v cell)
  | test v p =>
    if p < v then
      if cell = p then (v, done v) else (cell, test v cell)
    else (cell, done v)
  | done v => (cell, done v)

@[simp] theorem inUse_step (cell : Nat) (pc : Pc) : (pc.step cell).2.inUse = pc.inUse := by
  cases pc with
  | test v p => simp only [step]; split_ifs <;> rfl
  | _ => rfl

/-- A step leaves `peak_use` alone, or raises it to the thread's own `in_use`. -/
theorem step_fst (cell : Nat) (pc : Pc) :
    (pc.step cell).1 = cell ∨ cell < pc.inUse ∧ (pc.step cell).1 = pc.inUse := by
  cases pc with
  | test v p => simp only [step]; split_ifs <;> simp_all [inUse]
  | _ => exact .inl rfl

theorem le_step_fst (cell : Nat) (pc : Pc) : cell ≤ (pc.step cell).1 := by
  rcases step_fst cell pc with h | ⟨hlt, h⟩ <;> omega

/-- A thread that is at the loop test got there by the load or by a failed CAS, and holds
`peak_use` as it was then. -/
theorem step_eq_test {cell v p : Nat} {pc : Pc} (h : (pc.step cell).2 = test v p) :
    p = cell ∧ (pc = load v ∨ ∃ p₀, pc = test v p₀ ∧ p₀ < v ∧ p₀ ≠ cell) := by
  cases pc with
  | load w => cases h; simp
  | test w p₀ =>
    simp only [step] at h
    split_ifs at h with hlt heq; cases h
    exact ⟨rfl, .inr ⟨p₀, rfl, hlt, Ne.symm heq⟩⟩
  | done w => cases h

/-- A thread that leaves the loop was already out of it, or leaves with its `in_use` at most
`peak_use` — provided its copy `peak` was at most `peak_use`. -/
theorem step_eq_done {cell v : Nat} {pc : Pc} (hpc : ∀ w p, pc = test w p → p ≤ cell)
    (h : (pc.step cell).2 = done v) : pc = done v ∨ v ≤ (pc.step cell).1 := by
  cases pc with
  | load w => cases h
  | test w p =>
    have := hpc w p rfl
    simp only [step] at h ⊢
    split_ifs at h ⊢ <;> cases h <;> omega
  | done w => exact .inl h

@[simp] theorem step_done (cell v : Nat) : (done v).step cell = (cell, done v) := rfl

/-- A bound on the steps a thread at `pc` still takes, when `peak_use` only takes values of `V`:
each failed CAS moves its copy `peak` to a larger value of `V`. -/
def budget (V : Finset Nat) : Pc → Nat
  | load _ => V.card + 2
  | test _ p => (V.filter (p < ·)).card + 1
  | done _ => 0

/-- Each step of a thread in the loop uses up some of its budget. -/
theorem budget_step_lt {V : Finset Nat} {cell : Nat} {pc : Pc} (hV : cell ∈ V)
    (hpc : ∀ w p, pc = test w p → p ≤ cell) (hnd : ∀ v, pc ≠ done v) :
    budget V (pc.step cell).2 < budget V pc := by
  cases pc with
  | load w => simpa [step, budget] using Nat.lt_succ_of_le (V.card_filter_le (cell < ·))
  | test w p =>
    have hp := hpc w p rfl
    simp only [step]
    split_ifs with hlt heq
    · simp [budget]
    · -- a failed CAS: `peak` moves from `p` up to `cell`, a value of `V` above `p`
      refine Nat.succ_lt_succ (Finset.card_lt_card ⟨fun x hx => ?_, fun hsub => ?_⟩)
      · simp only [Finset.mem_filter] at hx ⊢; exact ⟨hx.1, by omega⟩
      · have := hsub (Finset.mem_filter.2 ⟨hV, lt_of_le_of_ne hp (Ne.symm heq)⟩)
        simp at this
    · simp [budget]
  | done w => exact absurd rfl (hnd w)

end Pc

/-- The threads `Fin n` at their places in the loop, and `peak_use`. -/
structure Sys (n : Nat) where
  peakUse : Nat
  pcs : Fin n → Pc

variable {n : Nat}

/-- Every thread before its load, with its `in_use`, and `peak_use` at `p0`. -/
def start (p0 : Nat) (inUse : Fin n → Nat) : Sys n := ⟨p0, fun i => .load (inUse i)⟩

@[simp] theorem start_pcs (p0 : Nat) (inUse : Fin n → Nat) (i : Fin n) :
    (start p0 inUse).pcs i = .load (inUse i) := rfl

/-- The values `peak_use` can hold: its first value `p0` and the threads' `in_use`. -/
def vals (p0 : Nat) (s : Sys n) : Finset Nat :=
  insert p0 (Finset.univ.image fun i => (s.pcs i).inUse)

namespace Sys

/-- Thread `i` takes one step. -/
def step (s : Sys n) (i : Fin n) : Sys n :=
  ⟨((s.pcs i).step s.peakUse).1, Function.update s.pcs i ((s.pcs i).step s.peakUse).2⟩

/-- The threads take steps in the order `sched`. -/
def run (s : Sys n) (sched : List (Fin n)) : Sys n := sched.foldl step s

variable (s : Sys n) (i j : Fin n)

@[simp] theorem run_nil : s.run [] = s := rfl

@[simp] theorem run_cons (sched : List (Fin n)) : s.run (i :: sched) = (s.step i).run sched := rfl

theorem run_append (l₁ l₂ : List (Fin n)) : s.run (l₁ ++ l₂) = (s.run l₁).run l₂ :=
  List.foldl_append _ _ _ _

@[simp] theorem step_pcs_self : (s.step i).pcs i = ((s.pcs i).step s.peakUse).2 :=
  Function.update_same _ _ _

theorem step_pcs_ne {i j : Fin n} (h : j ≠ i) : (s.step i).pcs j = s.pcs j :=
  Function.update_noteq h _ _

@[simp] theorem inUse_step_pcs : ((s.step i).pcs j).inUse = (s.pcs j).inUse := by
  by_cases h : j = i
  · subst h; simp
  · rw [step_pcs_ne s h]

@[simp] theorem vals_step (p0 : Nat) : vals p0 (s.step i) = vals p0 s := by simp [vals]

theorem vals_run (p0 : Nat) (sched : List (Fin n)) : vals p0 (s.run sched) = vals p0 s := by
  induction sched generalizing s with
  | nil => rfl
  | cons k sched ih => rw [run_cons, ih, vals_step]

theorem inUse_run (sched : List (Fin n)) : ((s.run sched).pcs i).inUse = (s.pcs i).inUse := by
  induction sched generalizing s with
  | nil => rfl
  | cons k sched ih => rw [run_cons, ih, inUse_step_pcs]

/-- A thread out of the loop stays out. -/
theorem done_run {v : Nat} (h : s.pcs i = .done v) (sched : List (Fin n)) :
    (s.run sched).pcs i = .done v := by
  induction sched generalizing s with
  | nil => exact h
  | cons k sched ih =>
    refine ih _ ?_
    by_cases hk : i = k
    · subst hk; simp [h]
    · rw [step_pcs_ne s hk, h]

theorem peakUse_le_run (sched : List (Fin n)) : s.peakUse ≤ (s.run sched).peakUse := by
  induction sched generalizing s with
  | nil => exact le_rfl
  | cons k sched ih => exact (Pc.le_step_fst s.peakUse (s.pcs k)).trans (ih (s.step k))

/-- **`peak_use` never decreases** along a run. -/
theorem peakUse_mono (l₁ l₂ : List (Fin n)) :
    (s.run l₁).peakUse ≤ (s.run (l₁ ++ l₂)).peakUse := by
  rw [run_append]; exact peakUse_le_run _ _

end Sys

/-! ## What holds along every schedule -/

/-- The invariant of the loop, for `peak_use` first at `p0`. -/
structure Inv (p0 : Nat) (s : Sys n) : Prop where
  /-- `peak_use` never falls below its first value. -/
  le_peakUse : p0 ≤ s.peakUse
  /-- `peak_use` holds its first value or some thread's `in_use`. -/
  peakUse_mem : s.peakUse ∈ vals p0 s
  /-- A thread's copy `peak` is at most `peak_use`. -/
  test_le : ∀ i v p, s.pcs i = .test v p → p ≤ s.peakUse
  /-- A thread out of the loop has its `in_use` at most `peak_use`. -/
  done_le : ∀ i v, s.pcs i = .done v → v ≤ s.peakUse

theorem inv_start (p0 : Nat) (inUse : Fin n → Nat) : Inv p0 (start p0 inUse) :=
  ⟨le_rfl, Finset.mem_insert_self _ _, fun _ _ _ h => (by cases h), fun _ _ h => (by cases h)⟩

/-- Every step of every thread keeps the invariant. -/
theorem Inv.step {p0 : Nat} {s : Sys n} (h : Inv p0 s) (i : Fin n) : Inv p0 (s.step i) := by
  have hle : s.peakUse ≤ (s.step i).peakUse := Pc.le_step_fst _ _
  refine ⟨h.le_peakUse.trans hle, ?_, fun j v p hj => ?_, fun j v hj => ?_⟩
  · rw [Sys.vals_step]
    rcases Pc.step_fst s.peakUse (s.pcs i) with h1 | ⟨-, h1⟩
    · exact (show (s.step i).peakUse = s.peakUse from h1) ▸ h.peakUse_mem
    · rw [show (s.step i).peakUse = (s.pcs i).inUse from h1]
      exact Finset.mem_insert_of_mem (Finset.mem_image_of_mem _ (Finset.mem_univ i))
  · by_cases hji : j = i
    · subst hji
      rw [Sys.step_pcs_self] at hj
      exact (Pc.step_eq_test hj).1 ▸ hle
    · rw [Sys.step_pcs_ne s hji] at hj; exact (h.test_le j v p hj).trans hle
  · by_cases hji : j = i
    · subst hji
      rw [Sys.step_pcs_self] at hj
      rcases Pc.step_eq_done (h.test_le j) hj with hd | hd
      · exact (h.done_le j v hd).trans hle
      · exact hd
    · rw [Sys.step_pcs_ne s hji] at hj; exact (h.done_le j v hj).trans hle

theorem Inv.run {p0 : Nat} {s : Sys n} (h : Inv p0 s) (sched : List (Fin n)) :
    Inv p0 (s.run sched) := by
  induction sched generalizing s with
  | nil => exact h
  | cons k sched ih => exact ih (h.step k)

/-- **Safety under every interleaving.**  Along every schedule of threads running the loop from
`peak_use = p0`: `peak_use` is never below `p0`, holds `p0` or some thread's `in_use` (nothing
out of thin air), is at least the `in_use` of every thread that has left the loop, and no later
step lowers it. -/
theorem inv_of_schedule (p0 : Nat) (inUse : Fin n → Nat) (sched : List (Fin n)) :
    Inv p0 ((start p0 inUse).run sched) ∧
      ∀ l, ((start p0 inUse).run sched).peakUse ≤ ((start p0 inUse).run (sched ++ l)).peakUse :=
  ⟨(inv_start p0 inUse).run sched, Sys.peakUse_mono _ sched⟩

/-- **No raise is lost.**  Once every thread has left the loop, `peak_use` is the maximum of its
first value and every thread's `in_use`, whatever the interleaving was. -/
theorem run_peakUse_eq_max (p0 : Nat) (inUse : Fin n → Nat) (sched : List (Fin n))
    (hdone : ∀ i, ((start p0 inUse).run sched).pcs i = .done (inUse i)) :
    ((start p0 inUse).run sched).peakUse = max p0 (Finset.univ.sup inUse) := by
  have h := (inv_start p0 inUse).run sched
  have hin : ∀ i, (((start p0 inUse).run sched).pcs i).inUse = inUse i := fun i =>
    Sys.inUse_run _ i sched
  apply le_antisymm
  · have hmem := h.peakUse_mem
    simp only [vals, hin, Finset.mem_insert, Finset.mem_image, Finset.mem_univ, true_and] at hmem
    rcases hmem with hp | ⟨i, hi⟩
    · rw [hp]; exact le_max_left _ _
    · rw [← hi]; exact le_max_of_le_right (Finset.le_sup (Finset.mem_univ i))
  · exact max_le h.le_peakUse (Finset.sup_le fun i _ => h.done_le i _ (hdone i))

/-- Two threads that both raise `peak_use` from `1`, interleaved so that the second one's CAS
fails once and retries. -/
def raceSched : List (Fin 2) := [0, 1, 0, 1, 1]

theorem raceSched_peakUse_eq_max :
    (∀ i, ((start 1 ![3, 5]).run raceSched).pcs i = .done (![3, 5] i)) ∧
      ((start 1 ![3, 5]).run raceSched).peakUse = max 1 (Finset.univ.sup ![3, 5]) :=
  have h : ∀ i, ((start 1 ![3, 5]).run raceSched).pcs i = .done (![3, 5] i) := by decide
  ⟨h, run_peakUse_eq_max 1 ![3, 5] raceSched h⟩

/-! ## Wait-freedom -/

/-- Along a run in which thread `i` stays in the loop, each of its steps uses up some of its
budget, and the other threads' steps leave it alone. -/
theorem budget_run {p0 : Nat} {s : Sys n} (h : Inv p0 s) (i : Fin n) (sched : List (Fin n))
    (hnd : ∀ v, (s.run sched).pcs i ≠ .done v) :
    sched.count i + Pc.budget (vals p0 s) ((s.run sched).pcs i) ≤
      Pc.budget (vals p0 s) (s.pcs i) := by
  induction sched generalizing s with
  | nil => simp
  | cons k sched ih =>
    have ih := ih (h.step k) hnd
    rw [Sys.vals_step] at ih
    rw [List.count_cons, Sys.run_cons]
    by_cases hk : k = i
    · subst hk
      have hnd' : ∀ v, s.pcs k ≠ .done v := fun v hv => hnd v (Sys.done_run _ _ hv _)
      have := Pc.budget_step_lt h.peakUse_mem (h.test_le k) hnd'
      rw [Sys.step_pcs_self] at ih
      simp only [beq_self_eq_true, if_true]
      omega
    · rw [Sys.step_pcs_ne s (Ne.symm hk)] at ih
      simp only [beq_iff_eq, hk, if_false]
      omega

theorem card_vals_le (p0 : Nat) (s : Sys n) : (vals p0 s).card ≤ n + 1 :=
  (Finset.card_insert_le _ _).trans
    (Nat.succ_le_succ ((Finset.card_image_le).trans (Finset.card_fin n).le))

/-- **The loop is wait-free.**  With `n` threads, a thread has left the loop once it has taken
`n + 3` steps, under every interleaving: each CAS that fails moves its copy `peak` to a larger
value that `peak_use` held, and `peak_use` only ever holds `n + 1` values. -/
theorem done_of_count (p0 : Nat) (inUse : Fin n → Nat) (sched : List (Fin n)) (i : Fin n)
    (hcount : n + 3 ≤ sched.count i) : ((start p0 inUse).run sched).pcs i = .done (inUse i) := by
  have hin := Sys.inUse_run (start p0 inUse) i sched
  have hV := card_vals_le p0 (start p0 inUse)
  cases hpc : ((start p0 inUse).run sched).pcs i with
  | done v => rw [hpc] at hin; exact congrArg Pc.done hin
  | load v =>
    have := budget_run (inv_start p0 inUse) i sched (by simp [hpc])
    simp only [hpc, Pc.budget, start_pcs] at this
    omega
  | test v p =>
    have := budget_run (inv_start p0 inUse) i sched (by simp [hpc])
    simp only [hpc, Pc.budget, start_pcs] at this
    omega

/-- Three threads, each scheduled `6 = 3 + 3` times in turn. -/
def roundRobin : List (Fin 3) := (List.replicate 6 [0, 1, 2]).flatten

theorem roundRobin_done : 3 + 3 ≤ roundRobin.count 2 ∧
    ((start 0 ![7, 2, 9]).run roundRobin).pcs 2 = .done 9 :=
  have h : 3 + 3 ≤ roundRobin.count 2 := by decide
  ⟨h, done_of_count 0 ![7, 2, 9] roundRobin 2 h⟩

end Peak
end Pool
end Cauchy
