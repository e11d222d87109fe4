import Cauchy.Core.HazardSafety

/-!
# A reclaim that runs alone returns

`Cauchy.Core.HazardSafety` says what holds after any interleaving; this file is about progress.
`reclaim` waits on no other thread: its scan of a node loads every slot at most once, and
`cauchy_pool_free` retries its compare-and-swap only when another thread has moved the free
list.  So a `reclaim` whose thread takes every step alone returns:

* `ticks_scan`: the scan of a node stops at the first slot that holds the node's pointer, or
  after the last slot;
* `ticks_free`: `cauchy_pool_free` of an unlinked node pushes it in three steps;
* `ticks_reclaim`: the loop over the list, node by node, by induction on the nodes still ahead
  of the cursor;
* `reclaim_solo`: from any state an interleaving reaches with at most one thread inside
  `retired_pool`'s `alloc` at a time, an idle thread's `reclaim`, run alone, returns.  It has
  called back, in list order, the pointers of the nodes of its list that no slot holds, kept the
  other nodes in order, and `retired_count` counts what is left.

Under other threads' steps the free's compare-and-swap can fail again and again; this file says
nothing about such runs.
-/

set_option autoImplicit false

namespace Cauchy

/-! ## Splitting a linked list -/

namespace Pool

section Split

variable {link : Nat → Option Nat} {hd : Option Nat} {L : List Nat}

theorem Links.head_eq (h : Links link hd L) : hd = L.head? := by
  cases h <;> rfl

/-- What follows a prefix of a list is a list from its own first node. -/
theorem Links.of_append {pre rest : List Nat} (h : Links link hd (pre ++ rest)) :
    Links link rest.head? rest := by
  induction pre generalizing hd with
  | nil =>
    rw [List.nil_append] at h
    rw [← h.head_eq]
    exact h
  | cons b pre ih =>
    cases h with
    | cons h => exact ih h

/-- The last node of a prefix links to the first node after it. -/
theorem Links.link_getLast {pre rest : List Nat} {pv : Nat} (h : Links link hd (pre ++ rest))
    (hpv : pre.getLast? = some pv) : link pv = rest.head? := by
  induction pre generalizing hd with
  | nil => cases hpv
  | cons b pre ih =>
    cases h with
    | cons h =>
      rcases pre with _ | ⟨b', pre⟩
      · obtain rfl : b = pv := by simpa using hpv
        exact h.head_eq
      · exact ih h (by simpa using hpv)

end Split

end Pool

namespace Hazard
namespace Threads
namespace State

/-! ## Runs of one thread -/

/-- Thread `t`, taking every step alone, goes from `s` to `s'`. -/
def Ticks (t : Nat) (s s' : State) : Prop :=
  ∃ n, s.run? (List.replicate n (.tick t)) = some s'

section Ticks

variable {t : Nat} {s s₁ s₂ : State}

theorem run?_append (s : State) (l₁ l₂ : List Event) :
    s.run? (l₁ ++ l₂) = (s.run? l₁).bind (·.run? l₂) :=
  List.foldlM_append ..

theorem Ticks.refl (s : State) : Ticks t s s := ⟨0, rfl⟩

theorem Ticks.trans (h₁ : Ticks t s s₁) (h₂ : Ticks t s₁ s₂) : Ticks t s s₂ := by
  obtain ⟨m, hm⟩ := h₁
  obtain ⟨n, hn⟩ := h₂
  exact ⟨m + n, by rw [List.replicate_add, run?_append, hm]; exact hn⟩

/-- One step of `t`, then the rest. -/
theorem Ticks.head {q : Pc} (hq : s.pc t = some q) (h : Ticks t (s.tick t q) s₁) :
    Ticks t s s₁ := by
  obtain ⟨n, hn⟩ := h
  exact ⟨n + 1, by rw [List.replicate_succ, run?_cons]; simp [perform?, hq, hn]⟩

theorem Ticks.pc_ne (h : Ticks t s s₁) {u : Nat} (hu : u ≠ t) : s₁.pc u = s.pc u := by
  obtain ⟨n, hn⟩ := h
  exact run?_pc_ne hn fun e he hte => by
    rw [(List.eq_of_mem_replicate he : e = .tick t)] at hte
    exact hu (Option.some.inj hte).symm

end Ticks

/-! ## One node -/

section Node

variable {t : Nat} {s : State}

@[simp] theorem hazardous_setPc (q : Option Pc) : (s.setPc t q).hazardous = s.hazardous := rfl

theorem hazardous_congr {s' : State} (hr : s'.records = s.records)
    (hs : s'.dom.slots = s.dom.slots) : s'.hazardous = s.hazardous := by
  funext ptr
  simp only [hazardous, hr, hs]

/-- The scan of a node loads the slots of `todo` in turn and stops at the first that holds
`ptr`, or after the last. -/
theorem ticks_scan (s : State) (prev : Option Nat) (c : Nat) (nx ptr : Option Nat)
    (todo : List (Nat × Nat)) :
    Ticks t (s.setPc t (some (.scan prev c nx ptr todo)))
      (s.setPc t (some (if todo.any (fun ui => s.dom.slots ui.1 ui.2 == ptr) then
        .reclaim (some c) nx else .scan prev c nx ptr []))) := by
  induction todo with
  | nil => exact Ticks.refl _
  | cons ui todo ih =>
    obtain ⟨u, i⟩ := ui
    refine Ticks.head (Function.update_same _ _ _) ?_
    by_cases hu : s.dom.slots u i = ptr
    · simpa [State.tick, hu] using Ticks.refl _
    · rw [List.any_cons, beq_eq_false_iff_ne.2 hu, Bool.false_or]
      simpa [State.tick, hu] using ih

/-- `cauchy_pool_free (c)` alone: it loads `free_list`, links `c` to it, and its
compare-and-swap succeeds. -/
theorem ticks_free {prev nx : Option Nat} {c : Nat}
    (hq : s.pc t = some (.reclaimFree prev nx (.free c))) :
    Ticks t s (s.afterFree t
      { s.dom.pool with head := some c, link := Function.update s.dom.pool.link c s.dom.pool.head }
      prev nx) :=
  ⟨3, by simp [List.replicate, run?_cons, perform?, hq, State.tick, Pool.step, withPool, setPc,
    afterFree, run?]⟩

end Node

/-! ## The loop over the list -/

section Loop

variable {t : Nat}

/-- The pointers `reclaim` calls back from the nodes `rest`: those no slot holds. -/
def freedPtrs (s : State) (rest : List Nat) : List (Option Nat) :=
  (rest.filter fun b => !s.hazardous (s.dom.pool.link b)).map s.dom.pool.link

/-- The nodes of `rest` that `reclaim` keeps: those a slot holds the pointer of. -/
def keptNodes (s : State) (rest : List Nat) : List Nat :=
  rest.filter fun b => s.hazardous (s.dom.pool.link b)

theorem freedPtrs_congr {s s' : State} {rest : List Nat}
    (hh : s'.hazardous = s.hazardous) (hl : ∀ b ∈ rest, s'.dom.pool.link b = s.dom.pool.link b) :
    s'.freedPtrs rest = s.freedPtrs rest := by
  unfold freedPtrs
  rw [List.filter_congr fun b hb => by rw [hh, hl b hb]]
  exact List.map_congr_left fun b hb => hl b (List.mem_of_mem_filter hb)

theorem keptNodes_congr {s s' : State} {rest : List Nat}
    (hh : s'.hazardous = s.hazardous) (hl : ∀ b ∈ rest, s'.dom.pool.link b = s.dom.pool.link b) :
    s'.keptNodes rest = s.keptNodes rest :=
  List.filter_congr fun b hb => by rw [hh, hl b hb]

theorem length_freedPtrs_add (s : State) (rest : List Nat) :
    (s.freedPtrs rest).length + (s.keptNodes rest).length = rest.length := by
  rw [freedPtrs, keptNodes, List.length_map, List.length_eq_length_filter_add
    (fun b => s.hazardous (s.dom.pool.link b)) (l := rest)]
  omega

/-- **`reclaim`'s loop, run alone, returns.**  With its cursor between the nodes `pre` it has
kept and the nodes `rest` still ahead, `reclaim` calls back the pointers of the nodes of `rest`
that no slot holds, in order, unlinks and frees those nodes, and decrements `retired_count`
once for each. -/
theorem ticks_reclaim (rest : List Nat) : ∀ (s : State) (pre : List Nat),
    s.pc t = some (.reclaim pre.getLast? rest.head?) →
    Pool.Links s.dom.next (s.dom.retired t) (pre ++ rest) → (pre ++ rest).Nodup →
    s.dom.retiredCount t < 2 ^ 32 →
    ∃ s', Ticks t s s' ∧ s'.pc t = none ∧ s'.dom.pool.fresh = s.dom.pool.fresh ∧
      s'.callbacks = s.callbacks ++ s.freedPtrs rest ∧
      Pool.Links s'.dom.next (s'.dom.retired t) (pre ++ s.keptNodes rest) ∧
      s'.dom.retiredCount t =
        (s.dom.retiredCount t + (s.freedPtrs rest).length * (2 ^ 32 - 1)) % 2 ^ 32 := by
  induction rest with
  | nil =>
    intro s pre hq hl _ hcnt
    refine ⟨s.setPc t none, Ticks.head hq (Ticks.refl _), by simp, rfl, by simp [freedPtrs], ?_,
      by simpa [freedPtrs] using (Nat.mod_eq_of_lt hcnt).symm⟩
    simpa [keptNodes] using hl
  | cons c rest ih =>
    intro s pre hq hl hnd hcnt
    have hlc : Pool.Links s.dom.next (s.dom.next c) rest := by
      have := hl.of_append
      cases this with
      | cons h => exact h
    have hcr : c ∉ rest := (List.nodup_cons.1 (List.Nodup.of_append_right hnd)).1
    have hscan : Ticks t
        (s.setPc t (some (.scan pre.getLast? c (s.dom.next c) (s.dom.pool.link c)
          (scanOrder s.records))))
        (s.setPc t (some (if s.hazardous (s.dom.pool.link c) then .reclaim (some c) (s.dom.next c)
          else .scan pre.getLast? c (s.dom.next c) (s.dom.pool.link c) []))) :=
      ticks_scan s _ c _ _ _
    by_cases hh : s.hazardous (s.dom.pool.link c)
    · -- a slot holds the pointer: keep `c`, and move the cursor past it
      rw [if_pos hh] at hscan
      obtain ⟨s', hs', hpc, hf, hcb, hl', hn'⟩ :=
        ih (s.setPc t (some (.reclaim (some c) (s.dom.next c)))) (pre ++ [c]) (by simp [hlc.head_eq])
          (by simpa using hl) (by simpa using hnd) hcnt
      refine ⟨s', Ticks.head hq (hscan.trans hs'), hpc, hf, ?_, ?_, ?_⟩
      · simp [hcb, freedPtrs, List.filter_cons, hh]
      · simpa [keptNodes, List.filter_cons, hh] using hl'
      · simp [hn', freedPtrs, List.filter_cons, hh]
    · -- no slot holds it: call it back, unlink `c` and free it
      rw [if_neg hh] at hscan
      have hcp : c ∉ pre := fun h => (List.nodup_append.1 hnd).2.2 h (List.mem_cons_self c rest)
      let s₃ := (s.setPc t (some (.scan pre.getLast? c (s.dom.next c) (s.dom.pool.link c) []))).unlinkNode
        t pre.getLast? c (s.dom.next c)
      let s₄ := s₃.afterFree t
        { s₃.dom.pool with
          head := some c, link := Function.update s₃.dom.pool.link c s₃.dom.pool.head }
        pre.getLast? (s.dom.next c)
      have h34 : Ticks t s₃ s₄ := ticks_free (by simp [s₃])
      have hl4 : Pool.Links s₄.dom.next (s₄.dom.retired t) (pre ++ rest) := by
        cases hpv : pre.getLast? with
        | none =>
          obtain rfl := List.getLast?_eq_none_iff.1 hpv
          simpa [s₄, s₃, hpv, afterFree, unlinkNode] using hlc
        | some pv =>
          have hu := Pool.Links.unlink hl hnd (List.mem_append_left _ (List.mem_of_mem_getLast? hpv))
            (by rw [hl.link_getLast hpv]; rfl)
          rw [List.erase_append_right _ hcp, List.erase_cons_head] at hu
          simpa [s₄, s₃, hpv, afterFree, unlinkNode] using hu
      obtain ⟨s', hs', hpc, hf, hcb, hl', hn'⟩ := ih s₄ pre (by simp [s₄, afterFree, hlc.head_eq])
        hl4 (hnd.sublist ((List.sublist_cons_self c rest).append_left pre))
        (by simp [s₄, afterFree]; exact Nat.mod_lt _ (by norm_num))
      have hh4 : s₄.hazardous = s.hazardous :=
        hazardous_congr (by simp [s₄, s₃, afterFree, unlinkNode]) (by simp [s₄, s₃, afterFree])
      have hlink : ∀ b ∈ rest, s₄.dom.pool.link b = s.dom.pool.link b := fun b hb => by
        simp [s₄, s₃, afterFree, Function.update_noteq (ne_of_mem_of_not_mem hb hcr)]
      refine ⟨s', Ticks.head hq (hscan.trans ((Ticks.head (Function.update_same _ _ _) h34).trans hs')),
        hpc, by simp [hf, s₄, s₃, afterFree], ?_, ?_, ?_⟩
      · rw [hcb, freedPtrs_congr hh4 hlink]
        simp [s₄, s₃, afterFree, freedPtrs, List.filter_cons, hh]
      · rw [keptNodes_congr hh4 hlink] at hl'
        simpa [keptNodes, List.filter_cons, hh] using hl'
      · rw [hn', freedPtrs_congr hh4 hlink]
        simp [s₄, s₃, afterFree, freedPtrs, List.filter_cons, hh]
        omega

end Loop

/-! ## From any reachable state -/

section Solo

variable {s : State} {L : List Nat} {R : Nat → List Nat}

theorem length_nodes_le (next : Nat → Option Nat) :
    ∀ (fuel : Nat) (hd : Option Nat), (nodes next fuel hd).length ≤ fuel
  | 0, _ => le_refl 0
  | _ + 1, none => Nat.zero_le _
  | n + 1, some b => Nat.succ_le_succ (length_nodes_le next n (next b))

/-- The record `get_hazard_record` pushes holds no pointer: its slots are `NULL`. -/
theorem Inv.hazardous_withRecord (h : Inv s L R) (t p : Nat) :
    (s.withRecord t).hazardous (some p) = s.hazardous (some p) := by
  refine Bool.eq_iff_iff.2 ⟨fun hp => ?_, fun hp => ?_⟩
  · obtain ⟨u, i, -, hi, hs⟩ := hazardous_iff.1 hp
    exact hazardous_iff.2 ⟨u, i, (h.slot_record u i p hs).1, hi, hs⟩
  · obtain ⟨u, i, hu, hi, hs⟩ := hazardous_iff.1 hp
    exact hazardous_iff.2 ⟨u, i, mem_withRecord.2 (.inr hu), hi, hs⟩

/-- **A `reclaim` that runs alone returns.**  After any interleaving in which at most one thread
is inside `retired_pool`'s `alloc` at any time, an idle thread that calls
`cauchy_hazard_reclaim` and then takes every step alone returns after finitely many steps.  No
other thread has moved; the callbacks that ran are those of the nodes of its list whose pointer
no slot holds, in list order; the other nodes are its list, in order; and `retired_count` is
their number. -/
theorem reclaim_solo (cells : List (Option Nat)) (es : List Event) (s : State)
    (hs : (init cells).run? es = some s)
    (hx : ∀ k s', (init cells).run? (es.take k) = some s' → Pool.AllocExclusive s'.poolPcs)
    (t : Nat) (ht : s.pc t = none) :
    ∃ n s', s.run? (.reclaim t :: List.replicate n (.tick t)) = some s' ∧ s'.pc t = none ∧
      (∀ u, u ≠ t → s'.pc u = s.pc u) ∧
      s'.callbacks = s.callbacks ++ s.freedPtrs (s.retiredNodes t) ∧
      s'.retiredNodes t = s.keptNodes (s.retiredNodes t) ∧
      s'.dom.retiredCount t = (s'.retiredNodes t).length % 2 ^ 32 := by
  obtain ⟨L, R, h⟩ := inv_run? es (inv_init cells) hx hs
  let s₀ := (s.withRecord t).setPc t (some (.reclaim none (s.dom.retired t)))
  have hcnt : s₀.dom.retiredCount t = (R t).length % 2 ^ 32 := by
    simpa [s₀, owned, ht] using h.count t
  obtain ⟨s', ⟨n, hn⟩, hpc, hf, hcb, hl, hcnt'⟩ := ticks_reclaim (R t) s₀ []
    (by simp [s₀, (h.lists t).head_eq]) (h.lists t) (h.nodup t)
    (by rw [hcnt]; exact Nat.mod_lt _ (by norm_num))
  have hrun : s.run? (.reclaim t :: List.replicate n (.tick t)) = some s' := by
    rw [run?_cons]
    simpa [perform?, ht] using hn
  -- the new record, if any, holds no pointer of a node
  have hh : ∀ b ∈ R t, s₀.hazardous (s₀.dom.pool.link b) = s.hazardous (s.dom.pool.link b) :=
    fun b hb => by
      obtain ⟨p, hp⟩ := h.link_some hb
      simpa [s₀, hp] using h.hazardous_withRecord t p
  have hfreed : s₀.freedPtrs (R t) = s.freedPtrs (R t) :=
    congrArg (List.map _) (List.filter_congr fun b hb => by rw [hh b hb])
  have hkept : s₀.keptNodes (R t) = s.keptNodes (R t) := List.filter_congr fun b hb => hh b hb
  have hnodes : s'.retiredNodes t = s.keptNodes (R t) := by
    refine hkept ▸ nodes_eq hl ?_
    calc (s₀.keptNodes (R t)).length ≤ (R t).length := List.length_filter_le _ _
      _ = (s.retiredNodes t).length := by rw [h.retiredNodes_eq]
      _ ≤ s'.dom.pool.fresh := by rw [hf]; exact length_nodes_le _ _ _
  have hlen := length_freedPtrs_add s₀ (R t)
  refine ⟨n, s', hrun, hpc, fun u hu => ?_, ?_, ?_, ?_⟩
  · rw [Ticks.pc_ne ⟨n, hn⟩ hu]
    exact Function.update_noteq hu _ _
  · rw [hcb, hfreed, h.retiredNodes_eq]
    rfl
  · rw [hnodes, h.retiredNodes_eq]
  · rw [hnodes, ← hkept, hcnt', hcnt]
    omega

/-- Thread `0` protects `100` from cell `0`; the program clears both cells, and thread `1`
retires `100` and then `200`. -/
def twoRetired : List Event :=
  [.protect 0 0 0, .tick 0, .tick 0, .tick 0, .write 0 none, .write 1 none,
    .retire 1 100, .tick 1, .tick 1, .tick 1, .retire 1 200, .tick 1, .tick 1, .tick 1]

theorem twoRetired_reclaim :
    let s := ((init [some 100, some 200]).run? twoRetired).getD (init [])
    (init [some 100, some 200]).run? twoRetired = some s ∧ s.pc 1 = none ∧
      s.freedPtrs (s.retiredNodes 1) = [some 200] ∧
      (s.keptNodes (s.retiredNodes 1)).map s.dom.pool.link = [some 100] ∧
      ∃ n s', s.run? (.reclaim 1 :: List.replicate n (.tick 1)) = some s' ∧ s'.pc 1 = none ∧
        (∀ u, u ≠ 1 → s'.pc u = s.pc u) ∧
        s'.callbacks = s.callbacks ++ s.freedPtrs (s.retiredNodes 1) ∧
        s'.retiredNodes 1 = s.keptNodes (s.retiredNodes 1) ∧
        s'.dom.retiredCount 1 = (s'.retiredNodes 1).length % 2 ^ 32 :=
  ⟨rfl, by decide, by decide, by decide,
    reclaim_solo [some 100, some 200] twoRetired _ rfl
      (allocExclusive_of_one_retirer 1 _ _ (by decide)) 1 (by decide)⟩

end Solo


end State
end Threads
end Hazard
end Cauchy
