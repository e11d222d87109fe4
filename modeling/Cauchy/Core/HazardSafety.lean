import Cauchy.Core.HazardThreads

/-!
# Hazard pointers are safe when retires do not overlap inside the retired pool

`Cauchy.Core.Hazard` exhibits a run in which a retire callback runs twice
(`reclaim_runs_callback_twice`): two `cauchy_hazard_retire` calls overlapping inside
`retired_pool`'s `cauchy_pool_alloc` are handed one `retired_node_t`.  This file proves, over the
step-level model of `Cauchy.Core.HazardThreads`, that this overlap is the only way in: under any
interleaving in which no two threads are inside `retired_pool`'s `alloc` at once — a `reclaim`'s
`cauchy_pool_free` may still run inside a `retire`'s `alloc` —

* `callbacks_safe_of_exclusive_alloc`: a step that runs a callback is one of `retire`'s two
  fallbacks, which call back the pointer being retired at once, or `reclaim`'s, for a pointer no
  slot holds whose `protect` has returned; `retired_count` counts the thread's nodes;
* `destroy_calls_back_once`: `cauchy_hazard_domain_destroy` completes the callbacks so that each
  `retire`'s has run exactly once.

The fallbacks look at no slot: `lateFallback_run` runs one for a pointer a settled slot holds.
Beside these, `callbacks_count_le_retires`: no callback runs more often than its pointer was
retired.  `allocExclusive_of_one_retirer` meets the hypothesis for every program in which one
thread alone calls `retire`.

`Inv` is what holds after such an interleaving, over the free list `L` of `retired_pool` and the
node lists `R` of the threads.  It carries `Pool.Inv` for `retired_pool`, where the blocks a
thread owns are the nodes of its list and the node its `reclaim` is giving back; the lists are
`Pool.Links` over the nodes' `next` fields, and `reclaim`'s `prev`/`curr` pair is `CursorOk` on its
list.  Its heart is `Inv.guarded`: a slot whose `protect` has returned and that holds `p` is still
to be loaded by every scan for `p` under way.  Beside it, `Inv.conserved`: the callbacks that have
run and the pointers the threads account for — the one a `retire` inside `alloc` holds, and those
of the nodes of its list — are the `retire` calls, each once.  There is one lemma per kind of
step, `Inv.perform` assembles them, and `inv_run?` carries `Inv` over whole runs.
-/

set_option autoImplicit false

namespace Cauchy

/-! ## Unlinking from a linked list -/

namespace Pool

section Unlink

variable {link : Nat → Option Nat} {hd : Option Nat} {R : List Nat}

/-- A node's successor on the list is on the list. -/
theorem Links.mem_next (h : Links link hd R) {pv c : Nat} (hpv : pv ∈ R)
    (hc : link pv = some c) : c ∈ R := by
  induction h with
  | nil => cases hpv
  | @cons b l hl ih =>
    rcases List.mem_cons.1 hpv with rfl | hpv
    · rw [hc] at hl
      exact List.mem_cons_of_mem _ hl.mem_of_head
    · exact List.mem_cons_of_mem _ (ih hpv)

/-- On a list without repeats no node is its own successor. -/
theorem Links.link_ne_self (h : Links link hd R) (hnd : R.Nodup) {b : Nat} (hb : b ∈ R) :
    link b ≠ some b := by
  induction h with
  | nil => cases hb
  | @cons c l hl ih =>
    have hcl := (List.nodup_cons.1 hnd)
    rcases List.mem_cons.1 hb with rfl | hb
    · intro hbb
      rw [hbb] at hl
      exact hcl.1 hl.mem_of_head
    · exact ih hcl.2 hb

/-- Setting `pv`'s successor to the successor of its successor `c` takes `c` off the list. -/
theorem Links.unlink (h : Links link hd R) (hnd : R.Nodup) {pv c : Nat} (hpv : pv ∈ R)
    (hc : link pv = some c) : Links (Function.update link pv (link c)) hd (R.erase c) := by
  induction h with
  | nil => cases hpv
  | @cons b l hl ih =>
    have hbl := List.nodup_cons.1 hnd
    have hcl : c ∈ l := by
      rcases List.mem_cons.1 hpv with rfl | hpv
      · rw [hc] at hl
        exact hl.mem_of_head
      · exact hl.mem_next hpv hc
    have hcb : c ≠ b := fun e => hbl.1 (e ▸ hcl)
    rw [List.erase_cons_tail (by simpa using hcb.symm)]
    rcases List.mem_cons.1 hpv with rfl | hpv
    · rw [hc] at hl
      obtain ⟨l', rfl, hl'⟩ := hl.eq_cons
      rw [List.erase_cons_head]
      exact .cons (by
        rw [Function.update_same]
        exact hl'.update (fun e => hbl.1 (List.mem_cons_of_mem c e)) _)
    · have hpb : b ≠ pv := fun e => hbl.1 (e ▸ hpv)
      exact .cons (by rw [Function.update_noteq hpb]; exact ih hbl.2 hpv)

end Unlink

end Pool

namespace Hazard

/-- `reclaim`'s `prev` and `curr` on a retired list `R` that starts at `head`: `curr` is the
head while `prev` is null, and `prev`'s successor on the list after. -/
def CursorOk (next : Nat → Option Nat) (head : Option Nat) (R : List Nat) :
    Option Nat → Option Nat → Prop
  | none, curr => curr = head
  | some pv, curr => pv ∈ R ∧ next pv = curr

theorem CursorOk.frame {next next' : Nat → Option Nat} {head : Option Nat} {R : List Nat}
    {prev curr : Option Nat} (h : CursorOk next head R prev curr)
    (hnext : ∀ c ∈ R, next' c = next c) : CursorOk next' head R prev curr := by
  cases prev with
  | none => exact h
  | some pv => exact ⟨h.1, (hnext pv h.1).trans h.2⟩

theorem CursorOk.mem_curr {next : Nat → Option Nat} {head : Option Nat} {R : List Nat}
    {prev : Option Nat} {c : Nat} (h : CursorOk next head R prev (some c))
    (hl : Pool.Links next head R) : c ∈ R := by
  cases prev with
  | none => exact (h ▸ hl).mem_of_head
  | some pv => exact hl.mem_next h.1 h.2

theorem mem_of_getD_eq_some {cells : List (Option Nat)} {c q : Nat}
    (h : cells.getD c none = some q) : some q ∈ cells := by
  rw [List.getD_eq_getElem?_getD] at h
  cases hc : cells[c]? with
  | none => simp [hc] at h
  | some x =>
    simp only [hc, Option.getD_some] at h
    exact h ▸ List.getElem?_mem hc

/-- Replacing thread `t`'s list in the concatenation of the lists of the threads `records`. -/
theorem flatMap_update_perm {α : Type} {records : List Nat} {F : Nat → List α} {t : Nat}
    {l : List α} (hnd : records.Nodup) (ht : t ∈ records) :
    (records.flatMap (Function.update F t l) ++ F t).Perm (records.flatMap F ++ l) := by
  have hperm := List.perm_cons_erase ht
  have hrest : (records.erase t).flatMap (Function.update F t l) = (records.erase t).flatMap F :=
    List.flatMap_congr fun u hu =>
      Function.update_noteq (fun e => ((hnd.mem_erase_iff.1 hu).1 e)) _ _
  calc List.Perm (records.flatMap (Function.update F t l) ++ F t)
        ((t :: records.erase t).flatMap (Function.update F t l) ++ F t) :=
        (hperm.flatMap_right _).append_right _
      _ = l ++ ((records.erase t).flatMap F ++ F t) := by simp [hrest]
      List.Perm _ (((records.erase t).flatMap F ++ F t) ++ l) := List.perm_append_comm
      List.Perm _ ((t :: records.erase t).flatMap F ++ l) := by
        rw [List.flatMap_cons]
        exact List.perm_append_comm.append_right l
      List.Perm _ (records.flatMap F ++ l) := ((hperm.flatMap_right _).append_right _).symm

namespace Threads

/-! ## The invariant -/

theorem retiring_eq_none {y : Option Pc} (hy : y.bind Pc.poolPc = none) :
    y.bind Pc.retiring = none := by
  rcases y with _ | q
  · rfl
  · cases q <;> first | rfl | cases hy

theorem returning_eq_nil {y : Option Pc} (hy : y.bind Pc.poolPc = none) :
    (y.map Pc.returning).getD [] = [] := by
  rcases y with _ | q
  · rfl
  · cases q <;> first | rfl | cases hy

/-- What holds of a thread at `pc`, given the lists `R`: a `protect` stays in range and, once it
has stored, its slot holds what it stored; a `retire` is inside `alloc`; a `reclaim`'s cursor is
on its list, and a scan is for the node at the cursor, with its `next` and `ptr`; a `reclaim`
giving a node back is inside `free`. -/
def ThreadOk (d : Domain) (R : Nat → List Nat) (t : Nat) : Pc → Prop
  | .protectLoad i _ | .protectStore i _ _ => i < maxHazardPointers
  | .protectCheck i _ ptr => i < maxHazardPointers ∧ d.slots t i = ptr
  | .retire _ pc => pc.allocating
  | .reclaim prev curr => CursorOk d.next (d.retired t) (R t) prev curr
  | .scan prev c nx ptr _ =>
    CursorOk d.next (d.retired t) (R t) prev (some c) ∧ nx = d.next c ∧ ptr = d.pool.link c
  | .reclaimFree prev nx pc =>
    pc.allocating = false ∧ CursorOk d.next (d.retired t) (R t) prev nx

/-- What a thread's facts need of a step that leaves the thread where it is. -/
theorem ThreadOk.frame {d d' : Domain} {R R' : Nat → List Nat} {u : Nat} {q : Pc}
    (h : ThreadOk d R u q) (hl : Pool.Links d.next (d.retired u) (R u)) (hR : R' u = R u)
    (hslots : d'.slots u = d.slots u) (hnext : ∀ c ∈ R u, d'.next c = d.next c)
    (hret : d'.retired u = d.retired u) (hlink : ∀ c ∈ R u, d'.pool.link c = d.pool.link c) :
    ThreadOk d' R' u q := by
  cases q with
  | protectLoad | protectStore | retire => exact h
  | protectCheck i c ptr => exact ⟨h.1, by rw [hslots]; exact h.2⟩
  | reclaim prev curr =>
    show CursorOk d'.next (d'.retired u) (R' u) prev curr
    rw [hR, hret]
    exact CursorOk.frame h hnext
  | scan prev c nx ptr todo =>
    have hc := h.1.mem_curr hl
    exact ⟨by rw [hR, hret]; exact h.1.frame hnext, h.2.1.trans (hnext c hc).symm,
      h.2.2.trans (hlink c hc).symm⟩
  | reclaimFree prev nx pc =>
    refine ⟨h.1, ?_⟩
    rw [hR, hret]
    exact h.2.frame hnext

namespace State

/-- The blocks of `retired_pool` thread `t` owns, given the lists `R`: the nodes of its list, and
the node its `reclaim` is giving back. -/
def owned (s : State) (R : Nat → List Nat) (t : Nat) : List Nat :=
  R t ++ ((s.pc t).map Pc.returning).getD []

/-- The pointers awaiting reclamation that thread `t` accounts for: the one its `retire` holds
inside `alloc`, and those of the nodes of its list. -/
def pendingOf (s : State) (R : Nat → List Nat) (t : Nat) : List (Option Nat) :=
  ((s.pc t).bind Pc.retiring).toList.map some ++ (R t).map s.dom.pool.link

/-- The pointers awaiting reclamation, thread after thread of the record list. -/
def pending (s : State) (R : Nat → List Nat) : List (Option Nat) :=
  s.records.flatMap (s.pendingOf R)

/-- The invariant, over the free list `L` of `retired_pool` and the node lists `R`. -/
structure Inv (s : State) (L : List Nat) (R : Nat → List Nat) : Prop where
  pool : Pool.Inv s.dom.pool s.poolPcs (s.owned R) L
  lists : ∀ t, Pool.Links s.dom.next (s.dom.retired t) (R t)
  thread_ok : ∀ t pc, s.pc t = some pc → ThreadOk s.dom R t pc
  records_nodup : s.records.Nodup
  /-- A thread inside a call, or with nodes on its list, has a record. -/
  busy_record : ∀ t pc, s.pc t = some pc → t ∈ s.records
  list_record : ∀ t, ∀ c ∈ R t, t ∈ s.records
  /-- Each `retire` has had its callback run or awaits it, and not both. -/
  conserved : (s.callbacks ++ s.pending R).Perm (s.retiredPtrs.map some)
  count : ∀ t, s.dom.retiredCount t = (s.owned R t).length % 2 ^ 32
  /-- The program stores no pointer awaiting reclamation, and `retire` takes only unlinked
  ones. -/
  pending_not_cell : ∀ t p, some p ∈ s.pendingOf R t → some p ∉ s.cells
  slot_record : ∀ t i p, s.dom.slots t i = some p → t ∈ s.records ∧ i < maxHazardPointers
  /-- A settled slot holding `p` is still to be loaded by every scan for `p`. -/
  guarded : ∀ t i p, s.dom.slots t i = some p → s.Settled t i →
    ∀ w prev c nx todo, s.pc w = some (.scan prev c nx (some p) todo) → (t, i) ∈ todo

section Basic

variable {s s' : State} {L : List Nat} {R R' : Nat → List Nat} {t : Nat}

theorem owned_of_pc {q : Pc} (hq : s.pc t = some q) : s.owned R t = R t ++ q.returning := by
  simp [owned, hq]

theorem mem_owned {c : Nat} (hc : c ∈ R t) : c ∈ s.owned R t :=
  List.mem_append_left _ hc

theorem Inv.nodup (h : Inv s L R) (t : Nat) : (R t).Nodup :=
  (h.pool.held_nodup t).sublist (List.sublist_append_left _ _)

theorem Inv.disjoint (h : Inv s L R) {u c : Nat} (htu : t ≠ u) (hc : c ∈ R t) : c ∉ R u :=
  fun hc' => h.pool.held_disjoint t u htu c (mem_owned hc) (mem_owned hc')

/-- The node a `reclaim` is giving back is on no list. -/
theorem Inv.not_returning (h : Inv s L R) {q : Pc} (hq : s.pc t = some q) :
    ∀ u, ∀ c ∈ R u, c ∉ q.returning := by
  intro u c hc hr
  have hmem : c ∈ s.owned R t := by rw [owned_of_pc hq]; exact List.mem_append_right _ hr
  rcases eq_or_ne u t with rfl | hu
  · have hnd := h.pool.held_nodup u
    rw [owned_of_pc hq, List.nodup_append] at hnd
    exact hnd.2.2 hc hr
  · exact h.pool.held_disjoint t u hu.symm c hmem (mem_owned hc)

/-- A thread without a record is idle and has an empty list. -/
theorem Inv.idle_of_not_mem (h : Inv s L R) (ht : t ∉ s.records) : s.pc t = none ∧ R t = [] :=
  ⟨Option.eq_none_iff_forall_not_mem.2 fun q hq => ht (h.busy_record t q hq),
    List.eq_nil_iff_forall_not_mem.2 fun c hc => ht (h.list_record t c hc)⟩

/-- The account of one thread, next to those of the others. -/
theorem pending_perm (ht : t ∈ s.records) :
    (s.pending R).Perm (s.pendingOf R t ++ (s.records.erase t).flatMap (s.pendingOf R)) := by
  have := (List.perm_cons_erase ht).flatMap_right (s.pendingOf R)
  rwa [List.flatMap_cons] at this

theorem count_map_some (l : List Nat) (p : Nat) : (l.map some).count (some p) = l.count p := by
  induction l with
  | nil => rfl
  | cons a l ih => by_cases hp : a = p <;> simp [List.count_cons, ih, hp]

/-- A pointer awaits reclamation exactly when some thread accounts for it. -/
theorem Inv.awaiting_iff (h : Inv s L R) {p : Nat} :
    s.awaiting p = true ↔ some p ∈ s.pending R := by
  have hc : (s.callbacks ++ s.pending R).count (some p) = (s.retiredPtrs.map some).count (some p) :=
    h.conserved.countP_eq _
  rw [List.count_append, count_map_some] at hc
  rw [awaiting, decide_eq_true_iff, ← List.count_pos_iff]
  omega

/-- A thread that accounts for a pointer has a record. -/
theorem Inv.mem_records (h : Inv s L R) {x : Option Nat} (hx : x ∈ s.pendingOf R t) :
    t ∈ s.records := by
  rcases List.mem_append.1 hx with hx | hx
  · cases hq : s.pc t with
    | none => simp [hq] at hx
    | some q => exact h.busy_record t q hq
  · obtain ⟨c, hc, -⟩ := List.mem_map.1 hx
    exact h.list_record t c hc

/-- Every pointer a thread accounts for is one. -/
theorem Inv.some_of_pendingOf (h : Inv s L R) {x : Option Nat} (hx : x ∈ s.pendingOf R t) :
    ∃ p, x = some p := by
  have hx' : x ∈ s.retiredPtrs.map some := h.conserved.subset
    (List.mem_append_right _ (List.mem_flatMap.2 ⟨t, h.mem_records hx, hx⟩))
  obtain ⟨p, -, rfl⟩ := List.mem_map.1 hx'
  exact ⟨p, rfl⟩

/-- The pointer of a node on a list. -/
theorem Inv.link_some (h : Inv s L R) {c : Nat} (hc : c ∈ R t) :
    ∃ p, s.dom.pool.link c = some p :=
  h.some_of_pendingOf (List.mem_append_right _ (List.mem_map_of_mem _ hc))

/-- A step that changes the accounts of thread `t` alone keeps `conserved` when it moves
pointers between `t`'s account and the callbacks, or adds new retires to both sides. -/
theorem Inv.conserved_step (h : Inv s L R) (ht : t ∈ s.records) (hrec : s'.records = s.records)
    (hother : ∀ u, u ≠ t → s'.pendingOf R' u = s.pendingOf R u)
    (hacc : (s'.callbacks ++ s'.pendingOf R' t ++ s.retiredPtrs.map some).Perm
      (s.callbacks ++ s.pendingOf R t ++ s'.retiredPtrs.map some)) :
    (s'.callbacks ++ s'.pending R').Perm (s'.retiredPtrs.map some) := by
  have hrest : (s'.records.erase t).flatMap (s'.pendingOf R') =
      (s.records.erase t).flatMap (s.pendingOf R) := by
    rw [hrec]
    exact List.flatMap_congr fun u hu => hother u (h.records_nodup.mem_erase_iff.1 hu).1
  have h' : s'.pending R' = s'.records.flatMap (s'.pendingOf R') := rfl
  have hp' := (List.perm_cons_erase (hrec ▸ ht : t ∈ s'.records)).flatMap_right (s'.pendingOf R')
  rw [List.flatMap_cons, hrest, ← h'] at hp'
  have hp := pending_perm (R := R) ht
  rw [← List.perm_append_right_iff (s.retiredPtrs.map some)]
  calc List.Perm (s'.callbacks ++ s'.pending R' ++ s.retiredPtrs.map some)
        (s'.callbacks ++ s'.pendingOf R' t ++ s.retiredPtrs.map some ++
          (s.records.erase t).flatMap (s.pendingOf R)) := by
        refine ((hp'.append_left _).append_right _).trans ?_
        simp only [List.append_assoc]
        exact List.Perm.append_left _ (List.Perm.append_left _ List.perm_append_comm)
      List.Perm _ (s.callbacks ++ s.pendingOf R t ++ s'.retiredPtrs.map some ++
          (s.records.erase t).flatMap (s.pendingOf R)) := hacc.append_right _
      List.Perm _ (s.callbacks ++ s.pending R ++ s'.retiredPtrs.map some) := by
        refine List.Perm.trans ?_ ((hp.append_left _).append_right _).symm
        simp only [List.append_assoc]
        exact List.Perm.append_left _ (List.Perm.append_left _ List.perm_append_comm)
      List.Perm _ (s'.retiredPtrs.map some ++ s.retiredPtrs.map some) :=
        (h.conserved.append_right _).trans List.perm_append_comm

/-- A settled slot holding `p` has no scan for `p` under way when `p` is in a cell. -/
theorem Inv.not_scanned (h : Inv s L R) {p : Nat} (hp : some p ∈ s.cells) {w : Nat}
    {prev : Option Nat} {c : Nat} {nx : Option Nat} {todo : List (Nat × Nat)} :
    s.pc w ≠ some (.scan prev c nx (some p) todo) := fun hw => by
  obtain ⟨hcur, -, hptr⟩ := h.thread_ok w _ hw
  have hc := hcur.mem_curr (h.lists w)
  exact h.pending_not_cell w p (List.mem_append_right _ (hptr ▸ List.mem_map_of_mem _ hc)) hp

end Basic

/-! ## Steps outside `retired_pool` -/

section Quiet

variable {s : State} {L : List Nat} {R : Nat → List Nat} {t : Nat}

theorem poolPcs_update {s' : State} {y : Option Pc} (hpc : s'.pc = Function.update s.pc t y) :
    s'.poolPcs = Function.update s.poolPcs t (y.bind Pc.poolPc) := by
  funext u
  rcases eq_or_ne u t with rfl | hu
  · simp [poolPcs, hpc]
  · simp [poolPcs, hpc, Function.update_noteq hu]

theorem owned_update {s' : State} {R' : Nat → List Nat} {y : Option Pc}
    (hpc : s'.pc = Function.update s.pc t y) (hR : ∀ u, u ≠ t → R' u = R u) :
    s'.owned R' = Function.update (s.owned R) t (R' t ++ (y.map Pc.returning).getD []) := by
  funext u
  rcases eq_or_ne u t with rfl | hu
  · simp [owned, hpc]
  · simp [owned, hpc, Function.update_noteq hu, hR u hu]

/-- A thread's account depends on what it is retiring, its list, and the pointers of its
nodes. -/
theorem pendingOf_frame {s' : State} {R' : Nat → List Nat} {u : Nat}
    (hret : (s'.pc u).bind Pc.retiring = (s.pc u).bind Pc.retiring) (hR : R' u = R u)
    (hlink : ∀ c ∈ R u, s'.dom.pool.link c = s.dom.pool.link c) :
    s'.pendingOf R' u = s.pendingOf R u := by
  simp only [pendingOf, hret, hR]
  exact congrArg _ (List.map_congr_left hlink)

/-- Moving thread `t` between places outside `retired_pool` keeps the invariant when the new place
is right for it, a scan it starts has every settled slot holding its pointer still to load, and
a slot the move settles is still to be loaded by every scan for its pointer. -/
theorem Inv.setPc (h : Inv s L R) {y : Option Pc}
    (hold : (s.pc t).bind Pc.poolPc = none) (hnew : y.bind Pc.poolPc = none)
    (hok : ∀ q, y = some q → ThreadOk s.dom R t q ∧ t ∈ s.records)
    (hscan : ∀ prev c nx p todo, y = some (.scan prev c nx (some p) todo) →
      ∀ u i, s.dom.slots u i = some p → (s.setPc t y).Settled u i → (u, i) ∈ todo)
    (hsettle : ∀ i p, s.dom.slots t i = some p → (s.pc t).bind Pc.protecting = some i →
      y.bind Pc.protecting ≠ some i → ∀ w prev c nx todo, w ≠ t →
        s.pc w = some (.scan prev c nx (some p) todo) → (t, i) ∈ todo) :
    Inv (s.setPc t y) L R := by
  have hpcs : (s.setPc t y).poolPcs = s.poolPcs := by
    rw [poolPcs_update rfl, hnew]
    exact Function.update_eq_self_iff.2 hold.symm
  have howned : (s.setPc t y).owned R = s.owned R := by
    rw [owned_update rfl fun _ _ => rfl, returning_eq_nil hnew]
    exact Function.update_eq_self_iff.2 (by simp [owned, returning_eq_nil hold])
  have hpend : (s.setPc t y).pendingOf R = s.pendingOf R := funext fun u =>
    pendingOf_frame (by
      rcases eq_or_ne u t with rfl | hu
      · simp [retiring_eq_none hnew, retiring_eq_none hold]
      · simp [Function.update_noteq hu]) rfl fun _ _ => rfl
  refine { h with
    pool := by rw [hpcs, howned]; exact h.pool
    thread_ok := Pool.forall_update_pc (fun u q _ hq => h.thread_ok u q hq)
      fun q hq => (hok q hq).1
    busy_record := Pool.forall_update_pc (fun u q _ hq => h.busy_record u q hq)
      fun q hq => (hok q hq).2
    conserved := by rw [pending, hpend]; exact h.conserved
    count := by rw [howned]; exact h.count
    pending_not_cell := by rw [hpend]; exact h.pending_not_cell
    guarded := fun u i p hs hset w prev c nx todo hw => ?_ }
  rcases eq_or_ne w t with rfl | hne
  · exact hscan prev c nx p todo (by simpa using hw) u i hs hset
  have hw' : s.pc w = some (.scan prev c nx (some p) todo) := by
    simpa [Function.update_noteq hne] using hw
  by_cases hu : s.Settled u i
  · exact h.guarded u i p hs hu w prev c nx todo hw'
  · obtain rfl : u = t := by
      by_contra hut
      exact hu (by simpa [Settled, Function.update_noteq hut] using hset)
    exact hsettle i p hs (not_not.1 hu) (by simpa [Settled] using hset) w prev c nx todo hne hw'

/-- A move between places outside `protect` and `retired_pool`: the slots the thread settles
were settled already. -/
theorem Inv.setPc_quiet (h : Inv s L R) {y : Option Pc}
    (hold : (s.pc t).bind Pc.poolPc = none) (hprot : (s.pc t).bind Pc.protecting = none)
    (hnew : y.bind Pc.poolPc = none)
    (hok : ∀ q, y = some q → ThreadOk s.dom R t q ∧ t ∈ s.records)
    (hscan : ∀ prev c nx p todo, y = some (.scan prev c nx (some p) todo) →
      ∀ u i, s.dom.slots u i = some p → (s.setPc t y).Settled u i → (u, i) ∈ todo) :
    Inv (s.setPc t y) L R :=
  h.setPc hold hnew hok hscan fun i _ _ hi => absurd (hprot.symm.trans hi) (by simp)

/-- A step of `protect` that stays in its loop for the same slot. -/
theorem Inv.setPc_protect (h : Inv s L R) {i : Nat} (hpc : (s.pc t).bind Pc.protecting = some i)
    (hold : (s.pc t).bind Pc.poolPc = none) {q : Pc} (hq : q.protecting = some i)
    (hok : ThreadOk s.dom R t q) (ht : t ∈ s.records) : Inv (s.setPc t (some q)) L R :=
  h.setPc hold (by cases q <;> simp_all [Pc.protecting, Pc.poolPc]) (fun _ e => by cases e; exact ⟨hok, ht⟩)
    (fun _ _ _ _ _ e => by cases e; cases hq)
    fun j _ _ hj hj' => absurd (hq.trans (hpc.symm.trans hj)) hj'

/-- `get_hazard_record` pushes a record for a thread that has none. -/
theorem Inv.withRecord (h : Inv s L R) (t : Nat) : Inv (s.withRecord t) L R := by
  by_cases ht : t ∈ s.records
  · simpa [State.withRecord, ht] using h
  obtain ⟨hidle, hR⟩ := h.idle_of_not_mem ht
  have ht0 : s.pendingOf R t = [] := by simp [pendingOf, hidle, hR]
  have hpend : (s.withRecord t).pending R = s.pending R := by
    show (if t ∈ s.records then s.records else t :: s.records).flatMap (s.pendingOf R) = _
    rw [if_neg ht, List.flatMap_cons, ht0, List.nil_append]
    rfl
  exact { h with
    records_nodup := by
      simp only [State.withRecord, if_neg ht]
      exact List.nodup_cons.2 ⟨ht, h.records_nodup⟩
    busy_record := fun u q hq => mem_withRecord.2 (.inr (h.busy_record u q hq))
    list_record := fun u c hc => mem_withRecord.2 (.inr (h.list_record u c hc))
    conserved := by rw [hpend]; exact h.conserved
    slot_record := fun u i p hs => (h.slot_record u i p hs).imp_left fun hu =>
      mem_withRecord.2 (.inr hu) }

/-- A thread stores in its own slot: `NULL` from anywhere but the middle of a `protect`, anything
from inside a `protect` on that slot before its second load. -/
theorem Inv.setSlot (h : Inv s L R) {i : Nat} {v : Option Nat} (ht : t ∈ s.records)
    (hi : i < maxHazardPointers) (hpc : ∀ c ptr, s.pc t ≠ some (.protectCheck i c ptr))
    (hv : ∀ p, v = some p → (s.pc t).bind Pc.protecting = some i) :
    Inv (s.setSlot t i v) L R := by
  have hslot : ∀ u j, (u, j) ≠ (t, i) → (s.setSlot t i v).dom.slots u j = s.dom.slots u j := by
    intro u j hne
    rcases eq_or_ne u t with rfl | hu
    · simp only [State.setSlot, Function.update_same]
      exact Function.update_noteq (fun e => hne (by rw [e])) _ _
    · simp only [State.setSlot, Function.update_noteq hu]
  have hnew : ∀ p, (s.setSlot t i v).dom.slots t i = some p →
      (s.pc t).bind Pc.protecting = some i :=
    fun p hp => hv p (by simpa [State.setSlot] using hp)
  exact { h with
    thread_ok := fun u q hq => by
      have hok := h.thread_ok u q hq
      cases q with
      | protectCheck j c ptr =>
        refine ⟨hok.1, ?_⟩
        rcases eq_or_ne (u, j) (t, i) with e | hne
        · obtain ⟨rfl, rfl⟩ := Prod.mk.inj e
          exact absurd hq (hpc c ptr)
        · rw [hslot u j hne]
          exact hok.2
      | _ => exact hok
    slot_record := fun u j p hp => by
      rcases eq_or_ne (u, j) (t, i) with e | hne
      · obtain ⟨rfl, rfl⟩ := Prod.mk.inj e
        exact ⟨ht, hi⟩
      · exact h.slot_record u j p (by rwa [← hslot u j hne])
    guarded := fun u j p hp hu => by
      rcases eq_or_ne (u, j) (t, i) with e | hne
      · obtain ⟨rfl, rfl⟩ := Prod.mk.inj e
        exact absurd (hnew p hp) hu
      · exact h.guarded u j p (by rwa [← hslot u j hne]) hu }

/-- The program stores `v`, a pointer awaiting no reclamation, in cell `c`. -/
theorem Inv.write (h : Inv s L R) {c : Nat} {v : Option Nat}
    (hv : ∀ p, v = some p → s.awaiting p = false) :
    Inv { s with cells := s.cells.set c v } L R :=
  { h with
    pending_not_cell := fun u p hp hc => by
      rcases List.mem_or_eq_of_mem_set hc with hc | e
      · exact h.pending_not_cell u p hp hc
      · have := h.awaiting_iff.2 (List.mem_flatMap.2 ⟨u, h.mem_records hp, hp⟩)
        rw [hv p e.symm] at this
        cases this }

end Quiet

/-! ## One lemma per step outside `retired_pool` -/

section QuietSteps

variable {s : State} {L : List Nat} {R : Nat → List Nat} {t : Nat}

/-- `protect` gets its record and starts its loop. -/
theorem Inv.protectCall (h : Inv s L R) {i c : Nat} (ht : s.pc t = none)
    (hi : i < maxHazardPointers) : Inv ((s.withRecord t).setPc t (some (.protectLoad i c))) L R :=
  (h.withRecord t).setPc_quiet (by simp [ht]) (by simp [ht]) rfl
    (fun _ e => by cases e; exact ⟨hi, mem_withRecord.2 (.inl rfl)⟩)
    (fun _ _ _ _ _ e => by cases e)

/-- `clear` gets its record and empties its slot. -/
theorem Inv.clearCall (h : Inv s L R) {i : Nat} (ht : s.pc t = none)
    (hi : i < maxHazardPointers) : Inv ((s.withRecord t).setSlot t i none) L R :=
  (h.withRecord t).setSlot (mem_withRecord.2 (.inl rfl)) hi (by simp [ht]) fun _ e => by cases e

/-- `reclaim` gets its record and starts its walk at the head of its list. -/
theorem Inv.reclaimCall (h : Inv s L R) (ht : s.pc t = none) :
    Inv ((s.withRecord t).setPc t (some (.reclaim none (s.dom.retired t)))) L R :=
  (h.withRecord t).setPc_quiet (by simp [ht]) (by simp [ht]) rfl
    (fun _ e => by cases e; exact ⟨rfl, mem_withRecord.2 (.inl rfl)⟩)
    (fun _ _ _ _ _ e => by cases e)

/-- `protect` loads `*pptr`. -/
theorem Inv.protectLoad (h : Inv s L R) {i c : Nat} (hq : s.pc t = some (.protectLoad i c)) :
    Inv (s.tick t (.protectLoad i c)) L R :=
  h.setPc_protect (by simp [hq, Pc.protecting]) (by simp [hq, Pc.poolPc]) rfl
    (h.thread_ok t (.protectLoad i c) hq : i < maxHazardPointers) (h.busy_record t _ hq)

/-- `protect` stores what it loaded in its slot, and fences. -/
theorem Inv.protectStore (h : Inv s L R) {i c : Nat} {ptr : Option Nat}
    (hq : s.pc t = some (.protectStore i c ptr)) : Inv (s.tick t (.protectStore i c ptr)) L R := by
  have hi : i < maxHazardPointers := h.thread_ok t _ hq
  have h' := h.setSlot (v := ptr) (h.busy_record t _ hq) hi (by simp [hq])
    fun _ _ => by simp [hq, Pc.protecting]
  exact h'.setPc_protect (by simp [hq, Pc.protecting]) (by simp [hq, Pc.poolPc]) rfl
    ⟨hi, by simp [State.setSlot]⟩ (h.busy_record t _ hq)

/-- `protect` loads `*pptr` again: its slot settles when the two loads agree, holding a pointer
in a cell, which no scan is for; the loop starts over otherwise. -/
theorem Inv.protectCheck (h : Inv s L R) {i c : Nat} {ptr : Option Nat}
    (hq : s.pc t = some (.protectCheck i c ptr)) : Inv (s.tick t (.protectCheck i c ptr)) L R := by
  have hold : (s.pc t).bind Pc.poolPc = none := by simp [hq, Pc.poolPc]
  obtain ⟨hi, hslot⟩ := h.thread_ok t _ hq
  simp only [State.tick]
  split_ifs with hc
  · refine h.setPc hold rfl (fun _ e => by cases e) (fun _ _ _ _ _ e => by cases e)
      fun j p hs hj _ w _ _ _ _ _ hw => ?_
    obtain rfl : i = j := by simpa [hq, Pc.protecting] using hj
    exact absurd hw (h.not_scanned (mem_of_getD_eq_some (hc.symm.trans (hslot.symm.trans hs))))
  · exact h.setPc_protect (by simp [hq, Pc.protecting]) hold rfl hi (h.busy_record t _ hq)

/-- `reclaim`'s walk reaches the end of the list. -/
theorem Inv.reclaimDone (h : Inv s L R) {prev : Option Nat}
    (hq : s.pc t = some (.reclaim prev none)) : Inv (s.tick t (.reclaim prev none)) L R :=
  h.setPc_quiet (by simp [hq, Pc.poolPc]) (by simp [hq, Pc.protecting]) rfl
    (fun _ e => by cases e) (fun _ _ _ _ _ e => by cases e)

/-- `reclaim` reads the node at its cursor and starts `is_hazardous` on its pointer: every
settled slot holding it is on a record of the list, so among the slots to load. -/
theorem Inv.startScan (h : Inv s L R) {prev : Option Nat} {c : Nat}
    (hq : s.pc t = some (.reclaim prev (some c))) : Inv (s.tick t (.reclaim prev (some c))) L R := by
  refine h.setPc_quiet (by simp [hq, Pc.poolPc]) (by simp [hq, Pc.protecting]) rfl
    (fun _ e => by cases e; exact ⟨⟨h.thread_ok t _ hq, rfl, rfl⟩, h.busy_record t _ hq⟩) ?_
  intro _ _ _ p _ e u i hs _
  simp only [Option.some.injEq, Pc.scan.injEq] at e
  obtain ⟨-, -, -, -, rfl⟩ := e
  exact mem_scanOrder.2 (h.slot_record u i p hs)

/-- `is_hazardous` finds a slot holding its pointer: the node stays, and the walk goes on. -/
theorem Inv.scanFound (h : Inv s L R) {prev : Option Nat} {c : Nat} {nx ptr : Option Nat}
    {todo : List (Nat × Nat)} (hq : s.pc t = some (.scan prev c nx ptr todo)) :
    Inv (s.setPc t (some (.reclaim (some c) nx))) L R := by
  obtain ⟨hcur, hnx, -⟩ := h.thread_ok t _ hq
  exact h.setPc_quiet (by simp [hq, Pc.poolPc]) (by simp [hq, Pc.protecting]) rfl
    (fun _ e => by cases e; exact ⟨⟨hcur.mem_curr (h.lists t), hnx.symm⟩, h.busy_record t _ hq⟩)
    (fun _ _ _ _ _ e => by cases e)

/-- `is_hazardous` loads a slot that does not hold its pointer and goes on. -/
theorem Inv.scanNext (h : Inv s L R) {prev : Option Nat} {c u i : Nat} {nx ptr : Option Nat}
    {todo : List (Nat × Nat)} (hq : s.pc t = some (.scan prev c nx ptr ((u, i) :: todo)))
    (hs : s.dom.slots u i ≠ ptr) : Inv (s.setPc t (some (.scan prev c nx ptr todo))) L R := by
  have hok : ThreadOk s.dom R t (.scan prev c nx ptr todo) := h.thread_ok t _ hq |>.imp id id
  refine h.setPc_quiet (by simp [hq, Pc.poolPc]) (by simp [hq, Pc.protecting]) rfl
    (fun _ e => by cases e; exact ⟨hok, h.busy_record t _ hq⟩) ?_
  intro _ _ _ p _ e u' i' hs' hset
  simp only [Option.some.injEq, Pc.scan.injEq] at e
  obtain ⟨rfl, rfl, rfl, rfl, rfl⟩ := e
  have hset' : s.Settled u' i' := by
    rcases eq_or_ne u' t with rfl | hne
    · simp [Settled, hq, Pc.protecting]
    · simpa [Settled, Function.update_noteq hne] using hset
  rcases List.mem_cons.1 (h.guarded u' i' p hs' hset' t prev c nx _ hq) with e | hm
  · obtain ⟨rfl, rfl⟩ := Prod.mk.inj e
    exact absurd hs' hs
  · exact hm

end QuietSteps

/-! ## One lemma per step inside `retired_pool` -/

section PoolSteps

variable {s : State} {L : List Nat} {R : Nat → List Nat} {t : Nat}

/-- A step that changes no slot, and moves thread `t` between places outside `protect` to one
that is no scan, keeps `guarded`. -/
theorem Inv.guarded_of_move (h : Inv s L R) {s' : State} {y : Option Pc}
    (hslots : s'.dom.slots = s.dom.slots) (hpc : s'.pc = Function.update s.pc t y)
    (hold : (s.pc t).bind Pc.protecting = none)
    (hy : ∀ q, y = some q → q.protecting = none ∧ ∀ prev c nx ptr todo, q ≠ .scan prev c nx ptr todo) :
    ∀ u i p, s'.dom.slots u i = some p → s'.Settled u i →
      ∀ w prev c nx todo, s'.pc w = some (.scan prev c nx (some p) todo) → (u, i) ∈ todo := by
  intro u i p hs hset w prev c nx todo hw
  rw [hpc] at hw
  rcases eq_or_ne w t with rfl | hne
  · rw [Function.update_same] at hw
    exact absurd rfl ((hy _ hw).2 prev c nx _ todo)
  · rw [Function.update_noteq hne] at hw
    refine h.guarded u i p (by rw [← hslots]; exact hs) ?_ w prev c nx todo hw
    rcases eq_or_ne u t with rfl | hut
    · simp [Settled, hold]
    · simpa [Settled, hpc, Function.update_noteq hut] using hset

@[simp] theorem pendingOf_logRetire {p : Nat} : (s.logRetire p).pendingOf R = s.pendingOf R := rfl
@[simp] theorem pendingOf_logCallback {x : Option Nat} :
    (s.logCallback x).pendingOf R = s.pendingOf R := rfl
@[simp] theorem owned_logRetire {p : Nat} : (s.logRetire p).owned R = s.owned R := rfl
@[simp] theorem owned_logCallback {x : Option Nat} : (s.logCallback x).owned R = s.owned R := rfl
@[simp] theorem owned_withPool {q : Pool} : (s.withPool q).owned R = s.owned R := rfl

/-- Thread `t` moves from `q` to `y` with the same pool call and the same node given back. -/
theorem owned_move {s' : State} {q : Pc} {y : Option Pc} (hq : s.pc t = some q)
    (hpc : s'.pc = Function.update s.pc t y) (hy : (y.map Pc.returning).getD [] = q.returning) :
    s'.owned R = s.owned R := by
  rw [owned_update hpc fun _ _ => rfl, hy, ← owned_of_pc hq]
  exact Function.update_eq_self t _

/-- `retire` gets its record and enters `cauchy_pool_alloc`; `p` joins its account. -/
theorem Inv.retireCall (h : Inv s L R) {p : Nat} (ht : s.pc t = none) (hc : some p ∉ s.cells) :
    Inv (((s.withRecord t).setPc t (some (.retire p .alloc))).logRetire p) L R := by
  have h1 := h.withRecord t
  have ht1 : t ∈ (s.withRecord t).records := mem_withRecord.2 (.inl rfl)
  have hacc : ((s.withRecord t).setPc t (some (.retire p .alloc))).pendingOf R t =
      some p :: (s.withRecord t).pendingOf R t := by
    simp [pendingOf, ht, Pc.retiring]
  have hother : ∀ u, u ≠ t →
      ((s.withRecord t).setPc t (some (.retire p .alloc))).pendingOf R u =
        (s.withRecord t).pendingOf R u := fun u hu =>
    pendingOf_frame (by simp [Function.update_noteq hu]) rfl fun _ _ => rfl
  have howned : ((s.withRecord t).setPc t (some (.retire p .alloc))).owned R =
      (s.withRecord t).owned R := by
    rw [owned_update rfl fun _ _ => rfl]
    exact Function.update_eq_self_iff.2 (by simp [owned, ht, Pc.returning])
  refine { h1 with
    pool := ?_
    thread_ok := Pool.forall_update_pc (fun u q _ hq => h1.thread_ok u q hq)
      fun q e => by cases e; rfl
    busy_record := Pool.forall_update_pc (fun u q _ hq => h1.busy_record u q hq) fun _ _ => ht1
    conserved := h1.conserved_step ht1 rfl hother (by
      simp only [logRetire_callbacks, logRetire_retiredPtrs, pendingOf_logRetire, hacc,
        setPc_callbacks, List.map_cons]
      exact (List.perm_middle.append_right _).trans List.perm_middle.symm)
    count := fun u => by rw [owned_logRetire, howned]; exact h1.count u
    pending_not_cell := fun u q hq => ?_
    guarded := h1.guarded_of_move rfl rfl (by simp [ht]) fun _ e => by
      cases e; exact ⟨rfl, fun _ _ _ _ _ e => by cases e⟩ }
  · show Pool.Inv _ ((s.withRecord t).setPc t _).poolPcs
      (((s.withRecord t).setPc t _).owned R) L
    rw [poolPcs_update rfl, howned]
    exact h1.pool.setPc (t := t) (show Pool.PcOk _ _ _ .alloc from trivial)
  · rw [pendingOf_logRetire] at hq
    rcases eq_or_ne u t with rfl | hu
    · rw [hacc] at hq
      rcases List.mem_cons.1 hq with e | hq
      · rw [Option.some.inj e]
        exact hc
      · exact h1.pending_not_cell u q hq
    · rw [hother u hu] at hq
      exact h1.pending_not_cell u q hq

/-- `get_hazard_record` fails for a `retire`: the callback runs at once. -/
theorem Inv.retireNoRecord (h : Inv s L R) {p : Nat} :
    Inv ((s.logRetire p).logCallback (some p)) L R :=
  { h with
    conserved := by
      show (s.callbacks ++ [some p] ++ s.pending R).Perm (some p :: s.retiredPtrs.map some)
      rw [List.append_assoc, List.singleton_append]
      exact List.perm_middle.trans (h.conserved.cons _) }

/-- `cauchy_pool_alloc` fails for a `retire`: the callback runs at once. -/
theorem Inv.allocFail (h : Inv s L R) {p : Nat} (hq : s.pc t = some (.retire p .alloc)) :
    Inv ((s.setPc t none).logCallback (some p)) L R := by
  have ht := h.busy_record t _ hq
  have hacc : s.pendingOf R t = some p :: (s.setPc t none).pendingOf R t := by
    simp [pendingOf, hq, Pc.retiring]
  have hother : ∀ u, u ≠ t → (s.setPc t none).pendingOf R u = s.pendingOf R u := fun u hu =>
    pendingOf_frame (by simp [Function.update_noteq hu]) rfl fun _ _ => rfl
  have howned : (s.setPc t none).owned R = s.owned R := owned_move hq rfl rfl
  refine { h with
    pool := ?_
    thread_ok := Pool.forall_update_pc (fun u q _ hq => h.thread_ok u q hq) fun q e => by cases e
    busy_record := Pool.forall_update_pc (fun u q _ hq => h.busy_record u q hq)
      fun q e => by cases e
    conserved := h.conserved_step ht rfl hother (by
      simp only [logCallback_callbacks, logCallback_retiredPtrs, pendingOf_logCallback,
        setPc_callbacks, setPc_retiredPtrs, hacc, List.append_assoc, List.singleton_append]
      rfl)
    count := fun u => by rw [owned_logCallback, howned]; exact h.count u
    pending_not_cell := fun u q hq => ?_
    guarded := h.guarded_of_move rfl rfl (by simp [hq, Pc.protecting]) fun _ e => by cases e }
  · show Pool.Inv _ (s.setPc t none).poolPcs ((s.setPc t none).owned R) L
    rw [poolPcs_update rfl, howned]
    exact { h.pool with
      pc_ok := Pool.forall_update_pc (fun u q _ hq => h.pool.pc_ok u q hq) fun q e => by cases e }
  · rw [pendingOf_logCallback] at hq
    rcases eq_or_ne u t with rfl | hu
    · exact h.pending_not_cell u q (hacc ▸ List.mem_cons_of_mem _ hq)
    · exact h.pending_not_cell u q (hother u hu ▸ hq)

/-- A step of a `retire`'s `cauchy_pool_alloc` that does not return. -/
theorem Inv.retireAlloc (h : Inv s L R) (hx : Pool.AllocExclusive s.poolPcs) {p : Nat}
    {pc pc' : Pool.Pc} {p' : Pool} (hq : s.pc t = some (.retire p pc))
    (hstep : s.dom.pool.step pc = (p', .cont pc')) :
    ∃ L', Inv ((s.withPool p').setPc t (some (.retire p pc'))) L' R := by
  have halloc : pc.allocating := h.thread_ok t _ hq
  obtain ⟨hlink, hnext⟩ := Pool.step_of_allocating (p := s.dom.pool) halloc
  rw [hstep] at hlink hnext
  have hpc' : pc'.allocating := by
    rcases hnext with ⟨_, he, hpc''⟩ | ⟨_, he⟩ <;> cases he
    exact hpc''
  obtain ⟨L', hP⟩ :=
    h.pool.step hx (show s.poolPcs t = some pc by simp [poolPcs, hq, Pc.poolPc])
  rw [hstep] at hP
  have hpend : ((s.withPool p').setPc t (some (.retire p pc'))).pendingOf R = s.pendingOf R :=
    funext fun u => pendingOf_frame (by
      rcases eq_or_ne u t with rfl | hu
      · simp [hq, Pc.retiring]
      · simp [Function.update_noteq hu]) rfl fun c _ => congrFun hlink c
  have howned : ((s.withPool p').setPc t (some (.retire p pc'))).owned R = s.owned R :=
    owned_move hq rfl rfl
  refine ⟨L', { h with
    pool := ?_
    thread_ok := Pool.forall_update_pc (fun u q _ hq' => (h.thread_ok u q hq').frame (h.lists u)
      rfl rfl (fun _ _ => rfl) rfl fun c _ => congrFun hlink c) fun q e => by cases e; exact hpc'
    busy_record := Pool.forall_update_pc (fun u q _ hq' => h.busy_record u q hq')
      fun _ _ => h.busy_record t _ hq
    conserved := by rw [pending, hpend]; exact h.conserved
    count := by rw [howned]; exact h.count
    pending_not_cell := by rw [hpend]; exact h.pending_not_cell
    guarded := h.guarded_of_move rfl rfl (by simp [hq, Pc.protecting]) fun _ e => by
      cases e; exact ⟨rfl, fun _ _ _ _ _ e => by cases e⟩ }⟩
  rw [poolPcs_update rfl, howned, poolPcs_withPool]
  simpa [Pool.Next.pc, Pool.Next.held, Pc.poolPc] using hP

/-- A `retire`'s `cauchy_pool_alloc` returns the node `rn`: the node takes the pointer and goes
on top of the thread's list, where the account keeps it. -/
theorem Inv.retireLinked (h : Inv s L R) (hx : Pool.AllocExclusive s.poolPcs) {p rn : Nat}
    {pc : Pool.Pc} {p' : Pool} (hq : s.pc t = some (.retire p pc))
    (hstep : s.dom.pool.step pc = (p', .allocated rn)) :
    ∃ L', Inv ((s.withPool p').linkRetired t p rn) L' (Function.update R t (rn :: R t)) := by
  have halloc : pc.allocating := h.thread_ok t _ hq
  have ht := h.busy_record t _ hq
  have hlink : p'.link = s.dom.pool.link := by
    simpa [hstep] using (Pool.step_of_allocating (p := s.dom.pool) halloc).1
  obtain ⟨L', hP⟩ :=
    h.pool.step hx (show s.poolPcs t = some pc by simp [poolPcs, hq, Pc.poolPc])
  rw [hstep] at hP
  simp only [Pool.Next.pc, Pool.Next.held, owned_of_pc hq, Pc.returning, List.append_nil] at hP
  have hmemt : rn ∈ Function.update (s.owned R) t (rn :: R t) t := by simp
  have hrn : ∀ u, rn ∉ R u := fun u hu => by
    rcases eq_or_ne u t with rfl | hne
    · have := hP.held_nodup u
      rw [Function.update_same, List.nodup_cons] at this
      exact this.1 hu
    · exact hP.held_disjoint t u hne.symm rn hmemt
        (by rw [Function.update_noteq hne]; exact mem_owned hu)
  have hW := hP.writeLink hmemt (some p) fun u hd hu => by
    rcases eq_or_ne u t with rfl | hne
    · simp at hu
    · exact hP.held_disjoint t u hne.symm rn hmemt (hP.pc_ok u _ hu).1
  set s' := (s.withPool p').linkRetired t p rn with hs'
  set R' := Function.update R t (rn :: R t) with hR'
  obtain ⟨y, hy, hpc⟩ : ∃ y : Option Pc, (y = none ∨ y = some (.reclaim none (some rn))) ∧
      s'.pc = Function.update s.pc t y := ⟨_, by split_ifs <;> simp, rfl⟩
  have hlink' : ∀ c, c ≠ rn → s'.dom.pool.link c = s.dom.pool.link c := fun c hc => by
    simp [hs', linkRetired, withPool, Function.update_noteq hc, hlink]
  have hlinkrn : s'.dom.pool.link rn = some p := by simp [hs', linkRetired]
  have hnext : ∀ u, ∀ c ∈ R u, s'.dom.next c = s.dom.next c := fun u c hc => by
    simp [hs', linkRetired, withPool, Function.update_noteq (fun e : c = rn => hrn u (e ▸ hc))]
  have hret : ∀ u, u ≠ t → (s'.pc u).bind Pc.retiring = (s.pc u).bind Pc.retiring :=
    fun u hu => by rw [hpc, Function.update_noteq hu]
  have hother : ∀ u, u ≠ t → s'.pendingOf R' u = s.pendingOf R u := fun u hu =>
    pendingOf_frame (hret u hu) (Function.update_noteq hu _ _)
      fun c hc => hlink' c fun e => hrn u (e ▸ hc)
  have hacc : s'.pendingOf R' t = s.pendingOf R t := by
    have hy' : y.bind Pc.retiring = none := by rcases hy with rfl | rfl <;> rfl
    simp only [pendingOf, hpc, Function.update_same, hy', hq, hR']
    simp only [Option.toList, Option.bind_some, Pc.retiring, List.map_cons, List.map_nil,
      List.nil_append, List.singleton_append, hlinkrn]
    exact congrArg _ (List.map_congr_left fun c hc => hlink' c fun e => hrn t (e ▸ hc))
  have hreturning : (y.map Pc.returning).getD [] = [] := by rcases hy with rfl | rfl <;> rfl
  refine ⟨L', { h with
    pool := ?_
    lists := fun u => ?_
    thread_ok := ?_
    busy_record := by
      rw [hpc]
      exact Pool.forall_update_pc (fun u q _ hq' => h.busy_record u q hq') fun _ _ => ht
    list_record := fun u c hc => by
      rcases Pool.mem_update_cons.1 hc with ⟨rfl, -⟩ | hc
      · exact ht
      · exact h.list_record u c hc
    conserved := h.conserved_step ht rfl hother (by rw [hacc]; rfl)
    count := fun u => ?_
    pending_not_cell := fun u q hq' => by
      rcases eq_or_ne u t with rfl | hu
      · exact h.pending_not_cell u q (hacc ▸ hq')
      · exact h.pending_not_cell u q (hother u hu ▸ hq')
    guarded := h.guarded_of_move rfl hpc (by simp [hq, Pc.protecting]) fun q e => by
      rcases hy with rfl | rfl <;> cases e
      exact ⟨rfl, fun _ _ _ _ _ e => by cases e⟩ }⟩
  · rw [poolPcs_update hpc, owned_update hpc fun u hu => Function.update_noteq hu _ _,
      hreturning]
    rcases hy with rfl | rfl <;> simpa [Pc.poolPc, hR'] using hW
  · show Pool.Links (Function.update s.dom.next rn (s.dom.retired t))
      (Function.update s.dom.retired t (some rn) u) (Function.update R t (rn :: R t) u)
    rcases eq_or_ne u t with rfl | hne
    · simp only [Function.update_same]
      exact .cons (by rw [Function.update_same]; exact (h.lists u).update (hrn u) _)
    · simp only [Function.update_noteq hne]
      exact (h.lists u).update (hrn u) _
  · rw [hpc]
    refine Pool.forall_update_pc (fun u q hne hq' => (h.thread_ok u q hq').frame (h.lists u)
      (Function.update_noteq hne _ _) rfl (hnext u) (Function.update_noteq hne _ _)
      fun c hc => hlink' c fun e => hrn u (e ▸ hc)) fun q e => ?_
    rcases hy with rfl | rfl
    · cases e
    · cases e
      show some rn = Function.update s.dom.retired t (some rn) t
      simp
  · rw [owned_update hpc fun u hu => Function.update_noteq hu _ _, hreturning]
    have hc := h.count u
    rcases eq_or_ne u t with rfl | hne
    · rw [owned_of_pc hq] at hc
      simp only [hs', linkRetired, withPool, hR', Function.update_same, List.append_nil,
        List.length_cons, Pc.returning] at hc ⊢
      omega
    · simpa [hs', linkRetired, withPool, Function.update_noteq hne] using hc

/-- `is_hazardous` finds no slot holding the pointer of node `c`: the callback runs, and `c` is
unlinked and handed to `cauchy_pool_free`. -/
theorem Inv.unlink (h : Inv s L R) {prev : Option Nat} {c : Nat} {nx ptr : Option Nat}
    (hq : s.pc t = some (.scan prev c nx ptr [])) :
    Inv (s.unlinkNode t prev c nx) L (Function.update R t ((R t).erase c)) := by
  obtain ⟨hcur, hnx, -⟩ := h.thread_ok t _ hq
  subst hnx
  have ht := h.busy_record t _ hq
  have hc : c ∈ R t := hcur.mem_curr (h.lists t)
  have hnd := h.nodup t
  set R' := Function.update R t ((R t).erase c) with hR'
  have hmem : ∀ {w c'}, c' ∈ R' w → c' ∈ R w ∧ c' ≠ c := fun {w c'} hc' => by
    rcases eq_or_ne w t with rfl | hne
    · rw [hR', Function.update_same, hnd.mem_erase_iff] at hc'
      exact ⟨hc'.2, hc'.1⟩
    · rw [hR', Function.update_noteq hne] at hc'
      exact ⟨hc', fun e => h.disjoint hne.symm hc (e ▸ hc')⟩
  set y : Pc := .reclaimFree prev (s.dom.next c) (.free c) with hy
  have howned : ∀ u, ((s.setPc t (some y)).owned R' u).Perm (s.owned R u) := fun u => by
    rcases eq_or_ne u t with rfl | hne
    · simp only [owned, setPc_pc, Function.update_same, hq, hR', hy, Option.map_some',
        Option.getD_some, Pc.returning, Pool.Pc.freeing, List.append_nil]
      exact List.perm_append_comm.trans (List.perm_cons_erase hc).symm
    · simp only [owned, setPc_pc, Function.update_noteq hne, hR']
      exact List.Perm.refl _
  have hpool : Pool.Inv s.dom.pool (Function.update s.poolPcs t (some (.free c)))
      ((s.setPc t (some y)).owned R') L :=
    (h.pool.perm howned).setPc (t := t) (show Pool.PcOk _ _ _ (.free c) by
      simp [Pool.PcOk, owned, hR', hy, Pc.returning, Pool.Pc.freeing])
  have hother : ∀ u, u ≠ t → (s.setPc t (some y)).pendingOf R' u = s.pendingOf R u :=
    fun u hu => pendingOf_frame (by simp [Function.update_noteq hu])
      (Function.update_noteq hu _ _) fun _ _ => rfl
  have hpt : (s.setPc t (some y)).pendingOf R' t = ((R t).erase c).map s.dom.pool.link := by
    simp [pendingOf, hy, Pc.retiring, hR']
  have hpt₀ : s.pendingOf R t = (R t).map s.dom.pool.link := by simp [pendingOf, hq, Pc.retiring]
  -- Unlinking `c` touches only `next` and `retired`; each way of doing it supplies the lists, the
  -- cursor of `reclaim`, and that nothing another thread reads has moved.
  have key : ∀ (nxf rt : Nat → Option Nat), (∀ u, Pool.Links nxf (rt u) (R' u)) →
      CursorOk nxf (rt t) (R' t) prev (s.dom.next c) →
      (∀ u, u ≠ t → rt u = s.dom.retired u ∧ ∀ c' ∈ R u, nxf c' = s.dom.next c') →
      Inv { s with
        dom := { s.dom with next := nxf, retired := rt }
        pc := Function.update s.pc t (some y)
        callbacks := s.callbacks ++ [s.dom.pool.link c] } L R' := fun nxf rt hl hcur' hothers =>
    { pool := by rw [poolPcs_update rfl]; exact hpool
      lists := hl
      thread_ok := Pool.forall_update_pc (fun u q hne hq' => (h.thread_ok u q hq').frame
          (h.lists u) (Function.update_noteq hne _ _) rfl (hothers u hne).2 (hothers u hne).1
          fun _ _ => rfl)
        fun q e => by rw [← Option.some.inj e, hy]; exact ⟨rfl, hcur'⟩
      records_nodup := h.records_nodup
      busy_record := Pool.forall_update_pc (fun u q _ hq' => h.busy_record u q hq')
        fun _ _ => ht
      list_record := fun u c' hc' => h.list_record u c' (hmem hc').1
      conserved := h.conserved_step ht rfl hother (by
        show (s.callbacks ++ [s.dom.pool.link c] ++ (s.setPc t (some y)).pendingOf R' t ++ _).Perm _
        rw [hpt, hpt₀]
        refine List.Perm.append_right _ ?_
        rw [List.append_assoc, List.singleton_append]
        exact List.Perm.append_left _ (by
          simpa using ((List.perm_cons_erase hc).map s.dom.pool.link).symm))
      count := fun u => by
        show s.dom.retiredCount u = ((s.setPc t (some y)).owned R' u).length % 2 ^ 32
        rw [(howned u).length_eq]
        exact h.count u
      pending_not_cell := fun u q hq' => by
        rcases eq_or_ne u t with rfl | hu
        · refine h.pending_not_cell u q ?_
          have hq'' : some q ∈ ((R u).erase c).map s.dom.pool.link := hpt ▸ hq'
          rw [hpt₀]
          obtain ⟨c', hc', e⟩ := List.mem_map.1 hq''
          exact List.mem_map.2 ⟨c', List.mem_of_mem_erase hc', e⟩
        · exact h.pending_not_cell u q (hother u hu ▸ hq')
      slot_record := h.slot_record
      guarded := h.guarded_of_move rfl rfl (by simp [hq, Pc.protecting]) fun q e => by
        rw [← Option.some.inj e, hy]; exact ⟨rfl, fun _ _ _ _ _ e => by cases e⟩ }
  cases prev with
  | none =>
    obtain ⟨rest, hR, hl⟩ := (hcur.symm ▸ h.lists t).eq_cons
    refine key _ _ (fun u => ?_)
      (show s.dom.next c = Function.update s.dom.retired t (s.dom.next c) t from
        (Function.update_same t _ s.dom.retired).symm)
      fun u hne => ⟨Function.update_noteq hne _ _, fun _ _ => rfl⟩
    rcases eq_or_ne u t with rfl | hne
    · simpa [R', hR] using hl
    · simpa [R', Function.update_noteq hne] using h.lists u
  | some pv =>
    obtain ⟨hpv, hpvc⟩ : pv ∈ R t ∧ s.dom.next pv = some c := hcur
    have hpvne : pv ≠ c := fun e => (h.lists t).link_ne_self hnd hpv (e ▸ hpvc)
    refine key _ _ (fun u => ?_)
      ⟨by simpa only [R', Function.update_same] using hnd.mem_erase_iff.2 ⟨hpvne, hpv⟩,
        Function.update_same _ _ _⟩
      fun u hne => ⟨rfl, fun c' hc' =>
        Function.update_noteq (fun e : c' = pv => h.disjoint hne.symm hpv (e ▸ hc')) _ _⟩
    rcases eq_or_ne u t with rfl | hne
    · simpa [R'] using (h.lists u).unlink hnd hpv hpvc
    · simpa [R', Function.update_noteq hne] using (h.lists u).update (h.disjoint hne.symm hpv) _

/-- A step of a `reclaim`'s `cauchy_pool_free`, which changes the link of no node on a retired
list, keeps everything but the pool's invariant, `retired_count` and the facts of the thread that
takes it. -/
theorem Inv.freeStep (h : Inv s L R) {prev nx : Option Nat} {pc : Pool.Pc} {p' : Pool}
    {rc : Nat → Nat} {y : Pc} {L' : List Nat} (hq : s.pc t = some (.reclaimFree prev nx pc))
    (hlink : ∀ c, c ∉ pc.freeing → p'.link c = s.dom.pool.link c)
    (hy : y.retiring = none ∧ y.protecting = none ∧
      ∀ prev c nx ptr todo, y ≠ .scan prev c nx ptr todo)
    (hpool : Pool.Inv p' (s.setPc t (some y)).poolPcs ((s.setPc t (some y)).owned R) L')
    (hcount : ∀ u, rc u = ((s.setPc t (some y)).owned R u).length % 2 ^ 32)
    (ht : ThreadOk { s.dom with pool := p', retiredCount := rc } R t y) :
    Inv { s with
      dom := { s.dom with pool := p', retiredCount := rc }
      pc := Function.update s.pc t (some y) } L' R := by
  have hlinkR : ∀ u, ∀ c ∈ R u, p'.link c = s.dom.pool.link c :=
    fun u c hc => hlink c (h.not_returning hq u c hc)
  have hpend : ∀ u, ({ s with
      dom := { s.dom with pool := p', retiredCount := rc }
      pc := Function.update s.pc t (some y) } : State).pendingOf R u = s.pendingOf R u :=
    fun u => pendingOf_frame (by
      rcases eq_or_ne u t with rfl | hu
      · simp only [Function.update_same, hq]
        exact hy.1
      · simp [Function.update_noteq hu]) rfl (hlinkR u)
  exact { h with
    pool := hpool
    thread_ok := Pool.forall_update_pc (fun u q _ hq' => (h.thread_ok u q hq').frame (h.lists u)
      rfl rfl (fun _ _ => rfl) rfl (hlinkR u)) fun q e => by cases e; exact ht
    busy_record := Pool.forall_update_pc (fun u q _ hq' => h.busy_record u q hq')
      fun _ _ => h.busy_record t _ hq
    conserved := by rw [pending, funext hpend]; exact h.conserved
    count := hcount
    pending_not_cell := fun u q hq' => h.pending_not_cell u q (hpend u ▸ hq')
    guarded := h.guarded_of_move rfl rfl (by simp [hq, Pc.protecting]) fun q e => by
      cases e; exact ⟨hy.2.1, hy.2.2⟩ }

/-- A step of a `reclaim`'s `cauchy_pool_free` that does not return. -/
theorem Inv.reclaimFreeStep (h : Inv s L R) (hx : Pool.AllocExclusive s.poolPcs)
    {prev nx : Option Nat} {pc pc' : Pool.Pc} {p' : Pool}
    (hq : s.pc t = some (.reclaimFree prev nx pc))
    (hstep : s.dom.pool.step pc = (p', .cont pc')) :
    ∃ L', Inv ((s.withPool p').setPc t (some (.reclaimFree prev nx pc'))) L' R := by
  obtain ⟨hfree, hcur⟩ := h.thread_ok t _ hq
  obtain ⟨hlink, hnext⟩ := Pool.step_of_freeing (p := s.dom.pool) hfree
  rw [hstep] at hlink hnext
  obtain ⟨hpc', hsame⟩ : pc'.allocating = false ∧ pc'.freeing = pc.freeing := by
    rcases hnext with ⟨_, he, h1, h2⟩ | ⟨_, he, _⟩ <;> cases he
    exact ⟨h1, h2⟩
  obtain ⟨L', hP⟩ :=
    h.pool.step hx (show s.poolPcs t = some pc by simp [poolPcs, hq, Pc.poolPc])
  rw [hstep] at hP
  have howned : (s.setPc t (some (.reclaimFree prev nx pc'))).owned R = s.owned R :=
    owned_move hq rfl (by simp [Pc.returning, hsame])
  refine ⟨L', h.freeStep hq hlink ⟨rfl, rfl, fun _ _ _ _ _ e => by cases e⟩ ?_
    (by rw [howned]; exact h.count) ⟨hpc', hcur⟩⟩
  rw [poolPcs_update rfl, howned]
  simpa [Pool.Next.pc, Pool.Next.held, Pc.poolPc] using hP

/-- A `reclaim`'s `cauchy_pool_free` returns: `retired_count` drops by one, and the walk goes on
at `next`. -/
theorem Inv.reclaimFreed (h : Inv s L R) (hx : Pool.AllocExclusive s.poolPcs)
    {prev nx : Option Nat} {pc : Pool.Pc} {p' : Pool} {b : Nat}
    (hq : s.pc t = some (.reclaimFree prev nx pc))
    (hstep : s.dom.pool.step pc = (p', .freed b)) :
    ∃ L', Inv (s.afterFree t p' prev nx) L' R := by
  obtain ⟨hfree, hcur⟩ := h.thread_ok t _ hq
  obtain ⟨hlink, hnext⟩ := Pool.step_of_freeing (p := s.dom.pool) hfree
  rw [hstep] at hlink hnext
  have hb : pc.freeing = [b] := by
    rcases hnext with ⟨_, he, _⟩ | ⟨_, he, hb⟩ <;> cases he
    exact hb
  have hbR : b ∉ R t := fun hbt => h.not_returning hq t b hbt (by simp [Pc.returning, hb])
  obtain ⟨L', hP⟩ :=
    h.pool.step hx (show s.poolPcs t = some pc by simp [poolPcs, hq, Pc.poolPc])
  rw [hstep] at hP
  have howned : (s.setPc t (some (.reclaim prev nx))).owned R =
      Function.update (s.owned R) t (R t) := by
    rw [owned_update rfl fun _ _ => rfl]
    simp [Pc.returning]
  refine ⟨L', h.freeStep hq hlink ⟨rfl, rfl, fun _ _ _ _ _ e => by cases e⟩ ?_ (fun u => ?_) hcur⟩
  · rw [poolPcs_update rfl, howned]
    simpa [Pool.Next.pc, Pool.Next.held, Pc.poolPc, owned_of_pc hq, Pc.returning, hb,
      List.erase_append_right _ hbR] using hP
  · have hc := h.count u
    rw [howned]
    rcases eq_or_ne u t with rfl | hne
    · rw [owned_of_pc hq, Pc.returning, hb] at hc
      simp only [Function.update_same, List.length_append, List.length_singleton] at hc ⊢
      omega
    · simpa [Function.update_noteq hne] using hc

end PoolSteps

/-! ## Whole runs -/

section Runs

variable {s : State} {L : List Nat} {R : Nat → List Nat} {t : Nat}

/-- **Every atomic step keeps the invariant** while no two threads are inside
`retired_pool`'s `alloc`. -/
theorem Inv.tick (h : Inv s L R) (hx : Pool.AllocExclusive s.poolPcs) {q : Pc}
    (hq : s.pc t = some q) : ∃ L' R', Inv (s.tick t q) L' R' := by
  cases q with
  | protectLoad i c => exact ⟨L, R, h.protectLoad hq⟩
  | protectStore i c ptr => exact ⟨L, R, h.protectStore hq⟩
  | protectCheck i c ptr => exact ⟨L, R, h.protectCheck hq⟩
  | retire p pc =>
    cases hs : s.dom.pool.step pc with
    | mk p' nx =>
      cases nx with
      | cont pc' =>
        obtain ⟨L', h'⟩ := h.retireAlloc hx hq hs
        exact ⟨L', R, by simp only [State.tick, hs]; exact h'⟩
      | allocated rn =>
        obtain ⟨L', h'⟩ := h.retireLinked hx hq hs
        exact ⟨L', _, by simp only [State.tick, hs]; exact h'⟩
      | freed b =>
        have := (Pool.step_of_allocating (p := s.dom.pool) (h.thread_ok t _ hq)).2
        rw [hs] at this
        rcases this with ⟨_, he, _⟩ | ⟨_, he⟩ <;> cases he
  | reclaim prev curr =>
    cases curr with
    | none => exact ⟨L, R, h.reclaimDone hq⟩
    | some c => exact ⟨L, R, h.startScan hq⟩
  | scan prev c nx ptr todo =>
    match todo with
    | [] => exact ⟨L, _, h.unlink hq⟩
    | (u, i) :: todo =>
      simp only [State.tick]
      split_ifs with hs
      · exact ⟨L, R, h.scanFound hq⟩
      · exact ⟨L, R, h.scanNext hq hs⟩
  | reclaimFree prev nx pc =>
    cases hs : s.dom.pool.step pc with
    | mk p' n =>
      cases n with
      | cont pc' =>
        obtain ⟨L', h'⟩ := h.reclaimFreeStep hx hq hs
        exact ⟨L', R, by simp only [State.tick, hs]; exact h'⟩
      | allocated rn =>
        have := (Pool.step_of_freeing (p := s.dom.pool) (h.thread_ok t _ hq).1).2
        rw [hs] at this
        rcases this with ⟨_, he, _⟩ | ⟨_, he, _⟩ <;> cases he
      | freed b =>
        obtain ⟨L', h'⟩ := h.reclaimFreed hx hq hs
        exact ⟨L', R, by simp only [State.tick, hs]; exact h'⟩

/-- Every event keeps the invariant while no two threads are inside `retired_pool`'s
`alloc`. -/
theorem Inv.perform (h : Inv s L R) (hx : Pool.AllocExclusive s.poolPcs) {e : Event}
    {s' : State} (he : s.perform? e = some s') : ∃ L' R', Inv s' L' R' := by
  cases e with
  | protect t i c =>
    simp only [perform?, Option.ite_none_right_eq_some, Option.some.injEq] at he
    obtain ⟨⟨ht, hi⟩, rfl⟩ := he
    exact ⟨L, R, h.protectCall ht hi⟩
  | clear t i =>
    simp only [perform?, Option.ite_none_right_eq_some, Option.some.injEq] at he
    obtain ⟨⟨ht, hi⟩, rfl⟩ := he
    exact ⟨L, R, h.clearCall ht hi⟩
  | write c v =>
    simp only [perform?, Option.ite_none_right_eq_some, Option.some.injEq] at he
    obtain ⟨hv, rfl⟩ := he
    exact ⟨L, R, h.write fun p hp => by simpa [hp] using hv⟩
  | retire t p =>
    simp only [perform?, Option.ite_none_right_eq_some, Option.some.injEq] at he
    obtain ⟨⟨ht, -, hc⟩, rfl⟩ := he
    exact ⟨L, R, h.retireCall ht hc⟩
  | retireNoRecord t p =>
    simp only [perform?, Option.ite_none_right_eq_some, Option.some.injEq] at he
    obtain ⟨-, rfl⟩ := he
    exact ⟨L, R, h.retireNoRecord⟩
  | allocFail t =>
    simp only [perform?] at he
    split at he
    · next p hq =>
      simp only [Option.ite_none_right_eq_some, Option.some.injEq] at he
      obtain ⟨-, rfl⟩ := he
      exact ⟨L, R, h.allocFail hq⟩
    · cases he
  | reclaim t =>
    simp only [perform?, Option.ite_none_right_eq_some, Option.some.injEq] at he
    obtain ⟨ht, rfl⟩ := he
    exact ⟨L, R, h.reclaimCall ht⟩
  | tick t =>
    cases hq : s.pc t with
    | none => simp [perform?, hq] at he
    | some q =>
      simp only [perform?, hq, Option.map_some', Option.some.injEq] at he
      subst he
      exact h.tick hx hq

theorem inv_init (cells : List (Option Nat)) :
    Inv (init cells) (List.range 256).reverse fun _ => [] where
  pool := Pool.Threads.inv_init 256
  lists _ := .nil
  thread_ok _ _ hq := Option.noConfusion hq
  records_nodup := List.nodup_nil
  busy_record _ _ hq := Option.noConfusion hq
  list_record _ _ hc := absurd hc (List.not_mem_nil _)
  conserved := .nil
  count _ := rfl
  pending_not_cell _ _ hp := absurd hp (by simp [pendingOf, init])
  slot_record _ _ _ hs := Option.noConfusion hs
  guarded _ _ _ hs := Option.noConfusion hs

theorem run?_cons (s : State) (e : Event) (es : List Event) :
    s.run? (e :: es) = (s.perform? e).bind (·.run? es) := rfl

/-- `Inv` holds after an interleaving every prefix of which leaves at most one thread inside
`retired_pool`'s `alloc`. -/
theorem inv_run? {s s' : State} {L : List Nat} {R : Nat → List Nat} (es : List Event)
    (h : Inv s L R)
    (hx : ∀ k s'', s.run? (es.take k) = some s'' → Pool.AllocExclusive s''.poolPcs)
    (hs : s.run? es = some s') : ∃ L' R', Inv s' L' R' := by
  induction es generalizing s L R with
  | nil =>
    cases hs
    exact ⟨L, R, h⟩
  | cons e es ih =>
    rw [run?_cons] at hs
    obtain ⟨s1, h1, hs⟩ := Option.bind_eq_some.1 hs
    obtain ⟨L1, R1, hL1⟩ := h.perform (hx 0 s rfl) h1
    refine ih hL1 (fun k s'' hk => hx (k + 1) s'' ?_) hs
    rw [List.take_succ_cons, run?_cons, h1]
    exact hk

/-- `nodes` reads a list back once its fuel covers it. -/
theorem nodes_eq {next : Nat → Option Nat} {hd : Option Nat} {l : List Nat}
    (h : Pool.Links next hd l) {fuel : Nat} (hf : l.length ≤ fuel) : nodes next fuel hd = l := by
  induction h generalizing fuel with
  | nil => cases fuel <;> rfl
  | @cons b l _ ih =>
    obtain ⟨f, rfl⟩ : ∃ f, fuel = f + 1 := ⟨fuel - 1, by simp at hf; omega⟩
    simp only [nodes, ih (by simpa using hf)]

/-- The walk from a thread's `retired_list` meets exactly the nodes of its list. -/
theorem Inv.retiredNodes_eq (h : Inv s L R) (t : Nat) : s.retiredNodes t = R t :=
  nodes_eq (h.lists t) (by
    simpa using (List.subperm_of_subset (h.nodup t) fun b hb =>
      List.mem_range.2 (h.pool.held_lt t b (mem_owned hb))).length_le)

/-- The only events that run a callback are `retire`'s two fallbacks, each for the pointer it
retires, and the step that ends a scan that found nothing, for the pointer of its node. -/
theorem perform_callbacks {e : Event} {s' : State} (he : s.perform? e = some s') :
    s'.callbacks = s.callbacks ∨ ∃ x, s'.callbacks = s.callbacks ++ [x] ∧
      ((∃ t p, x = some p ∧
          (e = .retireNoRecord t p ∨ (e = .allocFail t ∧ s.pc t = some (.retire p .alloc)))) ∨
        ∃ t prev c nx ptr, e = .tick t ∧ s.pc t = some (.scan prev c nx ptr []) ∧
          x = s.dom.pool.link c) := by
  cases e with
  | retireNoRecord t p =>
    simp only [perform?, Option.ite_none_right_eq_some, Option.some.injEq] at he
    obtain ⟨-, rfl⟩ := he
    exact .inr ⟨_, rfl, .inl ⟨t, p, rfl, .inl rfl⟩⟩
  | allocFail t =>
    simp only [perform?] at he
    split at he
    · next p hq =>
      simp only [Option.ite_none_right_eq_some, Option.some.injEq] at he
      obtain ⟨-, rfl⟩ := he
      exact .inr ⟨_, rfl, .inl ⟨t, p, rfl, .inr ⟨rfl, hq⟩⟩⟩
    · cases he
  | tick t =>
    obtain ⟨q, hq, rfl⟩ := Option.map_eq_some'.1 he
    rcases q with ⟨i, c⟩ | ⟨i, c, ptr⟩ | ⟨i, c, ptr⟩ | ⟨p, pc⟩ | ⟨prev, curr⟩ |
      ⟨prev, c, nx, ptr, _ | ⟨⟨u, i⟩, todo⟩⟩ | ⟨prev, nx, pc⟩
    · exact .inl rfl
    · exact .inl rfl
    · left; simp only [State.tick]; split_ifs <;> rfl
    · left; simp only [State.tick]; split <;> rfl
    · left; cases curr <;> rfl
    · exact .inr ⟨_, rfl, .inr ⟨t, prev, c, nx, ptr, rfl, hq, rfl⟩⟩
    · left; simp only [State.tick]; split_ifs <;> rfl
    · left; simp only [State.tick]; split <;> rfl
  | _ =>
    simp only [perform?, Option.ite_none_right_eq_some, Option.some.injEq] at he
    obtain ⟨-, rfl⟩ := he
    exact .inl rfl

end Runs

/-! ## Programs with one retiring thread -/

/-- No thread but `t₀` is inside `retire`, and none but `t₀` is inside `alloc`. -/
def OneRetirer (t₀ : Nat) (s : State) : Prop :=
  ∀ u q, u ≠ t₀ → s.pc u = some q →
    q.retiring = none ∧ ∀ pc, q.poolPc = some pc → pc.allocating = false

section OneRetirer

variable {t₀ t : Nat} {s s' : State}

theorem OneRetirer.allocExclusive (h : OneRetirer t₀ s) : Pool.AllocExclusive s.poolPcs := by
  have key : ∀ v pc, s.poolPcs v = some pc → pc.allocating → v = t₀ := fun v pc hv hpa => by
    by_contra hne
    obtain ⟨q, hq, hqp⟩ := Option.bind_eq_some.1 hv
    rw [(h v q hne hq).2 pc hqp] at hpa
    cases hpa
  intro u w pc pc' hu hw ha ha'
  rw [key u pc hu ha, key w pc' hw ha']

/-- A move of thread `t` to a place outside `retire` and `alloc`. -/
theorem OneRetirer.setPc (h : OneRetirer t₀ s) {y : Option Pc}
    (hy : ∀ q, y = some q → q.retiring = none ∧ ∀ pc, q.poolPc = some pc → pc.allocating = false) :
    OneRetirer t₀ (s.setPc t y) :=
  fun u q hu hq => by
    rcases eq_or_ne u t with rfl | hne
    · exact hy q (by simpa using hq)
    · exact h u q hu (by simpa [Function.update_noteq hne] using hq)

/-- A step of a thread outside `retire` takes it to a place outside `retire` and `alloc`. -/
theorem OneRetirer.tick (h : OneRetirer t₀ s) {q : Pc} (hq : s.pc t = some q) :
    OneRetirer t₀ (s.tick t q) := by
  intro u q' hu hu'
  rcases eq_or_ne u t with rfl | hne
  · obtain ⟨hr, hp⟩ := h u q hu hq
    have quiet : ∀ q'' : Pc, q''.poolPc = none → q''.retiring = none ∧
        ∀ pc, q''.poolPc = some pc → pc.allocating = false := fun q'' h0 =>
      ⟨retiring_eq_none (y := some q'') h0, fun pc e => by rw [h0] at e; cases e⟩
    cases q with
    | protectLoad i c | protectStore i c ptr =>
      simp [State.tick] at hu'
      subst hu'
      exact quiet _ rfl
    | protectCheck i c ptr =>
      simp only [State.tick] at hu'
      split_ifs at hu' <;> simp at hu'
      subst hu'
      exact quiet _ rfl
    | retire p pc => cases hr
    | reclaim prev curr =>
      cases curr <;> simp [State.tick] at hu'
      subst hu'
      exact quiet _ rfl
    | scan prev c nx ptr todo =>
      rcases todo with _ | ⟨⟨u', i⟩, todo⟩
      · simp [State.tick, unlinkNode] at hu'
        subst hu'
        exact ⟨rfl, fun pc e => by cases e; rfl⟩
      · simp only [State.tick] at hu'
        split_ifs at hu' <;> simp at hu' <;> subst hu' <;> exact quiet _ rfl
    | reclaimFree prev nx pc =>
      have hfree := hp pc rfl
      obtain ⟨-, hnext⟩ := Pool.step_of_freeing (p := s.dom.pool) hfree
      rcases hs : s.dom.pool.step pc with ⟨p', _ | _ | _⟩ <;> rw [hs] at hnext
      · obtain ⟨pc', he, hpc', -⟩ | ⟨_, he, _⟩ := hnext <;> cases he
        simp [State.tick, hs] at hu'
        subst hu'
        exact ⟨rfl, fun _ e => by cases e; exact hpc'⟩
      all_goals
        simp [State.tick, hs, afterFree] at hu'
        subst hu'
        exact quiet _ rfl
  · rw [tick_pc_ne hne] at hu'
    exact h u q' hu hu'

theorem OneRetirer.perform (h : OneRetirer t₀ s) {e : Event}
    (hr : e.retirer? = none ∨ e.retirer? = some t₀) (he : s.perform? e = some s') : OneRetirer t₀ s' := by
  have quiet : ∀ {y : Option Pc}, y.bind Pc.poolPc = none → ∀ q, y = some q →
      q.retiring = none ∧ ∀ pc, q.poolPc = some pc → pc.allocating = false := fun h0 q e => by
    subst e
    have h1 : q.poolPc = none := h0
    exact ⟨retiring_eq_none h0, fun pc e => by rw [h1] at e; cases e⟩
  cases e with
  | protect t i c =>
    simp only [perform?, Option.ite_none_right_eq_some, Option.some.injEq] at he
    obtain ⟨-, rfl⟩ := he
    exact OneRetirer.setPc (s := s.withRecord t) h (quiet rfl)
  | reclaim t =>
    simp only [perform?, Option.ite_none_right_eq_some, Option.some.injEq] at he
    obtain ⟨-, rfl⟩ := he
    exact OneRetirer.setPc (s := s.withRecord t) h (quiet rfl)
  | retire t p =>
    simp only [perform?, Option.ite_none_right_eq_some, Option.some.injEq] at he
    obtain ⟨-, rfl⟩ := he
    obtain rfl : t = t₀ := Option.some.inj (hr.resolve_left nofun)
    exact fun u q hu hq => h u q hu (by simpa [Function.update_noteq hu] using hq)
  | allocFail t =>
    simp only [perform?] at he
    split at he
    · simp only [Option.ite_none_right_eq_some, Option.some.injEq] at he
      obtain ⟨-, rfl⟩ := he
      exact OneRetirer.setPc (s := s) h (quiet rfl)
    · cases he
  | tick t =>
    obtain ⟨q, hq, rfl⟩ := Option.map_eq_some'.1 he
    exact h.tick hq
  | _ =>
    simp only [perform?, Option.ite_none_right_eq_some, Option.some.injEq] at he
    obtain ⟨-, rfl⟩ := he
    exact h

theorem OneRetirer.run? {es : List Event} (h : OneRetirer t₀ s)
    (hes : ∀ e ∈ es, e.retirer? = none ∨ e.retirer? = some t₀) (hs : s.run? es = some s') :
    OneRetirer t₀ s' := by
  induction es generalizing s with
  | nil => cases hs; exact h
  | cons e es ih =>
    obtain ⟨s1, h1, hs⟩ := Option.bind_eq_some.1 hs
    exact ih (h.perform (hes e (List.mem_cons_self e es)) h1)
      (fun e' he' => hes e' (List.mem_cons_of_mem e he')) hs

/-- **One retiring thread keeps `retired_pool`'s allocations apart.**  In an interleaving in
which no thread but `t₀` calls `retire`, at most one thread is inside `cauchy_pool_alloc` after
every prefix. -/
theorem allocExclusive_of_one_retirer (t₀ : Nat) (cells : List (Option Nat)) (es : List Event)
    (hes : ∀ e ∈ es, e.retirer? = none ∨ e.retirer? = some t₀) (k : Nat) (s' : State)
    (hs : (init cells).run? (es.take k) = some s') : Pool.AllocExclusive s'.poolPcs :=
  (OneRetirer.run? (fun _ _ _ hq => Option.noConfusion hq)
    (fun e he => hes e (List.mem_of_mem_take he)) hs).allocExclusive

end OneRetirer

/-! ## What every run guarantees -/

/-- **A callback runs only as `retire`'s fallback or for a pointer no settled slot holds.**
After any interleaving of `protect`, `clear`, `retire` and `reclaim`, one load or store at a
time, and of the program's stores of pointers awaiting no reclamation, in which at most one thread
is inside `retired_pool`'s `cauchy_pool_alloc` at any time:

* a next step runs no callback, or one: either for the pointer a `retire` is retiring whose record
  or node could not be allocated, or for a pointer that no slot whose `protect` has returned
  holds;
* `retired_count` of each record is the number of nodes on its list, and of the node its
  `reclaim` is giving back, mod `2 ^ 32`. -/
theorem callbacks_safe_of_exclusive_alloc (cells : List (Option Nat)) (es : List Event)
    (s : State) (hs : (init cells).run? es = some s)
    (hx : ∀ k s', (init cells).run? (es.take k) = some s' → Pool.AllocExclusive s'.poolPcs) :
    (∀ e s', s.perform? e = some s' → s'.callbacks = s.callbacks ∨
      ∃ x, s'.callbacks = s.callbacks ++ [x] ∧
        ((∃ t p, x = some p ∧
            (e = .retireNoRecord t p ∨ (e = .allocFail t ∧ s.pc t = some (.retire p .alloc)))) ∨
          ∃ p, x = some p ∧ ∀ t i, s.dom.slots t i = some p → ¬ s.Settled t i)) ∧
      ∀ t, s.dom.retiredCount t =
        ((s.retiredNodes t).length + (((s.pc t).map Pc.returning).getD []).length) % 2 ^ 32 := by
  obtain ⟨L, R, h⟩ := inv_run? es (inv_init cells) hx hs
  have hsafe : ∀ t prev c nx ptr, s.pc t = some (.scan prev c nx ptr []) →
      ∃ p, s.dom.pool.link c = some p ∧ ∀ u i, s.dom.slots u i = some p → ¬ s.Settled u i := by
    intro t prev c nx ptr hq
    obtain ⟨hcur, -, hptr⟩ := h.thread_ok t _ hq
    obtain ⟨p, hp⟩ := h.link_some (hcur.mem_curr (h.lists t))
    exact ⟨p, hp, fun u i hs hset => List.not_mem_nil _
      (h.guarded u i p hs hset t prev c nx [] (by rw [hq, hptr, hp]))⟩
  refine ⟨fun e s' he => (perform_callbacks he).imp_right fun ⟨x, hcb, hk⟩ =>
    ⟨x, hcb, hk.imp_right fun ⟨t, prev, c, nx, ptr, _, hq, hxc⟩ => hxc ▸ hsafe t prev c nx ptr hq⟩,
    fun t => ?_⟩
  rw [h.count t, h.retiredNodes_eq, owned, List.length_append]

/-- Thread `2` protects `200` from cell `1`; thread `0` loads `100` from cell `0` and publishes
it, but has not loaded the cell again when the program clears both cells and thread `1` retires
`100` and reclaims it.  The scan of thread `1` comes before the publication, so the reclaim calls
`100` back while slot `(0, 0)` holds it; the `protect` of thread `0` is then bound to fail its
check.  A thread without a record that retires `200` now has it called back at once, though the
settled slot `(2, 0)` holds it. -/
def lateFallback : List Event :=
  [.protect 2 0 1, .tick 2, .tick 2, .tick 2, .protect 0 0 0, .tick 0, .write 0 none,
    .write 1 none, .retire 1 100, .tick 1, .tick 1, .tick 1, .reclaim 1] ++
  List.replicate 18 (.tick 1) ++ [.tick 0]

theorem lateFallback_run :
    let s := ((init [some 100, some 200]).run? lateFallback).getD (init [])
    (init [some 100, some 200]).run? lateFallback = some s ∧
      s.callbacks = [some 100] ∧ s.dom.slots 0 0 = some 100 ∧ ¬ s.Settled 0 0 ∧
      s.dom.slots 2 0 = some 200 ∧ s.Settled 2 0 ∧
      (s.perform? (.retireNoRecord 3 200)).map callbacks = some [some 100, some 200] ∧
      (∀ e s', s.perform? e = some s' → s'.callbacks = s.callbacks ∨
        ∃ x, s'.callbacks = s.callbacks ++ [x] ∧
          ((∃ t p, x = some p ∧
              (e = .retireNoRecord t p ∨ (e = .allocFail t ∧ s.pc t = some (.retire p .alloc)))) ∨
            ∃ p, x = some p ∧ ∀ t i, s.dom.slots t i = some p → ¬ s.Settled t i)) ∧
        ∀ t, s.dom.retiredCount t =
          ((s.retiredNodes t).length + (((s.pc t).map Pc.returning).getD []).length) % 2 ^ 32 :=
  ⟨rfl, by decide, by decide, by decide, by decide, by decide, by decide,
    callbacks_safe_of_exclusive_alloc [some 100, some 200] lateFallback _ rfl
      (allocExclusive_of_one_retirer 1 _ _ (by decide))⟩

/-- **No callback runs more often than its pointer was retired.**  After any interleaving in
which at most one thread is inside `retired_pool`'s `alloc` at any time, every callback that has
run is for a retired pointer, and each pointer's callback has run at most as many times as
`retire` was called on it. -/
theorem callbacks_count_le_retires (cells : List (Option Nat)) (es : List Event) (s : State)
    (hs : (init cells).run? es = some s)
    (hx : ∀ k s', (init cells).run? (es.take k) = some s' → Pool.AllocExclusive s'.poolPcs) :
    (∀ x ∈ s.callbacks, ∃ p, x = some p ∧ p ∈ s.retiredPtrs) ∧
      ∀ p, s.callbacks.count (some p) ≤ s.retiredPtrs.count p := by
  obtain ⟨L, R, h⟩ := inv_run? es (inv_init cells) hx hs
  refine ⟨fun x hx' => ?_, fun p => ?_⟩
  · obtain ⟨p, hp, rfl⟩ := List.mem_map.1 (h.conserved.subset (List.mem_append_left _ hx'))
    exact ⟨p, rfl, hp⟩
  · have hc : (s.callbacks ++ s.pending R).count (some p) =
        (s.retiredPtrs.map some).count (some p) := h.conserved.countP_eq _
    rw [List.count_append, count_map_some] at hc
    omega

theorem lateFallback_callbacks_le :
    let s := ((init [some 100, some 200]).run? lateFallback).getD (init [])
    (init [some 100, some 200]).run? lateFallback = some s ∧ s.retiredPtrs = [100] ∧
      s.callbacks = [some 100] ∧
      ((∀ x ∈ s.callbacks, ∃ p, x = some p ∧ p ∈ s.retiredPtrs) ∧
        ∀ p, s.callbacks.count (some p) ≤ s.retiredPtrs.count p) :=
  ⟨rfl, by decide, by decide, callbacks_count_le_retires [some 100, some 200] lateFallback _ rfl
    (allocExclusive_of_one_retirer 1 _ _ (by decide))⟩

/-- **Over a domain's life each `retire`'s callback runs exactly once.**  After any interleaving
in which at most one thread is inside `retired_pool`'s `alloc` at any time, once every thread has
returned from its call, the callbacks that have run followed by those
`cauchy_hazard_domain_destroy` runs for the nodes left on the retired lists are the pointers of
the `retire` calls, each as many times as it was retired. -/
theorem destroy_calls_back_once (cells : List (Option Nat)) (es : List Event) (s : State)
    (hs : (init cells).run? es = some s)
    (hx : ∀ k s', (init cells).run? (es.take k) = some s' → Pool.AllocExclusive s'.poolPcs)
    (hidle : ∀ t, s.pc t = none) : s.domainDestroy.Perm (s.retiredPtrs.map some) := by
  obtain ⟨L, R, h⟩ := inv_run? es (inv_init cells) hx hs
  have hd : s.domainDestroy = s.callbacks ++ s.pending R :=
    congrArg (s.callbacks ++ ·) (List.flatMap_congr fun t _ => by
      simp [pendingOf, hidle, h.retiredNodes_eq])
  rw [hd]
  exact h.conserved

/-- Thread `1` retires `100` after the program has cleared cell `0`, and its reclaim calls it
back.  The allocator hands the same address out again: the program stores `100` in cell `0`,
thread `0` protects it, and the program clears the cell.  Thread `1` retires `100` a second time,
and its reclaim keeps the node, as slot `(0, 0)` holds `100`. -/
def retireAgain : List Event :=
  [.write 0 none, .retire 1 100, .tick 1, .tick 1, .tick 1, .reclaim 1] ++
  List.replicate 10 (.tick 1) ++
  [.write 0 (some 100), .protect 0 0 0, .tick 0, .tick 0, .tick 0, .write 0 none,
    .retire 1 100, .tick 1, .tick 1, .tick 1, .reclaim 1, .tick 1, .tick 1, .tick 1]

theorem retireAgain_destroy :
    let s := ((init [some 100]).run? retireAgain).getD (init [])
    (init [some 100]).run? retireAgain = some s ∧ (∀ t, s.pc t = none) ∧
      s.retiredPtrs = [100, 100] ∧ s.callbacks = [some 100] ∧
      s.dom.slots 0 0 = some 100 ∧ s.Settled 0 0 ∧
      s.domainDestroy.Perm (s.retiredPtrs.map some) :=
  have hidle : ∀ t, (((init [some 100]).run? retireAgain).getD (init [])).pc t = none :=
    fun t => by
      rcases Nat.lt_or_ge t 2 with ht | ht
      · interval_cases t <;> decide
      · have h01 : ∀ e ∈ retireAgain, e.thread? = none ∨ e.thread? = some 0 ∨
            e.thread? = some 1 := by decide
        have hs : (init [some 100]).run? retireAgain =
            some (((init [some 100]).run? retireAgain).getD (init [])) := rfl
        refine (run?_pc_ne hs fun e he hte => ?_).trans rfl
        rcases h01 e he with h | h | h <;> simp only [hte, reduceCtorEq, Option.some.injEq] at h <;> omega
  ⟨rfl, hidle, by decide, by decide, by decide, by decide,
    destroy_calls_back_once [some 100] retireAgain _ rfl (allocExclusive_of_one_retirer 1 _ _ (by decide))
      hidle⟩


end State
end Threads
end Hazard
end Cauchy
