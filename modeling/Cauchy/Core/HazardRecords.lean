import Cauchy.Core.Hazard

/-!
# How a thread finds its hazard record

`Cauchy.Core.Hazard` gives every thread one record of one domain.  In `src/core/hazard.c` a
thread finds its record through two thread-local variables, `tls_domain` and
`tls_hazard_record`, in `get_hazard_record`: a call on the domain they name uses the cached
record; a call on any other domain looks, from the head of that domain's list, for a record whose
`active` flag a compare-and-swap can set, and otherwise pushes a new record; either way the two
variables then name the record it got.  Nothing in `src/` ever clears `active`.

This file models one thread calling `protect`, `clear`, `retire` and `reclaim` on any number of
domains, one call after another, with every allocation succeeding.

* `Reachable.inv`: every record of every domain stays active, so `getHazardRecord_miss`: a call on
  a domain other than `tls_domain` always pushes a new, empty record.
* `switch_abandons_record`: after the thread's calls move to another domain and back, `clear` and
  `reclaim` on the first domain work on a new record: the slots the thread published and the
  pointers it retired there stay in the old record, which no call of the thread reaches again.
* `tls_cache_loses_record`: alternating between two domains, `clear (0, 0)` leaves the pointer
  the last `protect (0, 0)` published in its slot, and `reclaim (0)` runs no callback for a
  pointer the thread retired into domain `0` although no slot of domain `0` holds it.
-/

set_option autoImplicit false

namespace Cauchy
namespace Hazard
namespace Tls

/-- `hazard_record_t`. -/
structure Record where
  hazards : Nat → Option Nat
  active : Bool
  /-- `retired_list`: the retired pointers, the newest first. -/
  retiredList : List Nat
  /-- `retired_count`, a `u32`. -/
  retiredCount : Nat

/-- A record as `get_hazard_record` allocates it: zeroed, then `active`. -/
def Record.fresh : Record := ⟨fun _ => none, true, [], 0⟩

/-- The records of a `cauchy_hazard_domain`: record `k` is the `k`-th pushed, and the list runs
from `head`, record `length - 1`, down to record `0`.  `record_count` is read by nothing, and
`retired_pool` never fails here. -/
structure Domain where
  records : Nat → Record
  length : Nat

/-- `is_hazardous`: some slot of an active record of the domain holds `ptr`. -/
def Domain.isHazardous (dom : Domain) (ptr : Nat) : Bool :=
  (List.range dom.length).any fun k =>
    (dom.records k).active &&
      (List.range maxHazardPointers).any fun i => (dom.records k).hazards i == some ptr

/-- `reclaim`'s loop over a retired list: the pointers that are hazardous stay, in order, and the
callbacks of the others run, in order. -/
def Domain.sweep (dom : Domain) : List Nat → List Nat × List Nat
  | [] => ([], [])
  | p :: ps =>
    if dom.isHazardous p then (p :: (dom.sweep ps).1, (dom.sweep ps).2)
    else ((dom.sweep ps).1, p :: (dom.sweep ps).2)

/-- One thread and the domains it calls into. -/
structure State where
  domains : Nat → Domain
  /-- `tls_domain` and the number of `tls_hazard_record` in it; `none` before the first call. -/
  tls : Option (Nat × Nat)
  /-- The pointers whose retire callback has run, in the order it ran. -/
  callbacks : List Nat

namespace State

/-- Domains fresh from `cauchy_hazard_domain_create`, and a thread that has made no call. -/
def init : State := ⟨fun _ => ⟨fun _ => Record.fresh, 0⟩, none, []⟩

/-- Record `k` of domain `d` replaced by `r`. -/
def setRecord (s : State) (d k : Nat) (r : Record) : State :=
  { s with
    domains := Function.update s.domains d
      ⟨Function.update (s.domains d).records k r, (s.domains d).length⟩ }

/-- A new record pushed on the head of domain `d`, and named by the thread-local variables. -/
def pushRecord (s : State) (d : Nat) : State :=
  { s with
    domains := Function.update s.domains d
      ⟨Function.update (s.domains d).records (s.domains d).length Record.fresh,
        (s.domains d).length + 1⟩
    tls := some (d, (s.domains d).length) }

/-- `get_hazard_record (d)` after the cache missed: the first record from the head whose
`active` can be set, or else a new one. -/
def acquire (s : State) (d : Nat) : State × Nat :=
  match (List.range (s.domains d).length).reverse.find? fun k =>
      !((s.domains d).records k).active with
  | some k =>
    ({ s.setRecord d k { ((s.domains d).records k) with active := true } with
        tls := some (d, k) }, k)
  | none => (s.pushRecord d, (s.domains d).length)

/-- `get_hazard_record (d)`: the cached record if `tls_domain` is `d`. -/
def getHazardRecord (s : State) (d : Nat) : State × Nat :=
  match s.tls with
  | some (d', k) => if d' = d then (s, k) else s.acquire d
  | none => s.acquire d

/-- `cauchy_hazard_protect (d, i, pptr)` with `*pptr = p`: publish `p` in slot `i`; no other
thread writes `*pptr`, so the loop re-reads `p` and stops.  It returns `p`, or `NULL` for an
index out of range. -/
def protect (s : State) (d i : Nat) (p : Option Nat) : State × Option Nat :=
  if maxHazardPointers ≤ i then (s, none)
  else
    let g := s.getHazardRecord d
    let r := (g.1.domains d).records g.2
    (g.1.setRecord d g.2 { r with hazards := Function.update r.hazards i p }, p)

/-- `cauchy_hazard_clear (d, i)`. -/
def clear (s : State) (d i : Nat) : State :=
  if maxHazardPointers ≤ i then s
  else
    let g := s.getHazardRecord d
    let r := (g.1.domains d).records g.2
    g.1.setRecord d g.2 { r with hazards := Function.update r.hazards i none }

/-- `cauchy_hazard_reclaim (d)`, and the number of nodes it reclaimed. -/
def reclaim (s : State) (d : Nat) : State × Nat :=
  let g := s.getHazardRecord d
  let r := (g.1.domains d).records g.2
  let swept := (g.1.domains d).sweep r.retiredList
  ({ g.1.setRecord d g.2 { r with
        retiredList := swept.1
        retiredCount := (r.retiredCount + swept.2.length * (2 ^ 32 - 1)) % 2 ^ 32 } with
      callbacks := g.1.callbacks ++ swept.2 },
    swept.2.length)

/-- `cauchy_hazard_retire (d, p)`: push `p` on the record's list, and reclaim once the list holds
`CAUCHY_MAX_HAZARD_THREADS * CAUCHY_MAX_HAZARD_POINTERS * 2` nodes. -/
def retire (s : State) (d p : Nat) : State :=
  let g := s.getHazardRecord d
  let r := (g.1.domains d).records g.2
  let count := (r.retiredCount + 1) % 2 ^ 32
  let s' := g.1.setRecord d g.2 { r with retiredList := p :: r.retiredList, retiredCount := count }
  if maxHazardThreads * maxHazardPointers * 2 ≤ count then (s'.reclaim d).1 else s'

end State

/-- One call of the thread. -/
inductive Call where
  | protect (d i : Nat) (p : Option Nat)
  | clear (d i : Nat)
  | retire (d p : Nat)
  | reclaim (d : Nat)

/-- The state after a call. -/
def Call.apply (s : State) : Call → State
  | .protect d i p => (s.protect d i p).1
  | .clear d i => s.clear d i
  | .retire d p => s.retire d p
  | .reclaim d => (s.reclaim d).1

/-- The domain whose record a call takes, `none` for an index out of range. -/
def Call.domain : Call → Option Nat
  | .protect d i _ | .clear d i => if maxHazardPointers ≤ i then none else some d
  | .retire d _ | .reclaim d => some d

/-- The state after a sequence of calls. -/
def run (s : State) (cs : List Call) : State := cs.foldl (fun s c => c.apply s) s

/-- The states the thread can reach. -/
inductive Reachable : State → Prop
  | init : Reachable State.init
  | step {s : State} (c : Call) : Reachable s → Reachable (c.apply s)

/-! ## Records are never released -/

namespace State

/-- Every record is active, and the thread-local variables name a record that exists. -/
structure Inv (s : State) : Prop where
  active : ∀ d k, k < (s.domains d).length → ((s.domains d).records k).active = true
  tls : ∀ d k, s.tls = some (d, k) → k < (s.domains d).length

variable {s : State} {d k : Nat}

@[simp] theorem setRecord_tls (s : State) (d k : Nat) (r : Record) :
    (s.setRecord d k r).tls = s.tls := rfl

@[simp] theorem setRecord_callbacks (s : State) (d k : Nat) (r : Record) :
    (s.setRecord d k r).callbacks = s.callbacks := rfl

theorem setRecord_domains (s : State) (d k : Nat) (r : Record) (d' : Nat) :
    (s.setRecord d k r).domains d' =
      if d' = d then ⟨Function.update (s.domains d).records k r, (s.domains d).length⟩
      else s.domains d' := by
  by_cases h : d' = d
  · subst h; simp [setRecord]
  · simp [setRecord, h]

theorem pushRecord_domains (s : State) (d d' : Nat) :
    (s.pushRecord d).domains d' =
      if d' = d then
        ⟨Function.update (s.domains d).records (s.domains d).length Record.fresh,
          (s.domains d).length + 1⟩
      else s.domains d' := by
  by_cases h : d' = d
  · subst h; simp [pushRecord]
  · simp [pushRecord, h]

@[simp] theorem pushRecord_tls (s : State) (d : Nat) :
    (s.pushRecord d).tls = some (d, (s.domains d).length) := rfl

@[simp] theorem pushRecord_callbacks (s : State) (d : Nat) :
    (s.pushRecord d).callbacks = s.callbacks := rfl

theorem Inv.setRecord (h : s.Inv) (hk : k < (s.domains d).length) {r : Record}
    (hr : r.active = true) : (s.setRecord d k r).Inv where
  active d' k' hk' := by
    rw [setRecord_domains] at hk' ⊢
    by_cases hd : d' = d
    · subst hd
      simp only [↓reduceIte, Function.update_apply] at hk' ⊢
      split
      · exact hr
      · exact h.active d' k' hk'
    · simp only [hd, if_false] at hk' ⊢; exact h.active d' k' hk'
  tls d' k' ht := by
    rw [setRecord_domains]
    split
    · rename_i hd; subst hd; exact h.tls _ _ ht
    · exact h.tls d' k' ht

theorem Inv.pushRecord (h : s.Inv) (d : Nat) : (s.pushRecord d).Inv where
  active d' k' hk' := by
    rw [pushRecord_domains] at hk' ⊢
    by_cases hd : d' = d
    · subst hd
      simp only [↓reduceIte, Function.update_apply] at hk' ⊢
      split
      · rfl
      · exact h.active d' k' (by omega)
    · simp only [hd, if_false] at hk' ⊢; exact h.active d' k' hk'
  tls d' k' ht := by
    rw [pushRecord_tls, Option.some.injEq, Prod.mk.injEq] at ht
    obtain ⟨rfl, rfl⟩ := ht
    simp [pushRecord_domains]

/-- With every record active, the scan finds nothing and a new record is pushed. -/
theorem acquire_eq (h : s.Inv) (d : Nat) :
    s.acquire d = (s.pushRecord d, (s.domains d).length) := by
  have hnone : ((List.range (s.domains d).length).reverse.find? fun k =>
      !((s.domains d).records k).active) = none := by
    rw [List.find?_eq_none]
    intro k hk
    rw [List.mem_reverse, List.mem_range] at hk
    simp [h.active d k hk]
  rw [acquire, hnone]

/-- **A cache miss pushes a new record.**  From a state where every record is active, a call on
a domain other than `tls_domain` gets a new, empty record on the head of that domain. -/
theorem getHazardRecord_miss (h : s.Inv) (hd : ∀ k, s.tls ≠ some (d, k)) :
    s.getHazardRecord d = (s.pushRecord d, (s.domains d).length) := by
  unfold getHazardRecord
  split
  · rename_i d' k' ht
    rw [if_neg fun (hdd : d' = d) => hd k' (hdd ▸ ht), acquire_eq h]
  · exact acquire_eq h d

theorem getHazardRecord_hit (ht : s.tls = some (d, k)) : s.getHazardRecord d = (s, k) := by
  simp [getHazardRecord, ht]

/-- What `get_hazard_record` leaves: the invariant, the thread-local variables naming the record
it returned, which exists, and the other domains untouched. -/
theorem Inv.getHazardRecord (h : s.Inv) (d : Nat) :
    (s.getHazardRecord d).1.Inv ∧ (s.getHazardRecord d).1.tls = some (d, (s.getHazardRecord d).2) ∧
      (s.getHazardRecord d).2 < ((s.getHazardRecord d).1.domains d).length ∧
      (s.getHazardRecord d).1.callbacks = s.callbacks ∧
      ∀ d', d' ≠ d → (s.getHazardRecord d).1.domains d' = s.domains d' := by
  by_cases hc : ∃ k, s.tls = some (d, k)
  · obtain ⟨k, hk⟩ := hc
    rw [getHazardRecord_hit hk]
    exact ⟨h, hk, h.tls d k hk, rfl, fun _ _ => rfl⟩
  · rw [getHazardRecord_miss h (fun k hk => hc ⟨k, hk⟩)]
    exact ⟨h.pushRecord d, rfl, by simp [pushRecord_domains], rfl,
      fun d' hd' => by rw [pushRecord_domains, if_neg hd']⟩

/-- What a call that takes a record of domain `d` leaves: the invariant, the thread-local
variables naming domain `d`, and every other domain as it was. -/
structure Used (s s' : State) (d : Nat) : Prop where
  inv : s'.Inv
  tls : ∃ k, s'.tls = some (d, k)
  others : ∀ d', d' ≠ d → s'.domains d' = s.domains d'

theorem Used.trans {s' s'' : State} (h : Used s s' d) (h' : Used s' s'' d) : Used s s'' d :=
  ⟨h'.inv, h'.tls, fun d' hd' => (h'.others d' hd').trans (h.others d' hd')⟩

/-- Taking the record of domain `d` and rewriting it without touching `active`. -/
theorem Inv.used (h : s.Inv) (d : Nat) (f : Record → Record) (hf : ∀ r, (f r).active = r.active) :
    Used s ((s.getHazardRecord d).1.setRecord d (s.getHazardRecord d).2
      (f (((s.getHazardRecord d).1.domains d).records (s.getHazardRecord d).2))) d := by
  obtain ⟨h1, ht, hk, -, ho⟩ := h.getHazardRecord d
  exact ⟨(h1.setRecord hk ((hf _).trans (h1.active d _ hk))), ⟨_, ht⟩,
    fun d' hd' => (setRecord_domains _ _ _ _ d').trans (by rw [if_neg hd', ho d' hd'])⟩

theorem Used.withCallbacks {s' : State} (h : Used s s' d) (cb : List Nat) :
    Used s { s' with callbacks := cb } d :=
  ⟨⟨h.inv.active, h.inv.tls⟩, h.tls, h.others⟩

theorem Inv.protect (h : s.Inv) {i : Nat} (hi : i < maxHazardPointers) (p : Option Nat) :
    Used s (s.protect d i p).1 d := by
  rw [State.protect, if_neg (by omega)]
  exact h.used d (fun r => { r with hazards := Function.update r.hazards i p }) fun _ => rfl

theorem Inv.clear (h : s.Inv) {i : Nat} (hi : i < maxHazardPointers) : Used s (s.clear d i) d := by
  rw [State.clear, if_neg (by omega)]
  exact h.used d (fun r => { r with hazards := Function.update r.hazards i none }) fun _ => rfl

theorem Inv.reclaim (h : s.Inv) (d : Nat) : Used s (s.reclaim d).1 d :=
  (h.used d (fun r => { r with
      retiredList := (((s.getHazardRecord d).1.domains d).sweep r.retiredList).1
      retiredCount := (r.retiredCount +
        (((s.getHazardRecord d).1.domains d).sweep r.retiredList).2.length * (2 ^ 32 - 1)) %
          2 ^ 32 })
    fun _ => rfl).withCallbacks _

theorem Inv.retire (h : s.Inv) (d p : Nat) : Used s (s.retire d p) d := by
  have hu := h.used d (fun r => { r with
    retiredList := p :: r.retiredList
    retiredCount := (r.retiredCount + 1) % 2 ^ 32 }) fun _ => rfl
  unfold State.retire
  dsimp only
  split
  · exact hu.trans (hu.inv.reclaim d)
  · exact hu

end State

/-- Every call that takes a record of domain `d` leaves a `Used` state; one with an index out of
range changes nothing. -/
theorem State.Inv.apply {s : State} (h : s.Inv) (c : Call) :
    match c.domain with
    | some d => State.Used s (c.apply s) d
    | none => c.apply s = s := by
  cases c with
  | protect d i p =>
    by_cases hi : maxHazardPointers ≤ i
    · simp [Call.domain, Call.apply, State.protect, hi]
    · simpa [Call.domain, hi] using h.protect (by omega) p
  | clear d i =>
    by_cases hi : maxHazardPointers ≤ i
    · simp [Call.domain, Call.apply, State.clear, hi]
    · simpa [Call.domain, hi] using h.clear (d := d) (by omega)
  | retire d p => exact h.retire d p
  | reclaim d => exact h.reclaim d

theorem Reachable.inv {s : State} (h : Reachable s) : s.Inv := by
  induction h with
  | init =>
    exact ⟨fun _ _ hk => absurd hk (Nat.not_lt_zero _), fun _ _ ht => by cases ht⟩
  | step c _ ih =>
    have hc := ih.apply c
    cases hd : c.domain with
    | some d => simp only [hd] at hc; exact hc.inv
    | none => simp only [hd] at hc; rw [hc]; exact ih

/-! ## Switching domains -/

/-- **A domain switch abandons the record.**  Say the thread's last call took record `k` of
domain `d`.  After any call that takes a record of another domain, `clear (d, i)` and
`reclaim (d)` get a new record of `d`: record `k` keeps its slots and its retired list, and the
`reclaim` runs no callback. -/
theorem switch_abandons_record {s : State} {d k d' : Nat} (h : Reachable s)
    (hk : s.tls = some (d, k)) {c : Call} (hc : c.domain = some d') (hd : d' ≠ d) (i : Nat) :
    (((c.apply s).clear d i).domains d).records k = (s.domains d).records k ∧
      (((c.apply s).reclaim d).1.domains d).records k = (s.domains d).records k ∧
      ((c.apply s).reclaim d).1.callbacks = (c.apply s).callbacks := by
  have hinv := h.inv
  have hu : State.Used s (c.apply s) d' := by simpa [hc] using hinv.apply c
  obtain ⟨k', hk'⟩ := hu.tls
  have hmiss : ∀ j, (c.apply s).tls ≠ some (d, j) := fun j hj => by
    rw [hk', Option.some.injEq, Prod.mk.injEq] at hj; exact hd hj.1
  have hdom : (c.apply s).domains d = s.domains d := hu.others d (Ne.symm hd)
  have hlt : k < (s.domains d).length := hinv.tls d k hk
  have hg := State.getHazardRecord_miss hu.inv hmiss
  have hne : k ≠ ((c.apply s).domains d).length := by rw [hdom]; omega
  have hkept : ∀ r, ((((c.apply s).pushRecord d).setRecord d ((c.apply s).domains d).length
      r).domains d).records k = (s.domains d).records k := fun r => by
    rw [State.setRecord_domains, if_pos rfl, State.pushRecord_domains, if_pos rfl]
    dsimp only
    rw [Function.update_noteq hne, Function.update_noteq hne, hdom]
  refine ⟨?_, ?_, ?_⟩
  · by_cases hi : maxHazardPointers ≤ i
    · rw [State.clear, if_pos hi, hdom]
    · rw [State.clear, if_neg hi]; dsimp only; rw [hg]; exact hkept _
  · rw [State.reclaim]; dsimp only; rw [hg]; exact hkept _
  · rw [State.reclaim]; dsimp only
    rw [hg]
    simp [State.pushRecord_domains, Record.fresh, Domain.sweep]

/-- After `protect (0, 0, 1001)` the cache holds record `0` of domain `0`; a `protect` on domain `1`
moves it, and the next `clear (0, 0)` and `reclaim (0)` leave record `0`, with `1001` in its slot,
as it was. -/
theorem protectSwitch_abandons_record :
    let s := Call.apply State.init (.protect 0 0 (some 1001))
    let s' := (Call.protect 1 0 (some 1002)).apply s
    Reachable s ∧ s.tls = some (0, 0) ∧ (Call.protect 1 0 (some 1002)).domain = some 1 ∧
      ((s'.clear 0 0).domains 0).records 0 = (s.domains 0).records 0 ∧
      ((s'.reclaim 0).1.domains 0).records 0 = (s.domains 0).records 0 ∧
      (s'.reclaim 0).1.callbacks = s'.callbacks := by
  intro s s'
  have hr : Reachable s := .step _ .init
  have hk : s.tls = some (0, 0) := by decide
  exact ⟨hr, hk, rfl, switch_abandons_record hr hk (c := .protect 1 0 (some 1002)) rfl (by decide) 0⟩

/-- Protect `1001` in slot `0` of domain `0`, protect `1002` in slot `0` of domain `1`, then clear
slot `0` of domain `0`. -/
def clearAfterSwitch : List Call := [.protect 0 0 (some 1001), .protect 1 0 (some 1002), .clear 0 0]

/-- Retire `1001` into domain `0`, clear slot `0` of domain `1`, then reclaim domain `0`. -/
def reclaimAfterSwitch : List Call := [.retire 0 1001, .clear 1 0, .reclaim 0]

/-- **The thread-local cache loses the record.**  The first `protect (0, 0)` publishes `1001` in
slot `0` of record `0` of domain `0`; after `clearAfterSwitch`, `1001` is still there, and so still
hazardous in domain `0`.  After `reclaimAfterSwitch`, no callback has run, although no slot of
domain `0` holds `1001`. -/
theorem tls_cache_loses_record :
    (((run State.init [.protect 0 0 (some 1001)]).domains 0).records 0).hazards 0 = some 1001 ∧
      (((run State.init clearAfterSwitch).domains 0).records 0).hazards 0 = some 1001 ∧
      ((run State.init clearAfterSwitch).domains 0).isHazardous 1001 = true ∧
      (run State.init reclaimAfterSwitch).callbacks = [] ∧
      ((run State.init reclaimAfterSwitch).domains 0).isHazardous 1001 = false :=
  ⟨by decide, by decide, by decide, by decide, by decide⟩

end Tls
end Hazard
end Cauchy
