import Cauchy.Core.Context

/-!
# Vector clocks capture causality

The clock of a `cauchy_context_t` exists so that nodes can order their events: a node increments
its own entry at each local event (`cauchy_context_tick`, `cauchy_context_gen_uid`) and, on
receiving a message, merges the clock it carries into its own and increments its entry
(`cauchy_context_merge_clock`).  This file runs `N` contexts, node `k`'s made by
`cauchy_context_create k`, through any sequence of such events (`Net.run`), a message carrying
the clock some earlier event left its node with, and compares the clocks events leave behind
with `cauchy_vclock_compare`.

Causality is Lamport's happened-before, `HB`: the least transitive relation containing the order
of each node's events and the edge from an event to the receipt of the clock it left.  It
mentions no clock.

* `clock_condition`: for node ids below `CAUCHY_MAX_NODES` and fewer than `2 ^ 64` events, so that
  no entry wraps, `cauchy_vclock_compare` of two events' clocks is `HAPPENS_BEFORE` exactly when
  the first happened before the second, `HAPPENS_AFTER` exactly when the second happened before
  the first, `EQUAL` only for an event and itself, and `CONCURRENT` exactly when neither happened
  before the other.

The proof carries the invariant `Inv` along the run: a node's own entry counts its own events, no
node's entry for `i` exceeds node `i`'s own, and an event of node `i` whose rank among node `i`'s
events is at most a clock's entry for `i` has happened before the clock's event (`knows`,
`msg_knows`).
-/

set_option autoImplicit false

namespace Cauchy
namespace Context

variable {N : Nat}

/-! ## Systems of contexts -/

/-- An event at node `k` of a system of `N` contexts. -/
inductive Event (N : Nat) where
  /-- `cauchy_context_tick`. -/
  | tick (k : Fin N)
  /-- `cauchy_context_gen_uid`. -/
  | genUid (k : Fin N)
  /-- `cauchy_context_merge_clock` with the clock that event `m` left its node with. -/
  | recv (k : Fin N) (m : Nat)

/-- The node an event happens at. -/
def Event.node : Event N → Fin N
  | .tick k | .genUid k | .recv k _ => k

/-- The contexts, and the clock each event so far left its node with: what it can send. -/
structure Net (N : Nat) where
  ctxs : Fin N → Context
  sent : List VClock

namespace Net

/-- The clock event `m` left its node with; an empty clock for an event yet to come. -/
def msg (w : Net N) (m : Nat) : VClock := w.sent.getD m (VClock.init maxNodes)

/-- What an event does to the context `ctx` of its node. -/
def act (w : Net N) (ctx : Context) : Event N → Context
  | .tick _ => ctx.tick
  | .genUid _ => ctx.genUid.2
  | .recv _ m => ctx.mergeClock (w.msg m)

/-- Node `k`'s context made by `cauchy_context_create k`; no event yet. -/
def start : Net N := ⟨fun k => create k, []⟩

/-- One event. -/
def step (w : Net N) (e : Event N) : Net N :=
  ⟨Function.update w.ctxs e.node (w.act (w.ctxs e.node) e),
    w.sent ++ [(w.act (w.ctxs e.node) e).localClock]⟩

/-- The events `evs`, in order. -/
def run (evs : List (Event N)) : Net N := evs.foldl step start

end Net

/-- The clock event `t` of `evs` left its node with. -/
def clockAt (evs : List (Event N)) (t : Nat) : VClock := (Net.run evs).msg t

/-! ## Happened-before -/

/-- The direct causal edges between the events of `evs`, by position: to a later event of the
same node, and to the receipt of the clock an event left. -/
inductive Edge (evs : List (Event N)) : Nat → Nat → Prop
  | local {s t : Nat} {e e' : Event N} : s < t → evs[s]? = some e → evs[t]? = some e' →
      e.node = e'.node → Edge evs s t
  | msg {m t : Nat} {k : Fin N} : evs[t]? = some (.recv k m) → Edge evs m t

/-- Lamport's happened-before. -/
def HB (evs : List (Event N)) : Nat → Nat → Prop := Relation.TransGen (Edge evs)

/-- Every receipt is of the clock of an earlier event. -/
def Valid (evs : List (Event N)) : Prop :=
  ∀ (t : Nat) (k : Fin N) (m : Nat), evs[t]? = some (Event.recv k m) → m < t

/-- The number of node `i`'s events among the first `T`. -/
def count (evs : List (Event N)) (i : Fin N) (T : Nat) : Nat :=
  (evs.take T).countP fun e => e.node = i

section Causality

variable {evs : List (Event N)}

theorem lt_length_of_getElem? {t : Nat} {e : Event N} (h : evs[t]? = some e) : t < evs.length :=
  (List.getElem?_eq_some_iff.1 h).1

theorem Valid.lt (hv : Valid evs) {t m : Nat} {k : Fin N} (h : evs[t]? = some (.recv k m)) :
    m < t := by
  unfold Valid at hv; exact hv t k m h

theorem Edge.lt (hv : Valid evs) {s t : Nat} : Edge evs s t → s < t ∧ t < evs.length
  | .local hst _ ht _ => ⟨hst, lt_length_of_getElem? ht⟩
  | .msg ht => ⟨hv.lt ht, lt_length_of_getElem? ht⟩

/-- Happened-before goes forward in the run. -/
theorem HB.lt (hv : Valid evs) {s t : Nat} (h : HB evs s t) : s < t ∧ t < evs.length := by
  induction h with
  | single h => exact h.lt hv
  | tail _ h ih => exact ⟨ih.1.trans (h.lt hv).1, (h.lt hv).2⟩

theorem count_succ {t : Nat} {e : Event N} (h : evs[t]? = some e) (i : Fin N) :
    count evs i (t + 1) = count evs i t + if e.node = i then 1 else 0 := by
  simp only [count, List.take_succ, h, Option.toList_some, List.countP_append,
    List.countP_singleton, decide_eq_true_eq]

theorem count_mono (i : Fin N) {T T' : Nat} (h : T ≤ T') : count evs i T ≤ count evs i T' :=
  (List.take_sublist_take_left evs h).countP_le _

/-- An event of node `i` whose rank among node `i`'s events is at most the number of node `i`'s
events among the first `T` is one of them. -/
theorem lt_of_count_le {s T : Nat} {e : Event N} (h : evs[s]? = some e)
    (hc : count evs e.node (s + 1) ≤ count evs e.node T) : s < T := by
  by_contra hT
  have : count evs e.node T ≤ count evs e.node s := count_mono e.node (not_lt.1 hT)
  rw [count_succ h, if_pos rfl] at hc
  omega

theorem one_le_count {s : Nat} {e : Event N} (h : evs[s]? = some e) :
    1 ≤ count evs e.node (s + 1) := by
  rw [count_succ h, if_pos rfl]; omega

end Causality

/-! ## One event -/

namespace Net

variable (w : Net N) (e : Event N)

@[simp] theorem step_sent : (w.step e).sent = w.sent ++ [(w.act (w.ctxs e.node) e).localClock] :=
  rfl

theorem step_ctxs (j : Fin N) :
    (w.step e).ctxs j = if j = e.node then w.act (w.ctxs e.node) e else w.ctxs j :=
  Function.update_apply _ _ _ _

theorem msg_step_of_lt {m : Nat} (hm : m < w.sent.length) : (w.step e).msg m = w.msg m :=
  List.getD_append _ _ _ _ hm

theorem msg_step_self : (w.step e).msg w.sent.length = (w.act (w.ctxs e.node) e).localClock := by
  simp [msg]

theorem msg_of_le {m : Nat} (hm : w.sent.length ≤ m) : w.msg m = VClock.init maxNodes :=
  List.getD_eq_default _ _ hm

theorem run_take_succ (evs : List (Event N)) {T : Nat} (h : evs[T]? = some e) :
    run (evs.take (T + 1)) = (run (evs.take T)).step e := by
  rw [run, List.take_succ, h, Option.toList_some, List.foldl_append]; rfl

/-- The clock a message brings to an event: the one it receives, none for a local event. -/
def brings : Event N → Nat → Nat
  | .recv _ m => (w.msg m).entries
  | _ => fun _ => 0

variable {w}

/-- **What an event does to its node's clock**, as long as the node's entry does not wrap: the
larger of each entry and the message's, the node's own one more. -/
theorem act_entries {ctx : Context} (h : ctx.WF) (hn : ctx.nodeId < maxNodes)
    (hm : ∀ m, (w.msg m).WF)
    (hwrap : max (ctx.localClock.entries ctx.nodeId) (w.brings e ctx.nodeId) + 1 < 2 ^ 64)
    (i : Nat) : (w.act ctx e).localClock.entries i =
      max (ctx.localClock.entries i) (w.brings e i) + if i = ctx.nodeId then 1 else 0 := by
  have htick : ∀ hw : ctx.localClock.entries ctx.nodeId + 1 < 2 ^ 64,
      ctx.tick.localClock.entries i = ctx.localClock.entries i + if i = ctx.nodeId then 1 else 0 :=
    fun hw => by
      simp only [Context.tick, VClock.increment_entries, h.numNodes, hn, true_and]
      split
      · rename_i hi; rw [hi]; exact Nat.mod_eq_of_lt hw
      · rfl
  cases e with
  | tick k => simpa [act, brings] using htick (by simpa [brings] using hwrap)
  | genUid k => simpa [act, brings] using htick (by simpa [brings] using hwrap)
  | recv k m =>
    simp only [act, brings, mergeClock_entries h hn (hm m)]
    split
    · rename_i hi; rw [hi]; exact Nat.mod_eq_of_lt hwrap
    · rfl

end Net

/-! ## The invariant -/

/-- What holds of the contexts and clocks after the first `w.sent.length` events of `evs`. -/
structure Inv (evs : List (Event N)) (w : Net N) : Prop where
  len : w.sent.length ≤ evs.length
  wf : ∀ j, (w.ctxs j).WF
  nodeId : ∀ j, (w.ctxs j).nodeId = j
  msg_wf : ∀ m, (w.msg m).WF
  /-- No entry exceeds the number of events so far: nothing wraps. -/
  bound : ∀ j i, (w.ctxs j).localClock.entries i ≤ w.sent.length
  /-- A node's own entry counts its events. -/
  own : ∀ j : Fin N, (w.ctxs j).localClock.entries j = count evs j w.sent.length
  /-- No node's entry for `i` exceeds node `i`'s own. -/
  le_own : ∀ j i : Fin N, (w.ctxs j).localClock.entries i ≤ (w.ctxs i).localClock.entries i
  /-- The clock an event left is below its node's clock since. -/
  msg_le : ∀ m e, m < w.sent.length → evs[m]? = some e →
    ∀ i, (w.msg m).entries i ≤ (w.ctxs e.node).localClock.entries i
  /-- The clock an event left counts its node's events up to it. -/
  msg_own : ∀ m e, m < w.sent.length → evs[m]? = some e →
    (w.msg m).entries e.node = count evs e.node (m + 1)
  /-- Along a direct edge, the clocks grow strictly. -/
  edge : ∀ m t, t < w.sent.length → Edge evs m t →
    (∀ i, (w.msg m).entries i ≤ (w.msg t).entries i) ∧
      ∃ i, (w.msg m).entries i < (w.msg t).entries i
  /-- An event a node's clock counts has happened before the node's last event. -/
  knows : ∀ j s e, evs[s]? = some e →
    count evs e.node (s + 1) ≤ (w.ctxs j).localClock.entries e.node →
    s < w.sent.length ∧ (e.node = j ∨ ∃ t e', t < w.sent.length ∧ evs[t]? = some e' ∧
      e'.node = j ∧ (s = t ∨ HB evs s t))
  /-- An event the clock of event `m` counts is `m` or happened before it. -/
  msg_knows : ∀ m s e, m < w.sent.length → evs[s]? = some e →
    count evs e.node (s + 1) ≤ (w.msg m).entries e.node → s = m ∨ HB evs s m

theorem inv_start (evs : List (Event N)) : Inv evs (Net.start (N := N)) where
  len := Nat.zero_le _
  wf _ := wf_create _
  nodeId _ := rfl
  msg_wf _ := VClock.wf_init _
  bound _ _ := le_of_eq rfl
  own _ := by simp [count, Net.start, create]
  le_own _ _ := le_of_eq rfl
  msg_le _ _ h := absurd h (Nat.not_lt_zero _)
  msg_own _ _ h := absurd h (Nat.not_lt_zero _)
  edge _ _ h := absurd h (Nat.not_lt_zero _)
  knows _ s e hs hc := by
    have := one_le_count hs
    simp [Net.start, create] at hc; omega
  msg_knows _ _ _ h := absurd h (Nat.not_lt_zero _)

section Step

variable {evs : List (Event N)} {w : Net N}

theorem Inv.msg_bound (hw : Inv evs w) (m i : Nat) : (w.msg m).entries i ≤ w.sent.length := by
  by_cases hm : m < w.sent.length
  · exact (hw.msg_le m _ hm (List.getElem?_eq_getElem (hm.trans_le hw.len)) i).trans
      (hw.bound _ i)
  · rw [Net.msg_of_le w (not_lt.1 hm)]; exact Nat.zero_le _

theorem Inv.msg_le_own (hw : Inv evs w) (m : Nat) (i : Fin N) :
    (w.msg m).entries i ≤ (w.ctxs i).localClock.entries i := by
  by_cases hm : m < w.sent.length
  · exact (hw.msg_le m _ hm (List.getElem?_eq_getElem (hm.trans_le hw.len)) i).trans
      (hw.le_own _ i)
  · rw [Net.msg_of_le w (not_lt.1 hm)]; exact Nat.zero_le _

theorem Inv.brings_le_own (hw : Inv evs w) (e : Event N) (i : Fin N) :
    w.brings e i ≤ (w.ctxs i).localClock.entries i := by
  cases e with
  | recv k m => exact hw.msg_le_own m i
  | _ => exact Nat.zero_le _

variable (hN : N ≤ maxNodes) (hlen : evs.length < 2 ^ 64) {e : Event N}
  (hw : Inv evs w) (hT : w.sent.length < evs.length)
include hN hlen hw hT

/-- The acting node's clock after the event, entry by entry. -/
theorem Inv.act_entries (i : Nat) :
    (w.act (w.ctxs e.node) e).localClock.entries i =
      max ((w.ctxs e.node).localClock.entries i) (w.brings e i) + if i = e.node then 1 else 0 := by
  have hk := hw.nodeId e.node
  have hb : w.brings e e.node ≤ w.sent.length := by
    cases e with
    | recv k m => exact hw.msg_bound m _
    | _ => exact Nat.zero_le _
  rw [Net.act_entries e (hw.wf _) (hk ▸ e.node.2.trans_le hN) hw.msg_wf (by
    rw [hk]; have := hw.bound e.node e.node; omega), hk]

/-- The acting node's clock is above its clock before and above the message's, its own entry
strictly. -/
theorem Inv.act_spec :
    (∀ i, (w.ctxs e.node).localClock.entries i ≤
      (w.act (w.ctxs e.node) e).localClock.entries i) ∧
    (∀ i, w.brings e i ≤ (w.act (w.ctxs e.node) e).localClock.entries i) ∧
    (w.ctxs e.node).localClock.entries e.node <
      (w.act (w.ctxs e.node) e).localClock.entries e.node ∧
    w.brings e e.node < (w.act (w.ctxs e.node) e).localClock.entries e.node := by
  have h := hw.act_entries hN hlen hT (e := e)
  refine ⟨fun i => ?_, fun i => ?_, ?_, ?_⟩ <;> rw [h]
  · exact (le_max_left _ _).trans (Nat.le_add_right _ _)
  · exact (le_max_right _ _).trans (Nat.le_add_right _ _)
  · rw [if_pos rfl]; exact Nat.lt_succ_of_le (le_max_left _ _)
  · rw [if_pos rfl]; exact Nat.lt_succ_of_le (le_max_right _ _)

omit hN hlen hT in
theorem Inv.brings_bound (e : Event N) (i : Nat) : w.brings e i ≤ w.sent.length := by
  cases e with
  | recv k m => exact hw.msg_bound m i
  | _ => exact Nat.zero_le _

end Step

theorem Net.act_wf {w : Net N} {ctx : Context} (h : ctx.WF) (hm : ∀ m, (w.msg m).WF) :
    ∀ e : Event N, (w.act ctx e).WF
  | .tick _ | .genUid _ => h.tick
  | .recv _ m => h.mergeClock (hm m)

@[simp] theorem Net.act_nodeId (w : Net N) (ctx : Context) :
    ∀ e : Event N, (w.act ctx e).nodeId = ctx.nodeId
  | .tick _ | .genUid _ | .recv _ _ => rfl

theorem Net.msg_step (w : Net N) (e : Event N) (m : Nat) :
    (w.step e).msg m = if m < w.sent.length then w.msg m
      else if m = w.sent.length then (w.act (w.ctxs e.node) e).localClock
      else VClock.init maxNodes := by
  split
  · exact w.msg_step_of_lt e ‹_›
  · split
    · subst m; exact w.msg_step_self e
    · exact Net.msg_of_le _ (by simp; omega)

section Step

variable {evs : List (Event N)} {w : Net N} {e : Event N}
  (hN : N ≤ maxNodes) (hlen : evs.length < 2 ^ 64) (hv : Valid evs)
  (hw : Inv evs w) (hT : w.sent.length < evs.length) (he : evs[w.sent.length]? = some e)
include hN hlen hw hT he

omit hN hlen hT in
/-- An event of another node that the acting node's clock counts happened before this event. -/
theorem Inv.hb_of_knows {s : Nat} {es : Event N} (hs : evs[s]? = some es) (hk : es.node ≠ e.node)
    (hc : count evs es.node (s + 1) ≤ (w.ctxs e.node).localClock.entries es.node) :
    HB evs s w.sent.length := by
  obtain ⟨-, hn | ⟨t, e', htT, ht, hn, hst⟩⟩ := hw.knows e.node s es hs hc
  · exact absurd hn hk
  · have hE : HB evs t w.sent.length := .single (.local htT ht he hn)
    rcases hst with rfl | hst
    · exact hE
    · exact hst.trans hE

omit hN hlen hT in
/-- An event that the received clock counts happened before the receipt. -/
theorem Inv.hb_of_brings (hv : Valid evs) {s : Nat} {es : Event N} (hs : evs[s]? = some es)
    (hc : count evs es.node (s + 1) ≤ w.brings e es.node) : HB evs s w.sent.length := by
  have h1 := one_le_count hs
  cases e with
  | tick k | genUid k => simp only [Net.brings] at hc; omega
  | recv k m =>
    have hm := hv.lt he
    have hE : HB evs m w.sent.length := .single (.msg he)
    rcases hw.msg_knows m s es hm hs hc with rfl | hsm
    · exact hE
    · exact hsm.trans hE

omit he in
theorem Inv.step_ctxs_le (j : Fin N) (i : Nat) :
    (w.ctxs j).localClock.entries i ≤ ((w.step e).ctxs j).localClock.entries i := by
  rw [Net.step_ctxs]
  split
  · rename_i hj; subst hj; exact (hw.act_spec hN hlen hT).1 i
  · exact le_rfl

/-- The acting node's own entry after the event counts its events. -/
theorem Inv.act_own :
    (w.act (w.ctxs e.node) e).localClock.entries e.node = count evs e.node (w.sent.length + 1) := by
  rw [hw.act_entries hN hlen hT, if_pos rfl, count_succ he, if_pos rfl, ← hw.own,
    max_eq_left (hw.brings_le_own e e.node)]

/-- **Every event keeps the invariant.** -/
theorem Inv.step (hv : Valid evs) : Inv evs (w.step e) where
  len := by simp; omega
  wf j := by
    rw [Net.step_ctxs]; split
    · exact Net.act_wf (hw.wf _) hw.msg_wf e
    · exact hw.wf j
  nodeId j := by
    rw [Net.step_ctxs]; split
    · rename_i hj; rw [Net.act_nodeId, hw.nodeId, hj]
    · exact hw.nodeId j
  msg_wf m := by
    rw [Net.msg_step]; split
    · exact hw.msg_wf m
    · split
      · exact (Net.act_wf (hw.wf _) hw.msg_wf e).clock
      · exact VClock.wf_init _
  bound j i := by
    have hb := hw.bound
    simp only [Net.step_sent, List.length_append, List.length_singleton, Net.step_ctxs]
    split
    · rename_i hj; subst hj
      rw [hw.act_entries hN hlen hT]
      have := hw.brings_bound e i
      have := hb e.node i
      split <;> omega
    · exact (hb j i).trans (Nat.le_succ _)
  own j := by
    simp only [Net.step_sent, List.length_append, List.length_singleton, Net.step_ctxs]
    split
    · rename_i hj; subst hj; exact hw.act_own hN hlen hT he
    · rename_i hj
      rw [hw.own j, count_succ he, if_neg (Ne.symm hj), Nat.add_zero]
  le_own j i := by
    rw [Net.step_ctxs _ _ j, Net.step_ctxs _ _ i]
    by_cases hj : j = e.node <;> by_cases hi : i = e.node
    · simp only [if_pos hj, if_pos hi, le_refl]
    · rw [if_pos hj, if_neg hi, hw.act_entries hN hlen hT, if_neg (fun h => hi (Fin.ext h)),
        Nat.add_zero]
      exact max_le (hw.le_own _ i) (hw.brings_le_own e i)
    · rw [if_neg hj, if_pos hi, hi]
      exact (hw.le_own j e.node).trans (hw.act_spec hN hlen hT).2.2.1.le
    · rw [if_neg hj, if_neg hi]; exact hw.le_own j i
  msg_le m em hm hem i := by
    simp only [Net.step_sent, List.length_append, List.length_singleton] at hm
    rw [Net.msg_step]
    split
    · exact (hw.msg_le m em ‹_› hem i).trans (hw.step_ctxs_le hN hlen hT _ i)
    · have hmT : m = w.sent.length := by omega
      rw [if_pos hmT]
      rw [hmT, he] at hem; cases hem
      rw [Net.step_ctxs, if_pos rfl]
  msg_own m em hm hem := by
    simp only [Net.step_sent, List.length_append, List.length_singleton] at hm
    rw [Net.msg_step]
    split
    · exact hw.msg_own m em ‹_› hem
    · have hmT : m = w.sent.length := by omega
      rw [if_pos hmT]
      rw [hmT, he] at hem; cases hem
      rw [hmT]; exact hw.act_own hN hlen hT he
  edge m t ht hE := by
    simp only [Net.step_sent, List.length_append, List.length_singleton] at ht
    have hmt := (hE.lt hv).1
    rw [Net.msg_step, Net.msg_step, if_pos (by omega)]
    by_cases htT : t < w.sent.length
    · rw [if_pos htT]; exact hw.edge m t htT hE
    · have htT : t = w.sent.length := by omega
      subst htT
      rw [if_neg (lt_irrefl _), if_pos rfl]
      cases hE with
      | «local» hst hs' ht' hn =>
        obtain rfl : e = _ := Option.some.inj (he.symm.trans ht')
        have hs := hw.act_spec hN hlen hT (e := e)
        have hle := hw.msg_le m _ hmt hs'
        rw [hn] at hle
        exact ⟨fun i => (hle i).trans (hs.1 i), e.node, (hle _).trans_lt hs.2.2.1⟩
      | @msg k ht' =>
        obtain rfl := Option.some.inj (he.symm.trans ht')
        have hs := hw.act_spec hN hlen hT (e := .recv k m)
        exact ⟨hs.2.1, _, hs.2.2.2⟩
  knows j s es hs hc := by
    simp only [Net.step_sent, List.length_append, List.length_singleton]
    rw [Net.step_ctxs] at hc
    split at hc
    · rename_i hj; subst hj
      by_cases hk : es.node = e.node
      · rw [hk, hw.act_own hN hlen hT he] at hc
        exact ⟨lt_of_count_le hs (by rw [hk]; exact hc), .inl hk⟩
      · rw [hw.act_entries hN hlen hT, if_neg (fun h => hk (Fin.ext h)), Nat.add_zero] at hc
        have hst : HB evs s w.sent.length := by
          rcases le_max_iff.1 hc with hc | hc
          · exact hw.hb_of_knows he hs hk hc
          · exact hw.hb_of_brings he hv hs hc
        exact ⟨(hst.lt hv).1.trans (Nat.lt_succ_self _),
          .inr ⟨_, e, Nat.lt_succ_self _, he, rfl, .inr hst⟩⟩
    · obtain ⟨h1, h2⟩ := hw.knows j s es hs hc
      refine ⟨h1.trans (Nat.lt_succ_self _), h2.imp_right ?_⟩
      rintro ⟨t, e', ht, h⟩
      exact ⟨t, e', ht.trans (Nat.lt_succ_self _), h⟩
  msg_knows m s es hm hs hc := by
    simp only [Net.step_sent, List.length_append, List.length_singleton] at hm
    rw [Net.msg_step] at hc
    split at hc
    · exact hw.msg_knows m s es ‹_› hs hc
    · have hmT : m = w.sent.length := by omega
      subst hmT
      rw [if_pos rfl] at hc
      by_cases hk : es.node = e.node
      · rw [hk, hw.act_own hN hlen hT he] at hc
        have hsT := lt_of_count_le hs (hk ▸ hc)
        by_cases hlt : s < w.sent.length
        · exact .inr (.single (.local hlt hs he hk))
        · exact .inl (by omega)
      · rw [hw.act_entries hN hlen hT, if_neg (fun h => hk (Fin.ext h)), Nat.add_zero] at hc
        rcases le_max_iff.1 hc with hc | hc
        · exact .inr (hw.hb_of_knows he hs hk hc)
        · exact .inr (hw.hb_of_brings he hv hs hc)

end Step

/-! ## The clock condition -/

theorem Net.run_sent_length (l : List (Event N)) : (Net.run l).sent.length = l.length := by
  induction l using List.reverseRecOn with
  | nil => rfl
  | append_singleton l e ih => simp [Net.run, List.foldl_append, ← ih]

/-- What `cauchy_vclock_compare` says of two events' clocks, read as causality. -/
structure Classified (c : Causality) (evs : List (Event N)) (s t : Nat) : Prop where
  equal_iff : c = .equal ↔ s = t
  happensBefore_iff : c = .happensBefore ↔ HB evs s t
  happensAfter_iff : c = .happensAfter ↔ HB evs t s
  concurrent_iff : c = .concurrent ↔ s ≠ t ∧ ¬HB evs s t ∧ ¬HB evs t s

section Run

variable {evs : List (Event N)} (hN : N ≤ maxNodes) (hv : Valid evs) (hlen : evs.length < 2 ^ 64)
include hN hv hlen

theorem inv_run_take : ∀ T, T ≤ evs.length → Inv evs (Net.run (evs.take T))
  | 0, _ => inv_start evs
  | T + 1, hT => by
    have hT' : T < evs.length := hT
    obtain ⟨e, he⟩ : ∃ e, evs[T]? = some e := ⟨_, List.getElem?_eq_getElem hT'⟩
    have hl : (Net.run (evs.take T)).sent.length = T := by
      rw [Net.run_sent_length, List.length_take, min_eq_left hT'.le]
    rw [Net.run_take_succ _ evs he]
    have hw := inv_run_take T hT'.le
    rw [← hl] at hT' he
    exact hw.step hN hlen hT' he hv

/-- **Every run keeps the invariant.** -/
theorem inv_run : Inv evs (Net.run evs) := by
  simpa using inv_run_take hN hv hlen evs.length le_rfl

/-- Along happened-before, the clocks grow strictly. -/
theorem clockAt_lt_of_hb {s t : Nat} (h : HB evs s t) :
    (∀ i, (clockAt evs s).entries i ≤ (clockAt evs t).entries i) ∧
      ∃ i, (clockAt evs s).entries i < (clockAt evs t).entries i := by
  have hw := inv_run hN hv hlen
  have hedge : ∀ {u t}, Edge evs u t →
      (∀ i, (clockAt evs u).entries i ≤ (clockAt evs t).entries i) ∧
        ∃ i, (clockAt evs u).entries i < (clockAt evs t).entries i := fun hE =>
    hw.edge _ _ (by rw [Net.run_sent_length]; exact (hE.lt hv).2) hE
  induction h with
  | single hE => exact hedge hE
  | tail _ hE ih =>
    obtain ⟨hle, i, hlt⟩ := ih
    have h2 := hedge hE
    exact ⟨fun j => (hle j).trans (h2.1 j), i, hlt.trans_le (h2.1 i)⟩

/-- **An event's clock is below another's exactly when it is that event or happened before it.**
-/
theorem clockAt_le_iff {s t : Nat} (hs : s < evs.length) (ht : t < evs.length) :
    (∀ i, (clockAt evs s).entries i ≤ (clockAt evs t).entries i) ↔ s = t ∨ HB evs s t := by
  have hw := inv_run hN hv hlen
  have hl := Net.run_sent_length evs
  constructor
  · intro h
    have hes : evs[s]? = some evs[s] := List.getElem?_eq_getElem hs
    refine hw.msg_knows t s _ (hl ▸ ht) hes ?_
    rw [← hw.msg_own s _ (hl ▸ hs) hes]
    exact h _
  · rintro (rfl | h)
    · exact fun _ => le_rfl
    · exact (clockAt_lt_of_hb hN hv hlen h).1

/-- **The clock condition.**  For a system of contexts whose node ids are below
`CAUCHY_MAX_NODES`, run through fewer than `2 ^ 64` events, each receipt of the clock of an earlier
event: `cauchy_vclock_compare` of two events' clocks is `EQUAL` only for an event and itself,
`HAPPENS_BEFORE` or `HAPPENS_AFTER` exactly when one happened before the other, and `CONCURRENT`
exactly when neither did. -/
theorem clock_condition {s t : Nat} (hs : s < evs.length) (ht : t < evs.length) :
    Classified ((clockAt evs s).compare (clockAt evs t)) evs s t := by
  have hw := inv_run hN hv hlen
  have hget : ∀ m, (clockAt evs m).get = (clockAt evs m).entries := fun m => funext fun i =>
    readEntry_of_zero (hw.msg_wf m).zero_above i
  have hc := VClock.compare_classifies (clockAt evs s) (clockAt evs t)
  rw [hget, hget] at hc
  have hst := clockAt_le_iff hN hv hlen hs ht
  have hts := clockAt_le_iff hN hv hlen ht hs
  have irrefl : ∀ {u}, ¬HB evs u u := fun h => lt_irrefl _ (h.lt hv).1
  refine ⟨?_, ?_, ?_, ?_⟩
  · rw [hc.equal_iff]
    constructor
    · intro h
      rcases hst.1 fun i => (congrFun h i).le with hst | hst
      · exact hst
      · obtain ⟨i, hi⟩ := (clockAt_lt_of_hb hN hv hlen hst).2
        exact absurd (congrFun h i) hi.ne
    · rintro rfl; rfl
  · rw [hc.happensBefore_iff]
    constructor
    · rintro ⟨hle, i, hi⟩
      exact (hst.1 hle).resolve_left (by rintro rfl; exact lt_irrefl _ hi)
    · exact clockAt_lt_of_hb hN hv hlen
  · rw [hc.happensAfter_iff]
    constructor
    · rintro ⟨hle, i, hi⟩
      exact (hts.1 hle).resolve_left (by rintro rfl; exact lt_irrefl _ hi)
    · exact clockAt_lt_of_hb hN hv hlen
  · rw [hc.concurrent_iff]
    constructor
    · rintro ⟨⟨i, hi⟩, j, hj⟩
      refine ⟨by rintro rfl; exact lt_asymm hi hi, fun h => ?_, fun h => ?_⟩
      · exact absurd ((clockAt_lt_of_hb hN hv hlen h).1 j) (not_le.2 hj)
      · exact absurd ((clockAt_lt_of_hb hN hv hlen h).1 i) (not_le.2 hi)
    · rintro ⟨hne, h1, h2⟩
      have n1 : ¬∀ i, (clockAt evs s).entries i ≤ (clockAt evs t).entries i := fun h =>
        (hst.1 h).elim hne h1
      have n2 : ¬∀ i, (clockAt evs t).entries i ≤ (clockAt evs s).entries i := fun h =>
        (hts.1 h).elim (Ne.symm hne) h2
      push_neg at n1 n2
      exact ⟨n2, n1⟩

end Run

/-- Two nodes: node `0` ticks, node `1` ticks, node `1` receives the clock of event `0`, node `0`
generates a UID. -/
def twoNodeRun : List (Event 2) := [.tick 0, .tick 1, .recv 1 0, .genUid 0]

theorem twoNodeRun_valid : Valid twoNodeRun := by
  intro t k m h
  rcases t with _ | _ | _ | _ | t <;> simp [twoNodeRun] at h
  omega

theorem twoNodeRun_clock_condition :
    2 ≤ maxNodes ∧ Valid twoNodeRun ∧ twoNodeRun.length < 2 ^ 64 ∧ 0 < twoNodeRun.length ∧
      2 < twoNodeRun.length ∧
      Classified ((clockAt twoNodeRun 0).compare (clockAt twoNodeRun 2)) twoNodeRun 0 2 :=
  ⟨by decide, twoNodeRun_valid, by decide, by decide, by decide,
    clock_condition (by decide) twoNodeRun_valid (by decide) (by decide) (by decide)⟩

end Context
end Cauchy
