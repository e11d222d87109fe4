import Cauchy.Core.VClock

/-!
# The node context

`src/core/cauchy.c`.  A `cauchy_context_t` holds a node's id and its local vector clock, made by
`cauchy_context_create` with `CAUCHY_MAX_NODES` entries.  `gen_uid` increments the node's entry
and returns `(node_id, entry)`, `tick` increments it, and `merge_clock` merges a remote clock in
and then increments it.  `cauchy.h` documents `gen_uid` as generating a unique identifier; what
the causality layer relies on is that every UID a context returns be greater than every UID it
returned before, and that a merge leave the clock after both clocks.

* `run_uids_increasing`: for a `node_id` below `CAUCHY_MAX_NODES`, a run of `tick`, `gen_uid`
  and `merge_clock` calls with well-formed remote clocks, in which no call takes the node's entry
  past `2 ^ 64 - 1` (`NoWrap`), returns UIDs that `cauchy_uid_compare` orders strictly, oldest
  first; and `mergeClock_happensAfter` says such a merge leaves the clock `HAPPENS_AFTER` both its
  old value and the remote clock.
* `context_uid_not_increasing`: both conditions are needed.  `cauchy_context_create` accepts any
  `node_id`, and `cauchy_vclock_increment` ignores one at or above `num_nodes`: for node `64`, two
  `gen_uid` calls return the same UID, and a merge with an empty clock leaves the clock `EQUAL` to
  what it was.  For node `0`, a reachable remote clock whose entry for it is the largest `u64`
  makes the merge wrap the entry to `0`; the clock is then `HAPPENS_BEFORE` the remote one, and
  the next UID equals one returned before.
-/

set_option autoImplicit false

namespace Cauchy

/-- `cauchy_context_t`, as far as these calls use it.  The memory pool and the hazard domain that
`cauchy_context_create` also makes are not used by them, and `op_counter`, which `gen_uid`
increments, is read by nothing. -/
structure Context where
  nodeId : Nat
  localClock : VClock

namespace Context

/-- `cauchy_context_create`, when its allocations succeed: any `node_id`, and a clock of
`CAUCHY_MAX_NODES` zero entries. -/
def create (nodeId : Nat) : Context := ⟨nodeId, VClock.init maxNodes⟩

/-- `cauchy_context_get_timestamp`. -/
def getTimestamp (ctx : Context) : Nat := ctx.localClock.get ctx.nodeId

/-- `cauchy_context_tick`. -/
def tick (ctx : Context) : Context :=
  { ctx with localClock := ctx.localClock.increment ctx.nodeId }

/-- `cauchy_context_gen_uid`: increment the node's entry, then return it with the node id. -/
def genUid (ctx : Context) : Uid × Context :=
  let clock := ctx.localClock.increment ctx.nodeId
  (Uid.create ctx.nodeId (clock.get ctx.nodeId), { ctx with localClock := clock })

/-- `cauchy_context_merge_clock`. -/
def mergeClock (ctx : Context) (remote : VClock) : Context :=
  { ctx with localClock := (ctx.localClock.merge remote).increment ctx.nodeId }

@[simp] theorem genUid_snd (ctx : Context) : ctx.genUid.2 = ctx.tick := rfl

theorem genUid_fst (ctx : Context) :
    ctx.genUid.1 = Uid.create ctx.nodeId ctx.tick.getTimestamp := rfl

@[simp] theorem tick_nodeId (ctx : Context) : ctx.tick.nodeId = ctx.nodeId := rfl

@[simp] theorem mergeClock_nodeId (ctx : Context) (r : VClock) :
    (ctx.mergeClock r).nodeId = ctx.nodeId := rfl

/-! ## One call -/

/-- What a context keeps: a well-formed clock of `CAUCHY_MAX_NODES` nodes. -/
structure WF (ctx : Context) : Prop where
  clock : ctx.localClock.WF
  numNodes : ctx.localClock.numNodes = maxNodes

variable {ctx : Context} {r : VClock}

theorem wf_create (n : Nat) : (create n).WF := ⟨VClock.wf_init _, by simp [create]⟩

theorem WF.tick (h : ctx.WF) : ctx.tick.WF :=
  ⟨h.clock.increment _, by simp [Context.tick, h.numNodes]⟩

theorem WF.mergeClock (h : ctx.WF) (hr : r.WF) : (ctx.mergeClock r).WF :=
  ⟨(h.clock.merge hr).increment _, by
    simp only [Context.mergeClock, VClock.increment_numNodes, VClock.merge_numNodes, h.numNodes]
    exact max_eq_left hr.numNodes_le⟩

section Node

variable (h : ctx.WF) (hn : ctx.nodeId < maxNodes)
include h hn

theorem getTimestamp_eq : ctx.getTimestamp = ctx.localClock.entries ctx.nodeId := by
  rw [getTimestamp, VClock.get, if_pos (h.numNodes ▸ hn)]

theorem getTimestamp_tick : ctx.tick.getTimestamp = (ctx.getTimestamp + 1) % 2 ^ 64 := by
  rw [getTimestamp_eq h.tick hn, getTimestamp_eq h hn]
  simp [tick, VClock.increment_entries, h.numNodes, hn]

/-- After `merge_clock`, each entry is the larger of the two clocks', the node's plus one. -/
theorem mergeClock_entries (hr : r.WF) (i : Nat) :
    (ctx.mergeClock r).localClock.entries i =
      if i = ctx.nodeId then
        (max (ctx.localClock.entries ctx.nodeId) (r.entries ctx.nodeId) + 1) % 2 ^ 64
      else max (ctx.localClock.entries i) (r.entries i) := by
  have hm : ctx.nodeId < (ctx.localClock.merge r).numNodes := by
    simp only [VClock.merge_numNodes, h.numNodes]; omega
  simp only [Context.mergeClock, VClock.increment_entries, hm, true_and,
    VClock.merge_entries h.clock hr]

theorem getTimestamp_mergeClock (hr : r.WF) :
    (ctx.mergeClock r).getTimestamp =
      (max ctx.getTimestamp (r.entries ctx.nodeId) + 1) % 2 ^ 64 := by
  rw [getTimestamp_eq (h.mergeClock hr) hn, mergeClock_nodeId, mergeClock_entries h hn hr,
    if_pos rfl, getTimestamp_eq h hn]

/-- **A merge that does not wrap moves the clock after both clocks.** -/
theorem mergeClock_happensAfter (hr : r.WF)
    (hw : max ctx.getTimestamp (r.entries ctx.nodeId) + 1 < 2 ^ 64) :
    (ctx.mergeClock r).localClock.compare ctx.localClock = .happensAfter ∧
      (ctx.mergeClock r).localClock.compare r = .happensAfter := by
  rw [getTimestamp_eq h hn] at hw
  have he := mergeClock_entries h hn hr
  have hge : ∀ i, max (ctx.localClock.entries i) (r.entries i) ≤
      (ctx.mergeClock r).localClock.entries i := by
    intro i
    rw [he]
    split
    · rename_i hi; subst hi; rw [Nat.mod_eq_of_lt hw]; omega
    · exact le_rfl
  have hgt : max (ctx.localClock.entries ctx.nodeId) (r.entries ctx.nodeId) <
      (ctx.mergeClock r).localClock.entries ctx.nodeId := by
    rw [he, if_pos rfl, Nat.mod_eq_of_lt hw]; omega
  rw [VClock.compare_eq_happensAfter_iff (h.mergeClock hr).clock h.clock,
    VClock.compare_eq_happensAfter_iff (h.mergeClock hr).clock hr]
  exact ⟨⟨fun i => (le_max_left _ _).trans (hge i), _, (le_max_left _ _).trans_lt hgt⟩,
    ⟨fun i => (le_max_right _ _).trans (hge i), _, (le_max_right _ _).trans_lt hgt⟩⟩

end Node

/-- A remote clock that has seen nine events of node `3` and four of node `5`. -/
def remoteClock : VClock := ((VClock.init maxNodes).set 5 4).set 3 9

theorem remoteClock_wf : remoteClock.WF :=
  ((VClock.wf_init _).set 5 (by norm_num)).set 3 (by norm_num)

theorem create_mergeClock_happensAfter :
    (create 3).WF ∧ (create 3).nodeId < maxNodes ∧ remoteClock.WF ∧
      max (create 3).getTimestamp (remoteClock.entries (create 3).nodeId) + 1 < 2 ^ 64 ∧
      ((create 3).mergeClock remoteClock).localClock.compare (create 3).localClock =
        .happensAfter ∧
      ((create 3).mergeClock remoteClock).localClock.compare remoteClock = .happensAfter :=
  ⟨wf_create 3, by decide, remoteClock_wf, by decide,
    mergeClock_happensAfter (wf_create 3) (by decide) remoteClock_wf (by decide)⟩

/-! ## Runs -/

/-- The calls that move a context's clock, a `merge_clock` with its remote clock. -/
inductive Call where
  | tick
  | genUid
  | mergeClock (remote : VClock)

/-- The context after a call, and the UID it returned if it was `gen_uid`. -/
def Call.apply (ctx : Context) : Call → Context × Option Uid
  | .tick => (ctx.tick, none)
  | .genUid => (ctx.genUid.2, some ctx.genUid.1)
  | .mergeClock r => (ctx.mergeClock r, none)

/-- A run of calls from `ctx`: the context at the end, and the UIDs `gen_uid` returned, oldest
first. -/
def run (ctx : Context) : List Call → Context × List Uid
  | [] => (ctx, [])
  | c :: cs =>
    ((run (c.apply ctx).1 cs).1, (c.apply ctx).2.toList ++ (run (c.apply ctx).1 cs).2)

/-- The value a call takes the node's entry to, before it is reduced to a `u64`. -/
def Call.target (ctx : Context) : Call → Nat
  | .tick | .genUid => ctx.getTimestamp + 1
  | .mergeClock r => max ctx.getTimestamp (r.entries ctx.nodeId) + 1

/-- No call of the run takes the node's entry past `2 ^ 64 - 1`. -/
def NoWrap : Context → List Call → Prop
  | _, [] => True
  | ctx, c :: cs => c.target ctx < 2 ^ 64 ∧ NoWrap (c.apply ctx).1 cs

/-- One call that does not wrap: the context stays well formed, the node's entry moves to the
call's target, and a returned UID carries it. -/
theorem Call.apply_spec (h : ctx.WF) (hn : ctx.nodeId < maxNodes) {c : Call}
    (hr : ∀ r, c = .mergeClock r → r.WF) (hw : c.target ctx < 2 ^ 64) :
    (c.apply ctx).1.WF ∧ (c.apply ctx).1.nodeId = ctx.nodeId ∧
      (c.apply ctx).1.getTimestamp = c.target ctx ∧
      ∀ u ∈ (c.apply ctx).2, u.timestamp = c.target ctx := by
  have htick (hw : ctx.getTimestamp + 1 < 2 ^ 64) : ctx.tick.getTimestamp = ctx.getTimestamp + 1 :=
    by rw [getTimestamp_tick h hn, Nat.mod_eq_of_lt hw]
  cases c with
  | tick => exact ⟨h.tick, rfl, htick hw, by simp [Call.apply]⟩
  | genUid =>
    refine ⟨h.tick, rfl, htick hw, ?_⟩
    simp only [Call.apply, Option.mem_def, Option.some.injEq, genUid_fst]
    rintro u rfl
    exact htick hw
  | mergeClock r =>
    have hr' := hr r rfl
    exact ⟨h.mergeClock hr', rfl,
      (getTimestamp_mergeClock h hn hr').trans (Nat.mod_eq_of_lt hw), by simp [Call.apply]⟩

/-- **UIDs grow strictly.**  From a well-formed context of a node below `CAUCHY_MAX_NODES`, a run
whose merges take well-formed clocks and whose calls never wrap the node's entry returns UIDs
later than the context's timestamp, each one greater under `cauchy_uid_compare` than every one
returned before it. -/
theorem run_uids_increasing (cs : List Call) :
    ∀ {ctx : Context}, ctx.WF → ctx.nodeId < maxNodes →
      (∀ r, Call.mergeClock r ∈ cs → r.WF) → NoWrap ctx cs →
      (∀ u ∈ (run ctx cs).2, ctx.getTimestamp < u.timestamp) ∧
        (run ctx cs).2.Pairwise fun u v => Uid.compare v u = 1 := by
  induction cs with
  | nil => intro _ _ _ _ _; simp [run]
  | cons c cs ih =>
    intro ctx h hn hr hw
    obtain ⟨hwf, hnode, hts, hu⟩ :=
      Call.apply_spec h hn (fun r hc => hr r (hc ▸ List.mem_cons_self _ _)) hw.1
    obtain ⟨ihlt, ihpw⟩ := ih hwf (hnode ▸ hn)
      (fun r hm => hr r (List.mem_cons_of_mem _ hm)) hw.2
    rw [hts] at ihlt
    have htgt : ctx.getTimestamp < c.target ctx := by cases c <;> simp only [Call.target] <;> omega
    refine ⟨fun u hm => ?_, List.pairwise_append.2 ⟨?_, ihpw, fun a ha b hb => ?_⟩⟩
    · rcases List.mem_append.1 hm with hm | hm
      · rw [hu u (Option.mem_toList.1 hm)]; exact htgt
      · exact htgt.trans (ihlt u hm)
    · cases (c.apply ctx).2 <;> simp
    · exact Uid.compare_eq_one_of_lt ((hu a (Option.mem_toList.1 ha)).symm ▸ ihlt b hb)

/-- Node `3` ticks, returns a UID, merges in `remoteClock`, and returns another. -/
def sampleCalls : List Call := [.tick, .genUid, .mergeClock remoteClock, .genUid]

theorem sampleCalls_uids_increasing :
    (create 3).WF ∧ (create 3).nodeId < maxNodes ∧
      (∀ r, Call.mergeClock r ∈ sampleCalls → r.WF) ∧ NoWrap (create 3) sampleCalls ∧
      (∀ u ∈ (run (create 3) sampleCalls).2, (create 3).getTimestamp < u.timestamp) ∧
        (run (create 3) sampleCalls).2.Pairwise fun u v => Uid.compare v u = 1 := by
  have hr : ∀ r, Call.mergeClock r ∈ sampleCalls → r.WF := fun r hr => by
    simp only [sampleCalls, List.mem_cons, Call.mergeClock.injEq, reduceCtorEq, false_or,
      List.not_mem_nil, or_false] at hr
    exact hr ▸ remoteClock_wf
  have hw : NoWrap (create 3) sampleCalls := by
    simp only [sampleCalls, NoWrap]
    exact ⟨by decide, by decide, by decide, by decide, trivial⟩
  exact ⟨wf_create 3, by decide, hr, hw,
    run_uids_increasing sampleCalls (wf_create 3) (by decide) hr hw⟩

/-! ## Node ids past the clock, and wrapping entries -/

/-- The context of node `64`, which `cauchy_context_create` accepts although its clock has
`CAUCHY_MAX_NODES = 64` entries. -/
def node64 : Context := create 64

/-- A remote clock whose entry for node `0` is the largest `u64`. -/
def saturatedRemote : VClock := (VClock.init maxNodes).set 0 (2 ^ 64 - 1)

/-- **Node ids past the clock and wrapping entries break freshness.**  Node `64`'s two first UIDs
are equal, and its merge with an empty clock leaves its clock `EQUAL` to before.  Node `0`, after
one UID and a merge with `saturatedRemote`, has wrapped its entry to `0`: its clock is
`HAPPENS_BEFORE` the remote one, and its next UID equals its first. -/
theorem context_uid_not_increasing :
    (Uid.compare node64.genUid.2.genUid.1 node64.genUid.1 = 0 ∧
      (node64.mergeClock (VClock.init maxNodes)).localClock.compare node64.localClock = .equal) ∧
    (VClock.Reachable saturatedRemote ∧
      Uid.compare ((create 0).genUid.2.mergeClock saturatedRemote).genUid.1
        (create 0).genUid.1 = 0 ∧
      ((create 0).genUid.2.mergeClock saturatedRemote).localClock.compare saturatedRemote =
        .happensBefore) :=
  ⟨⟨by decide, by decide⟩, .set 0 _ (by norm_num) (.init _), by decide, by decide⟩

end Context
end Cauchy
