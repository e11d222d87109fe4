import Cauchy.Crdt.ORSet

/-!
# Systems of OR-Set replicas

The OR-Set is only correct as part of a system: a tag is unique only because every replica mints
tags from its own `node_id`, and `merge` only combines entries correctly because an entry with a
given tag is the same everywhere.  This file makes the system explicit — replicas indexed by any
type `ι`, created by `cauchy_orset_init` with pairwise distinct node ids, then driven by any
interleaving of `add`, `remove` and `merge (r_i, r_j)` calls, including calls that fail — and
proves two things about it.

* `reachable_tagInvariants`: in every reachable system, no replica has two entries with one tag,
  entries with one tag are copies of one another across all replicas, and every tag `(n, t)` has
  `t` at most the counter of the replica whose node id is `n`, so the tag the next `add` of any
  replica mints occurs nowhere.  `Inv` is the inductive invariant behind it: `Inv.update` says
  once what a step that replaces one replica must do to keep it — each entry of the new set is a
  copy of an old one, or carries a tag minted from the replica's own node id and counter — and
  `remove` and `merge` only copy while `add` mints one tag.
* `reachable_mergeLaws`: for any replicas `a`, `b`, `c` of a reachable system, a merge that
  reports `ok` leaves the abstract state `joinView` of the two — the union of the tags, each
  tombstone the or of both — so merge is commutative, associative and idempotent on abstract
  states, never clears a tombstone, and `contains` after it is add-wins.  `mergeLaws_of` proves
  this for any well-formed sets that agree on their common tags, which is what `Inv` provides.
-/

set_option autoImplicit false

namespace Cauchy
namespace ORSet

/-- One call made on a system of replicas indexed by `ι`. -/
inductive Op (ι : Type) where
  | add (i : ι) (data : List UInt8) (alloc : Bool)
  | remove (i : ι) (data : List UInt8)
  | merge (i j : ι) (alloc : Nat → Bool)

variable {ι : Type}

/-! ## The invariant -/

/-- The inductive invariant of a system of replicas. -/
structure Inv (sys : ι → ORSet) : Prop where
  wf : ∀ i, WF (sys i)
  agree : ∀ i j, AgreeOn (sys i).elems (sys j).elems
  fresh : ∀ i, ∀ e ∈ (sys i).elems,
    ∃ j, (sys j).nodeId = e.tag.nodeId ∧ e.tag.timestamp ≤ (sys j).timestamp
  nodes : Function.Injective fun i => (sys i).nodeId

theorem inv_init (cap node : ι → Nat) (hn : Function.Injective node) :
    Inv fun i => init (cap i) (node i) where
  wf i := wf_init _ _
  agree i j := by simp [AgreeOn]
  fresh i := by simp
  nodes := hn

/-- The tag the next `add` of replica `i` mints is carried by no entry of any replica. -/
theorem Inv.next_tag_fresh {sys : ι → ORSet} (h : Inv sys) (i j : ι) :
    ∀ e ∈ (sys j).elems, e.tag ≠ Uid.create (sys i).nodeId ((sys i).timestamp + 1) := by
  intro e he het
  obtain ⟨k, hk, hle⟩ := h.fresh j e he
  rw [het] at hk hle
  have : k = i := h.nodes hk
  subst this
  exact absurd hle (by simp [Uid.create])

/-! ## Replacing one replica -/

section Update

variable [DecidableEq ι] {sys : ι → ORSet} {i : ι} {x : ORSet}

theorem mem_update {k : ι} {e : Entry} (he : e ∈ (Function.update sys i x k).elems) :
    e ∈ x.elems ∨ e ∈ (sys k).elems := by
  by_cases hk : k = i
  · subst hk; rw [Function.update_same] at he; exact .inl he
  · rw [Function.update_noteq hk] at he; exact .inr he

theorem nodeId_update (hn : x.nodeId = (sys i).nodeId) (k : ι) :
    (Function.update sys i x k).nodeId = (sys k).nodeId := by
  by_cases hk : k = i
  · subst hk; rw [Function.update_same, hn]
  · rw [Function.update_noteq hk]

theorem timestamp_le_update (hts : (sys i).timestamp ≤ x.timestamp) (k : ι) :
    (sys k).timestamp ≤ (Function.update sys i x k).timestamp := by
  by_cases hk : k = i
  · subst hk; rwa [Function.update_same]
  · rw [Function.update_noteq hk]

/-- Replacing replica `i` by a well-formed set with the same node id and a counter not lower keeps
the invariant when each of its entries is a copy of an entry already in the system, or carries a
tag no replica has, minted from its own node id and counter. -/
theorem Inv.update (h : Inv sys) (hw : WF x) (hn : x.nodeId = (sys i).nodeId)
    (hts : (sys i).timestamp ≤ x.timestamp)
    (ho : ∀ e ∈ x.elems, (∃ k, ∃ e₀ ∈ (sys k).elems, e₀.core = e.core) ∨
      ((∀ k, ∀ e' ∈ (sys k).elems, e'.tag ≠ e.tag) ∧ e.tag.nodeId = x.nodeId ∧
        e.tag.timestamp ≤ x.timestamp)) :
    Inv (Function.update sys i x) := by
  have hold : ∀ e ∈ x.elems, ∀ k, ∀ e' ∈ (sys k).elems, e.tag = e'.tag → e.core = e'.core := by
    intro e he k e' he' het
    rcases ho e he with ⟨k₀, e₀, he₀, hc⟩ | ⟨hf, -⟩
    · rw [← hc]
      exact h.agree k₀ k e₀ he₀ e' he' ((congrArg (·.2.2) hc).trans het)
    · exact absurd het.symm (hf k e' he')
  refine ⟨Function.forall_update_iff sys (p := fun _ s => WF s) |>.2 ⟨hw, fun k _ => h.wf k⟩,
    fun k k' e he e' he' het => ?_, fun k e he => ?_, ?_⟩
  · rcases mem_update he with he | he <;> rcases mem_update he' with he' | he'
    · exact hw.agreeOn_self e he e' he' het
    · exact hold e he k' e' he' het
    · exact (hold e' he' k e he het.symm).symm
    · exact h.agree k k' e he e' he' het
  · have hup : ∀ j, (sys j).nodeId = e.tag.nodeId → e.tag.timestamp ≤ (sys j).timestamp →
        ∃ j, (Function.update sys i x j).nodeId = e.tag.nodeId ∧
          e.tag.timestamp ≤ (Function.update sys i x j).timestamp := fun j hj hle =>
      ⟨j, (nodeId_update hn j).trans hj, hle.trans (timestamp_le_update hts j)⟩
    rcases mem_update he with he | he
    · rcases ho e he with ⟨k₀, e₀, he₀, hc⟩ | ⟨-, hnode, hle⟩
      · obtain ⟨j, hj, hle⟩ := h.fresh k₀ e₀ he₀
        rw [show e₀.tag = e.tag from congrArg (·.2.2) hc] at hj hle
        exact hup j hj hle
      · exact ⟨i, by rw [Function.update_same, hnode], by rwa [Function.update_same]⟩
    · obtain ⟨j, hj, hle⟩ := h.fresh k e he
      exact hup j hj hle
  · simpa only [Function.Injective, nodeId_update hn] using h.nodes

end Update

/-! ## Runs -/

variable [DecidableEq ι]

/-- The system after one call: the replica the call names is replaced by its result. -/
def Op.apply (sys : ι → ORSet) : Op ι → ι → ORSet
  | .add i x a => Function.update sys i ((sys i).add x a).2
  | .remove i x => Function.update sys i ((sys i).remove x).2
  | .merge i j a => Function.update sys i ((sys i).merge (sys j) a).2

/-- The systems a program can reach: replicas created by `cauchy_orset_init` with pairwise
distinct node ids, then any sequence of calls, whatever each returns. -/
inductive Reachable : (ι → ORSet) → Prop
  | init (cap node : ι → Nat) : Function.Injective node →
      Reachable fun i => init (cap i) (node i)
  | step {sys : ι → ORSet} (op : Op ι) : Reachable sys → Reachable (op.apply sys)

theorem Inv.add {sys : ι → ORSet} (h : Inv sys) (i : ι) (x : List UInt8) (alloc : Bool) :
    Inv ((Op.add i x alloc).apply sys) := by
  simp only [Op.apply]
  rcases add_cases (sys i) x alloc with hs | ⟨hx, hs⟩
  · rw [hs, Function.update_eq_self]; exact h
  rw [hs]
  have hfresh := h.next_tag_fresh i
  have hnt : ((sys i).newEntry x).tag ∉ (sys i).elems.map Entry.tag := fun hm => by
    obtain ⟨e, he, het⟩ := List.mem_map.1 hm
    exact hfresh i e he het
  refine h.update (((h.wf i).insertCopy rfl hx hnt).withTimestamp _) (by simp) (by simp)
    fun e he => ?_
  rcases mem_insertCopy he with rfl | he
  · exact .inr ⟨fun k e' he' => hfresh k e' he', by simp [newEntry, Uid.create],
      by simp [newEntry, Uid.create]⟩
  · exact .inl ⟨i, e, he, rfl⟩

theorem Inv.remove {sys : ι → ORSet} (h : Inv sys) (i : ι) (x : List UInt8) :
    Inv ((Op.remove i x).apply sys) :=
  h.update ((h.wf i).remove x) (by simp) (by simp) fun e he => by
    obtain ⟨e₀, he₀, hc⟩ := List.mem_map.1 (cores_remove (sys i) x ▸ List.mem_map_of_mem _ he)
    exact .inl ⟨i, e₀, he₀, hc⟩

theorem Inv.merge {sys : ι → ORSet} (h : Inv sys) (i j : ι) (alloc : Nat → Bool) :
    Inv ((Op.merge i j alloc).apply sys) :=
  have hm := merge_spec (h.wf i) (h.wf j) (h.agree i j) alloc
  h.update hm.wf hm.nodeId_eq hm.timestamp_eq.ge fun e he => by
    rcases hm.origin e he with ho | ho <;> obtain ⟨e₀, he₀, hc⟩ := List.mem_map.1 ho
    exacts [.inl ⟨i, e₀, he₀, hc⟩, .inl ⟨j, e₀, he₀, hc⟩]

theorem Reachable.inv {sys : ι → ORSet} (h : Reachable sys) : Inv sys := by
  induction h with
  | init cap node hn => exact inv_init cap node hn
  | step op _ ih =>
    cases op with
    | add i x a => exact ih.add i x a
    | remove i x => exact ih.remove i x
    | merge i j a => exact ih.merge i j a

/-- What the tags of a system of replicas guarantee. -/
structure TagInvariants (sys : ι → ORSet) : Prop where
  /-- No replica holds two entries with one tag. -/
  tags_nodup : ∀ i, ((sys i).elems.map Entry.tag).Nodup
  /-- Entries with one tag, in any replicas, carry the same payload and stored hash. -/
  same_payload : ∀ i j, ∀ e ∈ (sys i).elems, ∀ e' ∈ (sys j).elems, e.tag = e'.tag →
    e.data = e'.data ∧ e.hash = e'.hash
  /-- Node ids stay pairwise distinct. -/
  nodes : Function.Injective fun i => (sys i).nodeId
  /-- A tag `(n, t)` has `t` at most the counter of the replica whose node id is `n`. -/
  bounded : ∀ i, ∀ e ∈ (sys i).elems,
    ∃ j, (sys j).nodeId = e.tag.nodeId ∧ e.tag.timestamp ≤ (sys j).timestamp
  /-- The tag the next `add` of replica `i` mints occurs in no replica. -/
  next_fresh : ∀ i j, ∀ e ∈ (sys j).elems,
    e.tag ≠ Uid.create (sys i).nodeId ((sys i).timestamp + 1)

/-- **Tags are unique.**  In every reachable system of replicas a tag names one entry, copied
unchanged wherever it goes, and `add` always mints a tag that occurs nowhere. -/
theorem reachable_tagInvariants {sys : ι → ORSet} (h : Reachable sys) : TagInvariants sys :=
  have hi := h.inv
  { tags_nodup := fun i => (hi.wf i).tags_nodup
    same_payload := fun i j e he e' he' het =>
      have hc := hi.agree i j e he e' he' het
      ⟨congrArg (·.1) hc, congrArg (·.2.1) hc⟩
    nodes := hi.nodes
    bounded := hi.fresh
    next_fresh := hi.next_tag_fresh }

/-- Two replicas with node ids `1` and `2`, after replica `true` added `[7]`. -/
def twoReplicas : Bool → ORSet :=
  (Op.add true [7] true).apply fun i => init 4 (if i then 1 else 2)

theorem twoReplicas_reachable : Reachable twoReplicas :=
  .step _ (.init (fun _ => 4) (fun i => if i then 1 else 2) (by
    intro a b; cases a <;> cases b <;> simp))

theorem twoReplicas_tagInvariants : Reachable twoReplicas ∧ TagInvariants twoReplicas :=
  ⟨twoReplicas_reachable, reachable_tagInvariants twoReplicas_reachable⟩

/-! ## Merge laws -/

section MergeLaws

variable {a b c : ORSet}

theorem view_merge (ha : WF a) (hb : WF b) (hab : AgreeOn a.elems b.elems) {alloc : Nat → Bool}
    (hok : (a.merge b alloc).1 = .ok) (t : Uid) :
    (a.merge b alloc).2.view t = joinView (a.view t) (b.view t) :=
  (merge_spec ha hb hab alloc).view_ok hok t

theorem mem_triples_merge (ha : WF a) (hb : WF b) (hab : AgreeOn a.elems b.elems)
    {alloc : Nat → Bool} (hok : (a.merge b alloc).1 = .ok) (d : List UInt8) (t : Uid)
    (r : Bool) : (d, t, r) ∈ (a.merge b alloc).2.triples ↔
      ((∃ r₁, (d, t, r₁) ∈ a.triples) ∨ ∃ r₂, (d, t, r₂) ∈ b.triples) ∧
      (r = true ↔ (d, t, true) ∈ a.triples ∨ (d, t, true) ∈ b.triples) := by
  simp only [mem_triples_iff (merge_spec ha hb hab alloc).wf.tags_nodup,
    mem_triples_iff ha.tags_nodup, mem_triples_iff hb.tags_nodup, view_merge ha hb hab hok]
  exact joinView_eq_some_iff (view_joinable ha hb hab t)

/-- What `cauchy_orset_merge` does to the abstract states of three sets. -/
structure MergeLaws (a b c : ORSet) : Prop where
  /-- A merge that reports `ok` holds the tags of both sets, each with its payload, removed
  exactly when it is removed in one of them. -/
  triples_merge : ∀ alloc, (a.merge b alloc).1 = .ok → ∀ d t r,
    (d, t, r) ∈ (a.merge b alloc).2.triples ↔
      ((∃ r₁, (d, t, r₁) ∈ a.triples) ∨ ∃ r₂, (d, t, r₂) ∈ b.triples) ∧
      (r = true ↔ (d, t, true) ∈ a.triples ∨ (d, t, true) ∈ b.triples)
  comm : ∀ alloc alloc', (a.merge b alloc).1 = .ok → (b.merge a alloc').1 = .ok →
    (a.merge b alloc).2.triples = (b.merge a alloc').2.triples
  assoc : ∀ alloc₁ alloc₂ alloc₃ alloc₄, (a.merge b alloc₁).1 = .ok →
    ((a.merge b alloc₁).2.merge c alloc₂).1 = .ok → (b.merge c alloc₃).1 = .ok →
    (a.merge (b.merge c alloc₃).2 alloc₄).1 = .ok →
    ((a.merge b alloc₁).2.merge c alloc₂).2.triples =
      (a.merge (b.merge c alloc₃).2 alloc₄).2.triples
  idem : ∀ alloc, (a.merge a alloc).1 = .ok → (a.merge a alloc).2.triples = a.triples
  /-- No tombstone of either side is lost. -/
  keeps_tombstones : ∀ alloc, (a.merge b alloc).1 = .ok → ∀ d t,
    (d, t, true) ∈ a.triples ∨ (d, t, true) ∈ b.triples →
    (d, t, true) ∈ (a.merge b alloc).2.triples
  /-- `contains` after a merge: some tag carrying the payload is tombstoned on neither side. -/
  add_wins : ∀ alloc, (a.merge b alloc).1 = .ok → ∀ x,
    (a.merge b alloc).2.contains x = true ↔ ∃ t,
      ((∃ r, (x, t, r) ∈ a.triples) ∨ ∃ r, (x, t, r) ∈ b.triples) ∧
      (x, t, true) ∉ a.triples ∧ (x, t, true) ∉ b.triples

theorem mergeLaws_of (ha : WF a) (hb : WF b) (hc : WF c) (hab : AgreeOn a.elems b.elems)
    (hbc : AgreeOn b.elems c.elems) (hac : AgreeOn a.elems c.elems) : MergeLaws a b c where
  triples_merge _ hok := mem_triples_merge ha hb hab hok
  comm alloc alloc' hok hok' :=
    triples_eq_of_view (merge_spec ha hb hab alloc).wf.tags_nodup
      (merge_spec hb ha hab.symm alloc').wf.tags_nodup fun t => by
        rw [view_merge ha hb hab hok, view_merge hb ha hab.symm hok']
        exact joinView_comm (view_joinable ha hb hab t)
  assoc alloc₁ alloc₂ alloc₃ alloc₄ h₁ h₂ h₃ h₄ := by
    have m₁ := merge_spec ha hb hab alloc₁
    have m₃ := merge_spec hb hc hbc alloc₃
    have hag₁ := m₁.agreeOn hac hbc
    have hag₃ := (m₃.agreeOn hab.symm hac.symm).symm
    refine triples_eq_of_view (merge_spec m₁.wf hc hag₁ alloc₂).wf.tags_nodup
      (merge_spec ha m₃.wf hag₃ alloc₄).wf.tags_nodup fun t => ?_
    rw [view_merge m₁.wf hc hag₁ h₂, view_merge ha hb hab h₁, view_merge ha m₃.wf hag₃ h₄,
      view_merge hb hc hbc h₃, joinView_assoc]
  idem alloc hok :=
    triples_eq_of_view (merge_spec ha ha ha.agreeOn_self alloc).wf.tags_nodup ha.tags_nodup
      fun t => by rw [view_merge ha ha ha.agreeOn_self hok, joinView_self]
  keeps_tombstones _ hok d t h :=
    (mem_triples_merge ha hb hab hok d t true).2
      ⟨h.imp (⟨true, ·⟩) (⟨true, ·⟩), iff_of_true rfl h⟩
  add_wins alloc hok x := by
    rw [contains_iff (merge_spec ha hb hab alloc).wf]
    simp only [← mem_triples_iff (merge_spec ha hb hab alloc).wf.tags_nodup,
      mem_triples_merge ha hb hab hok, Bool.false_eq_true, false_iff, not_or]

end MergeLaws

/-- **OR-Set merge is a join.**  Any three replicas of a reachable system satisfy the merge
laws: an `ok` merge is the per-tag union with tombstones or-ed, so it is commutative,
associative and idempotent on abstract states, keeps every tombstone and is add-wins. -/
theorem reachable_mergeLaws {sys : ι → ORSet} (h : Reachable sys) (i j k : ι) :
    MergeLaws (sys i) (sys j) (sys k) :=
  have hi := h.inv
  mergeLaws_of (hi.wf i) (hi.wf j) (hi.wf k) (hi.agree i j) (hi.agree j k) (hi.agree i k)

theorem twoReplicas_mergeLaws : Reachable twoReplicas ∧
    MergeLaws (twoReplicas true) (twoReplicas false) (twoReplicas true) :=
  ⟨twoReplicas_reachable, reachable_mergeLaws twoReplicas_reachable true false true⟩

/-- The add-wins history: `r₁` removes `[7]` while `r₂`, which holds the same entry, adds
`[7]` again under a fresh tag; the merge still contains `[7]`. -/
example :
    let r₁ := ((init 4 1).add [7] true).2
    let r₂ := ((init 4 2).merge r₁ fun _ => true).2
    (((r₁.remove [7]).2.merge (r₂.add [7] true).2 fun _ => true).2.contains [7]) = true := by
  decide

end ORSet
end Cauchy
