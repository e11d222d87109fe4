import Cauchy.Crdt.LWWRegister

/-!
# Systems of LWW-Register replicas

Replicas of an LWW-Register apply writes — a value and a stamp `(timestamp, node_id)` — with
`cauchy_lww_set` and exchange state with `cauchy_lww_merge`, in any order and as often as they
like.  `Run W sys heard` is such a run over the writes `W`, and beside the system it records
`heard i`, the writes that reached replica `i`: set on it, or merged into it through any chain
of merges.  It is ghost state, read off the calls and never off the registers.

`Latest H reg` is the specification: `reg` holds the write of `H` with the highest stamp, or is
the empty register when no write of `H` has a stamp above `(0, 0)`.  `set` and `merge` keep it
(`Latest.set`, `Latest.merge`), so every run does (`Run.latest`).  Nothing in that needs the
writes' stamps to be distinct.  They must be for the merge laws: two registers with one stamp
hold the same write only because no two writes share a stamp (`equals_of_stamp_eq`), and with
that, `merge` is the maximum of stamps (`stamp_merge`) and inherits its laws.

`run_laws` puts it together for every run over a set of writes that fit the buffer and have
distinct stamps.
-/

set_option autoImplicit false

namespace Cauchy
namespace LWWRegister

/-- The stamp `(timestamp, node_id)` of a register, ordered lexicographically. -/
def stamp (reg : LWWRegister) : Lex (Nat × Nat) := toLex (reg.timestamp, reg.nodeId)

theorem supersedes_iff (ts node : Nat) (reg : LWWRegister) :
    supersedes ts node reg = true ↔ reg.stamp < toLex (ts, node) := by
  simp only [supersedes, stamp, Prod.Lex.lt_iff, Bool.or_eq_true, Bool.and_eq_true,
    decide_eq_true_eq, beq_iff_eq]
  omega

theorem merge_of_lt {a b : LWWRegister} (h : a.stamp < b.stamp) : a.merge b = b := by
  simp [merge, copy, (supersedes_iff _ _ _).2 h]

theorem merge_of_not_lt {a b : LWWRegister} (h : ¬ a.stamp < b.stamp) : a.merge b = a := by
  have : supersedes b.timestamp b.nodeId a = false := by
    rw [← Bool.not_eq_true, supersedes_iff]; exact h
  simp [merge, this]

theorem merge_choice (a b : LWWRegister) : a.merge b = a ∨ a.merge b = b := by
  by_cases h : a.stamp < b.stamp
  · exact .inr (merge_of_lt h)
  · exact .inl (merge_of_not_lt h)

theorem stamp_merge (a b : LWWRegister) : (a.merge b).stamp = max a.stamp b.stamp := by
  by_cases h : a.stamp < b.stamp
  · rw [merge_of_lt h, max_eq_right h.le]
  · rw [merge_of_not_lt h, max_eq_left (not_lt.1 h)]

theorem equals_refl (a : LWWRegister) : a.equals a = true := by simp [equals]

@[simp] theorem stamp_init : init.stamp = toLex (0, 0) := rfl

/-! ## Writes -/

/-- A write: the value passed to `cauchy_lww_set` and the stamp it is set with. -/
structure Write where
  value : List UInt8
  timestamp : Nat
  nodeId : Nat
  deriving DecidableEq

/-- The stamp of a write. -/
def Write.stamp (w : Write) : Lex (Nat × Nat) := toLex (w.timestamp, w.nodeId)

/-- `cauchy_lww_set` of the write's bytes with its stamp. -/
def Write.setOn (w : Write) (reg : LWWRegister) : LWWRegister :=
  (reg.set (some w.value) w.value.length w.timestamp w.nodeId).2

/-- A register holding the write: its bytes at the front of the buffer, zeros after them. -/
def Write.toRegister (w : Write) : LWWRegister :=
  ⟨(w.value.getD · 0), w.value.length, w.timestamp, w.nodeId⟩

/-- `reg` holds the write `w`: the stamp and size are `w`'s, and so are the first `value_size`
bytes. -/
def Holds (reg : LWWRegister) (w : Write) : Prop :=
  reg.timestamp = w.timestamp ∧ reg.nodeId = w.nodeId ∧ reg.valueSize = w.value.length ∧
    ∀ k < w.value.length, reg.value k = w.value.getD k 0

theorem holds_toRegister (w : Write) : Holds w.toRegister w := ⟨rfl, rfl, rfl, fun _ _ => rfl⟩

theorem Holds.stamp {reg : LWWRegister} {w : Write} (h : Holds reg w) : reg.stamp = w.stamp := by
  simp [LWWRegister.stamp, Write.stamp, h.1, h.2.1]

theorem Holds.equals {a b : LWWRegister} {w : Write} (ha : Holds a w) (hb : Holds b w) :
    a.equals b = true := by
  obtain ⟨a1, a2, a3, a4⟩ := ha
  obtain ⟨b1, b2, b3, b4⟩ := hb
  simp only [LWWRegister.equals, a1, a2, a3, b1, b2, b3, beq_self_eq_true, Bool.and_true,
    Bool.true_and, List.all_eq_true, List.mem_range, beq_iff_eq]
  exact fun k hk => (a4 k hk).trans (b4 k hk).symm

theorem setOn_of_lt {w : Write} {reg : LWWRegister} (hw : w.value.length ≤ maxValueSize)
    (h : reg.stamp < w.stamp) : Holds (w.setOn reg) w := by
  have hs : supersedes w.timestamp w.nodeId reg = true := (supersedes_iff _ _ _).2 h
  refine ⟨?_, ?_, ?_, fun k hk => ?_⟩ <;>
    simp only [Write.setOn, set, hs, if_true, if_neg (not_lt.2 hw)]
  simp [copyInto, hk, show 0 < w.value.length by omega]

theorem setOn_of_not_lt {w : Write} {reg : LWWRegister} (h : ¬ reg.stamp < w.stamp) :
    w.setOn reg = reg := by
  have hs : supersedes w.timestamp w.nodeId reg = false := by
    rw [← Bool.not_eq_true, supersedes_iff]; exact h
  unfold Write.setOn set
  split <;> simp [hs]

/-! ## What the writes leave -/

/-- What the writes `H` leave in a register: the write of `H` with the highest stamp when some
write of `H` is stamped above `(0, 0)`, the empty register otherwise. -/
def Latest (H : List Write) (reg : LWWRegister) : Prop :=
  (∃ w ∈ H, toLex (0, 0) < w.stamp ∧ (∀ w' ∈ H, w'.stamp ≤ w.stamp) ∧ Holds reg w) ∨
    ((∀ w ∈ H, ¬ toLex (0, 0) < w.stamp) ∧ reg = init)

theorem Latest.stamp_le {H : List Write} {reg : LWWRegister} (h : Latest H reg) :
    ∀ w ∈ H, w.stamp ≤ reg.stamp := by
  rcases h with ⟨w, -, -, hmax, hw⟩ | ⟨hH, rfl⟩
  · exact fun w' hw' => hw.stamp ▸ hmax w' hw'
  · exact fun w hw => not_lt.1 (hH w hw)

/-- A register whose stamp is above `(0, 0)` holds the latest write. -/
theorem Latest.holds {H : List Write} {reg : LWWRegister} (h : Latest H reg)
    (hr : toLex (0, 0) < reg.stamp) :
    ∃ w ∈ H, toLex (0, 0) < w.stamp ∧ (∀ w' ∈ H, w'.stamp ≤ w.stamp) ∧ Holds reg w := by
  rcases h with h | ⟨-, rfl⟩
  · exact h
  · exact absurd hr (lt_irrefl _)

theorem Latest.set {H : List Write} {reg : LWWRegister} (h : Latest H reg) {w : Write}
    (hw : w.value.length ≤ maxValueSize) : Latest (w :: H) (w.setOn reg) := by
  by_cases hlt : reg.stamp < w.stamp
  · have h0 : toLex (0, 0) ≤ reg.stamp := (Prod.Lex.le_iff _ _).2 (by dsimp only; omega)
    refine .inl ⟨w, List.mem_cons_self _ _, h0.trans_lt hlt, fun w' hw' => ?_,
      setOn_of_lt hw hlt⟩
    rcases List.mem_cons.1 hw' with rfl | hw'
    · exact le_rfl
    · exact (h.stamp_le w' hw').trans hlt.le
  · rw [setOn_of_not_lt hlt]
    have hle := not_lt.1 hlt
    rcases h with ⟨m, hm, hm0, hmax, hmh⟩ | ⟨hH, rfl⟩
    · refine .inl ⟨m, List.mem_cons_of_mem _ hm, hm0, fun w' hw' => ?_, hmh⟩
      rcases List.mem_cons.1 hw' with rfl | hw'
      · exact hmh.stamp ▸ hle
      · exact hmax w' hw'
    · refine .inr ⟨fun w' hw' => ?_, rfl⟩
      rcases List.mem_cons.1 hw' with rfl | hw'
      · exact not_lt.2 hle
      · exact hH w' hw'

theorem Latest.merge {H H' : List Write} {reg reg' : LWWRegister} (h : Latest H reg)
    (h' : Latest H' reg') : Latest (H ++ H') (reg.merge reg') := by
  have hle : ∀ w ∈ H ++ H', w.stamp ≤ (reg.merge reg').stamp := by
    intro w hw
    rw [stamp_merge]
    rcases List.mem_append.1 hw with hw | hw
    · exact (h.stamp_le w hw).trans (le_max_left _ _)
    · exact (h'.stamp_le w hw).trans (le_max_right _ _)
  by_cases hr : toLex (0, 0) < (reg.merge reg').stamp
  · rcases merge_choice reg reg' with hm | hm <;> rw [hm] at hr hle ⊢
    · obtain ⟨w, hw, hw0, -, hwh⟩ := h.holds hr
      exact .inl ⟨w, List.mem_append_left _ hw, hw0, fun w' hw' => hwh.stamp ▸ hle w' hw', hwh⟩
    · obtain ⟨w, hw, hw0, -, hwh⟩ := h'.holds hr
      exact .inl ⟨w, List.mem_append_right _ hw, hw0, fun w' hw' => hwh.stamp ▸ hle w' hw', hwh⟩
  · have hH : ∀ w ∈ H ++ H', ¬ toLex (0, 0) < w.stamp := fun w hw h0 =>
      hr (h0.trans_le (hle w hw))
    rcases h with ⟨w, hw, hw0, -⟩ | ⟨-, rfl⟩
    · exact absurd hw0 (hH w (List.mem_append_left _ hw))
    rcases h' with ⟨w, hw, hw0, -⟩ | ⟨-, rfl⟩
    · exact absurd hw0 (hH w (List.mem_append_right _ hw))
    exact .inr ⟨hH, rfl⟩

/-! ## Runs -/

/-- The writes of a run: none longer than the value buffer, no two with one stamp. -/
structure WriteSet (W : List Write) : Prop where
  size_le : ∀ w ∈ W, w.value.length ≤ maxValueSize
  stamp_inj : ∀ w ∈ W, ∀ w' ∈ W, w.timestamp = w'.timestamp → w.nodeId = w'.nodeId → w = w'

variable {ι : Type} [DecidableEq ι]

/-- `Run W sys heard`: a run whose `set` calls use writes of `W` reaches the system `sys`, and
`heard i` lists the writes that reached replica `i`. -/
inductive Run (W : List Write) : (ι → LWWRegister) → (ι → List Write) → Prop
  | init : Run W (fun _ => init) (fun _ => [])
  | set {sys : ι → LWWRegister} {heard : ι → List Write} (i : ι) (w : Write) :
      w ∈ W → Run W sys heard →
      Run W (Function.update sys i (w.setOn (sys i))) (Function.update heard i (w :: heard i))
  | merge {sys : ι → LWWRegister} {heard : ι → List Write} (i j : ι) :
      Run W sys heard →
      Run W (Function.update sys i ((sys i).merge (sys j)))
        (Function.update heard i (heard i ++ heard j))

theorem Run.latest {W : List Write} (hW : ∀ w ∈ W, w.value.length ≤ maxValueSize)
    {sys : ι → LWWRegister} {heard : ι → List Write} (h : Run W sys heard) (i : ι) :
    Latest (heard i) (sys i) ∧ ∀ w ∈ heard i, w ∈ W := by
  induction h generalizing i with
  | init => exact ⟨.inr ⟨by simp, rfl⟩, by simp⟩
  | set k w hw _ ih =>
    by_cases hi : i = k
    · subst hi
      simp only [Function.update_same]
      exact ⟨(ih i).1.set (hW w hw), by simpa [hw] using (ih i).2⟩
    · simpa [Function.update_noteq hi] using ih i
  | merge k j _ ih =>
    by_cases hi : i = k
    · subst hi
      simp only [Function.update_same]
      refine ⟨(ih i).1.merge (ih j).1, fun w hw => ?_⟩
      rcases List.mem_append.1 hw with hw | hw
      exacts [(ih i).2 w hw, (ih j).2 w hw]
    · simpa [Function.update_noteq hi] using ih i

/-- A register that some writes of `W` leave. -/
def Settled (W : List Write) (reg : LWWRegister) : Prop := ∃ H, Latest H reg ∧ ∀ w ∈ H, w ∈ W

theorem Settled.merge {W : List Write} {a b : LWWRegister} (ha : Settled W a)
    (hb : Settled W b) : Settled W (a.merge b) := by
  rcases merge_choice a b with h | h <;> rw [h] <;> assumption

theorem Run.settled {W : List Write} (hW : WriteSet W) {sys : ι → LWWRegister}
    {heard : ι → List Write} (h : Run W sys heard) (i : ι) : Settled W (sys i) :=
  ⟨heard i, h.latest hW.size_le i⟩

/-- Two registers that writes of one set with distinct stamps leave, stamped alike, are equal. -/
theorem equals_of_stamp_eq {W : List Write} (hW : WriteSet W) {a b : LWWRegister}
    (ha : Settled W a) (hb : Settled W b) (hs : a.stamp = b.stamp) : a.equals b = true := by
  obtain ⟨H, ha, hH⟩ := ha
  obtain ⟨H', hb, hH'⟩ := hb
  rcases ha with ⟨w, hw, hw0, -, hwa⟩ | ⟨-, rfl⟩
  · obtain ⟨w', hw', -, -, hwb⟩ := hb.holds (hs ▸ hwa.stamp ▸ hw0)
    have hst : w.stamp = w'.stamp := hwa.stamp.symm.trans (hs.trans hwb.stamp)
    simp only [Write.stamp, toLex_inj, Prod.mk.injEq] at hst
    obtain rfl := hW.stamp_inj w (hH w hw) w' (hH' w' hw') hst.1 hst.2
    exact hwa.equals hwb
  · rcases hb with ⟨w, -, hw0, -, hwb⟩ | ⟨-, rfl⟩
    · exact absurd (hs.trans hwb.stamp ▸ hw0) (by simp)
    · exact equals_refl _

/-- The LWW-Register laws over a run. -/
structure Laws (sys : ι → LWWRegister) (heard : ι → List Write) : Prop where
  /-- Each replica equals the write with the highest stamp of those that reached it, or is still
  the empty register when none is stamped above `(0, 0)`. -/
  latest : ∀ i, (∃ w ∈ heard i, toLex (0, 0) < w.stamp ∧ (∀ w' ∈ heard i, w'.stamp ≤ w.stamp) ∧
      (sys i).equals w.toRegister = true) ∨
    ((∀ w ∈ heard i, ¬ toLex (0, 0) < w.stamp) ∧ sys i = init)
  /-- `set` of a write does what merging in a register holding it does. -/
  set_eq_merge : ∀ (reg r : LWWRegister) (w : Write), w.value.length ≤ maxValueSize →
    Holds r w → (w.setOn reg).equals (reg.merge r) = true
  comm : ∀ i j, ((sys i).merge (sys j)).equals ((sys j).merge (sys i)) = true
  assoc : ∀ i j k,
    (((sys i).merge (sys j)).merge (sys k)).equals ((sys i).merge ((sys j).merge (sys k))) = true
  idem : ∀ i, ((sys i).merge (sys i)).equals (sys i) = true

/-- **LWW replicas hold the latest write.**  In every run over writes that fit the buffer and
have distinct stamps, each replica equals the latest write that reached it, `set` is a merge of
the write, and merge is commutative, associative and idempotent on the replicas. -/
theorem run_laws {W : List Write} (hW : WriteSet W) {sys : ι → LWWRegister}
    {heard : ι → List Write} (h : Run W sys heard) : Laws sys heard where
  latest i := by
    rcases (h.latest hW.size_le i).1 with ⟨w, hw, hw0, hmax, hwh⟩ | h0
    · exact .inl ⟨w, hw, hw0, hmax, hwh.equals (holds_toRegister w)⟩
    · exact .inr h0
  set_eq_merge reg r w hw hr := by
    by_cases hlt : reg.stamp < w.stamp
    · rw [merge_of_lt (hr.stamp ▸ hlt)]; exact (setOn_of_lt hw hlt).equals hr
    · rw [merge_of_not_lt (hr.stamp ▸ hlt), setOn_of_not_lt hlt]; exact equals_refl _
  comm i j := equals_of_stamp_eq hW ((h.settled hW i).merge (h.settled hW j))
    ((h.settled hW j).merge (h.settled hW i)) (by rw [stamp_merge, stamp_merge, max_comm])
  assoc i j k := equals_of_stamp_eq hW
    (((h.settled hW i).merge (h.settled hW j)).merge (h.settled hW k))
    ((h.settled hW i).merge ((h.settled hW j).merge (h.settled hW k)))
    (by simp only [stamp_merge, max_assoc])
  idem i := equals_of_stamp_eq hW ((h.settled hW i).merge (h.settled hW i)) (h.settled hW i)
    (by rw [stamp_merge, max_self])

/-- Two writes that tie on the timestamp: `7`, first from node `1`, then from node `4`. -/
def tieWrites : List Write := [⟨[65], 7, 1⟩, ⟨[66], 7, 4⟩]

/-- Two replicas after the first write of `tieWrites` was set on replica `true`. -/
def tieSys : Bool → LWWRegister :=
  Function.update (fun _ => init) true (Write.setOn ⟨[65], 7, 1⟩ init)

/-- What reached the replicas of `tieSys`. -/
def tieHeard : Bool → List Write := Function.update (fun _ => []) true [⟨[65], 7, 1⟩]

theorem tieSys_laws : WriteSet tieWrites ∧ Run tieWrites tieSys tieHeard ∧ Laws tieSys tieHeard :=
  have hW : WriteSet tieWrites := ⟨by decide, by decide⟩
  have hr : Run tieWrites tieSys tieHeard := .set true _ (by decide) .init
  ⟨hW, hr, run_laws hW hr⟩

/-- The spec's tie-break: at one timestamp the higher node id wins, whatever the order. -/
example : (Write.setOn ⟨[66], 7, 4⟩ (Write.setOn ⟨[65], 7, 1⟩ init)).equals
    (Write.toRegister ⟨[66], 7, 4⟩) = true := by decide

end LWWRegister
end Cauchy
