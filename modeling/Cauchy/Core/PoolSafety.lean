import Cauchy.Core.Pool

/-!
# The pool is sound when allocations do not overlap

`Cauchy.Core.Pool` shows that two overlapping `cauchy_pool_alloc` calls can hand out one block
twice (`aba_hands_out_held_block`).  This file proves the other half: when no two threads are
inside `cauchy_pool_alloc` at the same time, any number of `cauchy_pool_free` calls may
interleave with each other and with that `alloc`, atomic step by atomic step, and the pool stays
sound.

* `Links` relates the pool's `free_list` word and the blocks' first words to an abstract stack
  `L`; `Links.update` is its frame lemma, for a write to a block not on `L`.
* `Inv` is the invariant over the pool, each thread's place in its call and the blocks each
  thread holds: `L` has no block twice and none that a thread holds, no block is held twice,
  every block the pool has made is on `L` or held, and each thread's locals are still accurate
  (the `node` an `alloc` read is still on `L` with its link unchanged; the block a `free` is
  pushing is still the thread's, with its link written).
* One lemma per kind of atomic step: `Inv.setPc` (a step that only moves a thread),
  `Inv.writeLink` (a write to a held block's first word), `Inv.pop` and `Inv.push` (the
  compare-and-swaps that succeed) and `Inv.allocFresh` (the fallback to `cauchy_aligned_alloc`).
  `Inv.step` assembles them over `Pool.step`; only `Inv.pop` needs that no other thread is
  inside `alloc`.
* `inv_run?` carries `Inv` along an interleaving, and `safe_of_exclusive_alloc` concludes that
  the pool is `Safe`, that its free list has no block twice, and that no block is ever lost.
-/

set_option autoImplicit false

namespace Cauchy
namespace Pool

/-! ## The free list as an abstract stack -/

/-- Following `link` from `head` visits the blocks of `L` in order and stops after the last. -/
inductive Links (link : Nat → Option Nat) : Option Nat → List Nat → Prop
  | nil : Links link none []
  | cons {b : Nat} {l : List Nat} : Links link (link b) l → Links link (some b) (b :: l)

section Links

variable {link : Nat → Option Nat} {hd : Option Nat} {L : List Nat}

theorem Links.eq_nil (h : Links link none L) : L = [] := by
  cases h
  rfl

theorem Links.eq_cons {b : Nat} (h : Links link (some b) L) :
    ∃ l, L = b :: l ∧ Links link (link b) l := by
  cases h with
  | cons h => exact ⟨_, rfl, h⟩

theorem Links.mem_of_head {b : Nat} (h : Links link (some b) L) : b ∈ L := by
  obtain ⟨l, rfl, -⟩ := h.eq_cons
  exact List.mem_cons_self b l

/-- A write to a block that is not on the list leaves the list alone. -/
theorem Links.update (h : Links link hd L) {b : Nat} (hb : b ∉ L) (v : Option Nat) :
    Links (Function.update link b v) hd L := by
  induction h with
  | nil => exact .nil
  | @cons c l _ ih =>
    have hc : c ≠ b := fun e => hb (e ▸ List.mem_cons_self c l)
    exact .cons (by
      rw [Function.update_noteq hc]
      exact ih fun h => hb (List.mem_cons_of_mem c h))

/-- `freeList` reads the list back once its fuel covers it. -/
theorem Links.freeList_go {p : Pool} (h : Links p.link hd L) {fuel : Nat}
    (hf : L.length ≤ fuel) : freeList.go p fuel hd = L := by
  induction h generalizing fuel with
  | nil => cases fuel <;> rfl
  | @cons b l _ ih =>
    obtain ⟨f, rfl⟩ : ∃ f, fuel = f + 1 := ⟨fuel - 1, by simp at hf; omega⟩
    simp only [freeList.go, ih (by simpa using hf)]

end Links

/-- `cauchy_pool_create` with `n` blocks leaves them stacked `n-1` on top down to `0`. -/
theorem links_create (n : Nat) :
    Links (create n).link (create n).head (List.range n).reverse := by
  let push := fun (s : Pool) (i : Nat) =>
    ({ s with link := Function.update s.link i s.head, head := i } : Pool)
  suffices ∀ k, Links ((List.range k).foldl push ⟨none, fun _ => none, n⟩).link
      ((List.range k).foldl push ⟨none, fun _ => none, n⟩).head (List.range k).reverse from
    this n
  intro k
  induction k with
  | zero => exact .nil
  | succ k ih =>
    simp only [List.range_succ, List.foldl_append, List.foldl_cons, List.foldl_nil,
      List.reverse_append, List.reverse_cons, List.reverse_nil, List.nil_append,
      List.singleton_append]
    exact .cons (by
      rw [Function.update_same]
      exact ih.update (by simp) _)

/-! ## The invariant -/

/-- Whether a thread at `pc` is inside `cauchy_pool_alloc`. -/
def Pc.allocating : Pc → Bool
  | .alloc | .allocRead _ | .allocCas _ _ => true
  | .free _ | .freeWrite _ _ | .freeCas _ _ => false

/-- No two threads are inside `cauchy_pool_alloc` at once. -/
def AllocExclusive (pcs : Nat → Option Pc) : Prop :=
  ∀ t u pc pc', pcs t = some pc → pcs u = some pc' → pc.allocating → pc'.allocating →
    t = u

/-- The locals of a thread at `pc` are still accurate: given the blocks' links, the blocks the
thread holds and the abstract free list `L`. -/
def PcOk (link : Nat → Option Nat) (held L : List Nat) : Pc → Prop
  | .alloc => True
  | .allocRead node => node ∈ L
  | .allocCas node next => node ∈ L ∧ link node = next
  | .free b | .freeWrite b _ => b ∈ held
  | .freeCas b head => b ∈ held ∧ link b = head

/-- The pool `p` with the free list `L`, while each thread `t` is at `pcs t` and holds
`held t`. -/
structure Inv (p : Pool) (pcs : Nat → Option Pc) (held : Nat → List Nat) (L : List Nat) :
    Prop where
  links : Links p.link p.head L
  nodup : L.Nodup
  free_lt : ∀ b ∈ L, b < p.fresh
  held_nodup : ∀ t, (held t).Nodup
  held_lt : ∀ t, ∀ b ∈ held t, b < p.fresh
  held_disjoint : ∀ t u, t ≠ u → ∀ b ∈ held t, b ∉ held u
  held_not_free : ∀ t, ∀ b ∈ held t, b ∉ L
  /-- No block is lost: each one the pool has made is free or held. -/
  covers : ∀ b < p.fresh, b ∈ L ∨ ∃ t, b ∈ held t
  pc_ok : ∀ t pc, pcs t = some pc → PcOk p.link (held t) L pc

section PcOk

variable {link : Nat → Option Nat} {H L : List Nat} {q : Pc}

/-- Outside `alloc`, a thread's locals do not mention the free list. -/
theorem PcOk.of_not_allocating (h : PcOk link H L q) (hq : q.allocating = false) (L' : List Nat) :
    PcOk link H L' q := by
  cases q <;> first | exact h | cases hq

theorem PcOk.cons (h : PcOk link H L q) (b : Nat) : PcOk link H (b :: L) q := by
  cases q with
  | allocRead node => exact List.mem_cons_of_mem b h
  | allocCas node next => exact ⟨List.mem_cons_of_mem b h.1, h.2⟩
  | _ => exact h

theorem PcOk.update_link (h : PcOk link H L q) {b : Nat} (hb : b ∉ L)
    (hq : ∀ hd, q ≠ .freeCas b hd) (v : Option Nat) :
    PcOk (Function.update link b v) H L q := by
  cases q with
  | allocCas node next =>
    exact ⟨h.1, by rw [Function.update_noteq (ne_of_mem_of_not_mem h.1 hb)]; exact h.2⟩
  | freeCas c hd =>
    exact ⟨h.1, by rw [Function.update_noteq fun e => hq hd (by rw [e])]; exact h.2⟩
  | _ => exact h

end PcOk

section Held

variable {held : Nat → List Nat} {t u b x : Nat}

theorem mem_update_cons :
    b ∈ Function.update held t (x :: held t) u ↔ (u = t ∧ b = x) ∨ b ∈ held u := by
  rcases eq_or_ne u t with rfl | hu
  · simp
  · simp [Function.update_noteq hu, hu]

theorem mem_update_erase (hn : (held t).Nodup) :
    b ∈ Function.update held t ((held t).erase x) u ↔ b ∈ held u ∧ (u = t → b ≠ x) := by
  rcases eq_or_ne u t with rfl | hu
  · simp [hn.mem_erase_iff, and_comm]
  · simp [Function.update_noteq hu, hu]

theorem forall_update_pc {α : Type} {pcs : Nat → Option α} {P : Nat → α → Prop}
    {y : Option α}
    (h : ∀ u q, u ≠ t → pcs u = some q → P u q) (ht : ∀ q, y = some q → P t q) :
    ∀ u q, Function.update pcs t y u = some q → P u q := by
  intro u q hq
  rcases eq_or_ne u t with rfl | hu
  · rw [Function.update_same] at hq
    exact ht q hq
  · rw [Function.update_noteq hu] at hq
    exact h u q hu hq

end Held

/-! ## One lemma per kind of step -/

section Steps

variable {p : Pool} {pcs : Nat → Option Pc} {held : Nat → List Nat} {L : List Nat} {t : Nat}

/-- A step that only moves thread `t` to `pc`. -/
theorem Inv.setPc (h : Inv p pcs held L) {pc : Pc} (hok : PcOk p.link (held t) L pc) :
    Inv p (Function.update pcs t (some pc)) held L :=
  { h with
    pc_ok := forall_update_pc (fun u q _ hq => h.pc_ok u q hq) fun q hq => by cases hq; exact hok }

/-- A write to the first word of a block `t` holds, which no thread is pushing. -/
theorem Inv.writeLink (h : Inv p pcs held L) {b : Nat} (hb : b ∈ held t) (v : Option Nat)
    (hcas : ∀ u hd, pcs u ≠ some (.freeCas b hd)) :
    Inv { p with link := Function.update p.link b v } pcs held L :=
  { h with
    links := h.links.update (h.held_not_free t b hb) v
    pc_ok := fun u q hq => (h.pc_ok u q hq).update_link (h.held_not_free t b hb)
      (fun hd e => hcas u hd (e ▸ hq)) v }

/-- `alloc` finds the free list empty and takes a new block from `cauchy_aligned_alloc`. -/
theorem Inv.allocFresh (h : Inv p pcs held L) (hhead : p.head = none) :
    Inv { p with fresh := p.fresh + 1 } (Function.update pcs t none)
      (Function.update held t (p.fresh :: held t)) L := by
  have hfresh : ∀ u, p.fresh ∉ held u := fun u hb => lt_irrefl _ (h.held_lt u _ hb)
  obtain rfl : L = [] := (hhead ▸ h.links).eq_nil
  refine ⟨h.links, h.nodup, by simp, fun u => ?_, fun u b hb => ?_, fun u w huw b hb hb' => ?_,
    by simp, fun b hb => ?_, forall_update_pc (fun u q hu hq => ?_) (by simp)⟩
  · rcases eq_or_ne u t with rfl | hu
    · simpa using ⟨hfresh u, h.held_nodup u⟩
    · simpa [Function.update_noteq hu] using h.held_nodup u
  · show b < p.fresh + 1
    rcases mem_update_cons.1 hb with ⟨-, rfl⟩ | hb
    · exact Nat.lt_succ_self _
    · exact Nat.lt_succ_of_lt (h.held_lt u b hb)
  · rw [mem_update_cons] at hb hb'
    rcases hb with ⟨rfl, rfl⟩ | hb
    · rcases hb' with ⟨rfl, -⟩ | hb'
      · exact huw rfl
      · exact hfresh w hb'
    · rcases hb' with ⟨-, rfl⟩ | hb'
      · exact hfresh u hb
      · exact h.held_disjoint u w huw b hb hb'
  · right
    rcases Nat.lt_succ_iff_lt_or_eq.1 hb with hb | rfl
    · obtain ⟨u, hu⟩ := (h.covers b hb).resolve_left (List.not_mem_nil b)
      exact ⟨u, mem_update_cons.2 (.inr hu)⟩
    · exact ⟨t, mem_update_cons.2 (.inl ⟨rfl, rfl⟩)⟩
  · rw [Function.update_noteq hu]
    exact h.pc_ok u q hq

/-- `alloc`'s compare-and-swap succeeds: `node` leaves the top of the free list for `t`. -/
theorem Inv.pop (h : Inv p pcs held L) (hx : AllocExclusive pcs) {node : Nat}
    {next : Option Nat} (ht : pcs t = some (.allocCas node next)) (hhead : p.head = some node) :
    Inv { p with head := next } (Function.update pcs t none)
      (Function.update held t (node :: held t)) L.tail := by
  have hlink : p.link node = next := (h.pc_ok t _ ht).2
  obtain ⟨rest, rfl, hl⟩ := (hhead ▸ h.links).eq_cons
  have hnode : ∀ u, node ∉ held u := fun u hb =>
    h.held_not_free u node hb (List.mem_cons_self node rest)
  have hnd := List.nodup_cons.1 h.nodup
  refine ⟨hlink ▸ hl, hnd.2, fun b hb => h.free_lt b (List.mem_cons_of_mem _ hb), fun u => ?_,
    fun u b hb => ?_, fun u w huw b hb hb' => ?_, fun u b hb hr => ?_, fun b hb => ?_,
    forall_update_pc (fun u q hu hq => ?_) (by simp)⟩
  · rcases eq_or_ne u t with rfl | hu
    · simpa using ⟨hnode u, h.held_nodup u⟩
    · simpa [Function.update_noteq hu] using h.held_nodup u
  · rcases mem_update_cons.1 hb with ⟨-, rfl⟩ | hb
    · exact h.free_lt b (List.mem_cons_self b rest)
    · exact h.held_lt u b hb
  · rw [mem_update_cons] at hb hb'
    rcases hb with ⟨rfl, rfl⟩ | hb
    · rcases hb' with ⟨rfl, -⟩ | hb'
      · exact huw rfl
      · exact hnode w hb'
    · rcases hb' with ⟨-, rfl⟩ | hb'
      · exact hnode u hb
      · exact h.held_disjoint u w huw b hb hb'
  · rcases mem_update_cons.1 hb with ⟨-, rfl⟩ | hb
    · exact hnd.1 hr
    · exact h.held_not_free u b hb (List.mem_cons_of_mem node hr)
  · rcases h.covers b hb with hb | ⟨u, hu⟩
    · rcases List.mem_cons.1 hb with rfl | hb
      · exact .inr ⟨t, mem_update_cons.2 (.inl ⟨rfl, rfl⟩)⟩
      · exact .inl hb
    · exact .inr ⟨u, mem_update_cons.2 (.inr hu)⟩
  · rw [Function.update_noteq hu]
    cases hq' : q.allocating
    · exact (h.pc_ok u q hq).of_not_allocating hq' _
    · exact absurd (hx u t q _ hq ht hq' rfl) hu

/-- `free`'s compare-and-swap succeeds: `b`, linked to the old top, becomes the top. -/
theorem Inv.push (h : Inv p pcs held L) {b : Nat} {hd : Option Nat}
    (ht : pcs t = some (.freeCas b hd)) (hhead : p.head = hd) :
    Inv { p with head := some b } (Function.update pcs t none)
      (Function.update held t ((held t).erase b)) (b :: L) := by
  obtain ⟨hb, hlink⟩ := h.pc_ok t _ ht
  have hbL : b ∉ L := h.held_not_free t b hb
  have hmem := fun {u c : Nat} => mem_update_erase (u := u) (b := c) (x := b) (h.held_nodup t)
  refine ⟨.cons (by rw [hlink, ← hhead]; exact h.links), List.nodup_cons.2 ⟨hbL, h.nodup⟩,
    fun c hc => ?_, fun u => ?_, fun u c hc => h.held_lt u c (hmem.1 hc).1,
    fun u w huw c hc hc' => h.held_disjoint u w huw c (hmem.1 hc).1 (hmem.1 hc').1,
    fun u c hc hcL => ?_, fun c hc => ?_, forall_update_pc (fun u q hu hq => ?_) (by simp)⟩
  · rcases List.mem_cons.1 hc with rfl | hc
    · exact h.held_lt t c hb
    · exact h.free_lt c hc
  · rcases eq_or_ne u t with rfl | hu
    · simpa using (h.held_nodup u).erase b
    · simpa [Function.update_noteq hu] using h.held_nodup u
  · obtain ⟨hcu, hne⟩ := hmem.1 hc
    rcases List.mem_cons.1 hcL with rfl | hcL
    · rcases eq_or_ne u t with rfl | hu
      · exact hne rfl rfl
      · exact h.held_disjoint t u hu.symm c hb hcu
    · exact h.held_not_free u c hcu hcL
  · rcases h.covers c hc with hc | ⟨u, hu⟩
    · exact .inl (List.mem_cons_of_mem b hc)
    · rcases eq_or_ne c b with rfl | hcb
      · exact .inl (List.mem_cons_self c L)
      · exact .inr ⟨u, hmem.2 ⟨hu, fun _ => hcb⟩⟩
  · rw [Function.update_noteq hu]
    exact (h.pc_ok u q hq).cons b

end Steps

/-- Where a thread is after a step: at the next `pc`, or idle once its call returned. -/
def Next.pc : Next → Option Pc
  | .cont pc => some pc
  | .allocated _ | .freed _ => none

/-- The blocks a thread holds after a step: `alloc` adds the block it returns, `free` drops the
block it gave back. -/
def Next.held (H : List Nat) : Next → List Nat
  | .cont _ => H
  | .allocated b => b :: H
  | .freed b => H.erase b

/-- **Every atomic step keeps the invariant** while no two threads are inside `alloc`. -/
theorem Inv.step {p : Pool} {pcs : Nat → Option Pc} {held : Nat → List Nat} {L : List Nat}
    {t : Nat} {pc : Pc} (h : Inv p pcs held L) (hx : AllocExclusive pcs)
    (ht : pcs t = some pc) :
    ∃ L', Inv (p.step pc).1 (Function.update pcs t (p.step pc).2.pc)
      (Function.update held t ((p.step pc).2.held (held t))) L' := by
  have hok := h.pc_ok t pc ht
  cases pc with
  | alloc =>
    cases hh : p.head with
    | none =>
      refine ⟨L, ?_⟩
      simpa [Pool.step, hh, Next.pc, Next.held] using h.allocFresh (t := t) hh
    | some node =>
      refine ⟨L, ?_⟩
      simpa [Pool.step, hh, Next.pc, Next.held] using
        h.setPc (t := t) (show PcOk p.link (held t) L (.allocRead node) from
          (hh ▸ h.links).mem_of_head)
  | allocRead node =>
    refine ⟨L, ?_⟩
    simpa [Pool.step, Next.pc, Next.held] using
      h.setPc (t := t)
        (show PcOk p.link (held t) L (.allocCas node (p.link node)) from ⟨hok, rfl⟩)
  | allocCas node next =>
    by_cases hh : p.head = some node
    · refine ⟨L.tail, ?_⟩
      simpa [Pool.step, hh, Next.pc, Next.held] using h.pop hx ht hh
    · refine ⟨L, ?_⟩
      simpa [Pool.step, hh, Next.pc, Next.held] using
        h.setPc (t := t) (show PcOk p.link (held t) L .alloc from trivial)
  | free b =>
    refine ⟨L, ?_⟩
    simpa [Pool.step, Next.pc, Next.held] using
      h.setPc (t := t) (show PcOk p.link (held t) L (.freeWrite b p.head) from hok)
  | freeWrite b hd =>
    have hw := h.writeLink hok hd fun u hd' hu => by
      rcases eq_or_ne u t with rfl | hne
      · rw [ht] at hu
        cases hu
      · exact h.held_disjoint t u hne.symm b hok (h.pc_ok u _ hu).1
    refine ⟨L, ?_⟩
    simpa [Pool.step, Next.pc, Next.held] using
      hw.setPc (t := t)
        (show PcOk (Function.update p.link b hd) (held t) L (.freeCas b hd) from ⟨hok, by simp⟩)
  | freeCas b hd =>
    by_cases hh : p.head = hd
    · refine ⟨b :: L, ?_⟩
      simpa [Pool.step, hh, Next.pc, Next.held] using h.push ht hh
    · refine ⟨L, ?_⟩
      simpa [Pool.step, hh, Next.pc, Next.held] using
        h.setPc (t := t) (show PcOk p.link (held t) L (.free b) from hok.1)

/-- The free list is no longer than the number of blocks made. -/
theorem Inv.length_le {p : Pool} {pcs : Nat → Option Pc} {held : Nat → List Nat}
    {L : List Nat} (h : Inv p pcs held L) : L.length ≤ p.fresh := by
  rw [← List.toFinset_card_of_nodup h.nodup, ← Finset.card_range p.fresh]
  exact Finset.card_le_card fun b hb => Finset.mem_range.2 (h.free_lt b (List.mem_toFinset.1 hb))

theorem Inv.freeList_eq {p : Pool} {pcs : Nat → Option Pc} {held : Nat → List Nat}
    {L : List Nat} (h : Inv p pcs held L) : p.freeList p.fresh = L :=
  h.links.freeList_go h.length_le

/-- The block a thread inside `cauchy_pool_free` is giving back. -/
def Pc.freeing : Pc → List Nat
  | .free b | .freeWrite b _ | .freeCas b _ => [b]
  | .alloc | .allocRead _ | .allocCas _ _ => []

/-- A step inside `alloc` writes no link, and goes on inside `alloc` or returns a block. -/
theorem step_of_allocating {p : Pool} {pc : Pc} (hpc : pc.allocating) :
    (p.step pc).1.link = p.link ∧ ((∃ pc', (p.step pc).2 = .cont pc' ∧ pc'.allocating) ∨
      ∃ b, (p.step pc).2 = .allocated b) := by
  cases pc with
  | alloc => cases hh : p.head <;> simp [step, hh, Pc.allocating]
  | allocRead node => simp [step, Pc.allocating]
  | allocCas node next => by_cases hh : p.head = some node <;> simp [step, hh, Pc.allocating]
  | _ => cases hpc

/-- A step inside `free` writes only the link of the block it gives back, and goes on inside
`free` with that block or returns it. -/
theorem step_of_freeing {p : Pool} {pc : Pc} (hpc : pc.allocating = false) :
    (∀ b ∉ pc.freeing, (p.step pc).1.link b = p.link b) ∧
      ((∃ pc', (p.step pc).2 = .cont pc' ∧ pc'.allocating = false ∧
        pc'.freeing = pc.freeing) ∨ ∃ b, (p.step pc).2 = .freed b ∧ pc.freeing = [b]) := by
  cases pc with
  | free b => simp [step, Pc.allocating, Pc.freeing]
  | freeWrite b hd =>
    refine ⟨fun c hc => Function.update_noteq (by simpa [Pc.freeing] using hc) _ _, ?_⟩
    simp [step, Pc.allocating, Pc.freeing]
  | freeCas b hd => by_cases hh : p.head = hd <;> simp [step, hh, Pc.allocating, Pc.freeing]
  | _ => cases hpc

theorem PcOk.of_mem_iff {link : Nat → Option Nat} {H H' L : List Nat} {q : Pc}
    (h : PcOk link H L q) (hH : ∀ b, b ∈ H' ↔ b ∈ H) : PcOk link H' L q := by
  cases q with
  | free b | freeWrite b _ => exact (hH b).2 h
  | freeCas b _ => exact ⟨(hH b).2 h.1, h.2⟩
  | _ => exact h

/-- Only which blocks each thread holds matters, not in what order. -/
theorem Inv.perm {p : Pool} {pcs : Nat → Option Pc} {held held' : Nat → List Nat}
    {L : List Nat}
    (h : Inv p pcs held L) (hp : ∀ t, (held' t).Perm (held t)) : Inv p pcs held' L where
  links := h.links
  nodup := h.nodup
  free_lt := h.free_lt
  held_nodup t := (hp t).nodup_iff.2 (h.held_nodup t)
  held_lt t b hb := h.held_lt t b ((hp t).mem_iff.1 hb)
  held_disjoint t u htu b hb hb' :=
    h.held_disjoint t u htu b ((hp t).mem_iff.1 hb) ((hp u).mem_iff.1 hb')
  held_not_free t b hb := h.held_not_free t b ((hp t).mem_iff.1 hb)
  covers b hb := (h.covers b hb).imp_right fun ⟨t, ht⟩ => ⟨t, (hp t).mem_iff.2 ht⟩
  pc_ok t q hq := (h.pc_ok t q hq).of_mem_iff fun _ => (hp t).mem_iff

/-- The threads below `T` that are inside `alloc`. -/
def allocatingBelow (T : Nat) (pcs : Nat → Option Pc) : Finset Nat :=
  (Finset.range T).filter fun t => (pcs t).any Pc.allocating

theorem allocExclusive_of_card {T : Nat} {pcs : Nat → Option Pc}
    (hidle : ∀ u, T ≤ u → pcs u = none) (hc : (allocatingBelow T pcs).card ≤ 1) :
    AllocExclusive pcs := by
  have hmem : ∀ {v r}, pcs v = some r → r.allocating → v ∈ allocatingBelow T pcs :=
    fun {v r} hv hr => Finset.mem_filter.2 ⟨Finset.mem_range.2 (by
      by_contra hT
      rw [hidle v (by omega)] at hv
      cases hv), by simp [hv, hr]⟩
  intro t u q q' ht hu hq hq'
  exact Finset.card_le_one.1 hc t (hmem ht hq) u (hmem hu hq')

/-! ## Interleavings of threads -/

/-- The thread whose call or step an event is. -/
def Event.thread : Event → Nat
  | .alloc t | .free t _ | .tick t => t

namespace Threads

theorem run?_cons (s : Threads) (e : Event) (es : List Event) :
    s.run? (e :: es) = (s.perform? e).bind (·.run? es) := rfl

theorem perform?_tick {s : Threads} {t : Nat} {pc : Pc} (ht : s.pc t = some pc) :
    s.perform? (.tick t) = some ⟨(s.pool.step pc).1, Function.update s.pc t (s.pool.step pc).2.pc,
      Function.update s.held t ((s.pool.step pc).2.held (s.held t))⟩ := by
  simp only [perform?, ht]
  rcases s.pool.step pc with ⟨p, _ | b | b⟩ <;> simp [Next.pc, Next.held]

theorem inv_init (n : Nat) :
    Inv (init n).pool (init n).pc (init n).held (List.range n).reverse where
  links := links_create n
  nodup := List.nodup_reverse.2 (List.nodup_range n)
  free_lt b hb := by simpa [init] using hb
  held_nodup _ := List.nodup_nil
  held_lt _ _ hb := absurd hb (List.not_mem_nil _)
  held_disjoint _ _ _ _ hb := absurd hb (List.not_mem_nil _)
  held_not_free _ _ hb := absurd hb (List.not_mem_nil _)
  covers b hb := .inl (by simpa [init] using hb)
  pc_ok _ _ hq := by simp [init] at hq

theorem inv_perform {s s' : Threads} {e : Event} {L : List Nat}
    (h : Inv s.pool s.pc s.held L) (hx : AllocExclusive s.pc) (he : s.perform? e = some s') :
    ∃ L', Inv s'.pool s'.pc s'.held L' := by
  cases e with
  | alloc t =>
    simp only [perform?, Option.ite_none_right_eq_some, Option.some.injEq] at he
    obtain ⟨-, rfl⟩ := he
    exact ⟨L, h.setPc trivial⟩
  | free t b =>
    simp only [perform?, Option.ite_none_right_eq_some, Option.some.injEq] at he
    obtain ⟨⟨-, hb⟩, rfl⟩ := he
    exact ⟨L, h.setPc hb⟩
  | tick t =>
    cases ht : s.pc t with
    | none => simp [perform?, ht] at he
    | some pc =>
      rw [perform?_tick ht, Option.some.injEq] at he
      subst he
      exact h.step hx ht

/-- `Inv` holds after an interleaving every prefix of which leaves at most one thread inside
`alloc`. -/
theorem inv_run? {s s' : Threads} {L : List Nat} (es : List Event) (h : Inv s.pool s.pc s.held L)
    (hx : ∀ k s'', s.run? (es.take k) = some s'' → AllocExclusive s''.pc)
    (hs : s.run? es = some s') : ∃ L', Inv s'.pool s'.pc s'.held L' := by
  induction es generalizing s L with
  | nil =>
    cases hs
    exact ⟨L, h⟩
  | cons e es ih =>
    rw [run?_cons] at hs
    obtain ⟨s1, h1, hs⟩ := Option.bind_eq_some.1 hs
    obtain ⟨L1, hL1⟩ := inv_perform h (hx 0 s rfl) h1
    refine ih hL1 (fun k s'' hk => hx (k + 1) s'' ?_) hs
    rw [List.take_succ_cons, run?_cons, h1]
    exact hk

/-- **The pool is sound when allocations do not overlap.**  From a pool of `n` blocks, after any
interleaving in which at most one thread is inside `cauchy_pool_alloc` at any time — any
number of `cauchy_pool_free` calls may run beside it — no block is held by two threads or on
the free list while held, the free list has no block twice, and every block the pool has made
is on the free list or held. -/
theorem safe_of_exclusive_alloc (n : Nat) (es : List Event) (s : Threads)
    (hs : (init n).run? es = some s)
    (hx : ∀ k s', (init n).run? (es.take k) = some s' → AllocExclusive s'.pc) :
    s.Safe ∧ (s.pool.freeList s.pool.fresh).Nodup ∧
      ∀ b, b < s.pool.fresh ↔ b ∈ s.pool.freeList s.pool.fresh ∨ ∃ t, b ∈ s.held t := by
  obtain ⟨L, h⟩ := inv_run? es (inv_init n) hx hs
  rw [Safe, h.freeList_eq]
  refine ⟨⟨h.held_disjoint, h.held_not_free⟩, h.nodup, fun b => ⟨h.covers b, ?_⟩⟩
  rintro (hb | ⟨t, hb⟩)
  · exact h.free_lt b hb
  · exact h.held_lt t b hb

/-! ## A schedule where a `free` runs inside an `alloc` -/

theorem perform?_pc_ne {s s' : Threads} {e : Event} {u : Nat} (he : s.perform? e = some s')
    (hu : u ≠ e.thread) : s'.pc u = s.pc u := by
  cases e with
  | alloc t | free t b =>
    simp only [perform?, Option.ite_none_right_eq_some, Option.some.injEq] at he
    obtain ⟨-, rfl⟩ := he
    exact Function.update_noteq hu _ _
  | tick t =>
    cases ht : s.pc t with
    | none => simp [perform?, ht] at he
    | some pc =>
      rw [perform?_tick ht, Option.some.injEq] at he
      subst he
      exact Function.update_noteq hu _ _

/-- A thread that no event names stays idle. -/
theorem run?_idle {T u : Nat} (hu : T ≤ u) :
    ∀ {s s' : Threads} {es : List Event}, (∀ e ∈ es, e.thread < T) → s.run? es = some s' →
      s.pc u = none → s'.pc u = none := by
  intro s s' es hT hs hidle
  induction es generalizing s with
  | nil =>
    cases hs
    exact hidle
  | cons e es ih =>
    rw [run?_cons] at hs
    obtain ⟨s1, h1, hs⟩ := Option.bind_eq_some.1 hs
    have he := hT e (List.mem_cons_self e es)
    exact ih (fun e' he' => hT e' (List.mem_cons_of_mem e he')) hs
      (by rw [perform?_pc_ne h1 (by omega)]; exact hidle)

/-- Thread `1` takes block `1`; thread `2` starts an `alloc` and reads block `0` at the top;
thread `1` frees block `1`, which becomes the top; thread `2`'s compare-and-swap then fails, and
its retry takes block `1`. -/
def freeDuringAlloc : List Event :=
  [.alloc 1, .tick 1, .tick 1, .tick 1,
   .alloc 2, .tick 2,
   .free 1 1, .tick 1, .tick 1, .tick 1,
   .tick 2, .tick 2, .tick 2, .tick 2, .tick 2]

theorem freeDuringAlloc_exclusive (k : Nat) (s : Threads)
    (h : (init 2).run? (freeDuringAlloc.take k) = some s) : AllocExclusive s.pc := by
  have hT : ∀ e ∈ freeDuringAlloc.take k, e.thread < 3 := fun e he => by
    have := List.mem_of_mem_take he
    simp only [freeDuringAlloc, List.mem_cons, List.mem_singleton] at this
    rcases this with rfl | rfl | rfl | rfl | rfl | rfl | rfl | rfl | rfl | rfl | rfl | rfl | rfl |
      rfl | rfl | h <;> simp_all [Event.thread]
  refine allocExclusive_of_card (fun u hu => run?_idle hu hT h rfl) ?_
  have hc : ∀ k, ((init 2).run? (freeDuringAlloc.take k)).all
      (fun s => decide ((allocatingBelow 3 s.pc).card ≤ 1)) := by
    intro k
    rcases Nat.lt_or_ge k 15 with hk | hk
    · exact (by decide : ∀ k < 15, ((init 2).run? (freeDuringAlloc.take k)).all
        (fun s => decide ((allocatingBelow 3 s.pc).card ≤ 1))) k hk
    · rw [List.take_of_length_le (by simpa [freeDuringAlloc] using hk)]
      decide
  simpa [h] using hc k

theorem freeDuringAlloc_safe :
    ∃ s, (init 2).run? freeDuringAlloc = some s ∧ 1 ∈ s.held 2 ∧
      (s.Safe ∧ (s.pool.freeList s.pool.fresh).Nodup ∧
        ∀ b, b < s.pool.fresh ↔ b ∈ s.pool.freeList s.pool.fresh ∨ ∃ t, b ∈ s.held t) :=
  ⟨((init 2).run? freeDuringAlloc).getD (init 0), rfl, by decide,
    safe_of_exclusive_alloc 2 freeDuringAlloc _ rfl freeDuringAlloc_exclusive⟩

end Threads
end Pool
end Cauchy
