import Cauchy.Core.Wire

/-!
# Aligned allocation and the layout of a pool's blocks

`src/core/memory.c`.  `cauchy_aligned_alloc (size, alignment)` has three bodies, chosen by the
platform: `_aligned_malloc` on Windows, `posix_memalign` on POSIX systems, and otherwise a
fallback written out in the file, which this module models.  The fallback asks `malloc` for
`size + alignment + sizeof (void*)` bytes, rounds `ptr + alignment + sizeof (void*)` down to a
multiple of `alignment` with the mask `~(alignment - 1)`, and stores `ptr` in the word just below
the address it returns; the fallback `cauchy_aligned_free` hands that word to `free`.

`cauchy_pool_create` rounds the configured `block_size` up to a multiple of the alignment with
the same mask (an `alignment` of `0` meaning `CAUCHY_CACHE_LINE_SIZE`), raises the result to
`sizeof (pool_node_t)` if it is smaller, and carves `initial_blocks` blocks of that size, one
after another, out of one aligned allocation of `block_size * initial_blocks` bytes.  Which
block is pushed when is `Pool.create`; this file is about where the blocks are.  `max_blocks` is
stored and never read, so `PoolConfig` leaves it out.

Addresses and sizes are `BitVec 64`, as `uintptr_t` and `usize` are on the 64-bit targets, so
every sum and product wraps as the C one does.  Memory is a map from addresses to bytes, and a
pointer is stored as its eight bytes, least significant first.

* `toNat_and_not_pred`: for a power of two `a`, `x & ~(a - 1)` is `x` rounded down to a multiple
  of `a`.
* `alignedAlloc_layout`: when the request does not wrap and `malloc`'s block ends below `2 ^ 64`,
  the address returned is a multiple of `alignment`, the `size` bytes from it and the word below
  it lie inside `malloc`'s block, and `cauchy_aligned_free` hands `free` the pointer `malloc`
  returned, whatever the caller wrote into its `size` bytes.
* `actualBlockSize_spec`: for a power-of-two alignment and a non-zero `block_size` that does not
  wrap, the block size is the least multiple of the alignment that holds `block_size` bytes and a
  link; a `block_size` within `alignment - 1` of `2 ^ 64` wraps, and the blocks are `8` bytes.
* `initialBlocks_layout`: every initial block lies inside the allocation exactly when
  `block_size * initial_blocks` does not wrap, and then the blocks are aligned and disjoint.
-/

set_option autoImplicit false

namespace Cauchy
namespace Memory

/-! ## Masks -/

/-- A word is the bits a mask clears plus the bits it keeps. -/
theorem toNat_and_not_add_and (x m : BitVec 64) :
    (x &&& ~~~m).toNat + (x &&& m).toNat = x.toNat := by
  have h0 : (x &&& ~~~m) &&& (x &&& m) = 0#64 := by
    ext i
    simp only [BitVec.getLsbD_and, BitVec.getLsbD_not, BitVec.getLsbD_zero]
    cases x.getLsbD i <;> cases m.getLsbD i <;> simp
  rw [← BitVec.toNat_add_of_and_eq_zero h0, BitVec.add_eq_or_of_and_eq_zero _ _ h0]
  congr 1
  ext i
  simp only [BitVec.getLsbD_and, BitVec.getLsbD_not, BitVec.getLsbD_or]
  cases x.getLsbD i <;> cases m.getLsbD i <;> simp

/-- **`x & ~(a - 1)` rounds down.**  For `a = 2 ^ k`, the mask keeps `x` less its remainder
modulo `a`. -/
theorem toNat_and_not_pred {a : BitVec 64} {k : Nat} (ha : a.toNat = 2 ^ k) (x : BitVec 64) :
    (x &&& ~~~(a - 1#64)).toNat = x.toNat - x.toNat % 2 ^ k := by
  have hk : 0 < 2 ^ k := Nat.two_pow_pos k
  have hm : (a - 1#64).toNat = 2 ^ k - 1 := by
    rw [BitVec.toNat_sub, ha]; simp; omega
  have hlow : (x &&& (a - 1#64)).toNat = x.toNat % 2 ^ k := by
    rw [BitVec.toNat_and, hm, Nat.and_pow_two_sub_one_eq_mod]
  have hp := toNat_and_not_add_and x (a - 1#64)
  omega

/-- Rounding `x` down to a multiple of `a` stays at or below any multiple of `a` that `x` is
less than `a` above. -/
theorem sub_mod_le_of_lt_add {x a m : Nat} (hm : m % a = 0) (hx : x < m + a) :
    x - x % a ≤ m := by
  rcases Nat.eq_zero_or_pos a with rfl | ha
  · simp
  have h1 := Nat.mod_add_div x a
  have h2 := Nat.mod_add_div m a
  rw [hm, Nat.zero_add] at h2
  have h3 : x / a < m / a + 1 := by
    rw [Nat.div_lt_iff_lt_mul ha, Nat.add_mul, Nat.one_mul, Nat.mul_comm, h2]; exact hx
  have h4 : a * (x / a) ≤ a * (m / a) := Nat.mul_le_mul_left _ (by omega)
  omega

/-! ## Words in memory -/

/-- `*(void**)addr = v`: the eight bytes of `v`, least significant first, from `addr` on. -/
def storeWord (mem : BitVec 64 → UInt8) (addr v : BitVec 64) : BitVec 64 → UInt8 :=
  fun a => if (a - addr).toNat < 8 then (encodeU64 v.toNat).getD (a - addr).toNat 0 else mem a

/-- `*(void**)addr`: the word made of the eight bytes from `addr` on. -/
def loadWord (mem : BitVec 64 → UInt8) (addr : BitVec 64) : BitVec 64 :=
  BitVec.ofNat 64 (readU64 ((List.range 8).map fun j => mem (addr + BitVec.ofNat 64 j)) 0)

theorem toNat_add_ofNat_sub (addr : BitVec 64) {j : Nat} (hj : j < 8) :
    (addr + BitVec.ofNat 64 j - addr).toNat = j := by
  rw [add_sub_cancel_left, BitVec.toNat_ofNat]; omega

/-- A word reads back what was stored in it. -/
theorem loadWord_storeWord (mem : BitVec 64 → UInt8) (addr v : BitVec 64) :
    loadWord (storeWord mem addr v) addr = v := by
  have h : ((List.range 8).map fun j => storeWord mem addr v (addr + BitVec.ofNat 64 j)) =
      encodeU64 v.toNat := by
    refine List.ext_getElem (by simp) fun j h1 _ => ?_
    simp only [List.length_map, List.length_range] at h1
    rw [List.getElem_map, List.getElem_range, storeWord, toNat_add_ofNat_sub addr h1,
      if_pos h1, List.getD_eq_getElem]
  have hr := readU64_append_encodeU64 v.toNat [] []
  simp only [List.nil_append, List.append_nil, List.length_nil] at hr
  rw [loadWord, h, hr, Nat.mod_eq_of_lt v.isLt, BitVec.ofNat_toNat, BitVec.setWidth_eq]

/-- A word reads only its own eight bytes. -/
theorem loadWord_congr {mem mem' : BitVec 64 → UInt8} {addr : BitVec 64}
    (h : ∀ j < 8, mem' (addr + BitVec.ofNat 64 j) = mem (addr + BitVec.ofNat 64 j)) :
    loadWord mem' addr = loadWord mem addr := by
  unfold loadWord
  rw [List.map_congr_left fun j hj => h j (List.mem_range.1 hj)]

/-! ## The fallback `cauchy_aligned_alloc` -/

/-- The bytes the fallback asks `malloc` for: `size + alignment + sizeof (void*)`. -/
def mallocSize (size alignment : BitVec 64) : BitVec 64 := size + alignment + 8#64

/-- The address the fallback returns when `malloc` returned `ptr`:
`(ptr + alignment + sizeof (void*)) & ~(alignment - 1)`. -/
def alignedAddress (ptr alignment : BitVec 64) : BitVec 64 :=
  (ptr + alignment + 8#64) &&& ~~~(alignment - 1#64)

/-- The fallback `cauchy_aligned_alloc`, given what `malloc` returned (`none` for `NULL`): the
address it returns, and the memory after it has stored `ptr` in the word below that address. -/
def alignedAlloc (mem : BitVec 64 → UInt8) (malloced : Option (BitVec 64))
    (alignment : BitVec 64) : Option (BitVec 64) × (BitVec 64 → UInt8) :=
  match malloced with
  | none => (none, mem)
  | some ptr =>
    (some (alignedAddress ptr alignment), storeWord mem (alignedAddress ptr alignment - 8#64) ptr)

/-- The pointer the fallback `cauchy_aligned_free (ptr)` hands to `free`, `((void**)ptr)[-1]`;
`none` for `NULL`, on which it returns at once. -/
def alignedFree (mem : BitVec 64 → UInt8) (ptr : BitVec 64) : Option (BitVec 64) :=
  if ptr = 0#64 then none else some (loadWord mem (ptr - 8#64))

section Aligned

variable {size alignment ptr : BitVec 64} {k : Nat}

/-- Where the fallback's address lies, in numbers: `ptr + alignment + 8` rounded down to a
multiple of `alignment`. -/
theorem toNat_alignedAddress (hk : alignment.toNat = 2 ^ k)
    (hfit : ptr.toNat + alignment.toNat + 8 < 2 ^ 64) :
    (alignedAddress ptr alignment).toNat =
      (ptr.toNat + alignment.toNat + 8) - (ptr.toNat + alignment.toNat + 8) % alignment.toNat := by
  rw [alignedAddress, toNat_and_not_pred hk, ← hk, BitVec.toNat_add, BitVec.toNat_add,
    Nat.mod_eq_of_lt (by omega : ptr.toNat + alignment.toNat < 2 ^ 64)]
  simp only [BitVec.toNat_ofNat, Nat.reduceMod]
  rw [Nat.mod_eq_of_lt hfit]

/-- **The fallback allocator's layout.**  For a power-of-two `alignment`, a request
`size + alignment + 8` that does not wrap, and a block from `malloc` that ends below `2 ^ 64`:
the fallback returns a multiple of `alignment`; the word below it, which is `8`-aligned when
`alignment` is at least `8`, and the `size` bytes from it lie inside `malloc`'s block; and
whatever the caller writes into those `size` bytes, `cauchy_aligned_free` of the address hands
`free` the pointer `malloc` returned. -/
theorem alignedAlloc_layout (hk : alignment.toNat = 2 ^ k)
    (hreq : size.toNat + alignment.toNat + 8 < 2 ^ 64)
    (hfit : ptr.toNat + (mallocSize size alignment).toNat < 2 ^ 64) (mem : BitVec 64 → UInt8) :
    (alignedAlloc mem (some ptr) alignment).1 = some (alignedAddress ptr alignment) ∧
      (alignedAddress ptr alignment).toNat % alignment.toNat = 0 ∧
      ptr.toNat + 8 < (alignedAddress ptr alignment).toNat ∧
      (8 ≤ alignment.toNat → ((alignedAddress ptr alignment).toNat - 8) % 8 = 0) ∧
      (alignedAddress ptr alignment).toNat + size.toNat ≤
        ptr.toNat + (mallocSize size alignment).toNat ∧
      ∀ mem' : BitVec 64 → UInt8,
        (∀ a : BitVec 64, (a.toNat < (alignedAddress ptr alignment).toNat ∨
            (alignedAddress ptr alignment).toNat + size.toNat ≤ a.toNat) →
          mem' a = (alignedAlloc mem (some ptr) alignment).2 a) →
        alignedFree mem' (alignedAddress ptr alignment) = some ptr := by
  have hA : 0 < alignment.toNat := hk ▸ Nat.two_pow_pos k
  have hM : (mallocSize size alignment).toNat = size.toNat + alignment.toNat + 8 := by
    simp only [mallocSize, BitVec.toNat_add, BitVec.toNat_ofNat]; omega
  rw [hM] at hfit ⊢
  have hp := toNat_alignedAddress hk (by omega : ptr.toNat + alignment.toNat + 8 < 2 ^ 64)
  have hr := Nat.mod_lt (ptr.toNat + alignment.toNat + 8) hA
  have hmod : (alignedAddress ptr alignment).toNat % alignment.toNat = 0 := by
    rw [hp]; exact Nat.sub_mod_eq_zero_of_mod_eq (Nat.mod_mod _ _).symm
  refine ⟨rfl, hmod, by omega, fun h8 => ?_, by omega, fun mem' hmem' => ?_⟩
  · have h3 : 3 ≤ k := by
      by_contra h
      have : 2 ^ k ≤ 2 ^ 2 := Nat.pow_le_pow_right (by norm_num) (by omega)
      omega
    have hd : 8 ∣ alignment.toNat := by rw [hk]; exact Nat.pow_dvd_pow 2 h3
    have := Nat.mod_mod_of_dvd (alignedAddress ptr alignment).toNat hd
    rw [hmod] at this
    omega
  · have h8 : (8#64 : BitVec 64).toNat ≤ (alignedAddress ptr alignment).toNat := by
      simp only [BitVec.toNat_ofNat, Nat.reduceMod]; omega
    have hslot : (alignedAddress ptr alignment - 8#64).toNat =
        (alignedAddress ptr alignment).toNat - 8 := by
      rw [BitVec.toNat_sub_of_le (BitVec.le_def.2 h8)]; rfl
    dsimp only [alignedAlloc] at hmem'
    rw [alignedFree, if_neg (fun h => by rw [h] at hp; simp at hp; omega)]
    refine congrArg some ((loadWord_congr fun j hj => hmem' _ (.inl ?_)).trans
      (loadWord_storeWord _ _ _))
    rw [BitVec.toNat_add, hslot, BitVec.toNat_ofNat, Nat.mod_eq_of_lt (by omega : j < 2 ^ 64),
      Nat.mod_eq_of_lt (by omega)]
    omega

/-- `malloc` returned `4096` for a request of `100` bytes aligned to a cache line. -/
theorem cacheLine_alignedAlloc_layout :
    (64#64 : BitVec 64).toNat = 2 ^ 6 ∧
      (100#64 : BitVec 64).toNat + (64#64 : BitVec 64).toNat + 8 < 2 ^ 64 ∧
      (4096#64 : BitVec 64).toNat + (mallocSize 100#64 64#64).toNat < 2 ^ 64 ∧
      (alignedAddress 4096#64 64#64).toNat % (64#64 : BitVec 64).toNat = 0 ∧
      (4096#64 : BitVec 64).toNat + 8 < (alignedAddress 4096#64 64#64).toNat ∧
      (alignedAddress 4096#64 64#64).toNat + (100#64 : BitVec 64).toNat ≤
        (4096#64 : BitVec 64).toNat + (mallocSize 100#64 64#64).toNat :=
  have h := @alignedAlloc_layout 100#64 64#64 4096#64 6 (by decide) (by decide) (by decide)
    fun _ => 0
  ⟨by decide, by decide, by decide, h.2.1, h.2.2.1, h.2.2.2.2.1⟩

end Aligned

/-! ## `cauchy_pool_create`'s blocks -/

/-- `cauchy_pool_config_t`, without `max_blocks`, which nothing reads. -/
structure PoolConfig where
  blockSize : BitVec 64
  initialBlocks : BitVec 64
  alignment : BitVec 64

namespace PoolConfig

/-- `CAUCHY_POOL_CONFIG_DEFAULT`, which `cauchy_pool_create (NULL)` uses. -/
def default : PoolConfig := ⟨64#64, 1024#64, 64#64⟩

/-- The alignment `cauchy_pool_create` uses: the configured one, or `CAUCHY_CACHE_LINE_SIZE`
for `0`. -/
def align (cfg : PoolConfig) : BitVec 64 := if cfg.alignment = 0#64 then 64#64 else cfg.alignment

/-- `actual_block_size`: `(block_size + alignment - 1) & ~(alignment - 1)`, raised to
`sizeof (pool_node_t)`. -/
def actualBlockSize (cfg : PoolConfig) : BitVec 64 :=
  if (cfg.blockSize + cfg.align - 1#64) &&& ~~~(cfg.align - 1#64) < 8#64 then 8#64
  else (cfg.blockSize + cfg.align - 1#64) &&& ~~~(cfg.align - 1#64)

/-- `total_size = actual_block_size * initial_blocks`, the bytes the initial blocks are carved
from. -/
def totalSize (cfg : PoolConfig) : BitVec 64 := cfg.actualBlockSize * cfg.initialBlocks

/-- The address of initial block `i` in an allocation at `base`: the loop's `block` after `i`
steps of `block += actual_block_size`. -/
def initialBlock (cfg : PoolConfig) (base : BitVec 64) (i : Nat) : BitVec 64 :=
  base + BitVec.ofNat 64 i * cfg.actualBlockSize

/-- The masked sum, in numbers: `block_size + alignment - 1` as a `u64`, rounded down to a
multiple of the alignment. -/
theorem toNat_rounded (cfg : PoolConfig) {k : Nat} (hk : cfg.align.toNat = 2 ^ k) :
    ((cfg.blockSize + cfg.align - 1#64) &&& ~~~(cfg.align - 1#64)).toNat =
      (cfg.blockSize.toNat + cfg.align.toNat - 1) % 2 ^ 64 -
        (cfg.blockSize.toNat + cfg.align.toNat - 1) % 2 ^ 64 % cfg.align.toNat := by
  have hA : 0 < cfg.align.toNat := hk ▸ Nat.two_pow_pos k
  have hsum : (cfg.blockSize + cfg.align - 1#64).toNat =
      (cfg.blockSize.toNat + cfg.align.toNat - 1) % 2 ^ 64 := by
    simp only [BitVec.toNat_sub, BitVec.toNat_add, BitVec.toNat_ofNat, Nat.reduceMod]; omega
  rw [toNat_and_not_pred hk, hsum, hk]

/-- Without a wrap, `actual_block_size` is the least multiple of `a` that is at least
`block_size` and at least `8`. -/
theorem actualBlockSize_rounds (cfg : PoolConfig) {k : Nat} (hk : cfg.align.toNat = 2 ^ k)
    (hnw : cfg.blockSize.toNat + cfg.align.toNat - 1 < 2 ^ 64) (hpos : 0 < cfg.blockSize.toNat) :
    cfg.actualBlockSize.toNat % cfg.align.toNat = 0 ∧
      max cfg.blockSize.toNat 8 ≤ cfg.actualBlockSize.toNat ∧
      ∀ m, m % cfg.align.toNat = 0 → max cfg.blockSize.toNat 8 ≤ m →
        cfg.actualBlockSize.toNat ≤ m := by
  have hA : 0 < cfg.align.toNat := hk ▸ Nat.two_pow_pos k
  have hs := toNat_rounded cfg hk
  rw [Nat.mod_eq_of_lt hnw] at hs
  have hr := Nat.mod_lt (cfg.blockSize.toNat + cfg.align.toNat - 1) hA
  have hmod := Nat.sub_mod_eq_zero_of_mod_eq
    (Nat.mod_mod (cfg.blockSize.toNat + cfg.align.toNat - 1) cfg.align.toNat).symm
  unfold actualBlockSize
  split
  · next hlt =>
    rw [BitVec.lt_def, hs] at hlt
    simp only [BitVec.toNat_ofNat, Nat.reduceMod] at hlt ⊢
    have hAs := Nat.le_of_dvd (by omega) (Nat.dvd_of_mod_eq_zero hmod)
    have hk3 : k ≤ 3 := by
      by_contra h
      have : 2 ^ 4 ≤ 2 ^ k := Nat.pow_le_pow_right (by norm_num) (by omega)
      omega
    have h8 : 8 % cfg.align.toNat = 0 := by
      rw [hk]; exact Nat.mod_eq_zero_of_dvd (Nat.pow_dvd_pow 2 hk3)
    exact ⟨h8, max_le (by omega) le_rfl, fun m _ hm => le_of_max_le_right hm⟩
  · next hge =>
    rw [BitVec.lt_def, hs] at hge
    simp only [BitVec.toNat_ofNat, Nat.reduceMod] at hge
    rw [hs]
    exact ⟨hmod, max_le (by omega) (by omega), fun m hm hle =>
      sub_mod_le_of_lt_add hm (by have := le_of_max_le_left hle; omega)⟩

/-- When `block_size + a - 1` wraps, the mask leaves `0` and the blocks are `8` bytes. -/
theorem actualBlockSize_of_wrap (cfg : PoolConfig) {k : Nat} (hk : cfg.align.toNat = 2 ^ k)
    (hw : 2 ^ 64 ≤ cfg.blockSize.toNat + cfg.align.toNat - 1) : cfg.actualBlockSize = 8#64 := by
  have hA : 0 < cfg.align.toNat := hk ▸ Nat.two_pow_pos k
  have hB := cfg.blockSize.isLt
  have hA' := cfg.align.isLt
  have hx : (cfg.blockSize.toNat + cfg.align.toNat - 1) % 2 ^ 64 < cfg.align.toNat := by omega
  unfold actualBlockSize
  refine if_pos ?_
  rw [BitVec.lt_def, toNat_rounded cfg hk, Nat.mod_eq_of_lt hx, Nat.sub_self]
  decide

/-- **The block size.**  For an alignment `a = 2 ^ k`: when `block_size + a - 1` does not wrap
and `block_size` is not `0`, `actual_block_size` is the least multiple of `a` that is at least
`block_size` and at least `sizeof (pool_node_t) = 8`; when it wraps, the mask leaves `0` and
the blocks are `8` bytes, whatever `block_size` asked for. -/
theorem actualBlockSize_spec (cfg : PoolConfig) {k : Nat} (hk : cfg.align.toNat = 2 ^ k) :
    (cfg.blockSize.toNat + cfg.align.toNat - 1 < 2 ^ 64 → 0 < cfg.blockSize.toNat →
      cfg.actualBlockSize.toNat % cfg.align.toNat = 0 ∧
        max cfg.blockSize.toNat 8 ≤ cfg.actualBlockSize.toNat ∧
        ∀ m, m % cfg.align.toNat = 0 → max cfg.blockSize.toNat 8 ≤ m →
          cfg.actualBlockSize.toNat ≤ m) ∧
      (2 ^ 64 ≤ cfg.blockSize.toNat + cfg.align.toNat - 1 → cfg.actualBlockSize = 8#64) :=
  ⟨actualBlockSize_rounds cfg hk, actualBlockSize_of_wrap cfg hk⟩

theorem default_actualBlockSize_spec :
    PoolConfig.default.align.toNat = 2 ^ 6 ∧
      (PoolConfig.default.blockSize.toNat + PoolConfig.default.align.toNat - 1 < 2 ^ 64 →
        0 < PoolConfig.default.blockSize.toNat →
        PoolConfig.default.actualBlockSize.toNat % PoolConfig.default.align.toNat = 0 ∧
          max PoolConfig.default.blockSize.toNat 8 ≤ PoolConfig.default.actualBlockSize.toNat ∧
          ∀ m, m % PoolConfig.default.align.toNat = 0 →
            max PoolConfig.default.blockSize.toNat 8 ≤ m →
            PoolConfig.default.actualBlockSize.toNat ≤ m) :=
  ⟨by decide, (actualBlockSize_spec PoolConfig.default (k := 6) (by decide)).1⟩

/-- Initial block `i`, in numbers, while `i * actual_block_size` does not wrap. -/
theorem toNat_initialBlock (cfg : PoolConfig) (base : BitVec 64) {i : Nat}
    (hi : i * cfg.actualBlockSize.toNat < 2 ^ 64) (hb : 0 < cfg.actualBlockSize.toNat) :
    (cfg.initialBlock base i).toNat = (base.toNat + i * cfg.actualBlockSize.toNat) % 2 ^ 64 := by
  have hi' : i < 2 ^ 64 := lt_of_le_of_lt (Nat.le_mul_of_pos_right i hb) hi
  rw [initialBlock, BitVec.toNat_add, BitVec.toNat_mul, BitVec.toNat_ofNat, Nat.mod_eq_of_lt hi',
    Nat.mod_eq_of_lt hi]

/-- **Where the initial blocks are.**  For an alignment `a = 2 ^ k`, a non-zero `block_size`
that does not wrap, and an `a`-aligned allocation of `total_size` bytes at `base` that ends at
or below `2 ^ 64`: every initial block lies inside the allocation exactly when
`actual_block_size * initial_blocks` does not wrap; and then every block is `a`-aligned and
ends at or before the next one starts.  When the product wraps, the loop writes the link of a
block that lies outside the allocation. -/
theorem initialBlocks_layout (cfg : PoolConfig) {base : BitVec 64} {k : Nat}
    (hk : cfg.align.toNat = 2 ^ k) (hB : 0 < cfg.blockSize.toNat)
    (hnw : cfg.blockSize.toNat + cfg.align.toNat - 1 < 2 ^ 64)
    (hbase : base.toNat % cfg.align.toNat = 0)
    (hfit : base.toNat + cfg.totalSize.toNat ≤ 2 ^ 64) :
    ((∀ i < cfg.initialBlocks.toNat, base.toNat ≤ (cfg.initialBlock base i).toNat ∧
        (cfg.initialBlock base i).toNat + cfg.actualBlockSize.toNat ≤
          base.toNat + cfg.totalSize.toNat) ↔
      cfg.actualBlockSize.toNat * cfg.initialBlocks.toNat < 2 ^ 64) ∧
      (cfg.actualBlockSize.toNat * cfg.initialBlocks.toNat < 2 ^ 64 →
        (∀ i < cfg.initialBlocks.toNat, (cfg.initialBlock base i).toNat % cfg.align.toNat = 0) ∧
        ∀ i j, i < j → j < cfg.initialBlocks.toNat →
          (cfg.initialBlock base i).toNat + cfg.actualBlockSize.toNat ≤
            (cfg.initialBlock base j).toNat) := by
  obtain ⟨hbs, h8, -⟩ := actualBlockSize_rounds cfg hk hnw hB
  have hpos : 0 < cfg.actualBlockSize.toNat := by
    have := le_max_right cfg.blockSize.toNat 8; omega
  have hT : cfg.totalSize.toNat =
      cfg.actualBlockSize.toNat * cfg.initialBlocks.toNat % 2 ^ 64 := by
    rw [totalSize, BitVec.toNat_mul]
  -- Below `n` blocks that do not wrap, block `i` is `base + i * actual_block_size`.
  have hat : cfg.actualBlockSize.toNat * cfg.initialBlocks.toNat < 2 ^ 64 →
      ∀ i < cfg.initialBlocks.toNat,
        (cfg.initialBlock base i).toNat = base.toNat + i * cfg.actualBlockSize.toNat ∧
          i * cfg.actualBlockSize.toNat + cfg.actualBlockSize.toNat ≤
            cfg.actualBlockSize.toNat * cfg.initialBlocks.toNat := fun hw i hi => by
    have hle := Nat.mul_le_mul_right cfg.actualBlockSize.toNat (Nat.succ_le_of_lt hi)
    rw [Nat.succ_mul, Nat.mul_comm cfg.initialBlocks.toNat] at hle
    rw [hT, Nat.mod_eq_of_lt hw] at hfit
    rw [toNat_initialBlock cfg base (by omega) hpos, Nat.mod_eq_of_lt (by omega)]
    exact ⟨rfl, hle⟩
  refine ⟨⟨fun hin => ?_, fun hw i hi => ?_⟩, fun hw => ⟨fun i hi => ?_, fun i j hij hj => ?_⟩⟩
  · -- If the product wraps, the block where `total_size` falls lies past the allocation.
    by_contra hw
    have hlt := Nat.lt_div_mul_add (a := cfg.totalSize.toNat) hpos
    have hle := Nat.div_mul_le_self cfg.totalSize.toNat cfg.actualBlockSize.toNat
    have hTl : cfg.totalSize.toNat < 2 ^ 64 := cfg.totalSize.isLt
    have hi : cfg.totalSize.toNat / cfg.actualBlockSize.toNat < cfg.initialBlocks.toNat := by
      rw [Nat.div_lt_iff_lt_mul hpos, Nat.mul_comm]; omega
    have h := hin _ hi
    rw [toNat_initialBlock cfg base (by omega) hpos] at h
    omega
  · obtain ⟨he, hle⟩ := hat hw i hi
    rw [hT, Nat.mod_eq_of_lt hw, he]
    omega
  · rw [(hat hw i hi).1]
    exact Nat.mod_eq_zero_of_dvd (dvd_add (Nat.dvd_of_mod_eq_zero hbase)
      ((Nat.dvd_of_mod_eq_zero hbs).mul_left i))
  · obtain ⟨hei, -⟩ := hat hw i (hij.trans hj)
    obtain ⟨hej, -⟩ := hat hw j hj
    have := Nat.mul_le_mul_right cfg.actualBlockSize.toNat (Nat.succ_le_of_lt hij)
    rw [Nat.succ_mul] at this
    omega

/-- The default configuration's `1024` blocks of `64` bytes, carved from address `65536`. -/
theorem default_initialBlocks_layout :
    PoolConfig.default.align.toNat = 2 ^ 6 ∧ 0 < PoolConfig.default.blockSize.toNat ∧
      PoolConfig.default.blockSize.toNat + PoolConfig.default.align.toNat - 1 < 2 ^ 64 ∧
      (65536#64 : BitVec 64).toNat % PoolConfig.default.align.toNat = 0 ∧
      (65536#64 : BitVec 64).toNat + PoolConfig.default.totalSize.toNat ≤ 2 ^ 64 ∧
      ∀ i < PoolConfig.default.initialBlocks.toNat,
        (PoolConfig.default.initialBlock 65536#64 i).toNat % PoolConfig.default.align.toNat = 0 :=
  ⟨by decide, by decide, by decide, by decide, by decide,
    ((initialBlocks_layout PoolConfig.default (k := 6) (by decide) (by decide) (by decide)
      (by decide) (by decide)).2 (by decide)).1⟩

end PoolConfig

end Memory
end Cauchy
