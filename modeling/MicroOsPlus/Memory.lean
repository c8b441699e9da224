import Mathlib.Data.Nat.Bitwise

/-!
# Sizes in the memory resources

Two pieces of `os-memory.h` compute byte counts in `std::size_t`: `align_size`, which rounds a
size up to a multiple of a power-of-two alignment, and the `allocate (elements)` members of the
two allocators, which multiply an element count by `sizeof (value_type)` before calling a
`memory_resource`. A `std::size_t` is a word of `w` bits, `BitVec w`; its arithmetic wraps.

## What is proved

* `alignSize_toNat` — the value of `align_size` for `align = 2^k`, as an integer: the next
  multiple of `align` while `size + align - 1` fits in the word, and `0` for the `align - 1`
  largest sizes, where the sum wraps. `alignSize_spec` reads it as the rounding it is and is
  not; `alignSize_wraps` is a 32-bit size it sends to `0`.
* `PolymorphicSynchronizedAllocator.allocate_spec` — that allocator refuses a count above
  `max_size ()`, so the byte count it passes is the exact product, within the resource's
  `max_size ()`.
* `DefaultResourceAllocator.allocate_wraps` — the default allocator has no such check; on a
  32-bit word it asks for `0` bytes for `2^29` elements of 8 bytes.

What a `memory_resource` does with the request is not modelled: the model returns the request.
-/

namespace MicroOsPlus.Memory

/-- `align_size (size, align)`, `((size) + (align) - 1L) & ~((align) - 1L)` in `std::size_t`. -/
def alignSize {w : ℕ} (size align : BitVec w) : BitVec w := (size + align - 1) &&& ~~~(align - 1)

/-- Masking off the low `k` bits of a word rounds it down to a multiple of `2^k`. -/
theorem and_not_low_bits {w k x : ℕ} (hk : k ≤ w) (hx : x < 2 ^ w) :
    x &&& (2 ^ w - 1 - (2 ^ k - 1)) = 2 ^ k * (x / 2 ^ k) := by
  have hmask : 2 ^ w - 1 - (2 ^ k - 1) = 2 ^ k * (2 ^ (w - k) - 1) := by
    have h2 : 2 ^ w = 2 ^ k * 2 ^ (w - k) := by rw [← pow_add, Nat.add_sub_cancel' hk]
    have h1 : 1 ≤ 2 ^ k := Nat.one_le_two_pow
    rw [h2, Nat.mul_sub_one]
    omega
  rw [hmask]
  apply Nat.eq_of_testBit_eq
  intro i
  rw [Nat.testBit_and, Nat.testBit_mul_pow_two, Nat.testBit_mul_pow_two,
    Nat.testBit_two_pow_sub_one,
    ← Nat.shiftRight_eq_div_pow, Nat.testBit_shiftRight]
  by_cases hki : k ≤ i
  · rw [Nat.add_sub_cancel' hki]
    by_cases hiw : i < w
    · simp [hki, show i - k < w - k by omega]
    · have hxi : x.testBit i = false :=
        Nat.testBit_lt_two_pow (lt_of_lt_of_le hx (Nat.pow_le_pow_right (by decide) (by omega)))
      simp [hxi]
  · simp only [ge_iff_le, hki, decide_False, Bool.false_and, Bool.and_false]

theorem alignSize_toNat {w k : ℕ} (hk : k < w) (size : BitVec w) :
    (alignSize size (BitVec.ofNat w (2 ^ k))).toNat =
      2 ^ k * ((size.toNat + 2 ^ k - 1) % 2 ^ w / 2 ^ k) := by
  have hkw : 2 ^ k < 2 ^ w := Nat.pow_lt_pow_right (by decide) hk
  have h1 : 1 ≤ 2 ^ k := Nat.one_le_two_pow
  have hs := size.isLt
  have h1w : (1 : BitVec w).toNat = 1 := by
    show (BitVec.ofNat w 1).toNat = 1
    rw [BitVec.toNat_ofNat, Nat.mod_eq_of_lt (lt_of_le_of_lt h1 hkw)]
  have hsum : (size + BitVec.ofNat w (2 ^ k) - 1).toNat = (size.toNat + 2 ^ k - 1) % 2 ^ w := by
    rw [BitVec.toNat_sub, BitVec.toNat_add, BitVec.toNat_ofNat, Nat.mod_eq_of_lt hkw, h1w,
      Nat.add_mod_mod,
      show 2 ^ w - 1 + (size.toNat + 2 ^ k) = size.toNat + 2 ^ k - 1 + 2 ^ w by omega,
      Nat.add_mod_right]
  have hmask : (BitVec.ofNat w (2 ^ k) - 1).toNat = 2 ^ k - 1 := by
    rw [BitVec.toNat_sub, BitVec.toNat_ofNat, Nat.mod_eq_of_lt hkw, h1w,
      show 2 ^ w - 1 + 2 ^ k = 2 ^ k - 1 + 2 ^ w by omega, Nat.add_mod_right,
      Nat.mod_eq_of_lt (by omega)]
  rw [alignSize, BitVec.toNat_and, BitVec.toNat_not, hmask, hsum,
    and_not_low_bits hk.le (Nat.mod_lt _ (by omega))]

/-- **`align_size` as a rounding.** For `align = 2^k` the result is a multiple of `align`; while
`size + align - 1` fits in the word it is the least multiple of `align` not below `size`, and for
the `align - 1` largest sizes, where the sum wraps, it is `0`. -/
theorem alignSize_spec {w k : ℕ} (hk : k < w) (size : BitVec w) :
    2 ^ k ∣ (alignSize size (BitVec.ofNat w (2 ^ k))).toNat ∧
      (size.toNat + 2 ^ k - 1 < 2 ^ w →
        size.toNat ≤ (alignSize size (BitVec.ofNat w (2 ^ k))).toNat ∧
        (alignSize size (BitVec.ofNat w (2 ^ k))).toNat < size.toNat + 2 ^ k) ∧
      (2 ^ w ≤ size.toNat + 2 ^ k - 1 → (alignSize size (BitVec.ofNat w (2 ^ k))).toNat = 0) := by
  rw [alignSize_toNat hk]
  have hm : 0 < 2 ^ k := Nat.two_pow_pos k
  have hs := size.isLt
  have hkw : 2 ^ k < 2 ^ w := Nat.pow_lt_pow_right (by decide) hk
  have hdiv := Nat.mod_add_div ((size.toNat + 2 ^ k - 1) % 2 ^ w) (2 ^ k)
  have hmod := Nat.mod_lt ((size.toNat + 2 ^ k - 1) % 2 ^ w) hm
  refine ⟨⟨_, rfl⟩, fun hfit => ?_, fun hwrap => ?_⟩
  · rw [Nat.mod_eq_of_lt hfit] at hdiv hmod ⊢
    omega
  · rw [Nat.mod_eq_sub_mod hwrap, Nat.mod_eq_of_lt (by omega), Nat.div_eq_of_lt (by omega),
      Nat.mul_zero]

theorem alignSize_thirteen :
    (alignSize (13 : BitVec 32) (BitVec.ofNat 32 (2 ^ 3))).toNat < 13 + 2 ^ 3 :=
  ((alignSize_spec (by decide) 13).2.1 (by decide)).2

/-- On a 32-bit word, `align_size (0xFFFFFFFF, 8)` wraps to `0`, below the size. -/
theorem alignSize_wraps :
    (alignSize (0xFFFFFFFF : BitVec 32) 8).toNat = 0 ∧
      ¬ (0xFFFFFFFF : BitVec 32).toNat ≤ (alignSize (0xFFFFFFFF : BitVec 32) 8).toNat := by
  decide

/-! ### Allocators -/

/-- A call `memory_resource::allocate (bytes, alignment)`. -/
structure Request (w : ℕ) where
  /-- The byte count asked for. -/
  bytes : BitVec w
  /-- The alignment asked for. -/
  alignment : BitVec w
  deriving DecidableEq

namespace DefaultResourceAllocator

/-- `default_resource_allocator<T>::allocate (elements)`: ask the default resource for
`elements * sizeof (value_type)` bytes, at its default alignment `max_align`. -/
def allocate {w : ℕ} (sizeofT maxAlign elements : BitVec w) : Request w :=
  ⟨elements * sizeofT, maxAlign⟩

/-- On a 32-bit `std::size_t`, `2^29` elements of an 8-byte type ask the resource for `0` bytes. -/
theorem allocate_wraps :
    (allocate (8 : BitVec 32) 8 0x20000000).bytes.toNat = 0 ∧
      (0x20000000 : BitVec 32).toNat * 8 = 2 ^ 32 := by
  decide

end DefaultResourceAllocator

namespace PolymorphicSynchronizedAllocator

/-- `polymorphic_synchronized_allocator<T>::max_size ()`: `res_->max_size () / sizeof (T)`. -/
def maxSize {w : ℕ} (sizeofT resMaxSize : BitVec w) : BitVec w := resMaxSize / sizeofT

/-- `polymorphic_synchronized_allocator<T>::allocate (elements)`: throw
`system_error (EINVAL, ...)` when `elements > max_size ()`, else ask the resource for
`elements * sizeof (value_type)` bytes aligned to `alignof (value_type)`. -/
def allocate {w : ℕ} (sizeofT alignofT resMaxSize elements : BitVec w) :
    Except (String × String) (Request w) :=
  if elements > maxSize sizeofT resMaxSize then
    .error ("EINVAL", "polymorphic_synchronized_allocator<T>::allocate(size_t n)" ++
      " \x27n\x27 exceeds maximum supported size")
  else .ok ⟨elements * sizeofT, alignofT⟩

theorem mul_le_of_le_maxSize {w : ℕ} {sizeofT resMaxSize elements : BitVec w}
    (h : elements ≤ maxSize sizeofT resMaxSize) :
    elements.toNat * sizeofT.toNat ≤ resMaxSize.toNat := by
  rcases Nat.eq_zero_or_pos sizeofT.toNat with h0 | hpos
  · simp [h0]
  have : elements.toNat ≤ resMaxSize.toNat / sizeofT.toNat := by
    simpa [maxSize, BitVec.le_def, BitVec.toNat_udiv] using h
  exact (Nat.le_div_iff_mul_le hpos).1 this

/-- **What this allocator asks of its resource.** It refuses exactly the counts above
`max_size ()`, with `EINVAL`; any other count it passes on at the type's alignment, as the exact
product, which the check keeps within the resource's `max_size ()`. -/
theorem allocate_spec {w : ℕ} (sizeofT alignofT resMaxSize elements : BitVec w) :
    ((∃ e, allocate sizeofT alignofT resMaxSize elements = .error e ∧ e.1 = "EINVAL") ↔
      elements > maxSize sizeofT resMaxSize) ∧
    ∀ r, allocate sizeofT alignofT resMaxSize elements = .ok r →
      r.bytes.toNat = elements.toNat * sizeofT.toNat ∧ r.bytes.toNat ≤ resMaxSize.toNat ∧
        r.alignment = alignofT := by
  unfold allocate
  split_ifs with hgt
  · exact ⟨iff_of_true ⟨_, rfl, rfl⟩ hgt, fun r h => by cases h⟩
  refine ⟨iff_of_false (fun ⟨_, h, _⟩ => by cases h) hgt, fun r h => ?_⟩
  cases h
  have hle := mul_le_of_le_maxSize (BitVec.not_lt.1 hgt)
  have hexact : (elements * sizeofT).toNat = elements.toNat * sizeofT.toNat := by
    rw [BitVec.toNat_mul]
    exact Nat.mod_eq_of_lt (lt_of_le_of_lt hle resMaxSize.isLt)
  exact ⟨hexact, hexact ▸ hle, rfl⟩

end PolymorphicSynchronizedAllocator

end MicroOsPlus.Memory
