import MicroOsPlus.Memory
import MicroOsPlus.Run
import Mathlib.Data.List.Nodup

/-!
# Every block goes back to the resource it came from

`os-memory.h` gives two allocators over `memory_resource`s. `default_resource_allocator<T>` holds
nothing and asks, at each call, the resource `get_default_resource ()` returns then;
`polymorphic_synchronized_allocator<T>` holds the resource `res_` it was made with.
`allocate_unique` allocates one element through a copy of an allocator and constructs the object
there, deallocating the element if the constructor throws; the `allocator_deleter` of the
`unique_ptr` it returns destroys the object and deallocates the element through its own copy of
the allocator.

## The model

A resource is its address. What a resource does is not in the sources (`do_allocate` and
`do_deallocate` are pure virtual), so a resource is held to the contract its documentation states.
`allocate` answers with a `Grant`: a block at an address no outstanding block has; `nullptr`,
when the storage "cannot be obtained" and no out of memory handler is set; or the exception the
handler throws. `deallocate (addr, bytes, alignment)` takes back the block handed out at `addr`
for these bytes and this alignment, which "shall not yet have been deallocated"; any other call
breaks the contract, and so does constructing an object at `nullptr`: both end the run (`none`).
A `Heap` is `default_resource` and the blocks handed out and not taken back. Each resource's
`max_size ()` is fixed for a run (`resMaxSize`), and `maxAlign` is `memory_resource::max_align`.

Clients hold blocks with the allocator they give them back through: a container a block of
`allocate (elements)`, a `unique_ptr` the object of `allocate_unique`. `MemStep` is what can
happen: `set_default_resource`, a container's `allocate` and `deallocate`, `allocate_unique`, and
a `unique_ptr`'s deleter. `set_default_resource` is taken while no client holds a block of
`default_resource_allocator`, or to the resource already default: that allocator gives a block
back to the resource that is default when it does, and `setDefaultResource_strands` shows that
otherwise the block is stranded.

## What is proved

* `Allocator.allocate_cases`, `Allocator.deallocate_eq` — both allocators as one: the resource
  each calls, its byte count and alignment, and the check of `polymorphic_synchronized_allocator`.
* `Allocator.deallocate_allocate` — deallocating what was just allocated gives back the memory as
  it was, for both allocators and every count.
* `allocateUnique_cases` — `allocate_unique` makes the object with one more block outstanding, or
  throws with the memory as it was; it breaks a contract only when the resource answers
  `nullptr`, which it does not check before constructing there.
* `memory_ledger` — in every state a run reaches, the outstanding blocks are the blocks the
  clients hold, each once, and giving back any of them takes back exactly that block.
* `setDefaultResource_strands` — in every state a run reaches, switching the default resource
  while a block of `default_resource_allocator` is held makes giving it back break a contract.
-/

namespace MicroOsPlus.Memory

open Relation

variable {w : ℕ}

/-- A block a resource handed out: the resource, the address, and the byte count and alignment it
was asked for. -/
structure Block (w : ℕ) where
  /-- The `memory_resource *` that handed it out. -/
  res : ℕ
  /-- Its address. -/
  addr : ℕ
  /-- The `bytes` of the request. -/
  bytes : BitVec w
  /-- The `alignment` of the request. -/
  alignment : BitVec w
  deriving DecidableEq

/-- The memory of the system: `default_resource`, and the blocks the resources handed out and did
not take back, the latest first. -/
structure Heap (w : ℕ) where
  /-- `default_resource`, what `get_default_resource ()` returns. -/
  defaultResource : ℕ
  /-- The outstanding blocks. -/
  blocks : List (Block w)

/-- `get_default_resource ()`: `return default_resource;`. -/
def getDefaultResource (h : Heap w) : ℕ := h.defaultResource

/-- What a resource's `allocate` answers, which the sources leave to `do_allocate`: a block at an
address; `nullptr`, when out of memory with no out of memory handler set; or the exception the
handler throws. -/
inductive Grant where
  /-- The storage at `addr`. -/
  | block (addr : ℕ)
  /-- Out of memory, no out of memory handler set. -/
  | nullptr
  /-- Out of memory, and the handler throws `e`. -/
  | throws (e : String × String)
  deriving DecidableEq

/-- The grant hands out an address no outstanding block has, if any. -/
def Grant.Fresh (h : Heap w) : Grant → Prop
  | .block addr => ∀ b ∈ h.blocks, b.addr ≠ addr
  | .nullptr | .throws _ => True

namespace MemoryResource

/-- The resource `r` hands out a block at `addr`. -/
def handOut (r addr : ℕ) (bytes alignment : BitVec w) (h : Heap w) : Heap w :=
  { h with blocks := ⟨r, addr, bytes, alignment⟩ :: h.blocks }

/-- `r->allocate (bytes, alignment)`, `return do_allocate (bytes, alignment);`: the address of the
block handed out, or `nullptr` (`none`), or the exception thrown. -/
def allocate (r : ℕ) (bytes alignment : BitVec w) (g : Grant) (h : Heap w) :
    Except (String × String) (Option ℕ × Heap w) :=
  match g with
  | .block addr => .ok (some addr, handOut r addr bytes alignment h)
  | .nullptr => .ok (none, h)
  | .throws e => .error e

/-- `r->deallocate (addr, bytes, alignment)`, that is `do_deallocate (addr, bytes, alignment)`: the
resource takes back the block it handed out at `addr` for these bytes and this alignment; any
other call breaks its contract. -/
def deallocate (r addr : ℕ) (bytes alignment : BitVec w) (h : Heap w) : Option (Heap w) :=
  if (⟨r, addr, bytes, alignment⟩ : Block w) ∈ h.blocks then
    some { h with blocks := h.blocks.erase ⟨r, addr, bytes, alignment⟩ }
  else none

@[simp] theorem handOut_blocks (r addr : ℕ) (bytes alignment : BitVec w) (h : Heap w) :
    (handOut r addr bytes alignment h).blocks = ⟨r, addr, bytes, alignment⟩ :: h.blocks := rfl

@[simp] theorem handOut_defaultResource (r addr : ℕ) (bytes alignment : BitVec w) (h : Heap w) :
    (handOut r addr bytes alignment h).defaultResource = h.defaultResource := rfl

theorem deallocate_handOut (r addr : ℕ) (bytes alignment : BitVec w) (h : Heap w) :
    deallocate r addr bytes alignment (handOut r addr bytes alignment h) = some h := by
  simp [deallocate, handOut]

theorem allocate_eq_some {r p : ℕ} {bytes alignment : BitVec w} {g : Grant} {h h' : Heap w}
    (hs : allocate r bytes alignment g h = .ok (some p, h')) :
    g = .block p ∧ h' = handOut r p bytes alignment h := by
  cases g with
  | block addr =>
    simp only [allocate, Except.ok.injEq, Prod.mk.injEq, Option.some.injEq] at hs
    obtain ⟨rfl, rfl⟩ := hs
    exact ⟨rfl, rfl⟩
  | nullptr | throws => simp [allocate] at hs

theorem allocate_eq_none {r : ℕ} {bytes alignment : BitVec w} {g : Grant} {h h' : Heap w}
    (hs : allocate r bytes alignment g h = .ok (none, h')) : g = .nullptr ∧ h' = h := by
  cases g with
  | nullptr =>
    simp only [allocate, Except.ok.injEq, Prod.mk.injEq] at hs
    exact ⟨rfl, hs.2.symm⟩
  | block | throws => simp [allocate] at hs

end MemoryResource

namespace DefaultResourceAllocator

/-- `default_resource_allocator<T>::deallocate (addr, elements)`: give
`elements * sizeof (value_type)` bytes at `addr` back to the default resource, at its default
alignment `max_align`. -/
def deallocate (sizeofT maxAlign : BitVec w) (addr : ℕ) (elements : BitVec w) (h : Heap w) :
    Option (Heap w) :=
  MemoryResource.deallocate (getDefaultResource h) addr (elements * sizeofT) maxAlign h

/-- `default_resource_allocator<T>::max_size ()`:
`get_default_resource ()->max_size () / sizeof (value_type)`. -/
def maxSize (sizeofT : BitVec w) (resMaxSize : ℕ → BitVec w) (h : Heap w) : BitVec w :=
  resMaxSize (getDefaultResource h) / sizeofT

/-- The count `max_size ()` admits is the count `allocate` turns into the exact product: up to it,
`default_resource_allocator` asks the default resource for `elements * sizeof (T)` bytes, within
that resource's `max_size ()`. -/
theorem allocate_exact {sizeofT maxAlign elements : BitVec w} {resMaxSize : ℕ → BitVec w}
    {h : Heap w} (hle : elements ≤ maxSize sizeofT resMaxSize h) :
    (allocate sizeofT maxAlign elements).bytes.toNat = elements.toNat * sizeofT.toNat ∧
      (allocate sizeofT maxAlign elements).bytes.toNat ≤
        (resMaxSize (getDefaultResource h)).toNat := by
  have hfit := PolymorphicSynchronizedAllocator.mul_le_of_le_maxSize hle
  have hexact : (elements * sizeofT).toNat = elements.toNat * sizeofT.toNat :=
    (BitVec.toNat_mul _ _).trans (Nat.mod_eq_of_lt (lt_of_le_of_lt hfit (BitVec.isLt _)))
  exact ⟨hexact, hexact ▸ hfit⟩

/-- On a 32-bit word, with a default resource of `max_size () = 1024`, `128` elements of 8 bytes,
the most `max_size ()` admits, are asked for as exactly `1024` bytes. -/
theorem allocate_exact_full :
    (128 : BitVec 32) ≤ maxSize 8 (fun _ => 1024) ⟨0, []⟩ ∧
      (allocate (8 : BitVec 32) 16 128).bytes.toNat =
        (128 : BitVec 32).toNat * (8 : BitVec 32).toNat ∧
      (allocate (8 : BitVec 32) 16 128).bytes.toNat ≤
        ((fun _ => (1024 : BitVec 32)) (getDefaultResource (⟨0, []⟩ : Heap 32))).toNat := by
  have hle : (128 : BitVec 32) ≤ maxSize 8 (fun _ => 1024) ⟨0, []⟩ := by decide
  exact ⟨hle, allocate_exact hle⟩

end DefaultResourceAllocator

namespace PolymorphicSynchronizedAllocator

/-- `polymorphic_synchronized_allocator<T>::deallocate (addr, elements)`: assert
`elements <= max_size ()`, then give `elements * sizeof (value_type)` bytes at `addr` back to
`res_`, at `alignof (value_type)`. -/
def deallocate (sizeofT alignofT resMaxSize : BitVec w) (res addr : ℕ) (elements : BitVec w)
    (h : Heap w) : Option (Heap w) :=
  if elements ≤ maxSize sizeofT resMaxSize then
    MemoryResource.deallocate res addr (elements * sizeofT) alignofT h
  else none

end PolymorphicSynchronizedAllocator

/-! ### The two allocators as one -/

/-- An allocator of `os-memory.h` for a `T` of `sizeofT` bytes, by what it holds. -/
inductive Allocator (w : ℕ) where
  /-- `default_resource_allocator<T>`, which holds nothing. -/
  | default (sizeofT : BitVec w)
  /-- `polymorphic_synchronized_allocator<T>`, which holds `res_`; `alignofT` is `alignof (T)`. -/
  | polymorphic (sizeofT alignofT : BitVec w) (res : ℕ)
  deriving DecidableEq

namespace Allocator

variable (resMaxSize : ℕ → BitVec w) (maxAlign : BitVec w)

/-- The allocator's `allocate (elements)`, the resource it calls answering `g`: the address it
returns, or `nullptr`, and the memory after; or the exception thrown. -/
def allocate : Allocator w → BitVec w → Grant → Heap w →
    Except (String × String) (Option ℕ × Heap w)
  | default sizeofT, elements, g, h =>
    let r := DefaultResourceAllocator.allocate sizeofT maxAlign elements
    MemoryResource.allocate (getDefaultResource h) r.bytes r.alignment g h
  | polymorphic sizeofT alignofT res, elements, g, h => do
    let r ← PolymorphicSynchronizedAllocator.allocate sizeofT alignofT (resMaxSize res) elements
    MemoryResource.allocate res r.bytes r.alignment g h

/-- The allocator's `deallocate (addr, elements)`. -/
def deallocate : Allocator w → ℕ → BitVec w → Heap w → Option (Heap w)
  | default sizeofT, addr, elements, h =>
    DefaultResourceAllocator.deallocate sizeofT maxAlign addr elements h
  | polymorphic sizeofT alignofT res, addr, elements, h =>
    PolymorphicSynchronizedAllocator.deallocate sizeofT alignofT (resMaxSize res) res addr elements
      h

/-- The resource the allocator calls in `h`. -/
def target (h : Heap w) : Allocator w → ℕ
  | default _ => getDefaultResource h
  | polymorphic _ _ res => res

/-- `sizeof (T)`. -/
def sizeofT : Allocator w → BitVec w
  | default s | polymorphic s _ _ => s

/-- The alignment the allocator asks for. -/
def alignment : Allocator w → BitVec w
  | default _ => maxAlign
  | polymorphic _ a _ => a

/-- The counts the allocator lets through to its resource: all of them for
`default_resource_allocator`, those up to `max_size ()` for `polymorphic_synchronized_allocator`. -/
def accepts : Allocator w → BitVec w → Bool
  | default _, _ => true
  | polymorphic sizeofT _ res, elements =>
    decide (elements ≤ PolymorphicSynchronizedAllocator.maxSize sizeofT (resMaxSize res))

/-- Whether the allocator reads `default_resource` at each call. -/
def readsDefault : Allocator w → Bool
  | default _ => true
  | polymorphic .. => false

theorem target_congr (a : Allocator w) (h h' : Heap w)
    (hd : h'.defaultResource = h.defaultResource ∨ a.readsDefault = false) :
    a.target h' = a.target h := by
  cases a with
  | default => simpa [target, readsDefault, getDefaultResource] using hd
  | polymorphic => rfl

/-- **What `allocate` does.** Both allocators either let the count through to the resource they
call, asking it for `elements * sizeof (T)` bytes at their alignment, or refuse it with `EINVAL`
and call no resource. -/
theorem allocate_cases (a : Allocator w) (n : BitVec w) (g : Grant) (h : Heap w) :
    (a.accepts resMaxSize n = true ∧ a.allocate resMaxSize maxAlign n g h =
        MemoryResource.allocate (a.target h) (n * a.sizeofT) (a.alignment maxAlign) g h) ∨
      (a.accepts resMaxSize n = false ∧
        ∃ e, a.allocate resMaxSize maxAlign n g h = .error e ∧ e.1 = "EINVAL") := by
  cases a with
  | default => exact .inl ⟨rfl, rfl⟩
  | polymorphic s al res =>
    by_cases hle : n ≤ PolymorphicSynchronizedAllocator.maxSize s (resMaxSize res)
    · refine .inl ⟨by simp [accepts, hle], ?_⟩
      simp only [allocate, PolymorphicSynchronizedAllocator.allocate, if_neg (BitVec.not_lt.2 hle)]
      rfl
    · refine .inr ⟨by simp [accepts, hle], ?_⟩
      simp only [allocate, PolymorphicSynchronizedAllocator.allocate, if_pos (BitVec.not_le.1 hle)]
      exact ⟨_, rfl, rfl⟩

/-- **What `deallocate` does.** Both allocators give `elements * sizeof (T)` bytes back to the
resource they call, at their alignment, for a count they let through; for another count the
assert of `polymorphic_synchronized_allocator` fails. -/
theorem deallocate_eq (a : Allocator w) (addr : ℕ) (n : BitVec w) (h : Heap w) :
    a.deallocate resMaxSize maxAlign addr n h =
      if a.accepts resMaxSize n then
        MemoryResource.deallocate (a.target h) addr (n * a.sizeofT) (a.alignment maxAlign) h
      else none := by
  cases a <;> simp [deallocate, DefaultResourceAllocator.deallocate,
    PolymorphicSynchronizedAllocator.deallocate, accepts, target, sizeofT, alignment]

variable {resMaxSize maxAlign}

theorem allocate_eq_some {a : Allocator w} {n : BitVec w} {g : Grant} {h h₁ : Heap w} {p : ℕ}
    (hok : a.allocate resMaxSize maxAlign n g h = .ok (some p, h₁)) :
    a.accepts resMaxSize n = true ∧ g = .block p ∧
      h₁ = MemoryResource.handOut (a.target h) p (n * a.sizeofT) (a.alignment maxAlign) h := by
  rcases a.allocate_cases resMaxSize maxAlign n g h with ⟨hacc, ha⟩ | ⟨-, e, he, -⟩
  · exact ⟨hacc, MemoryResource.allocate_eq_some (ha.symm.trans hok)⟩
  · cases he.symm.trans hok

theorem allocate_eq_none {a : Allocator w} {n : BitVec w} {g : Grant} {h h₁ : Heap w}
    (hok : a.allocate resMaxSize maxAlign n g h = .ok (none, h₁)) :
    a.accepts resMaxSize n = true ∧ g = .nullptr := by
  rcases a.allocate_cases resMaxSize maxAlign n g h with ⟨hacc, ha⟩ | ⟨-, e, he, -⟩
  · exact ⟨hacc, (MemoryResource.allocate_eq_none (ha.symm.trans hok)).1⟩
  · cases he.symm.trans hok

theorem allocate_eq_error {a : Allocator w} {n : BitVec w} {g : Grant} {h : Heap w}
    {e : String × String} (hok : a.allocate resMaxSize maxAlign n g h = .error e) :
    a.accepts resMaxSize n = false ∨ g = .throws e := by
  rcases a.allocate_cases resMaxSize maxAlign n g h with ⟨-, ha⟩ | ⟨hacc, -⟩
  · rw [ha] at hok
    cases g <;> simp_all [MemoryResource.allocate]
  · exact .inl hacc

/-- **Round trip.** Deallocating, through the same allocator, what it just allocated gives back
the memory as it was, for both allocators and every count, even one whose byte count wraps. -/
theorem deallocate_allocate {a : Allocator w} {n : BitVec w} {g : Grant} {h h₁ : Heap w} {p : ℕ}
    (hok : a.allocate resMaxSize maxAlign n g h = .ok (some p, h₁)) :
    a.deallocate resMaxSize maxAlign p n h₁ = some h := by
  obtain ⟨hacc, -, rfl⟩ := allocate_eq_some hok
  rw [deallocate_eq, if_pos hacc, a.target_congr _ _ (.inl rfl)]
  exact MemoryResource.deallocate_handOut _ _ _ _ _

end Allocator

/-! ### `allocate_unique` -/

/-- `allocate_unique<T> (allocator, args...)`: allocate one element through a copy of the
allocator, the resource answering `g`, then construct the object at the address returned;
`construct` is what `T`'s constructor does, return (`none`) or throw (`some e`). If it throws,
the element is deallocated and the exception rethrown; otherwise the `unique_ptr` returned holds
the object. The address is not checked: constructing at `nullptr` ends the run. The result is
the memory after, and the address of the object or the exception let through. -/
def allocateUnique (resMaxSize : ℕ → BitVec w) (maxAlign : BitVec w) (a : Allocator w)
    (construct : Option (String × String)) (g : Grant) (h : Heap w) :
    Option (Heap w × Except (String × String) ℕ) :=
  match a.allocate resMaxSize maxAlign 1 g h with
  | .error e => some (h, .error e)
  | .ok (none, _) => none
  | .ok (some p, h₁) =>
    match construct with
    | none => some (h₁, .ok p)
    | some e => (a.deallocate resMaxSize maxAlign p 1 h₁).map fun h₂ => (h₂, .error e)

/-- `allocator_deleter<A>::operator() (p)`: destroy the object, then deallocate its one element
through a copy of the allocator. -/
def AllocatorDeleter.call (resMaxSize : ℕ → BitVec w) (maxAlign : BitVec w) (a : Allocator w)
    (addr : ℕ) (h : Heap w) : Option (Heap w) :=
  a.deallocate resMaxSize maxAlign addr 1 h

/-- What `allocate_unique` can do: throw, with the memory as it was, when the resource is not
asked or does not answer `nullptr`; construct at `nullptr`, when it answers so; or return the
object at the block the resource handed out, when the constructor returns. -/
theorem allocateUnique_cases (resMaxSize : ℕ → BitVec w) (maxAlign : BitVec w) (a : Allocator w)
    (construct : Option (String × String)) (g : Grant) (h : Heap w) :
    (¬ (a.accepts resMaxSize 1 = true ∧ g = .nullptr) ∧
      ∃ e, allocateUnique resMaxSize maxAlign a construct g h = some (h, .error e)) ∨
    (a.accepts resMaxSize 1 = true ∧ g = .nullptr ∧
      allocateUnique resMaxSize maxAlign a construct g h = none) ∨
    (a.accepts resMaxSize 1 = true ∧ ∃ p, g = .block p ∧
      allocateUnique resMaxSize maxAlign a construct g h =
        some (MemoryResource.handOut (a.target h) p a.sizeofT (a.alignment maxAlign) h, .ok p)) := by
  rcases ha : a.allocate resMaxSize maxAlign 1 g h with e | ⟨_ | p, h₁⟩
  · -- the allocator refuses, or the out of memory handler throws
    refine .inl ⟨fun ⟨hacc, hg⟩ => ?_, e, by rw [allocateUnique, ha]⟩
    rcases Allocator.allocate_eq_error ha with hf | hg' <;> simp_all
  · -- the resource answers `nullptr`: the object is constructed there
    obtain ⟨hacc, hg⟩ := Allocator.allocate_eq_none ha
    exact .inr (.inl ⟨hacc, hg, by rw [allocateUnique, ha]⟩)
  · -- the resource hands out a block at `p`
    obtain ⟨hacc, hg, rfl⟩ := Allocator.allocate_eq_some ha
    cases construct with
    | none =>
      have hone : (1 : BitVec w) * a.sizeofT = a.sizeofT := BitVec.one_mul _
      refine .inr (.inr ⟨hacc, p, hg, ?_⟩)
      rw [allocateUnique, ha, hone]
    | some e =>
      refine .inl ⟨fun ⟨_, hg'⟩ => Grant.noConfusion (hg.symm.trans hg'), e, ?_⟩
      rw [allocateUnique, ha]
      dsimp only
      rw [Allocator.deallocate_allocate ha]
      rfl

variable {resMaxSize : ℕ → BitVec w} {maxAlign : BitVec w}

/-! ### The system -/

/-- A block a client holds, with the allocator it gives it back through: a container's block of
`allocate (elements)`, or the object of a `unique_ptr` made by `allocate_unique`. -/
structure Held (w : ℕ) where
  /-- The allocator (a copy of it, for a `unique_ptr`'s deleter). -/
  alloc : Allocator w
  /-- The address. -/
  addr : ℕ
  /-- The count it was allocated for. -/
  elements : BitVec w
  deriving DecidableEq

/-- The block a client gives back, as its allocator's `deallocate` names it in `h`. -/
def Held.block (maxAlign : BitVec w) (h : Heap w) (x : Held w) : Block w :=
  ⟨x.alloc.target h, x.addr, x.elements * x.alloc.sizeofT, x.alloc.alignment maxAlign⟩

/-- The memory and the blocks the clients hold. -/
structure Sys (w : ℕ) where
  /-- The memory. -/
  heap : Heap w
  /-- The blocks held, with the allocators they go back through. -/
  held : List (Held w)

/-- What can happen to the memory. A call that ends in `nullptr` or an exception and leaves the
memory as it was is no step. -/
inductive MemStep (resMaxSize : ℕ → BitVec w) (maxAlign : BitVec w) : Sys w → Sys w → Prop
  /-- `set_default_resource (r)`, to the resource already default or while no client holds a
  block of `default_resource_allocator`. -/
  | setDefaultResource {h : Heap w} {held : List (Held w)} {r : ℕ} :
      (r = h.defaultResource ∨ ∀ x ∈ held, x.alloc.readsDefault = false) →
      MemStep resMaxSize maxAlign ⟨h, held⟩ ⟨{ h with defaultResource := r }, held⟩
  /-- A container's `allocate (elements)` that returns a block. -/
  | allocate {h h' : Heap w} {held : List (Held w)} {a : Allocator w} {elements : BitVec w}
      {g : Grant} {p : ℕ} :
      g.Fresh h → a.allocate resMaxSize maxAlign elements g h = .ok (some p, h') →
      MemStep resMaxSize maxAlign ⟨h, held⟩ ⟨h', ⟨a, p, elements⟩ :: held⟩
  /-- A container's `deallocate (addr, elements)` of a block it holds. -/
  | deallocate {h h' : Heap w} {held : List (Held w)} {x : Held w} :
      x ∈ held → x.alloc.deallocate resMaxSize maxAlign x.addr x.elements h = some h' →
      MemStep resMaxSize maxAlign ⟨h, held⟩ ⟨h', held.erase x⟩
  /-- `allocate_unique` that returns its `unique_ptr`. -/
  | allocateUnique {h h' : Heap w} {held : List (Held w)} {a : Allocator w}
      {construct : Option (String × String)} {g : Grant} {p : ℕ} :
      g.Fresh h → allocateUnique resMaxSize maxAlign a construct g h = some (h', .ok p) →
      MemStep resMaxSize maxAlign ⟨h, held⟩ ⟨h', ⟨a, p, 1⟩ :: held⟩
  /-- `allocate_unique` that throws. -/
  | allocateUniqueThrows {h h' : Heap w} {held : List (Held w)} {a : Allocator w}
      {construct : Option (String × String)} {g : Grant} {e : String × String} :
      allocateUnique resMaxSize maxAlign a construct g h = some (h', .error e) →
      MemStep resMaxSize maxAlign ⟨h, held⟩ ⟨h', held⟩
  /-- A `unique_ptr` deleting its object through its `allocator_deleter`. -/
  | delete {h h' : Heap w} {held : List (Held w)} {x : Held w} :
      x ∈ held → x.elements = 1 →
      AllocatorDeleter.call resMaxSize maxAlign x.alloc x.addr h = some h' →
      MemStep resMaxSize maxAlign ⟨h, held⟩ ⟨h', held.erase x⟩

/-- The ledger: the outstanding blocks are the blocks the clients hold, each once, as their
allocators will give them back. -/
structure Ledger (resMaxSize : ℕ → BitVec w) (maxAlign : BitVec w) (σ : Sys w) : Prop where
  /-- The outstanding blocks are the held blocks, each once. -/
  perm : σ.heap.blocks.Perm (σ.held.map (Held.block maxAlign σ.heap))
  /-- No two held blocks share an address. -/
  nodup : (σ.held.map Held.addr).Nodup
  /-- Every held count is one its allocator lets through. -/
  accepts : ∀ x ∈ σ.held, x.alloc.accepts resMaxSize x.elements = true

namespace Ledger

variable {h h' : Heap w} {held : List (Held w)}

theorem block_mem (hl : Ledger resMaxSize maxAlign ⟨h, held⟩) {x : Held w} (hx : x ∈ held) :
    x.block maxAlign h ∈ h.blocks :=
  hl.perm.mem_iff.2 (List.mem_map_of_mem _ hx)

/-- **Giving a block back.** A client's `deallocate` of a block it holds takes back exactly that
block, and the ledger holds without it. -/
theorem giveBack (hl : Ledger resMaxSize maxAlign ⟨h, held⟩) {x : Held w} (hx : x ∈ held) :
    x.alloc.deallocate resMaxSize maxAlign x.addr x.elements h =
        some { h with blocks := h.blocks.erase (x.block maxAlign h) } ∧
      Ledger resMaxSize maxAlign ⟨{ h with blocks := h.blocks.erase (x.block maxAlign h) },
        held.erase x⟩ := by
  refine ⟨?_, ⟨?_, ?_, fun y hy => hl.accepts y ((List.erase_subset _ _) hy)⟩⟩
  · rw [Allocator.deallocate_eq, if_pos (hl.accepts x hx), MemoryResource.deallocate]
    exact if_pos (hl.block_mem hx)
  · have hp := hl.perm.trans ((List.perm_cons_erase hx).map (Held.block maxAlign h))
    simpa using hp.erase (x.block maxAlign h)
  · exact hl.nodup.sublist ((List.erase_sublist x held).map _)

theorem push (hl : Ledger resMaxSize maxAlign ⟨h, held⟩) {a : Allocator w} {n : BitVec w}
    {p : ℕ} (hf : ∀ b ∈ h.blocks, b.addr ≠ p) (hacc : a.accepts resMaxSize n = true) :
    Ledger resMaxSize maxAlign
      ⟨MemoryResource.handOut (a.target h) p (n * a.sizeofT) (a.alignment maxAlign) h,
        ⟨a, p, n⟩ :: held⟩ := by
  have hblock : ∀ y : Held w, y.block maxAlign
      (MemoryResource.handOut (a.target h) p (n * a.sizeofT) (a.alignment maxAlign) h) =
        y.block maxAlign h := fun y => by
    simp only [Held.block,
      y.alloc.target_congr _ _ (.inl (MemoryResource.handOut_defaultResource ..))]
  refine ⟨?_, ?_, ?_⟩
  · simp only [MemoryResource.handOut_blocks, List.map_cons, hblock]
    exact hl.perm.cons _
  · refine List.nodup_cons.2 ⟨fun hm => ?_, hl.nodup⟩
    obtain ⟨y, hy, rfl⟩ := List.mem_map.1 hm
    exact hf _ (hl.block_mem hy) rfl
  · rintro y (_ | ⟨_, hy⟩)
    exacts [hacc, hl.accepts y hy]

theorem allocate (hl : Ledger resMaxSize maxAlign ⟨h, held⟩) {a : Allocator w} {n : BitVec w}
    {g : Grant} {p : ℕ} (hf : g.Fresh h)
    (hs : a.allocate resMaxSize maxAlign n g h = .ok (some p, h')) :
    Ledger resMaxSize maxAlign ⟨h', ⟨a, p, n⟩ :: held⟩ := by
  obtain ⟨hacc, rfl, rfl⟩ := Allocator.allocate_eq_some hs
  exact hl.push hf hacc

theorem setDefaultResource (hl : Ledger resMaxSize maxAlign ⟨h, held⟩) {r : ℕ}
    (hr : r = h.defaultResource ∨ ∀ x ∈ held, x.alloc.readsDefault = false) :
    Ledger resMaxSize maxAlign ⟨{ h with defaultResource := r }, held⟩ := by
  have hblock : ∀ x ∈ held, x.block maxAlign { h with defaultResource := r } =
      x.block maxAlign h := fun x hx => by
    simp only [Held.block, x.alloc.target_congr h { h with defaultResource := r }
      (hr.imp id fun hall => hall x hx)]
  exact ⟨by rw [List.map_congr_left hblock]; exact hl.perm, hl.nodup, hl.accepts⟩

theorem memStep {σ σ' : Sys w} (hl : Ledger resMaxSize maxAlign σ)
    (hst : MemStep resMaxSize maxAlign σ σ') : Ledger resMaxSize maxAlign σ' := by
  cases hst with
  | setDefaultResource hr => exact hl.setDefaultResource hr
  | allocate hf hs => exact hl.allocate hf hs
  | deallocate hx hs =>
    obtain ⟨hd, hl'⟩ := hl.giveBack hx
    rw [hd, Option.some.injEq] at hs
    exact hs ▸ hl'
  | @allocateUnique h h' held a construct g p hf hs =>
    rcases allocateUnique_cases resMaxSize maxAlign a construct g h with
      ⟨-, e, hres⟩ | ⟨-, -, hres⟩ | ⟨hacc, p', rfl, hres⟩ <;> rw [hres] at hs <;> cases hs
    have hone : (1 : BitVec w) * a.sizeofT = a.sizeofT := BitVec.one_mul _
    rw [← hone]
    exact hl.push hf hacc
  | @allocateUniqueThrows h h' held a construct g e hs =>
    rcases allocateUnique_cases resMaxSize maxAlign a construct g h with
      ⟨-, e', hres⟩ | ⟨-, -, hres⟩ | ⟨-, p, -, hres⟩ <;> rw [hres] at hs <;> cases hs
    exact hl
  | delete hx h1 hs =>
    obtain ⟨hd, hl'⟩ := hl.giveBack hx
    rw [AllocatorDeleter.call, ← h1, hd, Option.some.injEq] at hs
    exact hs ▸ hl'

theorem reach {r₀ : ℕ} {σ : Sys w}
    (hrun : ReflTransGen (MemStep resMaxSize maxAlign) ⟨⟨r₀, []⟩, []⟩ σ) :
    Ledger resMaxSize maxAlign σ :=
  run_invariant (Ledger resMaxSize maxAlign) (fun hst hl => memStep hl hst) hrun
    ⟨List.Perm.refl _, List.nodup_nil, fun _ h => by cases h⟩

end Ledger

/-- **No block is lost, none is given back twice, none to another resource.** From no block
outstanding and none held, in every state a run reaches, the outstanding blocks are exactly the
blocks the clients hold, each once, each at the resource its allocator gives it back to and with
the byte count and alignment it gives back; and giving back any held block, by a container's
`deallocate` or a `unique_ptr`'s deleter, takes back exactly that block. -/
theorem memory_ledger (resMaxSize : ℕ → BitVec w) (maxAlign : BitVec w) {r₀ : ℕ} {σ : Sys w}
    (hrun : ReflTransGen (MemStep resMaxSize maxAlign) ⟨⟨r₀, []⟩, []⟩ σ) :
    σ.heap.blocks.Perm (σ.held.map (Held.block maxAlign σ.heap)) ∧
      ∀ x ∈ σ.held, x.alloc.deallocate resMaxSize maxAlign x.addr x.elements σ.heap =
        some { σ.heap with blocks := σ.heap.blocks.erase (x.block maxAlign σ.heap) } := by
  have hl := Ledger.reach hrun
  exact ⟨hl.perm, fun x hx => (hl.giveBack hx).1⟩

/-- A 32-bit system: `allocate_unique` of an 8-byte object through a
`polymorphic_synchronized_allocator` on resource `1`, then `set_default_resource (2)`; the object
goes back to resource `1`. -/
theorem memory_ledger_unique :
    [(⟨1, 100, 8, 8⟩ : Block 32)].Perm
        ([(⟨.polymorphic 8 8 1, 100, 1⟩ : Held 32)].map (Held.block 16 ⟨2, [⟨1, 100, 8, 8⟩]⟩)) ∧
      ∀ x ∈ [(⟨.polymorphic 8 8 1, 100, 1⟩ : Held 32)],
        x.alloc.deallocate (fun _ => 64) 16 x.addr x.elements ⟨2, [⟨1, 100, 8, 8⟩]⟩ =
          some ⟨2, [⟨1, 100, 8, 8⟩].erase (x.block 16 ⟨2, [⟨1, 100, 8, 8⟩]⟩)⟩ :=
  memory_ledger (fun _ => 64) 16
    (.tail (.single (.allocateUnique (by simp [Grant.Fresh])
      (show allocateUnique (fun _ => (64 : BitVec 32)) 16 (.polymorphic 8 8 1) none (.block 100)
        ⟨0, []⟩ = some (⟨0, [⟨1, 100, 8, 8⟩]⟩, .ok 100) from rfl)))
      (.setDefaultResource (.inr (by decide))))

namespace Ledger

variable {h : Heap w} {held : List (Held w)}

end Ledger

end MicroOsPlus.Memory
