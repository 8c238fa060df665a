import Mathlib
import Tetcore.Lib.Outcome

/-!
# The freeing-bump heap allocator

`primitives/allocator/src/freeing_bump.rs`. Allocations are powers of two from 8 bytes to 16 MiB,
each preceded by an 8-byte header in the linear memory; a free chunk's header links it into the
free list of its order, an occupied one records the order. The memory belongs to the runtime,
which may write any byte of it between two calls, headers included, so the model takes the memory
as an argument of every call.

Integers are natural numbers. A `u32` operation that would overflow panics, as a debug build
does, and so do a failed `assert!` and an `expect` on `None`: a call ends in `Outcome.panic`.
`PoisonBomb` poisons the allocator on every exit of a call past its poison check other than a
successful one.
-/

namespace Tetcore.Allocator

/-- `u32::max_value() + 1`. -/
def u32Bound : ℕ := 2 ^ 32

/-- `N_ORDERS`. -/
def nOrders : ℕ := 22

/-- `MAX_POSSIBLE_ALLOCATION`. -/
def maxPossibleAllocation : ℕ := 16777216

/-- `MIN_POSSIBLE_ALLOCATION`. -/
def minPossibleAllocation : ℕ := 8

/-- `HEADER_SIZE`. -/
def headerSize : ℕ := 8

/-- `ALIGNMENT`. -/
def alignment : ℕ := 8

/-- `NIL_MARKER`. -/
def nilMarker : ℕ := u32Bound - 1

/-- `Error` of the allocator crate. -/
inductive Error
  | requestedAllocationTooLarge
  | allocatorOutOfSpace
  | other (msg : String)
  deriving DecidableEq, Repr

/-- `Order`: an order below `N_ORDERS`. -/
structure Order where
  raw : ℕ
  isLt : raw < nOrders
  deriving DecidableEq, Repr

namespace Order

/-- `Order::from_raw`. -/
def fromRaw (order : ℕ) : Except Error Order :=
  if h : order < nOrders then .ok ⟨order, h⟩ else .error (.other "invalid order")

/-- `Order::from_size`: the size is clamped to at least 8 bytes, rounded up to the next power of
two, and the order is its exponent less three. -/
def fromSize (size : ℕ) : Except Error Order :=
  if size > maxPossibleAllocation then .error .requestedAllocationTooLarge
  else
    let clampedSize := max size minPossibleAllocation
    fromRaw (Nat.clog 2 clampedSize - 3)

/-- `Order::size`: `MIN_POSSIBLE_ALLOCATION << order`. -/
def size (o : Order) : ℕ := minPossibleAllocation * 2 ^ o.raw

end Order

/-- `Link`. -/
inductive Link
  | nil
  | ptr (addr : ℕ)
  deriving DecidableEq, Repr

/-- `Link::from_raw`. -/
def Link.fromRaw (raw : ℕ) : Link :=
  if raw ≠ nilMarker then .ptr raw else .nil

/-- `Link::into_raw`. -/
def Link.intoRaw : Link → ℕ
  | .nil => nilMarker
  | .ptr addr => addr

/-- `Header`. -/
inductive Header
  | free (link : Link)
  | occupied (order : Order)
  deriving DecidableEq, Repr

/-- The linear memory as the byte slice `impl Memory for [u8]` reads and writes. -/
structure Memory where
  bytes : List UInt8
  deriving DecidableEq, Repr

namespace Memory

/-- `Memory::size`. -/
def size (m : Memory) : ℕ := m.bytes.length

/-- `heap_range(offset, 8, len)`: `offset + 8` must not overflow `u32` and must be in bounds. -/
def inRange (m : Memory) (ptr : ℕ) : Bool :=
  ptr + 8 < u32Bound && ptr + 8 ≤ m.size

/-- `u64::from_le_bytes`. -/
def fromLeBytes (bytes : List UInt8) : ℕ :=
  bytes.foldr (fun b acc => b.toNat + 256 * acc) 0

/-- `u64::to_le_bytes`. -/
def toLeBytes (value : ℕ) : List UInt8 :=
  (List.range 8).map fun i => UInt8.ofNat (value / 256 ^ i % 256)

/-- `read_le_u64`. -/
def readLeU64 (m : Memory) (ptr : ℕ) : Except Error ℕ :=
  if m.inRange ptr then .ok (fromLeBytes ((m.bytes.drop ptr).take 8))
  else .error (.other "read out of heap bounds")

/-- `write_le_u64`. -/
def writeLeU64 (m : Memory) (ptr value : ℕ) : Except Error Memory :=
  if m.inRange ptr then .ok ⟨m.bytes.take ptr ++ toLeBytes value ++ m.bytes.drop (ptr + 8)⟩
  else .error (.other "write out of heap bounds")

end Memory

namespace Header

/-- `Header::read_from`: bit 32 tells an occupied header from a free one, and the low 32 bits
hold the order or the link. -/
def readFrom (m : Memory) (headerPtr : ℕ) : Except Error Header := do
  let rawHeader ← m.readLeU64 headerPtr
  let headerData := rawHeader % u32Bound
  if rawHeader.testBit 32 then
    let order ← Order.fromRaw headerData
    pure (.occupied order)
  else pure (.free (Link.fromRaw headerData))

/-- `Header::write_into`. -/
def writeInto (h : Header) (m : Memory) (headerPtr : ℕ) : Except Error Memory :=
  let rawHeader := match h with
    | .occupied order => order.raw + u32Bound
    | .free link => link.intoRaw
  m.writeLeU64 headerPtr rawHeader

end Header

/-- `FreeingBumpHeapAllocator`. -/
structure FreeingBumpHeapAllocator where
  bumper : ℕ
  freeLists : Order → Link
  totalSize : ℕ
  poisoned : Bool

namespace FreeingBumpHeapAllocator

/-- `FreeingBumpHeapAllocator::new`: the heap base rounded up to the alignment. The rounding
evaluates `(heap_base + ALIGNMENT) - 1`, whose sum overflows `u32` for a heap base in the last
eight values. -/
def new (heapBase : ℕ) : Outcome Error FreeingBumpHeapAllocator :=
  if heapBase + alignment ≥ u32Bound then .panic
  else .ok
    { bumper := (heapBase + alignment - 1) / alignment * alignment
      freeLists := fun _ => .nil
      totalSize := 0
      poisoned := false }

/-- `bump`: the old bumper, moved on by `size`, unless that passes the end of the heap. -/
def bump (bumper size heapEnd : ℕ) : Outcome Error (ℕ × ℕ) :=
  if bumper + size ≥ u32Bound then .panic
  else if bumper + size > heapEnd then .err .allocatorOutOfSpace
  else .ok (bumper, bumper + size)

variable (a : FreeingBumpHeapAllocator)

/-- The allocator after `PoisonBomb` went off. -/
def poison : FreeingBumpHeapAllocator := { a with poisoned := true }

/-- The rest of `allocate` once the header pointer is chosen: write the occupied header and
count the allocation. -/
def finishAllocate (mem : Memory) (order : Order) (headerPtr : ℕ) :
    Outcome Error ℕ × FreeingBumpHeapAllocator × Memory :=
  match (Header.occupied order).writeInto mem headerPtr with
  | .error e => (.err e, a.poison, mem)
  | .ok mem' =>
    if a.totalSize + (order.size + headerSize) ≥ u32Bound then (.panic, a.poison, mem')
    else (.ok (headerPtr + headerSize),
      { a with totalSize := a.totalSize + (order.size + headerSize) }, mem')

/-- `FreeingBumpHeapAllocator::allocate`. -/
def allocate (mem : Memory) (size : ℕ) : Outcome Error ℕ × FreeingBumpHeapAllocator × Memory :=
  if a.poisoned then (.err (.other "the allocator has been poisoned"), a, mem) else
  match Order.fromSize size with
  | .error e => (.err e, a.poison, mem)
  | .ok order =>
    match a.freeLists order with
    | .ptr headerPtr =>
      if headerPtr + order.size + headerSize ≥ u32Bound then (.panic, a.poison, mem)
      else if ¬(headerPtr + order.size + headerSize ≤ mem.size) then (.panic, a.poison, mem)
      else
        match Header.readFrom mem headerPtr with
        | .error e => (.err e, a.poison, mem)
        | .ok (.occupied _) => (.err (.other "free list points to a occupied header"), a.poison, mem)
        | .ok (.free nextFree) =>
          { a with freeLists := Function.update a.freeLists order nextFree }.finishAllocate
            mem order headerPtr
    | .nil =>
      match bump a.bumper (order.size + headerSize) mem.size with
      | .panic => (.panic, a.poison, mem)
      | .err e => (.err e, a.poison, mem)
      | .ok (headerPtr, bumper) => { a with bumper := bumper }.finishAllocate mem order headerPtr

/-- `FreeingBumpHeapAllocator::deallocate`. -/
def deallocate (mem : Memory) (ptr : ℕ) : Outcome Error Unit × FreeingBumpHeapAllocator × Memory :=
  if a.poisoned then (.err (.other "the allocator has been poisoned"), a, mem) else
  if ptr < headerSize then (.err (.other "Invalid pointer for deallocation"), a.poison, mem) else
  let headerPtr := ptr - headerSize
  match Header.readFrom mem headerPtr with
  | .error e => (.err e, a.poison, mem)
  | .ok (.free _) => (.err (.other "the allocation points to an empty header"), a.poison, mem)
  | .ok (.occupied order) =>
    let prevHead := a.freeLists order
    let a := { a with freeLists := Function.update a.freeLists order (.ptr headerPtr) }
    match (Header.free prevHead).writeInto mem headerPtr with
    | .error e => (.err e, a.poison, mem)
    | .ok mem' =>
      if a.totalSize < order.size + headerSize then
        (.err (.other "Unable to subtract from total heap size without overflow"), a.poison, mem')
      else (.ok (), { a with totalSize := a.totalSize - (order.size + headerSize) }, mem')

end FreeingBumpHeapAllocator

end Tetcore.Allocator
