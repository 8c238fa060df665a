import Mathlib
import Tetcore.Lib.Outcome

/-!
# Decoding a trie node

`primitives/trie/src/node_codec.rs` and `node_header.rs`. `NodeCodec::decode_plan` reads a node
header, the partial key, an optional value and up to sixteen children through `ByteSliceInput`, a
cursor over the bytes of the node, and returns the ranges of the bytes where each part lies.

The slice a `ByteSliceInput` reads never changes, so a read is a function of the slice and the
offset that returns the offset after it. Compact-encoded lengths are read by `Compact<u32>` of the
codec crate, outside the repository: the model takes that decoder as a parameter of this type, and
the hasher's `H::LENGTH` as a number. `nibble_ops` of the trie crate is a few constants.
-/

namespace Tetcore.Trie

inductive Error
  | badFormat
  | decode (error : String)
  deriving DecidableEq, Repr

/-- `Range<usize>`, the bytes `start..stop`. -/
structure Range where
  start : ℕ
  stop : ℕ
  deriving DecidableEq, Repr

/-- A read through a `ByteSliceInput` over `data` from an offset: the value and the offset after
it, or the message of the `codec::Error`. -/
abbrev Read (α : Type) : Type := List UInt8 → ℕ → Except String (α × ℕ)

namespace Read

variable {α β : Type}

protected def pure (a : α) : Read α := fun _ offset => .ok (a, offset)

protected def bind (r : Read α) (f : α → Read β) : Read β := fun data offset =>
  match r data offset with
  | .error e => .error e
  | .ok (a, offset) => f a data offset

instance : Monad Read where
  pure := Read.pure
  bind := Read.bind

theorem pure_apply (a : α) (data : List UInt8) (offset : ℕ) :
    (pure a : Read α) data offset = .ok (a, offset) := rfl

theorem bind_apply (r : Read α) (f : α → Read β) (data : List UInt8) (offset : ℕ) :
    (r >>= f) data offset =
      match r data offset with
      | .error e => .error e
      | .ok (a, offset) => f a data offset := rfl

theorem bind_eq_ok {r : Read α} {f : α → Read β} {data : List UInt8} {offset o : ℕ} {b : β} :
    (r >>= f) data offset = .ok (b, o) ↔
      ∃ a o₁, r data offset = .ok (a, o₁) ∧ f a data o₁ = .ok (b, o) := by
  rw [bind_apply]
  constructor
  · intro h
    split at h
    · cases h
    · exact ⟨_, _, ‹_›, h⟩
  · rintro ⟨a, o₁, h₁, h₂⟩
    rw [h₁]
    exact h₂

end Read

namespace ByteSliceInput

/-- `ByteSliceInput::take`. -/
def take (count : ℕ) : Read Range := fun data offset =>
  if offset + count > data.length then .error "out of data"
  else .ok (⟨offset, offset + count⟩, offset + count)

/-- `ByteSliceInput::read_byte`. -/
def readByte : Read UInt8 := fun data offset =>
  if h : offset + 1 > data.length then .error "out of data"
  else .ok (data[offset], offset + 1)

end ByteSliceInput

open ByteSliceInput

/-- `nibble_ops::NIBBLE_PER_BYTE`. -/
def nibblePerByte : ℕ := 2

/-- `nibble_ops::NIBBLE_LENGTH`. -/
def nibbleLength : ℕ := 16

/-- `nibble_ops::pad_left`: the high nibble of a byte. -/
def padLeft (b : UInt8) : UInt8 := b &&& 0xf0

/-- `nibble_ops::number_padding`. -/
def numberPadding (i : ℕ) : ℕ := i % nibblePerByte

/-- `trie_constants`. -/
def emptyTrie : UInt8 := 0
def nibbleSizeBound : ℕ := 65535
def leafPrefixMask : UInt8 := 0x40
def branchWithoutMask : UInt8 := 0x80
def branchWithMask : UInt8 := 0xc0

/-- `BITMAP_LENGTH`. -/
def bitmapLength : ℕ := 2

inductive NodeHeader
  | null
  | branch (hasValue : Bool) (nibbleCount : ℕ)
  | leaf (nibbleCount : ℕ)
  deriving DecidableEq, Repr

/-- The loop of `decode_size`: a byte below 255 ends the size, a byte 255 adds 255 and reads on,
until the size passes `NIBBLE_SIZE_BOUND`. The loop starts at 62, so it runs at most
`NIBBLE_SIZE_BOUND / 255 + 1` rounds; when that fuel is spent the size has passed the bound, and
the loop's exit is the result. -/
def decodeSizeLoop : ℕ → ℕ → Read ℕ
  | 0, _ => fun _ offset => .ok (nibbleSizeBound, offset)
  | fuel + 1, result => fun data offset =>
    if result ≤ nibbleSizeBound then
      match readByte data offset with
      | .error e => .error e
      | .ok (n, offset) =>
        if n.toNat < 255 then .ok (result + n.toNat + 1, offset)
        else decodeSizeLoop fuel (result + 255) data offset
    else .ok (nibbleSizeBound, offset)

/-- `decode_size`: the low six bits of the first byte, and more bytes when they are all set. -/
def decodeSize (first : UInt8) : Read ℕ :=
  let result := (first &&& ((255 : UInt8) >>> 2)).toNat
  if result < 63 then pure result
  else decodeSizeLoop (nibbleSizeBound / 255 + 1) (result - 1)

/-- `NodeHeader::decode`. -/
def NodeHeader.decode : Read NodeHeader := do
  let i ← readByte
  if i = emptyTrie then return .null
  let kind := i &&& ((0b11 : UInt8) <<< 6)
  if kind = leafPrefixMask then return .leaf (← decodeSize i)
  else if kind = branchWithoutMask then return .branch false (← decodeSize i)
  else if kind = branchWithMask then return .branch true (← decodeSize i)
  else fun _ _ => .error "Unallowed encoding"

/-- `Bitmap(u16)`. -/
structure Bitmap where
  value : ℕ
  deriving DecidableEq, Repr

/-- `Bitmap::decode`: `u16::decode` of the bytes, little-endian. -/
def Bitmap.decode : List UInt8 → Except String Bitmap
  | b₀ :: b₁ :: _ => .ok ⟨b₀.toNat + 256 * b₁.toNat⟩
  | _ => .error "Not enough data to fill buffer"

/-- `Bitmap::value_at`: bit `i` of the bitmap, or `none` from sixteen on, where `1u16 << i`
overflows and panics. -/
def Bitmap.valueAt (bitmap : Bitmap) (i : ℕ) : Option Bool :=
  if i < 16 then some (bitmap.value.testBit i) else none

/-- `NibbleSlicePlan`. -/
structure NibbleSlicePlan where
  bytes : Range
  offset : ℕ
  deriving DecidableEq, Repr

/-- `NodeHandlePlan`. -/
inductive NodeHandlePlan
  | hash (range : Range)
  | inline (range : Range)
  deriving DecidableEq, Repr

/-- The plans `decode_plan` builds. The partial key is `partialKey`. -/
inductive NodePlan
  | empty
  | leaf (partialKey : NibbleSlicePlan) (value : Range)
  | nibbledBranch (partialKey : NibbleSlicePlan) (value : Option Range)
      (children : List (Option NodeHandlePlan))
  deriving DecidableEq, Repr

section DecodePlan

variable (compactU32 : Read ℕ) (hashLength : ℕ)

/-- The padding check of `decode_plan`: the byte at the offset must have a zero high nibble when
the nibble count is odd. `data[input.offset]` panics when the offset is the end of `data`. -/
def checkPadding (data : List UInt8) (nibbleCount offset : ℕ) : Outcome Error Unit :=
  if nibbleCount % nibblePerByte ≠ 0 then
    match data[offset]? with
    | none => .panic
    | some b => if padLeft b ≠ 0 then .err .badFormat else .ok ()
  else .ok ()

/-- The partial key: `(nibble_count + 1) / 2` bytes. -/
def decodePartial (nibbleCount : ℕ) : Read NibbleSlicePlan := do
  let bytes ← take ((nibbleCount + (nibblePerByte - 1)) / nibblePerByte)
  return ⟨bytes, numberPadding nibbleCount⟩

/-- One child of the loop over `0..NIBBLE_LENGTH`: present when its bit is set, a hash when its
length is `H::LENGTH`. -/
def decodeChild (bitmap : Bitmap) (i : ℕ) : Read (Option NodeHandlePlan) := do
  -- `i` runs over `0..NIBBLE_LENGTH`, below the shift's panic
  if bitmap.valueAt i = some true then
    let count ← compactU32
    let range ← take count
    pure (some (if count = hashLength then .hash range else .inline range))
  else pure none

/-- The loop over the child indices, in order, stopping at the first error. -/
def decodeChildren (bitmap : Bitmap) : List ℕ → Read (List (Option NodeHandlePlan))
  | [] => pure []
  | i :: is => do
    let child ← decodeChild compactU32 hashLength bitmap i
    let rest ← decodeChildren bitmap is
    return child :: rest

/-- The body of a leaf after its padding check. -/
def decodeLeaf (nibbleCount : ℕ) : Read NodePlan := do
  let partialKey ← decodePartial nibbleCount
  let count ← compactU32
  let value ← take count
  return .leaf partialKey value

/-- The value of a branch: its compact length and its bytes, when the header says it has one. -/
def decodeValue (hasValue : Bool) : Read (Option Range) :=
  if hasValue then do
    let count ← compactU32
    let range ← take count
    pure (some range)
  else pure none

/-- The bitmap: `Bitmap::decode(&data[bitmap_range])`. -/
def decodeBitmap (bitmapRange : Range) : Read Bitmap := fun data offset =>
  (Bitmap.decode ((data.drop bitmapRange.start).take (bitmapRange.stop - bitmapRange.start))).map
    fun bitmap => (bitmap, offset)

/-- The body of a branch after its padding check. -/
def decodeBranch (hasValue : Bool) (nibbleCount : ℕ) : Read NodePlan := do
  let partialKey ← decodePartial nibbleCount
  let bitmapRange ← take bitmapLength
  let bitmap ← decodeBitmap bitmapRange
  let value ← decodeValue compactU32 hasValue
  let children ← decodeChildren compactU32 hashLength bitmap (List.range nibbleLength)
  return .nibbledBranch partialKey value children

/-- `NodeCodec::decode_plan`. -/
def decodePlan (data : List UInt8) : Outcome Error NodePlan :=
  match NodeHeader.decode data 0 with
  | .error e => .err (.decode e)
  | .ok (.null, _) => .ok .empty
  | .ok (.branch hasValue nibbleCount, offset) =>
    (checkPadding data nibbleCount offset).bind fun _ =>
      .ofExcept (((decodeBranch compactU32 hashLength hasValue nibbleCount data offset).map
        Prod.fst).mapError .decode)
  | .ok (.leaf nibbleCount, offset) =>
    (checkPadding data nibbleCount offset).bind fun _ =>
      .ofExcept (((decodeLeaf compactU32 nibbleCount data offset).map Prod.fst).mapError .decode)

end DecodePlan

end Tetcore.Trie
