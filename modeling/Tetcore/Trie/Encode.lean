import Tetcore.Trie.NodeCodec

/-!
# Encoding a trie node

`primitives/trie/src/node_header.rs`, `node_codec.rs` and `trie_stream.rs`. A node header is a
first byte holding the kind in its top two bits and the nibble count up to 62 in the low six; a
count from 63 on sets all six bits and writes the rest in bytes `255` followed by one byte below
`255`. `size_and_prefix_iterator` clamps the count to `NIBBLE_SIZE_BOUND` first.

`decode_size` reads such a header back: every count up to the bound round-trips. It also accepts
a run of `255` bytes that passes the bound, and stops there with the bound: that run is not what
the encoder writes for the bound, so two byte strings decode to one header.
-/

namespace Tetcore.Trie

open ByteSliceInput

/-! ## Reading the size -/

theorem readByte_of_drop {data rest : List UInt8} {offset : ℕ} {b : UInt8}
    (h : data.drop offset = b :: rest) : readByte data offset = .ok (b, offset + 1) := by
  have hlt : offset < data.length := by
    have := congrArg List.length h
    simp only [List.length_drop, List.length_cons] at this
    omega
  have hget : data[offset] = b := by
    rw [List.drop_eq_getElem_cons hlt] at h
    exact (List.cons.inj h).1
  unfold readByte
  rw [dif_neg (by omega), hget]

theorem decodeSizeLoop_last {data rest : List UInt8} {offset result : ℕ} {b : UInt8}
    (hdrop : data.drop offset = b :: rest) (hb : b.toNat < 255) (hle : result ≤ nibbleSizeBound)
    (fuel : ℕ) :
    decodeSizeLoop (fuel + 1) result data offset = .ok (result + b.toNat + 1, offset + 1) := by
  simp only [decodeSizeLoop, if_pos hle, readByte_of_drop hdrop, if_pos hb]

theorem decodeSizeLoop_run {data rest : List UInt8} (k : ℕ) :
    ∀ {fuel result offset : ℕ}, data.drop offset = List.replicate k 255 ++ rest → k ≤ fuel →
      result + 255 * k ≤ nibbleSizeBound + 255 →
      decodeSizeLoop fuel result data offset =
        decodeSizeLoop (fuel - k) (result + 255 * k) data (offset + k) := by
  induction k with
  | zero => intro fuel result offset _ _ _; simp
  | succ k ih =>
    intro fuel result offset hdrop hfuel hbound
    obtain ⟨fuel, rfl⟩ : ∃ f, fuel = f + 1 := ⟨fuel - 1, by omega⟩
    have hcons : data.drop offset = 255 :: (List.replicate k 255 ++ rest) := by
      rw [hdrop, List.replicate_succ, List.cons_append]
    have hnext : data.drop (offset + 1) = List.replicate k 255 ++ rest := by
      rw [← List.drop_drop, hcons, List.drop_succ_cons, List.drop_zero]
    have hle : result ≤ nibbleSizeBound := by omega
    simp only [decodeSizeLoop, if_pos hle, readByte_of_drop hcons]
    rw [if_neg (by decide), ih hnext (by omega) (by omega)]
    have hfuel' : fuel - k = fuel + 1 - (k + 1) := by omega
    have hresult : result + 255 + 255 * k = result + 255 * (k + 1) := by ring
    rw [hfuel', hresult, Nat.add_right_comm offset 1 k, ← Nat.add_assoc offset k 1]

theorem decodeSize_of_lt {first : UInt8} (h : (first &&& ((255 : UInt8) >>> 2)).toNat < 63)
    (data : List UInt8) (offset : ℕ) :
    decodeSize first data offset = .ok ((first &&& ((255 : UInt8) >>> 2)).toNat, offset) := by
  simp only [decodeSize, if_pos h]
  rfl

theorem decodeSize_of_eq {first : UInt8} (h : (first &&& ((255 : UInt8) >>> 2)).toNat = 63) :
    decodeSize first = decodeSizeLoop (nibbleSizeBound / 255 + 1) 62 := by
  simp only [decodeSize, h, lt_irrefl, if_false]

/-! ## Writing the header -/

/-- The bytes after the first of `size_and_prefix_iterator`, from `next_bytes`: a byte `255` for
each `255` of a remainder from `256` on, then the remainder less one. -/
def sizeRemBytes (rem : ℕ) : List UInt8 :=
  if rem > 0 then
    if rem < 256 then [(rem - 1).toUInt8]
    else 255 :: sizeRemBytes (rem - 255)
  else []
termination_by rem
decreasing_by omega

/-- `size_and_prefix_iterator`. The prefix is `pfx`. -/
def sizeAndPrefixIterator (size : ℕ) (pfx : UInt8) : List UInt8 :=
  let size := min nibbleSizeBound size
  let l1 := min 62 size
  let first := if size = l1 then (pfx + l1.toUInt8, 0) else (pfx + 63, size - l1)
  first.1 :: sizeRemBytes first.2

/-- `NodeHeader::encode`, through `encode_size_and_prefix`. -/
def NodeHeader.encode : NodeHeader → List UInt8
  | .null => [emptyTrie]
  | .branch true nibbleCount => sizeAndPrefixIterator nibbleCount branchWithMask
  | .branch false nibbleCount => sizeAndPrefixIterator nibbleCount branchWithoutMask
  | .leaf nibbleCount => sizeAndPrefixIterator nibbleCount leafPrefixMask

/-- `NodeKind`: a header without its size. -/
inductive NodeKind
  | leaf
  | branchNoValue
  | branchWithValue
  deriving DecidableEq, Repr

/-- The header `partial_encode` and `partial_from_iterator_encode` write for a kind. -/
def NodeKind.header (nibbleCount : ℕ) : NodeKind → NodeHeader
  | .leaf => .leaf nibbleCount
  | .branchNoValue => .branch false nibbleCount
  | .branchWithValue => .branch true nibbleCount

/-- The prefix `fuse_nibbles_node` passes to `size_and_prefix_iterator` for a kind. -/
def NodeKind.prefixMask : NodeKind → UInt8
  | .leaf => leafPrefixMask
  | .branchNoValue => branchWithoutMask
  | .branchWithValue => branchWithMask

theorem NodeKind.encode_header (k : NodeKind) (nibbleCount : ℕ) :
    (k.header nibbleCount).encode = sizeAndPrefixIterator nibbleCount k.prefixMask := by
  cases k <;> rfl

theorem sizeRemBytes_eq {rem : ℕ} (h : 0 < rem) :
    sizeRemBytes rem = List.replicate ((rem - 1) / 255) 255 ++ [((rem - 1) % 255).toUInt8] := by
  induction rem using Nat.strong_induction_on with
  | _ rem ih =>
    rw [sizeRemBytes, if_pos h]
    split
    case isTrue hlt =>
      rw [Nat.div_eq_of_lt (by omega), Nat.mod_eq_of_lt (by omega)]
      rfl
    case isFalse hge =>
      rw [ih (rem - 255) (by omega) (by omega)]
      have hq : (rem - 1) / 255 = (rem - 255 - 1) / 255 + 1 := by omega
      have hr : (rem - 1) % 255 = (rem - 255 - 1) % 255 := by omega
      rw [hq, hr, List.replicate_succ, List.cons_append]

theorem sizeAndPrefixIterator_of_le {size : ℕ} (h : size ≤ 62) (pfx : UInt8) :
    sizeAndPrefixIterator size pfx = [pfx + size.toUInt8] := by
  have hmin : min nibbleSizeBound size = size := min_eq_right (h.trans (by decide))
  simp only [sizeAndPrefixIterator, hmin, min_eq_right h, if_true]
  rw [sizeRemBytes, if_neg (lt_irrefl 0)]

theorem sizeAndPrefixIterator_of_lt {size : ℕ} (h : 62 < size) (pfx : UInt8) :
    sizeAndPrefixIterator size pfx =
      (pfx + 63) :: (List.replicate ((min nibbleSizeBound size - 63) / 255) 255 ++
        [((min nibbleSizeBound size - 63) % 255).toUInt8]) := by
  have hsize : 62 < min nibbleSizeBound size := lt_min (by decide) h
  simp only [sizeAndPrefixIterator, min_eq_left hsize.le, if_neg hsize.ne']
  rw [sizeRemBytes_eq (by omega)]
  rfl

/-! ## Reading the header back -/

/-- The nibble count a header carries, none for the empty node. -/
def NodeHeader.size : NodeHeader → ℕ
  | .null => 0
  | .branch _ nibbleCount => nibbleCount
  | .leaf nibbleCount => nibbleCount

theorem NodeKind.size_header (k : NodeKind) (nibbleCount : ℕ) :
    (k.header nibbleCount).size = nibbleCount := by
  cases k <;> rfl

theorem headerByte_spec (k : NodeKind) {l : ℕ} (hl : l < 64) :
    k.prefixMask + l.toUInt8 ≠ emptyTrie ∧
      (k.prefixMask + l.toUInt8) &&& ((0b11 : UInt8) <<< 6) = k.prefixMask ∧
      ((k.prefixMask + l.toUInt8) &&& ((255 : UInt8) >>> 2)).toNat = l := by
  have hbytes : ∀ k : NodeKind, ∀ l : Fin 64, k.prefixMask + l.val.toUInt8 ≠ emptyTrie ∧
      (k.prefixMask + l.val.toUInt8) &&& ((0b11 : UInt8) <<< 6) = k.prefixMask ∧
      ((k.prefixMask + l.val.toUInt8) &&& ((255 : UInt8) >>> 2)).toNat = l.val := by
    intro k
    cases k <;> decide
  exact hbytes k ⟨l, hl⟩

theorem NodeHeader.decode_of_kind {data : List UInt8} {offset o o' n : ℕ} {i : UInt8}
    (k : NodeKind) (hread : readByte data offset = .ok (i, o)) (hi : i ≠ emptyTrie)
    (hk : i &&& ((0b11 : UInt8) <<< 6) = k.prefixMask) (hsize : decodeSize i data o = .ok (n, o')) :
    NodeHeader.decode data offset = .ok (k.header n, o') := by
  simp only [NodeHeader.decode, Read.bind_apply, hread, if_neg hi, hk]
  cases k <;>
    simp [NodeKind.prefixMask, NodeKind.header, leafPrefixMask, branchWithoutMask, branchWithMask,
      Read.bind_apply, hsize, Read.pure_apply]

theorem decodeSize_encoded {data rest : List UInt8} {offset size : ℕ} {first : UInt8}
    (hfirst : (first &&& ((255 : UInt8) >>> 2)).toNat = 63) (hlt : 62 < size)
    (hsize : size ≤ nibbleSizeBound)
    (hdrop : data.drop offset = List.replicate ((size - 63) / 255) 255 ++
      ((size - 63) % 255).toUInt8 :: rest) :
    decodeSize first data offset = .ok (size, offset + (size - 63) / 255 + 1) := by
  obtain ⟨q, hq⟩ : ∃ q, q = (size - 63) / 255 := ⟨_, rfl⟩
  obtain ⟨r, hr⟩ : ∃ r, r = (size - 63) % 255 := ⟨_, rfl⟩
  rw [← hq, ← hr] at hdrop
  rw [← hq]
  have hqle : q ≤ 256 := by rw [hq]; unfold nibbleSizeBound at hsize; omega
  have hrlt : r < 255 := by rw [hr]; exact Nat.mod_lt _ (by decide)
  have hbound : 62 + 255 * q ≤ nibbleSizeBound := by omega
  have hlast : data.drop (offset + q) = r.toUInt8 :: rest := by
    rw [← List.drop_drop, hdrop, List.drop_left' List.length_replicate]
  have hfuel : nibbleSizeBound / 255 + 1 - q = (257 - q) + 1 := by
    unfold nibbleSizeBound
    omega
  have hrnat : r.toUInt8.toNat = r := by
    rw [Nat.toUInt8, UInt8.toNat_ofNat', Nat.mod_eq_of_lt (by omega)]
  have hrlt' : r.toUInt8.toNat < 255 := by rw [hrnat]; exact hrlt
  rw [decodeSize_of_eq hfirst, decodeSizeLoop_run q hdrop (by unfold nibbleSizeBound; omega)
    (Nat.le_add_right_of_le hbound), hfuel, decodeSizeLoop_last hlast hrlt' hbound, hrnat]
  congr 2
  omega

theorem decode_sizeAndPrefixIterator (k : NodeKind) {size : ℕ} (hsize : size ≤ nibbleSizeBound)
    (rest : List UInt8) :
    NodeHeader.decode (sizeAndPrefixIterator size k.prefixMask ++ rest) 0 =
      .ok (k.header size, (sizeAndPrefixIterator size k.prefixMask).length) := by
  by_cases hle : size ≤ 62
  case pos =>
    obtain ⟨hi, hk, hl⟩ := headerByte_spec k (l := size) (by omega)
    rw [sizeAndPrefixIterator_of_le hle]
    exact NodeHeader.decode_of_kind k (readByte_of_drop rfl) hi hk
      (decodeSize_of_lt (by omega) _ _ |>.trans (by rw [hl]; rfl))
  case neg =>
    obtain ⟨hi, hk, hl⟩ := headerByte_spec k (l := 63) (by omega)
    rw [show (63 : ℕ).toUInt8 = 63 from rfl] at hi hk hl
    have hmin : min nibbleSizeBound size = size := min_eq_right hsize
    rw [sizeAndPrefixIterator_of_lt (by omega), hmin]
    refine NodeHeader.decode_of_kind k (readByte_of_drop rfl) hi hk ?_
    have hdrop : ((k.prefixMask + 63) :: (List.replicate ((size - 63) / 255) 255 ++
        [((size - 63) % 255).toUInt8]) ++ rest).drop 1 =
        List.replicate ((size - 63) / 255) 255 ++ ((size - 63) % 255).toUInt8 :: rest := by
      simp
    rw [decodeSize_encoded hl (by omega) hsize hdrop]
    simp only [List.length_cons, List.length_append, List.length_replicate, List.length_nil]
    congr 2
    omega

theorem NodeHeader.decode_encode (h : NodeHeader) (hsize : h.size ≤ nibbleSizeBound)
    (rest : List UInt8) :
    NodeHeader.decode (h.encode ++ rest) 0 = .ok (h, h.encode.length) := by
  cases h with
  | null => rfl
  | branch hasValue nibbleCount =>
    cases hasValue
    case false => exact decode_sizeAndPrefixIterator .branchNoValue hsize rest
    case true => exact decode_sizeAndPrefixIterator .branchWithValue hsize rest
  | leaf nibbleCount => exact decode_sizeAndPrefixIterator .leaf hsize rest

/-! ## What the decoder accepts -/

theorem readByte_eq_ok {data : List UInt8} {offset o : ℕ} {b : UInt8}
    (h : readByte data offset = .ok (b, o)) :
    o = offset + 1 ∧ data.drop offset = b :: data.drop (offset + 1) := by
  unfold readByte at h
  split at h
  case isTrue => cases h
  case isFalse hlt =>
    cases h
    exact ⟨rfl, List.drop_eq_getElem_cons (by omega)⟩

theorem decodeSizeLoop_eq_ok {data : List UInt8} (fuel : ℕ) :
    ∀ {result offset n o : ℕ}, decodeSizeLoop fuel result data offset = .ok (n, o) →
      n = nibbleSizeBound ∨ ∃ (k : ℕ) (b : UInt8) (rest : List UInt8),
        data.drop offset = List.replicate k 255 ++ b :: rest ∧ b.toNat < 255 ∧
          n = result + 255 * k + b.toNat + 1 ∧ o = offset + k + 1 := by
  induction fuel with
  | zero =>
    intro result offset n o h
    cases h
    exact .inl rfl
  | succ fuel ih =>
    intro result offset n o h
    simp only [decodeSizeLoop] at h
    split at h
    case isFalse => cases h; exact .inl rfl
    case isTrue =>
      split at h
      case h_1 => cases h
      case h_2 b o₁ hread =>
        obtain ⟨rfl, hdrop⟩ := readByte_eq_ok hread
        split at h
        -- the last byte of the size
        case isTrue hb =>
          cases h
          exact .inr ⟨0, b, _, hdrop, hb, by ring, rfl⟩
        -- a byte `255`: the loop goes on from the next offset
        case isFalse hb =>
          have hff : b = 255 := UInt8.toNat_inj.mp (by have := b.toNat_lt; simp; omega)
          rcases ih h with hn | ⟨k, b', rest, hdrop', hb', hn, ho⟩
          · exact .inl hn
          · refine .inr ⟨k + 1, b', rest, ?_, hb', by rw [hn]; ring, by rw [ho]; ring⟩
            rw [hdrop, hdrop', hff, List.replicate_succ, List.cons_append]

theorem NodeHeader.decode_eq_ok {data : List UInt8} {offset o : ℕ} {h : NodeHeader}
    (hdec : NodeHeader.decode data offset = .ok (h, o)) :
    ∃ i, readByte data offset = .ok (i, offset + 1) ∧
      ((i = emptyTrie ∧ h = .null ∧ o = offset + 1) ∨
        ∃ (k : NodeKind) (n : ℕ), i &&& ((0b11 : UInt8) <<< 6) = k.prefixMask ∧
          decodeSize i data (offset + 1) = .ok (n, o) ∧ h = k.header n) := by
  obtain ⟨i, o₁, hread, hrest⟩ := Read.bind_eq_ok.mp hdec
  obtain ⟨rfl, -⟩ := readByte_eq_ok hread
  refine ⟨i, hread, ?_⟩
  -- one case per branch of the decoder; a size is read in each branch but the first
  have hkind : ∀ k : NodeKind, (decodeSize i >>= fun n => pure (k.header n)) data (offset + 1) =
      .ok (h, o) → ∃ n, decodeSize i data (offset + 1) = .ok (n, o) ∧ h = k.header n := by
    intro k hk
    obtain ⟨n, o₂, hsize, hpure⟩ := Read.bind_eq_ok.mp hk
    cases hpure
    exact ⟨n, hsize, rfl⟩
  dsimp only at hrest
  split_ifs at hrest with h0 h1 h2 h3
  · cases hrest
    exact .inl ⟨h0, rfl, rfl⟩
  · obtain ⟨n, hn, rfl⟩ := hkind .leaf hrest
    exact .inr ⟨.leaf, n, h1, hn, rfl⟩
  · obtain ⟨n, hn, rfl⟩ := hkind .branchNoValue hrest
    exact .inr ⟨.branchNoValue, n, h2, hn, rfl⟩
  · obtain ⟨n, hn, rfl⟩ := hkind .branchWithValue hrest
    exact .inr ⟨.branchWithValue, n, h3, hn, rfl⟩

theorem headerByte_eq {i : UInt8} {k : NodeKind} (hk : i &&& ((0b11 : UInt8) <<< 6) = k.prefixMask) :
    i = k.prefixMask + (i &&& ((255 : UInt8) >>> 2)).toNat.toUInt8 ∧
      (i &&& ((255 : UInt8) >>> 2)).toNat < 64 := by
  have hbytes : ∀ i : UInt8, i = (i &&& ((0b11 : UInt8) <<< 6)) +
      (i &&& ((255 : UInt8) >>> 2)).toNat.toUInt8 ∧ (i &&& ((255 : UInt8) >>> 2)).toNat < 64 := by
    decide +kernel
  rw [← hk]
  exact hbytes i

theorem NodeHeader.encode_of_decode {data : List UInt8} {h : NodeHeader} {o : ℕ}
    (hdec : NodeHeader.decode data 0 = .ok (h, o)) (hsize : h.size < nibbleSizeBound) :
    h.encode = data.take o := by
  obtain ⟨i, hread, ⟨rfl, rfl, rfl⟩ | ⟨k, n, hk, hn, rfl⟩⟩ := NodeHeader.decode_eq_ok hdec
  case inl =>
    obtain ⟨-, hdata⟩ := readByte_eq_ok hread
    rw [List.drop_zero] at hdata
    rw [hdata]
    rfl
  case inr =>
    obtain ⟨-, hdata⟩ := readByte_eq_ok hread
    rw [List.drop_zero] at hdata
    rw [NodeKind.size_header] at hsize
    rw [NodeKind.encode_header]
    obtain ⟨hi, hlow⟩ := headerByte_eq hk
    obtain ⟨l, hl⟩ : ∃ l, l = (i &&& ((255 : UInt8) >>> 2)).toNat := ⟨_, rfl⟩
    rw [← hl] at hi hlow
    by_cases hshort : l < 63
    -- a count up to 62 sits in the first byte
    case pos =>
      rw [decodeSize_of_lt (hl ▸ hshort)] at hn
      cases hn
      rw [← hl, sizeAndPrefixIterator_of_le (by omega), ← hi, hdata]
      rfl
    -- a longer count: the loop read a run of `255` and a last byte, and the count is not the
    -- bound, so the run did not pass it
    case neg =>
      have h63 : l = 63 := by omega
      rw [decodeSize_of_eq (hl ▸ h63)] at hn
      rcases decodeSizeLoop_eq_ok _ hn with hbound | ⟨q, b, rest, hdrop, hb, rfl, rfl⟩
      · omega
      have hq : (min nibbleSizeBound (62 + 255 * q + b.toNat + 1) - 63) / 255 = q := by omega
      have hr : ((min nibbleSizeBound (62 + 255 * q + b.toNat + 1) - 63) % 255).toUInt8 = b := by
        apply UInt8.toNat_inj.mp
        rw [Nat.toUInt8, UInt8.toNat_ofNat']
        omega
      rw [h63, show (63 : ℕ).toUInt8 = 63 from rfl] at hi
      rw [sizeAndPrefixIterator_of_lt (by omega), hq, hr, hdata, hdrop, hi,
        show 0 + 1 + q + 1 = q + 1 + 1 by omega, List.take_succ_cons,
        List.take_append, List.take_of_length_le (by simp), List.length_replicate,
        Nat.add_sub_cancel_left, List.take_succ_cons, List.take_zero]

/-- `nibble_ops::pad_right`: the low nibble of a byte. -/
def padRight (b : UInt8) : UInt8 := b &&& 0x0f

/-- `Partial` of the trie crate: the number of nibbles kept apart (none or one) and the byte that
holds it, then the bytes of the other nibbles, two to a byte. -/
abbrev Partial : Type := (UInt8 × UInt8) × List UInt8

/-- The two nibbles of a byte, high first. -/
def nibblesOfByte (b : UInt8) : List UInt8 := [b >>> 4, b &&& 0x0f]

/-- The nibbles a partial stands for: the kept nibble, then two for each byte. -/
def Partial.nibbles (partialKey : Partial) : List UInt8 :=
  (if partialKey.1.1.toNat > 0 then [padRight partialKey.1.2] else []) ++
    partialKey.2.flatMap nibblesOfByte

/-- `partial_from_iterator_encode`: the header, then the bytes of the partial as given. -/
def partialFromIteratorEncode (partialKey : List UInt8) (nibbleCount : ℕ) (nodeKind : NodeKind) :
    List UInt8 :=
  let nibbleCount := min nibbleSizeBound nibbleCount
  (nodeKind.header nibbleCount).encode ++ partialKey

/-- The pairs of an even run of nibbles, high nibble first: `chunks(2).map(|ch| ch[0] << 4 |
ch[1])`. The run `fuse_nibbles_node` passes is even; a last lone nibble would panic at `ch[1]`. -/
def fuseNibblePairs : List UInt8 → List UInt8
  | a :: b :: rest => (a <<< 4 ||| b) :: fuseNibblePairs rest
  | _ => []

/-- The bytes `fuse_nibbles_node` writes after the header: the first nibble alone when the count is
odd, then the pairs. -/
def fuseNibbles (nibbles : List UInt8) : List UInt8 :=
  (if nibbles.length % 2 = 1 then nibbles.take 1 else []) ++
    fuseNibblePairs (nibbles.drop (nibbles.length % 2))

/-- `fuse_nibbles_node`. -/
def fuseNibblesNode (nibbles : List UInt8) (kind : NodeKind) : List UInt8 :=
  let size := min nibbleSizeBound nibbles.length
  sizeAndPrefixIterator size kind.prefixMask ++ fuseNibbles nibbles

/-- One round of the loop of `Bitmap::encode` and `branch_node_bit_mask`: the cursor's bit is set
for a present child, and the cursor moves on. -/
def Bitmap.encodeStep (acc : UInt16 × UInt16) (v : Bool) : UInt16 × UInt16 :=
  (if v then acc.1 ||| acc.2 else acc.1, acc.2 <<< 1)

/-- `Bitmap::encode`: the two bytes it writes to `dest`, low byte first. -/
def Bitmap.encode (hasChildren : List Bool) : List UInt8 :=
  let bitmap := (hasChildren.foldl Bitmap.encodeStep (0, 1)).1
  [(bitmap % 256).toUInt8, (bitmap / 256).toUInt8]

/-- `branch_node_bit_mask`, the same loop in `trie_stream.rs`. -/
def branchNodeBitMask (hasChildren : List Bool) : UInt8 × UInt8 :=
  let bitmap := (hasChildren.foldl Bitmap.encodeStep (0, 1)).1
  ((bitmap % 256).toUInt8, (bitmap / 256).toUInt8)

/-- The number whose bit `i` is the flag `i` of a list. -/
def bitsValue : List Bool → ℕ
  | [] => 0
  | b :: bs => b.toNat + 2 * bitsValue bs

theorem bitsValue_nil : bitsValue [] = 0 := rfl

theorem bitsValue_cons (b : Bool) (bs : List Bool) :
    bitsValue (b :: bs) = b.toNat + 2 * bitsValue bs := rfl

theorem testBit_bitsValue (bs : List Bool) (i : ℕ) : (bitsValue bs).testBit i = bs.getD i false := by
  induction bs generalizing i with
  | nil => simp [bitsValue_nil]
  | cons b bs ih =>
    have hbit : bitsValue (b :: bs) = Nat.bit b (bitsValue bs) := by
      rw [bitsValue_cons, Nat.bit_val]
      cases b <;> simp [Nat.add_comm]
    rw [hbit]
    cases i with
    | zero => simp
    | succ i => rw [Nat.testBit_bit_succ, ih, List.getD_cons_succ]

theorem foldl_encodeStep (bs : List Bool) :
    ∀ {j : ℕ} {bitmap cursor : UInt16}, cursor.toNat = 2 ^ j % 2 ^ 16 → bitmap.toNat < 2 ^ j →
      j + bs.length ≤ 16 →
      (bs.foldl Bitmap.encodeStep (bitmap, cursor)).1.toNat = bitmap.toNat + 2 ^ j * bitsValue bs := by
  induction bs with
  | nil => intro j bitmap cursor _ _ _; simp [bitsValue_nil]
  | cons v bs ih =>
    intro j bitmap cursor hcursor hbitmap hlen
    simp only [List.length_cons] at hlen
    have hcursor' : cursor.toNat = 2 ^ j := by
      rw [hcursor, Nat.mod_eq_of_lt (Nat.pow_lt_pow_right (by decide) (by omega))]
    -- the cursor's bit is above every bit set so far, so setting it adds it
    have hor : (bitmap ||| cursor).toNat = bitmap.toNat + 2 ^ j := by
      rw [UInt16.toNat_or, hcursor', Nat.or_comm, ← Nat.one_shiftLeft,
        ← Nat.shiftLeft_add_eq_or_of_lt hbitmap, Nat.one_shiftLeft, Nat.add_comm]
    have hshift : (cursor <<< 1).toNat = 2 ^ (j + 1) % 2 ^ 16 := by
      rw [UInt16.toNat_shiftLeft, hcursor', Nat.shiftLeft_eq, pow_succ]
      rfl
    have hnext : (Bitmap.encodeStep (bitmap, cursor) v).1.toNat = bitmap.toNat + 2 ^ j * v.toNat := by
      cases v <;> simp [Bitmap.encodeStep, hor]
    have hbound : (Bitmap.encodeStep (bitmap, cursor) v).1.toNat < 2 ^ (j + 1) := by
      rw [hnext, pow_succ]
      cases v <;> simp only [Bool.toNat_true, Bool.toNat_false, mul_one, mul_zero, add_zero] <;>
        omega
    rw [List.foldl_cons, show Bitmap.encodeStep (bitmap, cursor) v =
      ((Bitmap.encodeStep (bitmap, cursor) v).1, cursor <<< 1) from rfl,
      ih hshift hbound (by omega), hnext, bitsValue_cons, pow_succ]
    ring

/-- **Bitmap round trip.** For up to sixteen children, `value_at(i)` on the bitmap
`Bitmap::decode` reads from the bytes `Bitmap::encode` writes is whether child `i` is present, for
every index below sixteen; from sixteen on it panics. -/
theorem valueAt_decode_encode (hasChildren : List Bool) (hlen : hasChildren.length ≤ 16)
    (rest : List UInt8) (i : ℕ) :
    ∃ bitmap, Bitmap.decode (Bitmap.encode hasChildren ++ rest) = .ok bitmap ∧
      bitmap.valueAt i = if i < 16 then some (hasChildren.getD i false) else none := by
  have hcursor : (1 : UInt16).toNat = 2 ^ 0 % 2 ^ 16 := rfl
  have hbitmap₀ : (0 : UInt16).toNat < 2 ^ 0 := by decide
  have hfold := foldl_encodeStep hasChildren hcursor hbitmap₀ (by omega)
  simp only [UInt16.toNat_zero, pow_zero, Nat.zero_add, Nat.one_mul] at hfold
  obtain ⟨bitmap, hbitmap⟩ : ∃ b, (hasChildren.foldl Bitmap.encodeStep (0, 1)).1 = b := ⟨_, rfl⟩
  rw [hbitmap] at hfold
  have hlt : bitmap.toNat < 2 ^ 16 := bitmap.toNat_lt
  refine ⟨_, rfl, ?_⟩
  have hvalue : (bitmap % 256).toUInt8.toNat + 256 * (bitmap / 256).toUInt8.toNat =
      bitmap.toNat := by
    have h256 : (256 : UInt16).toNat = 256 := rfl
    simp only [UInt16.toNat_toUInt8, UInt16.toNat_mod, UInt16.toNat_div, h256]
    omega
  simp only [hbitmap, Bitmap.valueAt, hvalue, hfold, testBit_bitsValue]

theorem valueAt_decode_encode_tenChildren :
    [true, false, false, true, true, false, false, false, false, true].length ≤ 16 ∧
      ∃ bitmap, Bitmap.decode (Bitmap.encode
          [true, false, false, true, true, false, false, false, false, true] ++ [0x2a]) =
          .ok bitmap ∧
        bitmap.valueAt 9 = if 9 < 16 then
          some ([true, false, false, true, true, false, false, false, false, true].getD 9 false)
          else none :=
  ⟨by decide, valueAt_decode_encode _ (by decide) [0x2a] 9⟩

/-! ## A node from the codec and from the stream -/

/-- `ChildReference` of the trie crate: a child by its hash, or inline by its encoded bytes. -/
inductive ChildReference
  | hash (h : List UInt8)
  | inline (data : List UInt8)
  deriving DecidableEq, Repr

/-- The reference the trie crate makes for a child from its encoding: inline when shorter than a
hash, by its hash otherwise. -/
def childReference (hashLength : ℕ) (hash : List UInt8 → List UInt8) (node : List UInt8) :
    ChildReference :=
  if node.length < hashLength then .inline node else .hash (hash node)

/-- `branch_node`, the header of a branch without a partial, which this codec never writes. -/
def branchNode (hasValue : Bool) (hasChildren : List Bool) : List UInt8 :=
  (if hasValue then 255 else 254) :: Bitmap.encode hasChildren

section Nodes

variable (compactLength : ℕ → List UInt8)

/-- `<[u8]>::encode_to`: the compact length, then the bytes. The compact encoding is the codec
crate's. -/
def encodeBytes (value : List UInt8) : List UInt8 := compactLength value.length ++ value

/-- The bytes `branch_node_nibbled` writes for a child, from the closure it maps the children
with. -/
def encodeChild : Option ChildReference → List UInt8
  | some (.hash h) => encodeBytes compactLength h
  | some (.inline data) => encodeBytes compactLength data
  | none => []

/-- `NodeCodec::branch_node_nibbled`: two bytes reserved at `bitmap_index`, the value and the
children, then the bitmap copied over the reserved bytes. -/
def branchNodeNibbled (partialKey : List UInt8) (numberNibble : ℕ)
    (children : List (Option ChildReference)) (maybeValue : Option (List UInt8)) : List UInt8 :=
  let output := if maybeValue.isSome then
      partialFromIteratorEncode partialKey numberNibble .branchWithValue
    else partialFromIteratorEncode partialKey numberNibble .branchNoValue
  let bitmapIndex := output.length
  let output := output ++ List.replicate bitmapLength 0
  let output := output ++ (maybeValue.map (encodeBytes compactLength)).getD []
  let bitmap := Bitmap.encode (children.map Option.isSome)
  let output := output ++ children.flatMap (encodeChild compactLength)
  output.take bitmapIndex ++ bitmap ++ output.drop (bitmapIndex + bitmapLength)

/-- `TrieStream::begin_branch`. -/
def beginBranch (buffer : List UInt8) (maybePartial maybeValue : Option (List UInt8))
    (hasChildren : List Bool) : List UInt8 :=
  let buffer := match maybePartial with
    | some partialKey =>
      let kind := if maybeValue.isSome then NodeKind.branchWithValue else .branchNoValue
      let bm := branchNodeBitMask hasChildren
      buffer ++ fuseNibblesNode partialKey kind ++ [bm.1, bm.2]
    -- the codec has no extension nodes: a debug assertion, then `branch_node`
    | none => buffer ++ branchNode maybeValue.isSome hasChildren
  buffer ++ (maybeValue.map (encodeBytes compactLength)).getD []

/-- `TrieStream::append_substream`: a child of up to 31 bytes inline, a longer one by its hash. -/
def appendSubstream (hash : List UInt8 → List UInt8) (buffer other : List UInt8) : List UInt8 :=
  buffer ++ if other.length ≤ 31 then encodeBytes compactLength other
    else encodeBytes compactLength (hash other)

/-- A branch as the root builder writes it through the stream: `begin_branch` with the children
present, then `append_substream` for each present child, from its own encoding. -/
def streamBranch (hash : List UInt8 → List UInt8) (nibbles : List UInt8)
    (maybeValue : Option (List UInt8)) (children : List (Option (List UInt8))) : List UInt8 :=
  children.foldl (fun buffer child => match child with
      | some node => appendSubstream compactLength hash buffer node
      | none => buffer)
    (beginBranch compactLength [] (some nibbles) maybeValue (children.map Option.isSome))

theorem partialFromIteratorEncode_fuseNibbles (nibbles : List UInt8) (kind : NodeKind) :
    partialFromIteratorEncode (fuseNibbles nibbles) nibbles.length kind =
      fuseNibblesNode nibbles kind := by
  rw [partialFromIteratorEncode, NodeKind.encode_header, fuseNibblesNode]

theorem foldl_appendSubstream (hash : List UInt8 → List UInt8) (children : List (Option (List UInt8)))
    (buffer : List UInt8) :
    children.foldl (fun buffer child => match child with
        | some node => appendSubstream compactLength hash buffer node
        | none => buffer) buffer =
      buffer ++ (children.map (Option.map (childReference 32 hash))).flatMap
        (encodeChild compactLength) := by
  induction children generalizing buffer with
  | nil => simp
  | cons child children ih =>
    rw [List.foldl_cons, ih, List.map_cons, List.flatMap_cons, ← List.append_assoc]
    congr 1
    cases child with
    | none => simp [encodeChild]
    | some node =>
      -- `0..=31` inline in the stream, shorter than the 32 bytes of a hash in the codec
      have hinline : node.length < 32 ↔ node.length ≤ 31 := by omega
      simp only [appendSubstream, childReference, hinline, Option.map_some, List.append_cancel_left_eq]
      split <;> rfl

theorem branchNodeNibbled_fuseNibbles (hash : List UInt8 → List UInt8) (nibbles : List UInt8)
    (maybeValue : Option (List UInt8)) (children : List (Option (List UInt8))) :
    branchNodeNibbled compactLength (fuseNibbles nibbles) nibbles.length
        (children.map (Option.map (childReference 32 hash))) maybeValue =
      streamBranch compactLength hash nibbles maybeValue children := by
  obtain ⟨kind, hkind⟩ : ∃ kind : NodeKind,
      kind = if maybeValue.isSome then .branchWithValue else .branchNoValue := ⟨_, rfl⟩
  have hheader : (if maybeValue.isSome then
      partialFromIteratorEncode (fuseNibbles nibbles) nibbles.length .branchWithValue
    else partialFromIteratorEncode (fuseNibbles nibbles) nibbles.length .branchNoValue) =
      fuseNibblesNode nibbles kind := by
    rw [hkind]
    split <;> exact partialFromIteratorEncode_fuseNibbles nibbles _
  have hpresent : (children.map (Option.map (childReference 32 hash))).map Option.isSome =
      children.map Option.isSome := by
    simp [Function.comp_def]
  simp only [branchNodeNibbled, streamBranch, beginBranch, foldl_appendSubstream, hheader, hpresent,
    ← hkind, bitmapLength]
  simp [List.drop_append, Bitmap.encode, branchNodeBitMask]

/-- **A branch from the codec and from the stream.** With a hasher of 32 bytes, the codec's
`branch_node_nibbled` over the fused nibbles and the references made from the children's
encodings writes the bytes the stream writes for the same branch. -/
theorem branchNodeNibbled_eq_streamBranch (hash : List UInt8 → List UInt8) (nibbles : List UInt8)
    (maybeValue : Option (List UInt8)) (children : List (Option (List UInt8))) :
    branchNodeNibbled compactLength (fuseNibbles nibbles) nibbles.length
        (children.map (Option.map (childReference 32 hash))) maybeValue =
      streamBranch compactLength hash nibbles maybeValue children :=
  branchNodeNibbled_fuseNibbles compactLength hash nibbles maybeValue children

end Nodes

end Tetcore.Trie
