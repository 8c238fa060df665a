import Mathlib
import Tetcore.Allocator.FreeingBump

/-!
# The layout of the heap

Between two calls the heap from the aligned heap base up to the bumper is cut into chunks, each an
eight-byte header and a payload of its order's size, laid end to end as `bump` handed them out. A
chunk is live, its header reading `Occupied(order)`, or free, its header linking it into the free
list of its order. `Allocator.Invariant` states this as `Layout`, with the chunks as ghost lists.
This module proves the facts it rests on: the sizes of the orders, that a `u64` written reads back
while the other bytes stay, that a header written reads back, and the free chains (`FreeChain`).
-/

namespace Tetcore.Allocator

/-- `max(8, size.next_power_of_two())`: the bytes an allocation of `size` gets. -/
def capacity (size : ℕ) : ℕ := max minPossibleAllocation (2 ^ Nat.clog 2 size)

theorem le_capacity (size : ℕ) : size ≤ capacity size :=
  le_max_of_le_right (Nat.le_pow_clog (by norm_num) size)

namespace Order

theorem size_of_fromSize {size : ℕ} {o : Order} (h : fromSize size = .ok o) :
    o.size = capacity size := by
  unfold fromSize fromRaw at h
  split at h
  · cases h
  · dsimp only at h
    split at h
    · cases h
      rename_i hle _
      simp only [Order.size, capacity, minPossibleAllocation] at hle ⊢
      by_cases hsmall : size ≤ 8
      · -- a small size takes the smallest order
        have hc : Nat.clog 2 size ≤ 3 := (Nat.clog_le_iff_le_pow (by norm_num)).2 hsmall
        have hpow : 2 ^ Nat.clog 2 size ≤ 8 :=
          (Nat.pow_le_pow_right (by norm_num) hc).trans (by norm_num)
        rw [max_eq_right hsmall, show (8 : ℕ) = 2 ^ 3 by norm_num, Nat.clog_pow 2 3 (by norm_num)]
        omega
      · have hc : 3 < Nat.clog 2 size := (Nat.lt_clog_iff_pow_lt (by norm_num)).2 (by omega)
        rw [max_eq_left (by omega), max_eq_right]
        · rw [show (8 : ℕ) = 2 ^ 3 by norm_num, ← pow_add]
          congr 1
          omega
        · calc 8 = 2 ^ 3 := by norm_num
            _ ≤ 2 ^ Nat.clog 2 size := Nat.pow_le_pow_right (by norm_num) hc.le
    · cases h

theorem fromSize_ok {size : ℕ} (h : size ≤ maxPossibleAllocation) :
    ∃ o, fromSize size = .ok o := by
  have hc : Nat.clog 2 (max size minPossibleAllocation) ≤ 24 := by
    apply Nat.clog_le_of_le_pow
    simp only [maxPossibleAllocation, minPossibleAllocation] at h ⊢
    omega
  have hlt : Nat.clog 2 (max size minPossibleAllocation) - 3 < nOrders := by
    simp only [nOrders]
    omega
  refine ⟨⟨_, hlt⟩, ?_⟩
  simp only [fromSize, fromRaw, hlt, dite_true]
  rw [if_neg (by omega)]

theorem fromSize_err {size : ℕ} {e : Error} (h : fromSize size = .error e) :
    e = .requestedAllocationTooLarge ∧ maxPossibleAllocation < size := by
  by_cases hsize : size ≤ maxPossibleAllocation
  · obtain ⟨o, ho⟩ := fromSize_ok hsize
    rw [ho] at h
    cases h
  · simp only [fromSize, if_pos (Nat.lt_of_not_le hsize)] at h
    cases h
    exact ⟨rfl, Nat.lt_of_not_le hsize⟩

theorem size_pos (o : Order) : 0 < o.size := by
  simp only [size, minPossibleAllocation]
  positivity

theorem size_mod (o : Order) : o.size % alignment = 0 := by
  simp [size, minPossibleAllocation, alignment, Nat.mul_mod_right]

end Order

/-! ### Reading and writing `u64`s -/

namespace Memory

variable {m m' : Memory} {p q v : ℕ}

theorem fromLeBytes_map_range' (v k n : ℕ) :
    fromLeBytes ((List.range' k n).map fun i => UInt8.ofNat (v / 256 ^ i % 256)) =
      v / 256 ^ k % 256 ^ n := by
  induction n generalizing k with
  | zero => simp [fromLeBytes, Nat.mod_one]
  | succ n ih =>
    rw [List.range'_succ, List.map_cons, fromLeBytes, List.foldr_cons, ← fromLeBytes, ih (k + 1)]
    have hdiv : v / 256 ^ (k + 1) = v / 256 ^ k / 256 := by
      rw [Nat.div_div_eq_div_mul, pow_succ]
    rw [hdiv, pow_succ', Nat.mod_mul, UInt8.toNat_ofNat', Nat.mod_mod_of_dvd _ (by norm_num)]

theorem fromLeBytes_toLeBytes (hv : v < 2 ^ 64) : fromLeBytes (toLeBytes v) = v := by
  rw [toLeBytes, List.range_eq_range', fromLeBytes_map_range', pow_zero, Nat.div_one]
  exact Nat.mod_eq_of_lt (by simpa using hv)

@[simp] theorem length_toLeBytes (v : ℕ) : (toLeBytes v).length = 8 := by
  simp [toLeBytes]

theorem writeLeU64_eq (h : m.writeLeU64 p v = .ok m') :
    m.inRange p ∧ m' = ⟨m.bytes.take p ++ toLeBytes v ++ m.bytes.drop (p + 8)⟩ := by
  unfold writeLeU64 at h
  split at h
  · cases h
    exact ⟨‹_›, rfl⟩
  · cases h

theorem inRange_iff : m.inRange p ↔ p + 8 < u32Bound ∧ p + 8 ≤ m.size := by
  simp [inRange]

theorem size_writeLeU64 (h : m.writeLeU64 p v = .ok m') : m'.size = m.size := by
  obtain ⟨hin, rfl⟩ := writeLeU64_eq h
  have hle := (inRange_iff.1 hin).2
  simp only [size] at hle ⊢
  simp only [List.length_append, List.length_take, length_toLeBytes, List.length_drop]
  omega

theorem getElem?_writeLeU64 (h : m.writeLeU64 p v = .ok m') {i : ℕ} (hi : i < p ∨ p + 8 ≤ i) :
    m'.bytes[i]? = m.bytes[i]? := by
  obtain ⟨hin, rfl⟩ := writeLeU64_eq h
  have hle := (inRange_iff.1 hin).2
  simp only [size] at hle
  have htake : (m.bytes.take p).length = p := by simp; omega
  rcases hi with hi | hi
  · rw [List.append_assoc, List.getElem?_append_left (by omega), List.getElem?_take,
      if_pos hi]
  · rw [List.getElem?_append_right (by simp; omega), List.getElem?_drop]
    simp only [List.length_append, htake, length_toLeBytes]
    congr 1
    omega

theorem readLeU64_congr (hsize : m'.size = m.size)
    (hbytes : ∀ i, q ≤ i → i < q + 8 → m'.bytes[i]? = m.bytes[i]?) :
    m'.readLeU64 q = m.readLeU64 q := by
  have hslice : (m'.bytes.drop q).take 8 = (m.bytes.drop q).take 8 := by
    apply List.ext_getElem?
    intro j
    simp only [List.getElem?_take, List.getElem?_drop]
    split
    · exact hbytes (q + j) (Nat.le_add_right q j) (by omega)
    · rfl
  unfold readLeU64 inRange
  rw [hsize, hslice]

theorem readLeU64_writeLeU64_of_apart (h : m.writeLeU64 p v = .ok m')
    (hapart : q + 8 ≤ p ∨ p + 8 ≤ q) : m'.readLeU64 q = m.readLeU64 q :=
  readLeU64_congr (size_writeLeU64 h) fun i hqi hiq => getElem?_writeLeU64 h (by omega)

theorem readLeU64_writeLeU64_self (h : m.writeLeU64 p v = .ok m') (hv : v < 2 ^ 64) :
    m'.readLeU64 p = .ok v := by
  obtain ⟨hin, rfl⟩ := writeLeU64_eq h
  have hle := (inRange_iff.1 hin).2
  simp only [size] at hle
  have hslice : ((m.bytes.take p ++ toLeBytes v ++ m.bytes.drop (p + 8)).drop p).take 8 =
      toLeBytes v := by
    rw [List.append_assoc, List.drop_append_of_le_length (by simp; omega),
      List.drop_eq_nil_of_le (by simp), List.nil_append,
      List.take_append_of_le_length (by simp)]
    exact List.take_of_length_le (by simp)
  have hin' : (⟨m.bytes.take p ++ toLeBytes v ++ m.bytes.drop (p + 8)⟩ : Memory).inRange p := by
    have hlt := (inRange_iff.1 hin).1
    rw [inRange_iff]
    simp only [size, List.length_append, List.length_take, length_toLeBytes, List.length_drop]
    omega
  simp only [readLeU64, hin', ite_true, hslice, fromLeBytes_toLeBytes hv]

theorem writeLeU64_ok (hin : m.inRange p) (v : ℕ) : ∃ m', m.writeLeU64 p v = .ok m' :=
  ⟨_, by rw [writeLeU64, if_pos hin]⟩

end Memory

/-! ### Headers -/

namespace Header

variable {m m' : Memory} {p q : ℕ}

theorem readFrom_congr (h : m'.readLeU64 q = m.readLeU64 q) :
    readFrom m' q = readFrom m q := by
  simp only [readFrom, h]

/-- A header whose link is a pointer below `NIL_MARKER`, as every header of the heap is. -/
def Encodable : Header → Prop
  | .free (.ptr addr) => addr < nilMarker
  | _ => True

theorem rawValue_lt {hdr : Header} (henc : hdr.Encodable) :
    (match hdr with
      | .occupied order => order.raw + u32Bound
      | .free link => link.intoRaw) < 2 ^ 64 := by
  cases hdr with
  | occupied o =>
    have hlt := o.isLt
    simp only [u32Bound, nOrders] at hlt ⊢
    omega
  | free link =>
    cases link with
    | nil =>
      simp only [Link.intoRaw, nilMarker, u32Bound]
      norm_num
    | ptr addr =>
      have hlt : addr < nilMarker := henc
      simp only [Link.intoRaw, nilMarker, u32Bound] at hlt ⊢
      omega

theorem nilMarker_lt : nilMarker < u32Bound :=
  Nat.sub_lt (Nat.two_pow_pos 32) Nat.one_pos

theorem readFrom_of_testBit_true {raw : ℕ} {o : Order} (hread : m.readLeU64 p = .ok raw)
    (hbit : raw.testBit 32 = true) (horder : Order.fromRaw (raw % u32Bound) = .ok o) :
    readFrom m p = .ok (.occupied o) := by
  simp only [readFrom, hread, hbit, horder, bind, Except.bind, if_true]
  rfl

theorem readFrom_of_testBit_false {raw : ℕ} (hread : m.readLeU64 p = .ok raw)
    (hbit : raw.testBit 32 = false) :
    readFrom m p = .ok (.free (Link.fromRaw (raw % u32Bound))) := by
  simp only [readFrom, hread, hbit, bind, Except.bind, Bool.false_eq_true, if_false]
  rfl

theorem readFrom_writeInto_self {hdr : Header} (henc : hdr.Encodable)
    (h : hdr.writeInto m p = .ok m') : readFrom m' p = .ok hdr := by
  have hread := Memory.readLeU64_writeLeU64_self h (rawValue_lt henc)
  cases hdr with
  | occupied o =>
    have hlt : o.raw < u32Bound := lt_trans o.isLt (by decide)
    have hbit : (o.raw + u32Bound).testBit 32 = true := by
      rw [u32Bound, Nat.add_comm, Nat.testBit_two_pow_add_eq, Nat.testBit_lt_two_pow hlt]
      rfl
    have hmod : (o.raw + u32Bound) % u32Bound = o.raw := by
      rw [Nat.add_mod_right, Nat.mod_eq_of_lt hlt]
    refine readFrom_of_testBit_true hread hbit ?_
    rw [hmod, Order.fromRaw, dif_pos o.isLt]
  | free link =>
    cases link with
    | nil =>
      rw [readFrom_of_testBit_false hread (Nat.testBit_lt_two_pow nilMarker_lt)]
      simp only [Link.intoRaw, Nat.mod_eq_of_lt nilMarker_lt, Link.fromRaw, ne_eq,
        not_true_eq_false, if_false]
    | ptr addr =>
      have hlt : addr < nilMarker := henc
      rw [readFrom_of_testBit_false hread (Nat.testBit_lt_two_pow (hlt.trans nilMarker_lt))]
      simp only [Link.intoRaw, Nat.mod_eq_of_lt (hlt.trans nilMarker_lt), Link.fromRaw,
        Nat.ne_of_lt hlt, ne_eq, not_false_eq_true, if_true]

theorem readFrom_writeInto_of_apart {hdr : Header} (h : hdr.writeInto m p = .ok m')
    (hapart : q + 8 ≤ p ∨ p + 8 ≤ q) : readFrom m' q = readFrom m q :=
  readFrom_congr (Memory.readLeU64_writeLeU64_of_apart h hapart)

theorem writeInto_ok (hdr : Header) (hin : m.inRange p) : ∃ m', hdr.writeInto m p = .ok m' :=
  Memory.writeLeU64_ok hin _

theorem size_writeInto {hdr : Header} (h : hdr.writeInto m p = .ok m') : m'.size = m.size :=
  Memory.size_writeLeU64 h

end Header

/-- The free list that starts at `link`, as the headers in memory chain it. -/
inductive FreeChain (m : Memory) : Link → List ℕ → Prop
  | nil : FreeChain m .nil []
  | cons {h : ℕ} {next : Link} {hs : List ℕ} :
      Header.readFrom m h = .ok (.free next) → FreeChain m next hs → FreeChain m (.ptr h) (h :: hs)

theorem FreeChain.congr {m m' : Memory} {link : Link} {hs : List ℕ} (hc : FreeChain m link hs)
    (hread : ∀ h ∈ hs, Header.readFrom m' h = Header.readFrom m h) : FreeChain m' link hs := by
  induction hc with
  | nil => exact .nil
  | cons hh _ ih =>
    refine .cons ?_ (ih fun h hm => hread h (List.mem_cons_of_mem _ hm))
    rw [hread _ List.mem_cons_self, hh]

end Tetcore.Allocator
