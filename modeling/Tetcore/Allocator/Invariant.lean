import Mathlib
import Tetcore.Allocator.Layout

/-!
# The layout of the heap over a run

A well-behaved runtime frees only pointers that `allocate` returned and that it has not freed
since, and between two calls writes only into the payloads it holds. Along such a run, up to the
first call that fails, the heap from the aligned heap base to the bumper is cut into chunks, each
an eight-byte header and a payload of its order's size, that do not overlap. A chunk is live, its
header reading `Occupied(order)`, or free, its header linking it into the free list of its order;
`total_size` is the sum over the live ones (`Layout`). Each call keeps this (`Layout.allocate`,
`Layout.deallocate`, `Layout.payloadWrite`), every deallocation of a live pointer succeeds, and an
allocation fails only when its size is too large, when there is no room left, or, when the bumper
is within `cap + 8` bytes of `2^32`, with a panic on the overflow of `bumper + size` in `bump`.

After a failed call the allocator is poisoned (`Allocator.Poison`): the runs here stop there.
-/

namespace Tetcore.Allocator

/-- A chunk of the heap: its header pointer and its order. -/
structure Chunk where
  header : ℕ
  order : Order
  deriving DecidableEq, Repr

namespace Chunk

/-- `order.size() + HEADER_SIZE`: the bytes of the chunk. -/
def extent (c : Chunk) : ℕ := c.order.size + headerSize

/-- The pointer `allocate` returns for the chunk. -/
def ptr (c : Chunk) : ℕ := c.header + headerSize

/-- One past the last byte of the chunk. -/
def stop (c : Chunk) : ℕ := c.header + c.extent

/-- Two chunks that do not overlap. -/
def Apart (c d : Chunk) : Prop := c.stop ≤ d.header ∨ d.stop ≤ c.header

theorem header_add_headerSize_lt_stop (c : Chunk) : c.header + headerSize < c.stop := by
  have hsize := c.order.size_pos
  simp only [stop, extent]
  omega

theorem Apart.symm {c d : Chunk} (h : Apart c d) : Apart d c := Or.symm h

instance : Std.Symm Apart := ⟨fun _ _ h => h.symm⟩

theorem Apart.headers {c d : Chunk} (h : Apart c d) :
    c.header + headerSize ≤ d.header ∨ d.header + headerSize ≤ c.header := by
  have hc := c.header_add_headerSize_lt_stop
  have hd := d.header_add_headerSize_lt_stop
  rcases h with h | h
  · exact .inl (by omega)
  · exact .inr (by omega)

end Chunk

/-- `(heap_base + ALIGNMENT - 1) / ALIGNMENT * ALIGNMENT`: the heap base rounded up. -/
def alignUp (heapBase : ℕ) : ℕ := (heapBase + alignment - 1) / alignment * alignment

/-- The heap between two calls, for the aligned heap base `base`: the live and the free chunks lie
between `base` and the bumper and inside the memory, aligned and apart; the headers of the free ones
chain the free list of each order, those of the live ones are occupied; the chunks take no more
room than the bumper has passed, and `total_size` is the room of the live ones. -/
structure Layout (base : ℕ) (a : FreeingBumpHeapAllocator) (m : Memory) (live free : List Chunk) :
    Prop where
  notPoisoned : a.poisoned = false
  base_le_bumper : base ≤ a.bumper
  bumper_aligned : a.bumper % alignment = 0
  bumper_lt : a.bumper < u32Bound
  size_lt : m.size < u32Bound
  base_le_header : ∀ c ∈ live ++ free, base ≤ c.header
  header_aligned : ∀ c ∈ live ++ free, c.header % alignment = 0
  stop_le_bumper : ∀ c ∈ live ++ free, c.stop ≤ a.bumper
  stop_le_size : ∀ c ∈ live ++ free, c.stop ≤ m.size
  apart : (live ++ free).Pairwise Chunk.Apart
  extent_le : ((live ++ free).map Chunk.extent).sum ≤ a.bumper - base
  chains : ∀ o, FreeChain m (a.freeLists o) ((free.filter (·.order = o)).map Chunk.header)
  occupied : ∀ c ∈ live, Header.readFrom m c.header = .ok (.occupied c.order)
  totalSize_eq : a.totalSize = (live.map Chunk.extent).sum

/-- Memory `m'` differs from `m` only inside the payloads of `live`. -/
def PayloadWrite (live : List Chunk) (m m' : Memory) : Prop :=
  m'.size = m.size ∧ ∀ i, (∀ c ∈ live, ¬(c.ptr ≤ i ∧ i < c.stop)) → m'.bytes[i]? = m.bytes[i]?

namespace Layout

variable {base : ℕ} {a : FreeingBumpHeapAllocator} {m : Memory} {live free : List Chunk}

theorem new {heapBase : ℕ} (ha : FreeingBumpHeapAllocator.new heapBase = .ok a)
    (hsize : m.size < u32Bound) : Layout (alignUp heapBase) a m [] [] := by
  unfold FreeingBumpHeapAllocator.new at ha
  split at ha
  · cases ha
  · cases ha
    rename_i hbase
    have hround : (heapBase + alignment - 1) / alignment * alignment ≤ heapBase + alignment - 1 :=
      Nat.div_mul_le_self _ _
    have hlt : (heapBase + alignment - 1) / alignment * alignment < u32Bound := by omega
    refine ⟨rfl, le_rfl, Nat.mul_mod_left _ _, hlt, hsize, by simp, by simp, by simp,
      by simp, by simp, by simp, fun _ => ?_, by simp, rfl⟩
    exact .nil

theorem totalSize_le (h : Layout base a m live free) : a.totalSize ≤ a.bumper - base := by
  have hsum : (live.map Chunk.extent).sum ≤ ((live ++ free).map Chunk.extent).sum := by
    simp
  rw [h.totalSize_eq]
  exact hsum.trans h.extent_le

theorem readFrom_congr_of_apart {m' : Memory} (hsize : m'.size = m.size) {c : Chunk}
    (hbytes : ∀ i, c.header ≤ i → i < c.header + headerSize → m'.bytes[i]? = m.bytes[i]?) :
    Header.readFrom m' c.header = Header.readFrom m c.header :=
  Header.readFrom_congr (Memory.readLeU64_congr hsize hbytes)

theorem payloadWrite (h : Layout base a m live free) {m' : Memory} (hw : PayloadWrite live m m') :
    Layout base a m' live free := by
  obtain ⟨hsize, hbytes⟩ := hw
  -- the header bytes of every chunk lie outside every live payload
  have hheaders : ∀ d ∈ live ++ free, Header.readFrom m' d.header = Header.readFrom m d.header := by
    intro d hd
    refine readFrom_congr_of_apart hsize fun i hdi hid => hbytes i fun c hc hpayload => ?_
    by_cases hcd : c = d
    · subst hcd
      simp only [Chunk.ptr] at hpayload
      omega
    · have hapart := h.apart.forall (List.mem_append_left free hc) hd hcd
      simp only [Chunk.ptr] at hpayload
      rcases hapart with hapart | hapart
      · have := c.header_add_headerSize_lt_stop
        omega
      · have := d.header_add_headerSize_lt_stop
        omega
  refine { h with
    size_lt := hsize ▸ h.size_lt
    stop_le_size := fun c hc => hsize ▸ h.stop_le_size c hc
    chains := fun o => (h.chains o).congr fun x hx => ?_
    occupied := fun c hc => (hheaders c (List.mem_append_left free hc)).trans (h.occupied c hc) }
  obtain ⟨d, hd, rfl⟩ := List.mem_map.mp hx
  exact hheaders d (List.mem_append_right live (List.mem_filter.mp hd).1)

/-! ### Writing a header -/

variable {m' : Memory}

theorem readFrom_writeInto_of_chunk_apart {hdr : Header} {c d : Chunk}
    (hw : hdr.writeInto m c.header = .ok m') (hcd : Chunk.Apart c d) :
    Header.readFrom m' d.header = Header.readFrom m d.header :=
  Header.readFrom_writeInto_of_apart hw hcd.headers.symm

theorem freeChain_writeInto_of_apart {hdr : Header} {c : Chunk} {link : Link} {ds : List Chunk}
    (hw : hdr.writeInto m c.header = .ok m') (hchain : FreeChain m link (ds.map Chunk.header))
    (hapart : ∀ d ∈ ds, Chunk.Apart c d) : FreeChain m' link (ds.map Chunk.header) :=
  hchain.congr fun x hx => by
    obtain ⟨d, hd, rfl⟩ := List.mem_map.mp hx
    exact readFrom_writeInto_of_chunk_apart hw (hapart d hd)

/-! ### The free lists -/

theorem chain_head (h : Layout base a m live free) {o : Order} {hp : ℕ}
    (hhead : a.freeLists o = .ptr hp) :
    ⟨hp, o⟩ ∈ free ∧ ∃ next, Header.readFrom m hp = .ok (.free next) ∧
      FreeChain m next (((free.erase ⟨hp, o⟩).filter (·.order = o)).map Chunk.header) := by
  have hchain := h.chains o
  rw [hhead] at hchain
  generalize hL : (free.filter (·.order = o)).map Chunk.header = L at hchain
  cases hchain with
  | cons hread hrest =>
    rename_i next hs
    -- the first free chunk of order `o` has the head as its header
    obtain ⟨c, F, hfilter, hheader, rfl⟩ := List.map_eq_cons_iff.mp hL
    have hcmem : c ∈ free.filter (·.order = o) := hfilter ▸ List.mem_cons_self
    have hc : c = ⟨hp, o⟩ := by
      have horder : c.order = o := by simpa using (List.mem_filter.mp hcmem).2
      cases c
      simp_all
    subst hc
    refine ⟨(List.mem_filter.mp hcmem).1, next, hread, ?_⟩
    rw [← List.erase_filter, hfilter, List.erase_cons_head]
    exact hrest

theorem pop (h : Layout base a m live free) {o : Order} {hp : ℕ} {next : Link}
    (hmem : (⟨hp, o⟩ : Chunk) ∈ free)
    (hnext : FreeChain m next (((free.erase ⟨hp, o⟩).filter (·.order = o)).map Chunk.header))
    (hw : (Header.occupied o).writeInto m hp = .ok m') :
    Layout base
      { a with
        freeLists := Function.update a.freeLists o next
        totalSize := a.totalSize + (o.size + headerSize) }
      m' (⟨hp, o⟩ :: live) (free.erase ⟨hp, o⟩) := by
  set c : Chunk := ⟨hp, o⟩ with hc
  -- the chunks are the same, with `c` moved to the live ones
  have hperm : ((c :: live) ++ free.erase c).Perm (live ++ free) :=
    List.perm_middle.symm.trans ((List.perm_cons_erase hmem).symm.append_left live)
  have hapart : ((c :: live) ++ free.erase c).Pairwise Chunk.Apart :=
    (hperm.pairwise_iff fun hab => hab.symm).mpr h.apart
  have hc_apart : ∀ d ∈ live ++ free.erase c, Chunk.Apart c d := (List.pairwise_cons.mp hapart).1
  have hsize := Header.size_writeInto hw
  refine ⟨h.notPoisoned, h.base_le_bumper, h.bumper_aligned, h.bumper_lt, hsize ▸ h.size_lt,
    fun d hd => h.base_le_header d (hperm.subset hd), fun d hd => h.header_aligned d (hperm.subset hd),
    fun d hd => h.stop_le_bumper d (hperm.subset hd),
    fun d hd => hsize ▸ h.stop_le_size d (hperm.subset hd), hapart,
    ((hperm.map Chunk.extent).sum_eq).trans_le h.extent_le, fun o' => ?_, ?_, ?_⟩
  · -- the chain of `o` loses its head, the others are kept
    dsimp only
    by_cases ho : o' = o
    · subst ho
      rw [Function.update_self]
      exact freeChain_writeInto_of_apart hw hnext fun d hd =>
        hc_apart d (List.mem_append_right live (List.mem_filter.mp hd).1)
    · have hcnot : c ∉ free.filter (·.order = o') := fun hcmem => by
        have horder : o = o' := by simpa [hc] using (List.mem_filter.mp hcmem).2
        exact ho horder.symm
      rw [Function.update_of_ne ho, ← List.erase_filter, List.erase_of_not_mem hcnot]
      refine freeChain_writeInto_of_apart hw (h.chains o') fun d hd => hc_apart d ?_
      have hdo : d.order = o' := by simpa using (List.mem_filter.mp hd).2
      have hdc : d ≠ c := fun hdc => ho (by rw [← hdo, hdc])
      exact List.mem_append_right live
        ((List.mem_erase_of_ne hdc).mpr (List.mem_filter.mp hd).1)
  · -- `c` now reads occupied; the other live headers are untouched
    intro d hd
    rcases List.mem_cons.mp hd with rfl | hd
    · exact Header.readFrom_writeInto_self trivial hw
    · rw [readFrom_writeInto_of_chunk_apart hw (hc_apart d (List.mem_append_left _ hd))]
      exact h.occupied d hd
  · simp only [List.map_cons, List.sum_cons, h.totalSize_eq, Chunk.extent, hc]
    omega

theorem bump (h : Layout base a m live free) {o : Order}
    (hfit : a.bumper + (o.size + headerSize) ≤ m.size)
    (hlt : a.bumper + (o.size + headerSize) < u32Bound)
    (hw : (Header.occupied o).writeInto m a.bumper = .ok m') :
    Layout base
      { a with
        bumper := a.bumper + (o.size + headerSize)
        totalSize := a.totalSize + (o.size + headerSize) }
      m' (⟨a.bumper, o⟩ :: live) free := by
  set c : Chunk := ⟨a.bumper, o⟩ with hc
  -- every chunk so far ends at or before the bumper, where `c` starts
  have hc_apart : ∀ d ∈ live ++ free, Chunk.Apart c d := fun d hd => .inr (h.stop_le_bumper d hd)
  have hstop : c.stop = a.bumper + (o.size + headerSize) := rfl
  have hsize := Header.size_writeInto hw
  have haligned : (a.bumper + (o.size + headerSize)) % alignment = 0 := by
    have hbumper := h.bumper_aligned
    have horder := o.size_mod
    simp only [alignment, headerSize] at hbumper horder ⊢
    omega
  have hbase := h.base_le_bumper
  refine ⟨h.notPoisoned, le_trans hbase (Nat.le_add_right _ _), haligned, hlt, hsize ▸ h.size_lt,
    ?_, ?_, ?_, ?_, List.pairwise_cons.mpr ⟨hc_apart, h.apart⟩, ?_, fun o' => ?_, ?_, ?_⟩
  · intro d hd
    rcases List.mem_cons.mp hd with rfl | hd
    · exact hbase
    · exact h.base_le_header d hd
  · intro d hd
    rcases List.mem_cons.mp hd with rfl | hd
    · exact h.bumper_aligned
    · exact h.header_aligned d hd
  · intro d hd
    rcases List.mem_cons.mp hd with rfl | hd
    · exact le_rfl
    · exact le_trans (h.stop_le_bumper d hd) (Nat.le_add_right _ _)
  · intro d hd
    rcases List.mem_cons.mp hd with rfl | hd
    · rw [hsize]
      exact hfit
    · exact hsize ▸ h.stop_le_size d hd
  · -- the new chunk takes the room the bumper moves over
    have hsum := h.extent_le
    simp only [List.cons_append, List.map_cons, List.sum_cons, Chunk.extent, hc] at hsum ⊢
    omega
  · exact freeChain_writeInto_of_apart hw (h.chains o') fun d hd =>
      hc_apart d (List.mem_append_right live (List.mem_filter.mp hd).1)
  · intro d hd
    rcases List.mem_cons.mp hd with rfl | hd
    · exact Header.readFrom_writeInto_self trivial hw
    · rw [readFrom_writeInto_of_chunk_apart hw (hc_apart d (List.mem_append_left _ hd))]
      exact h.occupied d hd
  · simp only [List.map_cons, List.sum_cons, h.totalSize_eq, Chunk.extent, hc]
    omega

theorem encodable_head (h : Layout base a m live free) (o : Order) :
    (Header.free (a.freeLists o)).Encodable := by
  cases hhead : a.freeLists o with
  | nil => trivial
  | ptr hp =>
    have hmem := (h.chain_head hhead).1
    have hstop := h.stop_le_size _ (List.mem_append_right live hmem)
    have hlt := (⟨hp, o⟩ : Chunk).header_add_headerSize_lt_stop
    have hsize := h.size_lt
    show hp < nilMarker
    simp only [nilMarker, headerSize] at hlt hsize ⊢
    omega

theorem push (h : Layout base a m live free) {c : Chunk} (hc : c ∈ live)
    (hw : (Header.free (a.freeLists c.order)).writeInto m c.header = .ok m') :
    Layout base
      { a with
        freeLists := Function.update a.freeLists c.order (.ptr c.header)
        totalSize := a.totalSize - (c.order.size + headerSize) }
      m' (live.erase c) (c :: free) := by
  -- the chunks are the same, with `c` moved to the free ones
  have hfront : (live ++ free).Perm (c :: (live.erase c ++ free)) :=
    (List.perm_cons_erase hc).append_right free
  have hperm : (live.erase c ++ c :: free).Perm (live ++ free) :=
    List.perm_middle.trans hfront.symm
  have hc_apart : ∀ d ∈ live.erase c ++ free, Chunk.Apart c d :=
    (List.pairwise_cons.mp ((hfront.pairwise_iff fun hab => hab.symm).mp h.apart)).1
  have hsize := Header.size_writeInto hw
  refine ⟨h.notPoisoned, h.base_le_bumper, h.bumper_aligned, h.bumper_lt, hsize ▸ h.size_lt,
    fun d hd => h.base_le_header d (hperm.subset hd), fun d hd => h.header_aligned d (hperm.subset hd),
    fun d hd => h.stop_le_bumper d (hperm.subset hd),
    fun d hd => hsize ▸ h.stop_le_size d (hperm.subset hd),
    (hperm.pairwise_iff fun hab => hab.symm).mpr h.apart,
    ((hperm.map Chunk.extent).sum_eq).trans_le h.extent_le, fun o => ?_, ?_, ?_⟩
  · -- the chain of the chunk's order gains it as its head, the others are kept
    dsimp only
    have hrest : ∀ d ∈ free.filter (·.order = o), Chunk.Apart c d := fun d hd =>
      hc_apart d (List.mem_append_right _ (List.mem_filter.mp hd).1)
    by_cases ho : o = c.order
    · subst ho
      rw [Function.update_self, List.filter_cons_of_pos (by simp), List.map_cons]
      exact .cons (Header.readFrom_writeInto_self (h.encodable_head c.order) hw)
        (freeChain_writeInto_of_apart hw (h.chains c.order) hrest)
    · rw [Function.update_of_ne ho, List.filter_cons_of_neg (by simpa using Ne.symm ho)]
      exact freeChain_writeInto_of_apart hw (h.chains o) hrest
  · -- the other live headers are untouched
    intro d hd
    rw [readFrom_writeInto_of_chunk_apart hw (hc_apart d (List.mem_append_left _ hd))]
    exact h.occupied d (List.mem_of_mem_erase hd)
  · have hsum : (live.map Chunk.extent).sum = c.extent + ((live.erase c).map Chunk.extent).sum := by
      rw [((List.perm_cons_erase hc).map Chunk.extent).sum_eq, List.map_cons, List.sum_cons]
    simp only [h.totalSize_eq, hsum, Chunk.extent]
    omega

end Layout

theorem FreeingBumpHeapAllocator.finishAllocate_of_writeInto {a : FreeingBumpHeapAllocator}
    {m m' : Memory} {o : Order} {hp : ℕ} (hw : (Header.occupied o).writeInto m hp = .ok m')
    (htotal : a.totalSize + (o.size + headerSize) < u32Bound) :
    a.finishAllocate m o hp =
      (.ok (hp + headerSize), { a with totalSize := a.totalSize + (o.size + headerSize) }, m') := by
  unfold FreeingBumpHeapAllocator.finishAllocate
  rw [hw]
  dsimp only
  rw [if_neg (Nat.not_le.mpr htotal)]

namespace Layout

variable {base : ℕ} {a : FreeingBumpHeapAllocator} {m : Memory} {live free : List Chunk}

theorem inRange_of_stop_le (h : Layout base a m live free) {c : Chunk} (hstop : c.stop ≤ m.size) :
    m.inRange c.header := by
  have hlt := c.header_add_headerSize_lt_stop
  have hsize := h.size_lt
  rw [Memory.inRange_iff]
  simp only [headerSize] at hlt ⊢
  omega

/-- **`allocate` on a laid-out heap.** It returns the pointer past the header of a chunk, aligned,
above the heap base and inside the memory, with the layout kept and the chunk live; or it fails
because the size is above 16 MiB; or, with no free chunk of the order, because the chunk does not fit
below the end of the memory, or with a panic when `bumper + size` overflows `u32`. -/
theorem allocate (h : Layout base a m live free) (size : ℕ) :
    (∃ o hp, Order.fromSize size = .ok o ∧ (a.allocate m size).1 = .ok (hp + headerSize) ∧
        base ≤ hp ∧ hp % alignment = 0 ∧ hp + headerSize + o.size ≤ m.size ∧
        Layout base (a.allocate m size).2.1 (a.allocate m size).2.2 (⟨hp, o⟩ :: live)
          (free.erase ⟨hp, o⟩)) ∨
      ((a.allocate m size).1 = .err .requestedAllocationTooLarge ∧ maxPossibleAllocation < size) ∨
      (∃ o, Order.fromSize size = .ok o ∧ a.freeLists o = .nil ∧
        a.bumper + (o.size + headerSize) < u32Bound ∧ m.size < a.bumper + (o.size + headerSize) ∧
        (a.allocate m size).1 = .err .allocatorOutOfSpace) ∨
      (∃ o, Order.fromSize size = .ok o ∧ a.freeLists o = .nil ∧
        u32Bound ≤ a.bumper + (o.size + headerSize) ∧ (a.allocate m size).1 = .panic) := by
  have hpoisoned := h.notPoisoned
  cases hsize : Order.fromSize size with
  | error e =>
    obtain ⟨rfl, hlarge⟩ := Order.fromSize_err hsize
    refine .inr (.inl ⟨?_, hlarge⟩)
    simp [FreeingBumpHeapAllocator.allocate, hpoisoned, hsize]
  | ok o =>
    cases hhead : a.freeLists o with
    | ptr hp =>
      -- the head of the free list is a free chunk inside the memory
      obtain ⟨hmem, next, hread, hnext⟩ := h.chain_head hhead
      have hchunk := List.mem_append_right live hmem
      have hstop := h.stop_le_size _ hchunk
      obtain ⟨m', hw⟩ := Header.writeInto_ok (.occupied o) (h.inRange_of_stop_le hstop)
      have hlayout := h.pop hmem hnext hw
      have htotal : a.totalSize + (o.size + headerSize) < u32Bound := by
        have hle := hlayout.totalSize_le
        have hlt := h.bumper_lt
        dsimp only at hle
        omega
      have hsize' := h.size_lt
      simp only [Chunk.stop, Chunk.extent] at hstop
      have heq : a.allocate m size = (.ok (hp + headerSize),
          { { a with freeLists := Function.update a.freeLists o next } with
            totalSize := a.totalSize + (o.size + headerSize) }, m') := by
        simp only [FreeingBumpHeapAllocator.allocate, hpoisoned, Bool.false_eq_true, if_false,
          hsize, hhead]
        rw [if_neg (by omega), if_neg (by omega), hread]
        exact FreeingBumpHeapAllocator.finishAllocate_of_writeInto hw htotal
      refine .inl ⟨o, hp, rfl, by rw [heq], h.base_le_header _ hchunk, h.header_aligned _ hchunk,
        by omega, ?_⟩
      rw [heq]
      exact hlayout
    | nil =>
      -- no free chunk of the order: `bump`, whose sum can overflow before it is compared
      by_cases hover : u32Bound ≤ a.bumper + (o.size + headerSize)
      · refine .inr (.inr (.inr ⟨o, rfl, hhead, hover, ?_⟩))
        simp [FreeingBumpHeapAllocator.allocate, hpoisoned, hsize, hhead,
          FreeingBumpHeapAllocator.bump, hover]
      have hlt := Nat.lt_of_not_le hover
      by_cases hroom : m.size < a.bumper + (o.size + headerSize)
      · refine .inr (.inr (.inl ⟨o, rfl, hhead, hlt, hroom, ?_⟩))
        simp [FreeingBumpHeapAllocator.allocate, hpoisoned, hsize, hhead,
          FreeingBumpHeapAllocator.bump, hover, hroom]
      have hfit := Nat.le_of_not_lt hroom
      have hin : m.inRange a.bumper := by
        have hpos := o.size_pos
        rw [Memory.inRange_iff]
        simp only [headerSize] at hfit hlt ⊢
        omega
      obtain ⟨m', hw⟩ := Header.writeInto_ok (.occupied o) hin
      have hlayout := h.bump hfit hlt hw
      have htotal : a.totalSize + (o.size + headerSize) < u32Bound := by
        have hle := hlayout.totalSize_le
        dsimp only at hle
        omega
      have heq : a.allocate m size = (.ok (a.bumper + headerSize),
          { { a with bumper := a.bumper + (o.size + headerSize) } with
            totalSize := a.totalSize + (o.size + headerSize) }, m') := by
        simp only [FreeingBumpHeapAllocator.allocate, hpoisoned, Bool.false_eq_true, if_false,
          hsize, hhead, FreeingBumpHeapAllocator.bump]
        rw [if_neg hover, if_neg (Nat.not_lt.mpr hfit)]
        exact FreeingBumpHeapAllocator.finishAllocate_of_writeInto hw htotal
      -- the new chunk starts at the bumper, past every free chunk
      have hfree : free.erase ⟨a.bumper, o⟩ = free := by
        refine List.erase_of_not_mem fun hmem => ?_
        have hstop := h.stop_le_bumper _ (List.mem_append_right live hmem)
        have hpast := (⟨a.bumper, o⟩ : Chunk).header_add_headerSize_lt_stop
        dsimp only at hpast
        omega
      refine .inl ⟨o, a.bumper, rfl, by rw [heq], h.base_le_bumper, h.bumper_aligned, by omega, ?_⟩
      rw [heq, hfree]
      exact hlayout

theorem deallocate (h : Layout base a m live free) {c : Chunk} (hc : c ∈ live) :
    (a.deallocate m c.ptr).1 = .ok () ∧
      Layout base (a.deallocate m c.ptr).2.1 (a.deallocate m c.ptr).2.2 (live.erase c)
        (c :: free) := by
  have hchunk := List.mem_append_left free hc
  obtain ⟨m', hw⟩ := Header.writeInto_ok (.free (a.freeLists c.order))
    (h.inRange_of_stop_le (h.stop_le_size c hchunk))
  have hlayout := h.push hc hw
  -- the live chunks count the chunk's bytes
  have hextent : c.order.size + headerSize ≤ a.totalSize := by
    rw [h.totalSize_eq]
    exact List.le_sum_of_mem (List.mem_map_of_mem hc)
  have heq : a.deallocate m c.ptr = (.ok (),
      { { a with freeLists := Function.update a.freeLists c.order (.ptr c.header) } with
        totalSize := a.totalSize - (c.order.size + headerSize) }, m') := by
    simp only [FreeingBumpHeapAllocator.deallocate, h.notPoisoned, Bool.false_eq_true, if_false,
      Chunk.ptr]
    rw [if_neg (by simp only [headerSize]; omega), Nat.add_sub_cancel, h.occupied c hc]
    dsimp only
    rw [hw]
    dsimp only
    rw [if_neg (Nat.not_lt.mpr hextent)]
  rw [heq]
  exact ⟨rfl, hlayout⟩

end Layout

/-! ## Runs -/

/-- The runtime's side of a run: the allocator, the memory, and the chunks of the pointers it holds
and of those it has freed. -/
structure Client where
  allocator : FreeingBumpHeapAllocator
  mem : Memory
  live : List Chunk
  free : List Chunk

/-- The states of a well-behaved runtime's runs, from `new(heap_base)` on a memory of fewer than `2^32`
bytes and up to the first call that fails: an allocation that returns a pointer makes its chunk
live; the runtime frees only live pointers, and writes only into live payloads. -/
inductive Reachable (heapBase : ℕ) : Client → Prop
  | new {a : FreeingBumpHeapAllocator} {mem : Memory} :
      FreeingBumpHeapAllocator.new heapBase = .ok a → mem.size < u32Bound →
      Reachable heapBase ⟨a, mem, [], []⟩
  | allocate {c : Client} {size p : ℕ} {o : Order} :
      Reachable heapBase c → (c.allocator.allocate c.mem size).1 = .ok p →
      Order.fromSize size = .ok o →
      Reachable heapBase ⟨(c.allocator.allocate c.mem size).2.1,
        (c.allocator.allocate c.mem size).2.2, ⟨p - headerSize, o⟩ :: c.live,
        c.free.erase ⟨p - headerSize, o⟩⟩
  | deallocate {c : Client} {chunk : Chunk} :
      Reachable heapBase c → chunk ∈ c.live →
      Reachable heapBase ⟨(c.allocator.deallocate c.mem chunk.ptr).2.1,
        (c.allocator.deallocate c.mem chunk.ptr).2.2, c.live.erase chunk, chunk :: c.free⟩
  | write {c : Client} {mem : Memory} :
      Reachable heapBase c → PayloadWrite c.live c.mem mem → Reachable heapBase { c with mem := mem }

theorem Reachable.layout {heapBase : ℕ} {c : Client} (hc : Reachable heapBase c) :
    Layout (alignUp heapBase) c.allocator c.mem c.live c.free := by
  induction hc with
  | new ha hsize => exact Layout.new ha hsize
  | @allocate c size p o _ hp ho ih =>
    -- of the outcomes of `allocate`, only the first returns a pointer
    rcases ih.allocate size with ⟨o', hp', ho', hok, -, -, -, hlayout⟩ | ⟨herr, -⟩ |
        ⟨_, -, -, -, -, herr⟩ | ⟨_, -, -, -, herr⟩
    · rw [hok] at hp
      cases hp
      rw [ho] at ho'
      cases ho'
      simpa only [Nat.add_sub_cancel] using hlayout
    · rw [herr] at hp
      cases hp
    · rw [herr] at hp
      cases hp
    · rw [herr] at hp
      cases hp
  | deallocate _ hchunk ih => exact (ih.deallocate hchunk).2
  | write _ hw ih => exact ih.payloadWrite hw

/-- Along every run in which the runtime frees only the pointers it holds and writes only into their
payloads, up to the first call that fails: the live chunks are aligned, above the aligned heap base,
inside the memory and apart, headers included; `total_size` is the room they take; freeing any of
them succeeds; and an allocation returns an aligned pointer with room for the size rounded up, or
fails because the size is above 16 MiB, or finds no free chunk of its order and either runs past
the end of the memory or panics on the overflow of `bumper + size`. -/
theorem allocator_live_layout {heapBase : ℕ} {c : Client} (hc : Reachable heapBase c) :
    (∀ chunk ∈ c.live, chunk.ptr % alignment = 0 ∧ alignUp heapBase ≤ chunk.header ∧
        chunk.stop ≤ c.mem.size) ∧
      c.live.Pairwise Chunk.Apart ∧
      c.allocator.totalSize = (c.live.map Chunk.extent).sum ∧
      (∀ chunk ∈ c.live, (c.allocator.deallocate c.mem chunk.ptr).1 = .ok ()) ∧
      ∀ size,
        (∃ p, (c.allocator.allocate c.mem size).1 = .ok p ∧ p % alignment = 0 ∧
          alignUp heapBase + headerSize ≤ p ∧ size ≤ capacity size ∧
          p + capacity size ≤ c.mem.size) ∨
        ((c.allocator.allocate c.mem size).1 = .err .requestedAllocationTooLarge ∧
          maxPossibleAllocation < size) ∨
        ((c.allocator.allocate c.mem size).1 = .err .allocatorOutOfSpace ∧
          size ≤ maxPossibleAllocation ∧
          (∀ o, Order.fromSize size = .ok o → c.allocator.freeLists o = .nil) ∧
          c.mem.size < c.allocator.bumper + (capacity size + headerSize)) ∨
        ((c.allocator.allocate c.mem size).1 = .panic ∧
          (∀ o, Order.fromSize size = .ok o → c.allocator.freeLists o = .nil) ∧
          u32Bound ≤ c.allocator.bumper + (capacity size + headerSize)) := by
  have h := hc.layout
  refine ⟨fun chunk hchunk => ?_, (List.pairwise_append.mp h.apart).1, h.totalSize_eq,
    fun chunk hchunk => (h.deallocate hchunk).1, fun size => ?_⟩
  · have hmem := List.mem_append_left c.free hchunk
    have haligned := h.header_aligned chunk hmem
    refine ⟨?_, h.base_le_header chunk hmem, h.stop_le_size chunk hmem⟩
    simp only [Chunk.ptr, alignment, headerSize] at haligned ⊢
    omega
  -- the outcome lemma, with the order's size as the capacity of the size
  rcases h.allocate size with ⟨o, hp, ho, hok, hbase, haligned, hfit, -⟩ | htoo |
      ⟨o, ho, hhead, -, hroom, herr⟩ | ⟨o, ho, hhead, hover, hpanic⟩
  · have hcap := Order.size_of_fromSize ho
    refine .inl ⟨hp + headerSize, hok, ?_, ?_, le_capacity size, ?_⟩
    · simp only [alignment, headerSize] at haligned ⊢
      omega
    · omega
    · rw [← hcap]
      omega
  · exact .inr (.inl htoo)
  · have hcap := Order.size_of_fromSize ho
    have hsmall : size ≤ maxPossibleAllocation := by
      by_contra hlarge
      simp [Order.fromSize, Nat.lt_of_not_le hlarge] at ho
    refine .inr (.inr (.inl ⟨herr, hsmall, fun o' ho' => ?_, by rw [← hcap]; omega⟩))
    rw [ho] at ho'
    cases ho'
    exact hhead
  · have hcap := Order.size_of_fromSize ho
    refine .inr (.inr (.inr ⟨hpanic, fun o' ho' => ?_, by rw [← hcap]; omega⟩))
    rw [ho] at ho'
    cases ho'
    exact hhead

/-- The allocator `new(0)` returns. -/
def freshAllocator : FreeingBumpHeapAllocator := ⟨0, fun _ => .nil, 0, false⟩

/-- Thirty-two bytes of zeroed memory. -/
def zeroMemory : Memory := ⟨List.replicate 32 0⟩

/-- Allocating 8 bytes from `new(0)` in 32 bytes makes the chunk at 0 live, and freeing its pointer
8 succeeds. -/
theorem allocator_live_layout_fresh :
    ((freshAllocator.allocate zeroMemory 8).2.1.deallocate
      (freshAllocator.allocate zeroMemory 8).2.2 8).1 = .ok () :=
  (allocator_live_layout (@Reachable.allocate 0 ⟨freshAllocator, zeroMemory, [], []⟩ 8 8
    ⟨0, by decide⟩ (@Reachable.new 0 freshAllocator zeroMemory rfl (by decide)) (by decide)
    (by decide))).2.2.2.1 ⟨0, ⟨0, by decide⟩⟩ List.mem_cons_self

/-- Sixteen bytes of zeroed memory: room for one chunk of order 0. -/
def sixteenBytes : Memory := ⟨List.replicate 16 0⟩

/-- The first allocation of 8 bytes in sixteen bytes. -/
def firstAllocation : Outcome Error ℕ × FreeingBumpHeapAllocator × Memory :=
  freshAllocator.allocate sixteenBytes 8

/-- The second allocation of 8 bytes, which finds no room. -/
def secondAllocation : Outcome Error ℕ × FreeingBumpHeapAllocator × Memory :=
  firstAllocation.2.1.allocate firstAllocation.2.2 8

/-- After an allocation runs out of space the allocator is poisoned: freeing the live pointer `8`
fails, as every later call does. And with the heap base sixteen below `2^32`, which `new` accepts,
`bump` overflows on the first allocation and panics. -/
theorem allocator_fails_after_first_error :
    (FreeingBumpHeapAllocator.new 0 = .ok freshAllocator ∧ sixteenBytes.size < u32Bound ∧
      firstAllocation.1 = .ok 8 ∧ secondAllocation.1 = .err .allocatorOutOfSpace ∧
      (secondAllocation.2.1.deallocate secondAllocation.2.2 8).1 =
        .err (.other "the allocator has been poisoned")) ∧
    ∃ a, FreeingBumpHeapAllocator.new (u32Bound - 16) = .ok a ∧ (a.allocate ⟨[]⟩ 8).1 = .panic :=
  ⟨⟨rfl, by decide, by decide, by decide, by decide⟩, ⟨_, rfl, by decide⟩⟩

end Tetcore.Allocator
