import Tetcore.Trie.NodeCodec

/-!
# What `decode_plan` can return

Every range in a plan that `decode_plan` returns lies within the data: each one comes from
`ByteSliceInput::take`, which checks it against the length of the slice, whatever the compact
decoder in between did with the offset.

`decode_plan` panics exactly when the header is a leaf or a branch with an odd nibble count and
there is no byte after it: the padding check indexes `data[input.offset]` before `take` checks
anything. One byte `0x41`, a leaf of one nibble, does it.
-/

namespace Tetcore.Trie

open ByteSliceInput

/-- The range is a range of bytes of `data`. -/
def Range.Within (data : List UInt8) (r : Range) : Prop :=
  r.start ≤ r.stop ∧ r.stop ≤ data.length

def NodeHandlePlan.range : NodeHandlePlan → Range
  | .hash r => r
  | .inline r => r

/-- Every byte range of a plan: the partial key, the value and the children. -/
def NodePlan.ranges : NodePlan → List Range
  | .empty => []
  | .leaf partialKey value => [partialKey.bytes, value]
  | .nibbledBranch partialKey value children =>
    partialKey.bytes :: value.toList ++ children.filterMap (Option.map NodeHandlePlan.range)

variable {compactU32 : Read ℕ} {hashLength : ℕ} {data : List UInt8}

theorem pure_eq_ok {α : Type} {a b : α} {offset o : ℕ} :
    (pure a : Read α) data offset = .ok (b, o) ↔ a = b ∧ offset = o := by
  simp [Read.pure_apply]

theorem take_eq_ok {count offset o : ℕ} {r : Range} (h : take count data offset = .ok (r, o)) :
    r = ⟨offset, offset + count⟩ ∧ o = offset + count ∧ offset + count ≤ data.length := by
  unfold take at h
  split at h
  · cases h
  · cases h
    exact ⟨rfl, rfl, by omega⟩

theorem take_within {count offset o : ℕ} {r : Range} (h : take count data offset = .ok (r, o)) :
    r.Within data := by
  obtain ⟨rfl, -, hlen⟩ := take_eq_ok h
  exact ⟨Nat.le_add_right _ _, hlen⟩

theorem decodePartial_within {nibbleCount offset o : ℕ} {p : NibbleSlicePlan}
    (h : decodePartial nibbleCount data offset = .ok (p, o)) : p.bytes.Within data := by
  obtain ⟨bytes, o₁, htake, hpure⟩ := Read.bind_eq_ok.mp h
  obtain ⟨rfl, -⟩ := pure_eq_ok.mp hpure
  exact take_within htake

theorem decodeChild_within {bitmap : Bitmap} {i offset o : ℕ} {child : Option NodeHandlePlan}
    (h : decodeChild compactU32 hashLength bitmap i data offset = .ok (child, o)) :
    ∀ handle ∈ child, handle.range.Within data := by
  unfold decodeChild at h
  split at h
  · obtain ⟨count, o₁, -, hrest⟩ := Read.bind_eq_ok.mp h
    obtain ⟨range, o₂, htake, hpure⟩ := Read.bind_eq_ok.mp hrest
    obtain ⟨rfl, -⟩ := pure_eq_ok.mp hpure
    intro handle hhandle
    rw [Option.mem_some_iff] at hhandle
    subst hhandle
    split <;> exact take_within htake
  · obtain ⟨rfl, -⟩ := pure_eq_ok.mp h
    intro handle hhandle
    cases hhandle

theorem decodeChildren_within {bitmap : Bitmap} (indices : List ℕ) {offset o : ℕ}
    {children : List (Option NodeHandlePlan)}
    (h : decodeChildren compactU32 hashLength bitmap indices data offset = .ok (children, o)) :
    ∀ child ∈ children, ∀ handle ∈ child, handle.range.Within data := by
  induction indices generalizing offset o children with
  | nil =>
    obtain ⟨rfl, -⟩ := pure_eq_ok.mp h
    intro child hchild
    cases hchild
  | cons i indices ih =>
    obtain ⟨child, o₁, hchild, hloop⟩ := Read.bind_eq_ok.mp h
    obtain ⟨rest, o₂, hrest, hpure⟩ := Read.bind_eq_ok.mp hloop
    obtain ⟨rfl, -⟩ := pure_eq_ok.mp hpure
    intro c hc
    rcases List.mem_cons.mp hc with rfl | hc
    · exact decodeChild_within hchild
    · exact ih hrest c hc

theorem decodeLeaf_within {nibbleCount offset o : ℕ} {plan : NodePlan}
    (h : decodeLeaf compactU32 nibbleCount data offset = .ok (plan, o)) :
    ∀ r ∈ plan.ranges, r.Within data := by
  obtain ⟨partialKey, o₁, hpartial, h₁⟩ := Read.bind_eq_ok.mp h
  obtain ⟨count, o₂, -, h₂⟩ := Read.bind_eq_ok.mp h₁
  obtain ⟨value, o₃, htake, hpure⟩ := Read.bind_eq_ok.mp h₂
  obtain ⟨rfl, -⟩ := pure_eq_ok.mp hpure
  intro r hr
  simp only [NodePlan.ranges, List.mem_cons, List.not_mem_nil, or_false] at hr
  rcases hr with rfl | rfl
  · exact decodePartial_within hpartial
  · exact take_within htake

theorem decodeValue_within {hasValue : Bool} {offset o : ℕ} {value : Option Range}
    (h : decodeValue compactU32 hasValue data offset = .ok (value, o)) :
    ∀ r ∈ value, r.Within data := by
  unfold decodeValue at h
  split at h
  · obtain ⟨count, o₁, -, h₁⟩ := Read.bind_eq_ok.mp h
    obtain ⟨range, o₂, htake, hpure⟩ := Read.bind_eq_ok.mp h₁
    obtain ⟨rfl, -⟩ := pure_eq_ok.mp hpure
    intro r hr
    rw [Option.mem_some_iff] at hr
    exact hr ▸ take_within htake
  · obtain ⟨rfl, -⟩ := pure_eq_ok.mp h
    intro r hr
    cases hr

theorem decodeBranch_within {hasValue : Bool} {nibbleCount offset o : ℕ} {plan : NodePlan}
    (h : decodeBranch compactU32 hashLength hasValue nibbleCount data offset = .ok (plan, o)) :
    ∀ r ∈ plan.ranges, r.Within data := by
  obtain ⟨partialKey, o₁, hpartial, h₁⟩ := Read.bind_eq_ok.mp h
  obtain ⟨bitmapRange, o₂, -, h₂⟩ := Read.bind_eq_ok.mp h₁
  obtain ⟨bitmap, o₃, -, h₃⟩ := Read.bind_eq_ok.mp h₂
  obtain ⟨value, o₄, hvalue, h₄⟩ := Read.bind_eq_ok.mp h₃
  obtain ⟨children, o₅, hchildren, hpure⟩ := Read.bind_eq_ok.mp h₄
  obtain ⟨rfl, -⟩ := pure_eq_ok.mp hpure
  intro r hr
  simp only [NodePlan.ranges, List.cons_append, List.mem_cons, List.mem_append,
    Option.mem_toList, List.mem_filterMap, Option.map_eq_some_iff] at hr
  rcases hr with rfl | hr | ⟨child, hchild, handle, hhandle, rfl⟩
  · exact decodePartial_within hpartial
  · exact decodeValue_within hvalue r hr
  · exact decodeChildren_within _ hchildren child hchild handle hhandle

theorem ofExcept_decode_eq_ok {x : Except String (NodePlan × ℕ)} {plan : NodePlan} :
    Outcome.ofExcept ((x.map Prod.fst).mapError Error.decode) = .ok plan ↔
      ∃ o, x = .ok (plan, o) := by
  cases x with
  | error e => simp [Except.map, Except.mapError, Outcome.ofExcept]
  | ok a => simp [Except.map, Except.mapError, Outcome.ofExcept, Prod.ext_iff, eq_comm]

theorem decodePlan_ranges_within {plan : NodePlan}
    (h : decodePlan compactU32 hashLength data = .ok plan) :
    ∀ r ∈ plan.ranges, r.Within data := by
  unfold decodePlan at h
  split at h
  · cases h
  · cases h
    intro r hr
    cases hr
  · obtain ⟨-, -, hbody⟩ := Outcome.bind_eq_ok.mp h
    obtain ⟨o, hbranch⟩ := ofExcept_decode_eq_ok.mp hbody
    exact decodeBranch_within hbranch
  · obtain ⟨-, -, hbody⟩ := Outcome.bind_eq_ok.mp h
    obtain ⟨o, hleaf⟩ := ofExcept_decode_eq_ok.mp hbody
    exact decodeLeaf_within hleaf

theorem checkPadding_eq_panic {nibbleCount offset : ℕ} :
    checkPadding data nibbleCount offset = .panic ↔
      nibbleCount % nibblePerByte ≠ 0 ∧ data.length ≤ offset := by
  unfold checkPadding
  by_cases hpadding : nibbleCount % nibblePerByte ≠ 0
  · rw [if_pos hpadding]
    rcases hbyte : data[offset]? with _ | b
    · have hlen : data.length ≤ offset := List.getElem?_eq_none_iff.mp hbyte
      simp [hpadding, hlen]
    · have hlt : offset < data.length := (List.getElem?_eq_some_iff.mp hbyte).1
      have hnot : ¬data.length ≤ offset := Nat.not_le.mpr hlt
      by_cases hpad : padLeft b ≠ 0 <;> simp [hpad, hnot]
  · rw [if_neg hpadding]
    simp [hpadding]

theorem decodePlan_eq_panic :
    decodePlan compactU32 hashLength data = .panic ↔
      ∃ nibbleCount offset,
        (NodeHeader.decode data 0 = .ok (.leaf nibbleCount, offset) ∨
          ∃ hasValue, NodeHeader.decode data 0 = .ok (.branch hasValue nibbleCount, offset)) ∧
        nibbleCount % nibblePerByte ≠ 0 ∧ data.length ≤ offset := by
  unfold decodePlan
  split
  · rename_i e hheader
    simp [hheader]
  · rename_i o hheader
    simp [hheader]
  · rename_i hasValue nibbleCount offset hheader
    simp [hheader, Outcome.bind_eq_panic, checkPadding_eq_panic, and_assoc]
  · rename_i nibbleCount offset hheader
    simp [hheader, Outcome.bind_eq_panic, checkPadding_eq_panic, and_assoc]

/-- The one-byte leaf `0x41` and branch `0x81` of one nibble panic, for every compact decoder and
hash length. -/
theorem oddNibble_header_panics :
    decodePlan compactU32 hashLength [0x41] = .panic ∧
      decodePlan compactU32 hashLength [0x81] = .panic :=
  ⟨rfl, rfl⟩

end Tetcore.Trie
