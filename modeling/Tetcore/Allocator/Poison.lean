import Tetcore.Allocator.FreeingBump

/-!
# Poisoning, and a panic the runtime can cause

Once a call has returned an error, `PoisonBomb` has set `poisoned`, and from then on every call
returns `"the allocator has been poisoned"` without looking at the memory. That part of the
contract holds for every memory and every sequence of calls.

The other part, that no call panics, does not. `deallocate` trusts any pointer whose preceding
eight bytes read as an occupied header and links it into the free list of that order; the
`assert!` in `allocate` that the head of a free list fits in memory then fails when the forged
header sits in the last sixteen bytes of memory.
-/

namespace Tetcore.Allocator

/-- One call of the runtime, with the memory as the runtime left it. -/
inductive Call
  | allocate (mem : Memory) (size : ℕ)
  | deallocate (mem : Memory) (ptr : ℕ)

namespace FreeingBumpHeapAllocator

variable (a : FreeingBumpHeapAllocator)

/-- Issue one call: its outcome and the allocator after it. -/
def exec : Call → Outcome Error Unit × FreeingBumpHeapAllocator
  | .allocate mem size => let r := a.allocate mem size; (r.1.erase, r.2.1)
  | .deallocate mem ptr => let r := a.deallocate mem ptr; (r.1.erase, r.2.1)

/-- The outcomes of a sequence of calls. -/
def outcomes (a : FreeingBumpHeapAllocator) : List Call → List (Outcome Error Unit)
  | [] => []
  | c :: cs => (a.exec c).1 :: outcomes (a.exec c).2 cs

@[simp]
theorem poison_poisoned : a.poison.poisoned = true := rfl

theorem finishAllocate_ok_or_poisoned (mem : Memory) (order : Order) (headerPtr : ℕ) :
    (∃ v, (a.finishAllocate mem order headerPtr).1 = .ok v) ∨
      (a.finishAllocate mem order headerPtr).2.1.poisoned = true := by
  unfold finishAllocate
  split
  · exact .inr rfl
  · split
    · exact .inr rfl
    · exact .inl ⟨_, rfl⟩

theorem allocate_ok_or_poisoned (mem : Memory) (size : ℕ) :
    (∃ v, (a.allocate mem size).1 = .ok v) ∨ (a.allocate mem size).2.1.poisoned = true := by
  unfold allocate
  by_cases hpoisoned : a.poisoned = true
  · simp [hpoisoned]
  simp only [hpoisoned, Bool.false_eq_true, ↓reduceIte]
  split
  · exact .inr rfl
  · split
    · split
      · exact .inr rfl
      · split
        · exact .inr rfl
        · split
          · exact .inr rfl
          · exact .inr rfl
          · exact finishAllocate_ok_or_poisoned _ _ _ _
    · split
      · exact .inr rfl
      · exact .inr rfl
      · exact finishAllocate_ok_or_poisoned _ _ _ _

theorem deallocate_ok_or_poisoned (mem : Memory) (ptr : ℕ) :
    (∃ v, (a.deallocate mem ptr).1 = .ok v) ∨ (a.deallocate mem ptr).2.1.poisoned = true := by
  unfold deallocate
  by_cases hpoisoned : a.poisoned = true
  · simp [hpoisoned]
  simp only [hpoisoned, Bool.false_eq_true, ↓reduceIte]
  split
  · exact .inr rfl
  · split
    · exact .inr rfl
    · exact .inr rfl
    · split
      · exact .inr rfl
      · split
        · exact .inr rfl
        · exact .inl ⟨_, rfl⟩

theorem exec_of_poisoned (hpoisoned : a.poisoned = true) (c : Call) :
    a.exec c = (.err (.other "the allocator has been poisoned"), a) := by
  cases c with
  | allocate mem size => simp [exec, allocate, hpoisoned, Outcome.erase, Outcome.bind]
  | deallocate mem ptr => simp [exec, deallocate, hpoisoned, Outcome.erase, Outcome.bind]

theorem exec_poisoned_of_err (c : Call) {e : Error} (herr : (a.exec c).1 = .err e) :
    (a.exec c).2.poisoned = true := by
  cases c with
  | allocate mem size =>
    rcases a.allocate_ok_or_poisoned mem size with ⟨v, hv⟩ | hp
    · simp [exec, hv, Outcome.erase, Outcome.bind] at herr
    · exact hp
  | deallocate mem ptr =>
    rcases a.deallocate_ok_or_poisoned mem ptr with ⟨v, hv⟩ | hp
    · simp [exec, hv, Outcome.erase, Outcome.bind] at herr
    · exact hp

theorem outcomes_of_poisoned (calls : List Call) (hpoisoned : a.poisoned = true) :
    ∀ o ∈ a.outcomes calls, o = .err (.other "the allocator has been poisoned") := by
  induction calls with
  | nil => simp [outcomes]
  | cons c calls ih =>
    intro o ho
    rw [outcomes, exec_of_poisoned a hpoisoned] at ho
    rcases List.mem_cons.mp ho with rfl | ho
    · rfl
    · exact ih o ho

/-- **Poisoning.** Once a call has returned an error, every later call returns an error. -/
theorem outcomes_after_err (c : Call) (calls : List Call) {e : Error}
    (herr : (a.exec c).1 = .err e) :
    ∀ o ∈ (a.exec c).2.outcomes calls, o = .err (.other "the allocator has been poisoned") :=
  outcomes_of_poisoned _ calls (exec_poisoned_of_err a c herr)

/-- Allocating 8 bytes in an empty memory runs out of space, and a deallocation after it is
refused. -/
theorem outOfSpace_poisons :
    (exec ⟨0, fun _ => .nil, 0, false⟩ (.allocate ⟨[]⟩ 8)).1 = .err .allocatorOutOfSpace ∧
      ∀ o ∈ (exec ⟨0, fun _ => .nil, 0, false⟩ (.allocate ⟨[]⟩ 8)).2.outcomes [Call.deallocate ⟨[]⟩ 8],
        o = .err (.other "the allocator has been poisoned") :=
  ⟨by decide, @outcomes_after_err _ _ _ .allocatorOutOfSpace (by decide)⟩

end FreeingBumpHeapAllocator

/-- Thirty-two bytes of memory, zero but for an occupied header of order 0 in the last eight. -/
def forgedMemory : Memory :=
  ⟨List.replicate 24 0 ++ [0, 0, 0, 0, 1, 0, 0, 0]⟩

/-- With the heap at 0, allocating 8 bytes returns 8; freeing the forged pointer 32 succeeds and
puts header 24 on the free list of order 0; the next allocation of 8 bytes fails the assert
`24 + 8 + 8 <= 32` and panics. Apart from that, rounding up a heap base in the last eight `u32`
values overflows. -/
theorem forged_pointer_panics :
    (∃ a, FreeingBumpHeapAllocator.new 0 = .ok a ∧
      (a.allocate forgedMemory 8).1 = .ok 8 ∧
      ((a.allocate forgedMemory 8).2.1.deallocate (a.allocate forgedMemory 8).2.2 32).1 = .ok () ∧
      (((a.allocate forgedMemory 8).2.1.deallocate (a.allocate forgedMemory 8).2.2 32).2.1.allocate
        ((a.allocate forgedMemory 8).2.1.deallocate (a.allocate forgedMemory 8).2.2 32).2.2 8).1 =
        .panic) ∧
      FreeingBumpHeapAllocator.new (u32Bound - 8) = .panic :=
  ⟨⟨_, rfl, by decide⟩, rfl⟩

end Tetcore.Allocator
