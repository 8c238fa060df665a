import Mathlib

/-!
# Sums over every key of a map

A map that is a total function on a finite type of keys, or a finite map whose quantity vanishes off
its keys, and a quantity summed over all its keys. An update moves the sum only by what the updated
key contributes; stated as an addition, the rule holds in any commutative monoid, the natural
numbers included. Summing a quantity over the keys that point to a given key, and then over all
keys, counts each pointing key once.

A finite map's entries give a quantity its `tally`, the sum of each entry's `share`; a write of one
key moves the tally by that key's shares before and after, and a monoid map commutes with it.
-/

namespace Ledger

variable {α β M : Type*} [Fintype α] [DecidableEq α] [AddCommMonoid M]

theorem sum_update_add (f : α → β → M) (V : α → β) (x : α) (v : β) :
    (∑ a, f a (Function.update V x v a)) + f x (V x) = (∑ a, f a (V a)) + f x v := by
  have hsplit (W : α → β) :
      ∑ a, f a (W a) = f x (W x) + ∑ a ∈ Finset.univ.erase x, f a (W a) :=
    (Finset.add_sum_erase _ _ (Finset.mem_univ x)).symm
  have hrest : ∑ a ∈ Finset.univ.erase x, f a (Function.update V x v a) =
      ∑ a ∈ Finset.univ.erase x, f a (V a) :=
    Finset.sum_congr rfl fun a ha => by rw [Function.update_of_ne (Finset.ne_of_mem_erase ha)]
  rw [hsplit, hsplit V, hrest, Function.update_self]
  abel

omit [Fintype α] in
theorem sum_add_of_eq_off {K L : Finset α} (f g : α → M) (x : α) (hf : ∀ a ∉ K, f a = 0)
    (hg : ∀ a ∉ L, g a = 0) (hoff : ∀ a, a ≠ x → f a = g a) :
    (∑ a ∈ K, f a) + g x = (∑ a ∈ L, g a) + f x := by
  set T := insert x (K ∪ L)
  have hK : ∑ a ∈ K, f a = ∑ a ∈ T, f a :=
    Finset.sum_subset (fun a ha => Finset.mem_insert_of_mem (Finset.mem_union_left _ ha))
      fun a _ ha => hf a ha
  have hL : ∑ a ∈ L, g a = ∑ a ∈ T, g a :=
    Finset.sum_subset (fun a ha => Finset.mem_insert_of_mem (Finset.mem_union_right _ ha))
      fun a _ ha => hg a ha
  have hx : x ∈ T := Finset.mem_insert_self _ _
  rw [hK, hL, ← Finset.add_sum_erase _ f hx, ← Finset.add_sum_erase _ g hx,
    Finset.sum_congr rfl fun a ha => hoff a (Finset.ne_of_mem_erase ha)]
  abel

omit [Fintype α] in
theorem apply_update_of_eq {γ : Type*} (f : α → β → γ) (V : α → β) (x : α) (v : β)
    (h : f x v = f x (V x)) (a : α) : f a (Function.update V x v a) = f a (V a) := by
  by_cases ha : a = x
  · subst ha
    rw [Function.update_self, h]
  · rw [Function.update_of_ne ha]

theorem sum_sum_pointing (target : α → Option α) (g : α → M) :
    ∑ a, ∑ b, (if target b = some a then g b else 0) =
      ∑ b, (if (target b).isSome then g b else 0) := by
  rw [Finset.sum_comm]
  refine Finset.sum_congr rfl fun b _ => ?_
  cases htarget : target b with
  | none => simp
  | some t => simp [Option.some.injEq, Finset.sum_ite_eq]

section Finmap

variable {α β M N : Type*} [DecidableEq α] [AddCommMonoid M] [AddCommMonoid N]

/-- What the entry of a key contributes to a quantity, zero for a key without an entry. -/
def share (m : Finmap fun _ : α => β) (f : β → M) (a : α) : M := ((m.lookup a).map f).getD 0

/-- A quantity summed over the entries of a finite map. -/
def tally (m : Finmap fun _ : α => β) (f : β → M) : M := ∑ a ∈ m.keys, share m f a

@[simp]
theorem share_of_lookup {m : Finmap fun _ : α => β} {a : α} {v : β} (f : β → M)
    (h : m.lookup a = some v) : share m f a = f v := by
  simp [share, h]

theorem share_of_notMem {m : Finmap fun _ : α => β} (f : β → M) {a : α} (h : a ∉ m) :
    share m f a = 0 := by
  simp [share, Finmap.lookup_eq_none.mpr h]

theorem tally_add_of_lookup_eq_off {m m' : Finmap fun _ : α => β} (f : β → M) (k : α)
    (hoff : ∀ a, a ≠ k → m'.lookup a = m.lookup a) :
    tally m' f + share m f k = tally m f + share m' f k :=
  sum_add_of_eq_off _ _ k (fun _ ha => share_of_notMem f (mt Finmap.mem_keys.mpr ha))
    (fun _ ha => share_of_notMem f (mt Finmap.mem_keys.mpr ha))
    (fun a ha => by simp only [share, hoff a ha])

theorem tally_insert (m : Finmap fun _ : α => β) (k : α) (v : β) (f : β → M) :
    tally (m.insert k v) f + share m f k = tally m f + f v := by
  rw [tally_add_of_lookup_eq_off f k fun a ha => Finmap.lookup_insert_of_ne m ha,
    share_of_lookup f (Finmap.lookup_insert m)]

theorem tally_erase (m : Finmap fun _ : α => β) (k : α) (f : β → M) :
    tally (m.erase k) f + share m f k = tally m f := by
  rw [tally_add_of_lookup_eq_off f k fun a ha => Finmap.lookup_erase_ne ha,
    share_of_notMem f (Finmap.notMem_erase_self), add_zero]

@[simp]
theorem tally_empty (f : β → M) : tally (∅ : Finmap fun _ : α => β) f = 0 := by
  simp [tally]

theorem share_le_tally [PartialOrder M] [CanonicallyOrderedAdd M] (m : Finmap fun _ : α => β)
    (f : β → M) (k : α) : share m f k ≤ tally m f := by
  rw [← tally_erase m k f]
  exact le_add_self

theorem map_share (g : M →+ N) (m : Finmap fun _ : α => β) (f : β → M) (a : α) :
    g (share m f a) = share m (g ∘ f) a := by
  cases h : m.lookup a <;> simp [share, h]

theorem map_tally (g : M →+ N) (m : Finmap fun _ : α => β) (f : β → M) :
    g (tally m f) = tally m (g ∘ f) := by
  simp only [tally, map_sum, map_share]

end Finmap

end Ledger
