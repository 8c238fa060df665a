import Mathlib.Data.List.Perm.Basic

/-!
# `Vec::swap_remove` on lists, and a loop that moves a vector out

`swap_remove` takes out the element at an index and moves the last element into its place. The
element and the list left are the list reordered; from the index on, they are what was there.

`retainTaken` is the loop `for x in mem::take(&mut v) { if test(&x)? { v.push(x) } }` with a test
that can fail: the vector is emptied first, so a failure returns with `v` holding only what was
pushed before it. With a test that cannot fail it is `filter`.

`v.truncate(o)` at the position `o` of the first element that passes a test keeps exactly the
elements that fail it, when every element after one that passes passes too.
-/

namespace Vec

variable {α : Type}

/-- `none` where the source panics, at an index out of range. -/
def swapRemove (l : List α) (index : ℕ) : Option (α × List α) :=
  l[index]?.map fun a => (a, (l.set index (l.getLast?.getD a)).dropLast)

theorem swapRemove_append_nil (pre : List α) (a : α) :
    swapRemove (pre ++ [a]) pre.length = some (a, pre) := by
  simp [swapRemove]

theorem swapRemove_append_cons (pre post : List α) (a b : α) :
    swapRemove (pre ++ a :: (post ++ [b])) pre.length = some (a, pre ++ b :: post) := by
  simp [swapRemove, List.set_append_right, List.getLast?_append, List.getLast?_cons]
  rw [← List.cons_append, List.dropLast_concat]

theorem swapRemove_eq_some {l : List α} {index : ℕ} {a : α} {rest : List α}
    (h : swapRemove l index = some (a, rest)) :
    ∃ pre post, l = pre ++ a :: post ∧ pre.length = index ∧
      (post = [] ∧ rest = pre ∨ ∃ L b, post = L ++ [b] ∧ rest = pre ++ b :: L) := by
  obtain ⟨hlt, hget⟩ : ∃ hlt : index < l.length, l[index] = a := by
    cases hl : l[index]? <;> simp_all [swapRemove, List.getElem?_eq_some_iff]
  obtain ⟨pre, post, rfl, rfl⟩ : ∃ pre post, l = pre ++ a :: post ∧ pre.length = index :=
    ⟨l.take index, l.drop (index + 1),
      by rw [← hget, ← List.drop_eq_getElem_cons, List.take_append_drop],
      List.length_take_of_le (Nat.le_of_lt hlt)⟩
  refine ⟨pre, post, rfl, rfl, ?_⟩
  rcases List.eq_nil_or_concat post with rfl | ⟨L, b, rfl⟩
  · rw [swapRemove_append_nil] at h
    exact .inl ⟨rfl, (Prod.mk.inj (Option.some.inj h)).2.symm⟩
  · rw [List.concat_eq_append, swapRemove_append_cons] at h
    exact .inr ⟨L, b, List.concat_eq_append, (Prod.mk.inj (Option.some.inj h)).2.symm⟩

theorem perm_swapRemove {l : List α} {index : ℕ} {a : α} {rest : List α}
    (h : swapRemove l index = some (a, rest)) : l.Perm (a :: rest) := by
  obtain ⟨pre, post, rfl, -, ⟨rfl, rfl⟩ | ⟨L, b, rfl, rfl⟩⟩ := swapRemove_eq_some h
  · exact List.perm_append_singleton a rest
  · refine List.perm_middle.trans (List.Perm.cons a (List.Perm.append_left pre ?_))
    exact List.perm_append_singleton b L

theorem drop_perm_swapRemove {l : List α} {index : ℕ} {a : α} {rest : List α}
    (h : swapRemove l index = some (a, rest)) :
    (l.drop index).Perm (a :: rest.drop index) := by
  obtain ⟨pre, post, rfl, rfl, ⟨rfl, rfl⟩ | ⟨L, b, rfl, rfl⟩⟩ := swapRemove_eq_some h
  · simp
  · simp only [List.drop_left]
    exact (List.perm_append_singleton b L).cons a

theorem lt_length_of_swapRemove {l : List α} {index : ℕ} {a : α} {rest : List α}
    (h : swapRemove l index = some (a, rest)) : index < l.length := by
  obtain ⟨pre, post, rfl, rfl, -⟩ := swapRemove_eq_some h
  simp

theorem length_swapRemove {l : List α} {index : ℕ} {a : α} {rest : List α}
    (h : swapRemove l index = some (a, rest)) : rest.length + 1 = l.length :=
  (perm_swapRemove h).length_eq.symm

theorem take_swapRemove {l : List α} {index : ℕ} {a : α} {rest : List α}
    (h : swapRemove l index = some (a, rest)) : rest.take index = l.take index := by
  obtain ⟨pre, post, rfl, rfl, ⟨rfl, rfl⟩ | ⟨L, b, rfl, rfl⟩⟩ := swapRemove_eq_some h <;> simp

theorem fst_swapRemove {l : List α} {index : ℕ} {a : α} {rest : List α}
    (h : swapRemove l index = some (a, rest)) : l[index]? = some a := by
  obtain ⟨pre, post, rfl, rfl, -⟩ := swapRemove_eq_some h
  simp

theorem swapRemove_isSome {l : List α} {index : ℕ} (h : index < l.length) :
    (swapRemove l index).isSome := by
  simp [swapRemove, h]

/-- The error of the first failing test, if any, and the elements pushed back before it. -/
def retainTaken {ε : Type} (test : α → Except ε Bool) : List α → Option ε × List α
  | [] => (none, [])
  | x :: xs =>
    match test x with
    | .error e => (some e, [])
    | .ok keep =>
      let (err, kept) := retainTaken test xs
      (err, if keep then x :: kept else kept)

theorem retainTaken_ok {ε : Type} (p : α → Bool) :
    ∀ l : List α, retainTaken (fun x => (.ok (p x) : Except ε Bool)) l = (none, l.filter p)
  | [] => rfl
  | x :: xs => by
    rw [retainTaken, retainTaken_ok p xs, List.filter_cons]

theorem take_eq_filter_of_findIdx?_eq_some {p : α → Bool} {l : List α} {o : ℕ}
    (hclosed : l.Pairwise fun a b => p a → p b) (h : l.findIdx? p = some o) :
    l.take o = l.filter fun a => !p a := by
  induction l generalizing o with
  | nil => simp at h
  | cons a l ih =>
    rw [List.pairwise_cons] at hclosed
    rw [List.findIdx?_cons] at h
    by_cases ha : p a
    · -- the cut is at the front, and everything after it passes too
      simp only [ha, if_true, Option.some_inj] at h
      subst h
      have hrest : l.filter (fun b => !p b) = [] :=
        List.filter_eq_nil_iff.mpr fun b hb => by simpa using hclosed.1 b hb ha
      simp [ha, hrest]
    · simp only [ha, Bool.false_eq_true, if_false, Option.map_eq_some_iff] at h
      obtain ⟨o', ho', rfl⟩ := h
      simp [ha, ih hclosed.2 ho']

theorem getElem_iff_le_of_findIdx?_eq_some {p : α → Bool} {l : List α} {o : ℕ}
    (hclosed : l.Pairwise fun a b => p a → p b) (h : l.findIdx? p = some o) {k : ℕ}
    (hk : k < l.length) : p l[k] = true ↔ o ≤ k := by
  obtain ⟨ho, hpo, hbefore⟩ := List.findIdx?_eq_some_iff_getElem.mp h
  constructor
  · intro hpk
    by_contra hlt
    exact absurd hpk (by simpa using hbefore k (by omega))
  · intro hle
    rcases Nat.eq_or_lt_of_le hle with rfl | hlt
    · exact hpo
    · exact List.pairwise_iff_getElem.mp hclosed o k ho hk hlt hpo

theorem filter_eq_self_of_findIdx?_eq_none {p : α → Bool} {l : List α}
    (h : l.findIdx? p = none) : (l.filter fun a => !p a) = l := by
  rw [List.filter_eq_self]
  intro a ha
  simpa using List.findIdx?_eq_none_iff.mp h a ha

end Vec
