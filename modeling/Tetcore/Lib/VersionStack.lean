import Mathlib.Data.List.Basic
import Mathlib.Data.Bool.Basic

/-!
# Sparse version stacks

A value seen through nested transactions has one snapshot per level: `S_d, …, S_0`, the open
transactions from the innermost down, and the committed level `S_0` at the bottom. A level is
dirty when its transaction wrote the value; a clean level sees the level below it. Such a column
of snapshots can be stored sparsely: one version per dirty level, newest first, and one version for
the bottom level when it has a value.

`Sparse vs col dirty` says that the stored versions `vs` represent the column `col` (top first,
`none` for no value) under the dirty flags `dirty` (top first, one per level above the bottom).
The lemmas below are the operations of a transactional store on such a column: writing the top,
opening a level, and committing or rolling back the top level.
-/

namespace VersionStack

variable {V : Type}

inductive Sparse : List V → List (Option V) → List Bool → Prop
  | base (o : Option V) : Sparse o.toList [o] []
  | dirty {v : V} {vs : List V} {col : List (Option V)} {ds : List Bool} :
      Sparse vs col ds → Sparse (v :: vs) (some v :: col) (true :: ds)
  | clean {vs : List V} {o : Option V} {col : List (Option V)} {ds : List Bool} :
      Sparse vs (o :: col) ds → Sparse vs (o :: o :: col) (false :: ds)

namespace Sparse

variable {vs : List V} {col : List (Option V)} {ds : List Bool}

theorem length_col (h : Sparse vs col ds) : col.length = ds.length + 1 := by
  induction h with
  | base o => rfl
  | dirty _ ih => simp [ih]
  | clean _ ih => simp only [List.length_cons] at ih ⊢; omega

theorem head? (h : Sparse vs col ds) : col.head? = some vs.head? := by
  induction h with
  | base o => cases o <;> rfl
  | dirty _ _ => rfl
  | clean _ ih => exact ih

theorem length {bottom : Option V} (h : Sparse vs col ds) (hbottom : col.getLast? = some bottom) :
    vs.length = (if bottom.isSome then 1 else 0) + ds.count true := by
  induction h with
  | base o =>
    obtain rfl : o = bottom := by simpa using hbottom
    cases o <;> rfl
  | @dirty v vs col ds hrest ih =>
    obtain ⟨c, col', rfl⟩ := List.exists_cons_of_ne_nil
      (List.ne_nil_of_length_pos (by rw [hrest.length_col]; omega))
    rw [List.getLast?_cons_cons] at hbottom
    rw [List.length_cons, ih hbottom, List.count_cons_self]
    omega
  | @clean vs o col ds hrest ih =>
    rw [List.getLast?_cons_cons] at hbottom
    rw [ih hbottom, List.count_cons_of_ne (by simp)]

theorem ne_nil_of_dirty (h : Sparse vs col ds) (hdirty : true ∈ ds) : vs ≠ [] := by
  induction h with
  | base o => cases hdirty
  | dirty _ _ => exact List.cons_ne_nil _ _
  | clean _ ih => exact ih (by simpa using hdirty)

theorem cons_true_inv {o : Option V} (h : Sparse vs (o :: col) (true :: ds)) :
    ∃ v vs', vs = v :: vs' ∧ o = some v ∧ Sparse vs' col ds := by
  cases h with
  | dirty hrest => exact ⟨_, _, rfl, rfl, hrest⟩

theorem cons_false_inv {o : Option V} (h : Sparse vs (o :: col) (false :: ds)) :
    ∃ col', col = o :: col' ∧ Sparse vs (o :: col') ds := by
  cases h with
  | clean hrest => exact ⟨_, rfl, hrest⟩

theorem nil_inv {o : Option V} (h : Sparse vs [o] ds) : ds = [] ∧ vs = o.toList := by
  cases h with
  | base => exact ⟨rfl, rfl⟩
  | dirty hrest => have := hrest.length_col; simp at this

theorem replicate_none (n : ℕ) :
    Sparse ([] : List V) (List.replicate (n + 1) none) (List.replicate n false) := by
  induction n with
  | zero => exact .base none
  | succ n ih => exact .clean ih

theorem write {o : Option V} {b : Bool} (v : V) (h : Sparse vs (o :: col) (b :: ds)) :
    Sparse (if b then v :: vs.tail else v :: vs) (some v :: col) (true :: ds) := by
  cases b with
  | true =>
    obtain ⟨w, vs', rfl, -, hrest⟩ := h.cons_true_inv
    exact .dirty hrest
  | false =>
    obtain ⟨col', rfl, hrest⟩ := h.cons_false_inv
    exact .dirty hrest

theorem rollback {o : Option V} {b : Bool} (h : Sparse vs (o :: col) (b :: ds)) :
    Sparse (if b then vs.tail else vs) col ds := by
  cases b with
  | true =>
    obtain ⟨w, vs', rfl, -, hrest⟩ := h.cons_true_inv
    exact hrest
  | false =>
    obtain ⟨col', rfl, hrest⟩ := h.cons_false_inv
    exact hrest

theorem commit_dirty_dirty {o o' : Option V} {v w : V}
    (h : Sparse (v :: w :: vs) (o :: o' :: col) (true :: true :: ds)) :
    Sparse (v :: vs) (o :: col) (true :: ds) := by
  obtain ⟨v', vs', hvs, rfl, hrest⟩ := h.cons_true_inv
  obtain ⟨w', vs'', hvs', -, hrest'⟩ := hrest.cons_true_inv
  simp only [List.cons.injEq] at hvs
  obtain ⟨rfl, rfl⟩ := hvs
  obtain ⟨rfl, rfl⟩ := hvs'
  exact .dirty hrest'

theorem commit_dirty_clean {o o' : Option V}
    (h : Sparse vs (o :: o' :: col) (true :: false :: ds)) :
    Sparse vs (o :: col) (true :: ds) := by
  obtain ⟨v, vs', rfl, rfl, hrest⟩ := h.cons_true_inv
  obtain ⟨col', rfl, hrest'⟩ := hrest.cons_false_inv
  exact .dirty hrest'

theorem commit_clean {o o' : Option V} (h : Sparse vs (o :: o' :: col) (false :: ds)) :
    Sparse vs (o :: col) ds := by
  obtain ⟨col', hcol, hrest⟩ := h.cons_false_inv
  simp only [List.cons.injEq] at hcol
  obtain ⟨rfl, rfl⟩ := hcol
  exact hrest

theorem commit_dirty {o o' : Option V} {b : Bool}
    (h : Sparse vs (o :: o' :: col) (true :: b :: ds)) :
    Sparse (if b then vs.eraseIdx 1 else vs) (o :: col) (true :: ds) := by
  cases b with
  | true =>
    obtain ⟨v, vs', rfl, -, hrest⟩ := h.cons_true_inv
    obtain ⟨w, vs'', rfl, -, -⟩ := hrest.cons_true_inv
    exact h.commit_dirty_dirty
  | false => exact h.commit_dirty_clean

theorem commit_base {o o' : Option V} (h : Sparse vs [o, o'] [true]) :
    Sparse (if vs.length > 1 then vs.eraseIdx 1 else vs) [o] [] := by
  obtain ⟨v, vs', rfl, rfl, hrest⟩ := h.cons_true_inv
  obtain ⟨-, rfl⟩ := hrest.nil_inv
  cases o' <;> exact .base (some v)

end Sparse

end VersionStack
