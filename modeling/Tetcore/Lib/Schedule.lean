import Mathlib.Data.List.Perm.Basic
import Mathlib.Order.WellFounded

/-!
# Greedy schedules of a dependency relation

A scheduler lists elements of a finite set `S` one at a time. Each element it lists has all its
dependencies listed already, and among the elements ready at that point it takes one that none is
above. `Greedy dep le S done L` says that `L` is what it lists after `done`, until nothing is
ready. It then lists no element twice, and exactly the elements that no chain of dependencies
leads to from a cycle (`Greedy.mem_iff_acc`): every element when `dep` is well founded
(`Greedy.perm`).
-/

namespace Schedule

variable {α : Type} (dep : α → α → Prop) (le : α → α → Prop) (S : List α)

/-- Every dependency of `x` is listed in `done`. -/
def Available (done : List α) (x : α) : Prop := ∀ y, dep y x → y ∈ done

/-- `L` is what a greedy scheduler of `S` lists after `done`: an available element not listed yet,
no such element above it under `le`, and so on until no element is available. -/
def Greedy : List α → List α → Prop
  | done, [] => ∀ x ∈ S, x ∉ done → ¬Available dep done x
  | done, x :: L => x ∈ S ∧ x ∉ done ∧ Available dep done x ∧
      (∀ y ∈ S, y ∉ done → Available dep done y → le y x) ∧ Greedy (done ++ [x]) L

variable {dep le S}

theorem Available.mono {done done' : List α} {x : α} (h : Available dep done x)
    (hsub : done ⊆ done') : Available dep done' x := fun y hy => hsub (h y hy)

theorem Greedy.nodup : ∀ {done L : List α}, Greedy dep le S done L → L.Nodup ∧ ∀ x ∈ L, x ∉ done
  | _, [], _ => ⟨List.nodup_nil, by simp⟩
  | done, x :: L, ⟨_, hx, _, _, hL⟩ => by
    obtain ⟨hnodup, hfresh⟩ := hL.nodup
    -- what comes after `x` was not listed before it, nor is it `x`
    refine ⟨List.nodup_cons.mpr ⟨fun hmem => hfresh x hmem (by simp), hnodup⟩, ?_⟩
    rintro y (_ | ⟨_, hy⟩)
    · exact hx
    · exact fun hyd => hfresh y hy (List.mem_append_left _ hyd)

theorem Greedy.subset : ∀ {done L : List α}, Greedy dep le S done L → ∀ x ∈ L, x ∈ S
  | _, [], _ => by simp
  | _, _ :: _, ⟨hS, _, _, _, hL⟩ => by
    rintro y (_ | ⟨_, hy⟩)
    · exact hS
    · exact hL.subset y hy

theorem Greedy.complete : ∀ {done L : List α}, Greedy dep le S done L →
    ∀ x ∈ S, x ∉ done ++ L → ¬Available dep (done ++ L) x
  | done, [], h => by
    rw [List.append_nil]
    exact h
  | done, x :: L, ⟨_, _, _, _, hL⟩ => by
    have hsplit : done ++ x :: L = done ++ [x] ++ L := by simp
    rw [hsplit]
    exact hL.complete

theorem Greedy.acc : ∀ {done L : List α}, Greedy dep le S done L → (∀ y ∈ done, Acc dep y) →
    ∀ x ∈ L, Acc dep x
  | _, [], _, _ => by simp
  | done, x :: L, ⟨_, _, havail, _, hL⟩, hdone => by
    have hx : Acc dep x := Acc.intro x fun y hy => hdone y (havail y hy)
    have hdone' : ∀ y ∈ done ++ [x], Acc dep y := by
      intro y hy
      rcases List.mem_append.mp hy with hy | hy
      · exact hdone y hy
      · rw [List.mem_singleton.mp hy]
        exact hx
    rintro y (_ | ⟨_, hy⟩)
    · exact hx
    · exact hL.acc hdone' y hy

theorem Greedy.mem_of_acc (hclosed : ∀ x ∈ S, ∀ y, dep y x → y ∈ S) {done L : List α}
    (h : Greedy dep le S done L) {x : α} (hacc : Acc dep x) (hx : x ∈ S) : x ∈ done ++ L := by
  induction hacc with
  | intro x _ ih =>
    by_contra hnot
    -- every dependency of `x` is listed, so `x` is available when the scheduler stops
    exact h.complete x hx hnot fun y hy => ih y hy (hclosed x hx y hy)

theorem Greedy.mem_iff_acc (hclosed : ∀ x ∈ S, ∀ y, dep y x → y ∈ S) {L : List α}
    (h : Greedy dep le S [] L) (x : α) : x ∈ L ↔ x ∈ S ∧ Acc dep x := by
  constructor
  · intro hx
    exact ⟨h.subset x hx, h.acc (by simp) x hx⟩
  · rintro ⟨hx, hacc⟩
    simpa using h.mem_of_acc hclosed hacc hx

theorem Greedy.perm (hclosed : ∀ x ∈ S, ∀ y, dep y x → y ∈ S) (hS : S.Nodup)
    (hwf : WellFounded dep) {L : List α} (h : Greedy dep le S [] L) : L.Perm S := by
  refine (List.perm_ext_iff_of_nodup h.nodup.1 hS).mpr fun x => ?_
  rw [h.mem_iff_acc hclosed]
  exact and_iff_left (hwf.apply x)

end Schedule
