import Mathlib

/-!
# Lookups after `AList.replace`

`replace a b` changes the value of the key `a` where there is one and leaves the rest alone.
-/

namespace List

variable {α γ : Type} [DecidableEq α]

theorem dlookup_kreplace (a a' : α) (b : γ) (l : List (Σ _ : α, γ)) :
    (l.kreplace a b).dlookup a' =
      if a' = a then (l.dlookup a).map fun _ => b else l.dlookup a' := by
  induction l with
  | nil => simp [List.kreplace]
  | cons e l ih =>
    obtain ⟨k, v⟩ := e
    by_cases hk : a = k
    · subst hk
      have hcons : (⟨a, v⟩ :: l : List (Σ _ : α, γ)).kreplace a b = ⟨a, b⟩ :: l :=
        List.lookmap_cons_some _ _ (by simp)
      by_cases ha : a' = a
      · subst ha
        simp [hcons]
      · simp [hcons, ha]
    · have hcons : (⟨k, v⟩ :: l : List (Σ _ : α, γ)).kreplace a b = ⟨k, v⟩ :: l.kreplace a b :=
        List.lookmap_cons_none _ _ (by simp [hk])
      by_cases ha : a' = k
      · subst ha
        simp [hcons, Ne.symm hk]
      · simp [hcons, ha, hk, ih]

end List

namespace AList

variable {α γ : Type} [DecidableEq α]

theorem lookup_replace (a a' : α) (b : γ) (s : AList fun _ : α => γ) :
    (s.replace a b).lookup a' = if a' = a then (s.lookup a).map fun _ => b else s.lookup a' :=
  List.dlookup_kreplace a a' b s.entries

end AList
