import Mathlib.Data.List.Nodup
import Mathlib.Data.List.Perm.Subperm

/-!
# Rose forests and the ancestors of their nodes

A rose tree is a label with a list of subtrees, and a forest a list of them. `entries` lists
every node of a forest in pre-order, with the labels of its ancestors, root first. A forest is
well formed for a relation on labels when no two nodes share a key and the ancestors of every
node are exactly the nodes of the forest related to it.

Dropping roots, permuting siblings, promoting the children of a root, keeping some children of a
node and taking a subtree give a forest `Pruned` from the one they start from: its nodes are
nodes of the old one, and the ancestors of each are its old ancestors that are left. A forest
pruned from a well-formed one is well formed.
-/

inductive Rose (α : Type) where
  | node (label : α) (children : List (Rose α))

namespace Rose

variable {α : Type}

def label : Rose α → α
  | node a _ => a

def children : Rose α → List (Rose α)
  | node _ cs => cs

mutual
/-- The nodes of a tree whose ancestors above its root are `path`, each with its ancestors. -/
def entriesFrom (path : List α) : Rose α → List (α × List α)
  | node a cs => (a, path) :: forestEntriesFrom (path ++ [a]) cs

def forestEntriesFrom (path : List α) : List (Rose α) → List (α × List α)
  | [] => []
  | t :: ts => entriesFrom path t ++ forestEntriesFrom path ts
end

/-- Every node of a forest with the labels of its ancestors, root first. -/
def entries (F : List (Rose α)) : List (α × List α) := forestEntriesFrom [] F

def labels (F : List (Rose α)) : List α := (entries F).map Prod.fst

@[simp]
theorem entriesFrom_node (path : List α) (a : α) (cs : List (Rose α)) :
    entriesFrom path (node a cs) = (a, path) :: forestEntriesFrom (path ++ [a]) cs := by
  simp [entriesFrom]

@[simp]
theorem forestEntriesFrom_nil (path : List α) : forestEntriesFrom path [] = [] := by
  simp [forestEntriesFrom]

@[simp]
theorem forestEntriesFrom_cons (path : List α) (t : Rose α) (ts : List (Rose α)) :
    forestEntriesFrom path (t :: ts) = entriesFrom path t ++ forestEntriesFrom path ts := by
  simp [forestEntriesFrom]

@[simp]
theorem forestEntriesFrom_append (path : List α) (F G : List (Rose α)) :
    forestEntriesFrom path (F ++ G) = forestEntriesFrom path F ++ forestEntriesFrom path G := by
  induction F with
  | nil => simp
  | cons t F ih => simp [ih]

theorem forestEntriesFrom_perm (path : List α) {F G : List (Rose α)} (h : F.Perm G) :
    (forestEntriesFrom path F).Perm (forestEntriesFrom path G) := by
  induction h with
  | nil => exact List.Perm.refl _
  | cons t _ ih => simpa using ih.append_left _
  | swap t u F =>
    simp only [forestEntriesFrom_cons, ← List.append_assoc]
    exact List.perm_append_comm.append_right _
  | trans _ _ ih ih' => exact ih.trans ih'

theorem forestEntriesFrom_sublist (path : List α) {F G : List (Rose α)} (h : F.Sublist G) :
    (forestEntriesFrom path F).Sublist (forestEntriesFrom path G) := by
  induction h with
  | slnil => exact List.Sublist.slnil
  | cons t _ ih =>
    rw [forestEntriesFrom_cons]
    exact ih.trans (List.sublist_append_right (entriesFrom path t) _)
  | cons_cons t _ ih =>
    rw [forestEntriesFrom_cons, forestEntriesFrom_cons]
    exact ih.append_left (entriesFrom path t)

theorem root_mem_entriesFrom (path : List α) (t : Rose α) : (t.label, path) ∈ entriesFrom path t := by
  obtain ⟨a, cs⟩ := t
  simp [label]

theorem mem_forestEntriesFrom {path : List α} {F : List (Rose α)} {e : α × List α} :
    e ∈ forestEntriesFrom path F ↔ ∃ t ∈ F, e ∈ entriesFrom path t := by
  induction F with
  | nil => simp
  | cons t F ih => simp [ih]

theorem child_mem_entriesFrom (path : List α) {t c : Rose α} (hc : c ∈ t.children) :
    (c.label, path ++ [t.label]) ∈ entriesFrom path t := by
  obtain ⟨a, cs⟩ := t
  rw [entriesFrom_node]
  exact List.mem_cons_of_mem _ (mem_forestEntriesFrom.mpr ⟨c, hc, root_mem_entriesFrom _ c⟩)

theorem entriesFrom_sublist_of_mem (path : List α) {F : List (Rose α)} {t : Rose α} (ht : t ∈ F) :
    (entriesFrom path t).Sublist (forestEntriesFrom path F) := by
  have h := forestEntriesFrom_sublist path (List.singleton_sublist.mpr ht)
  rwa [forestEntriesFrom_cons, forestEntriesFrom_nil, List.append_nil] at h

theorem roots_sublist_forestEntriesFrom (path : List α) :
    ∀ F : List (Rose α), (F.map fun t => (t.label, path)).Sublist (forestEntriesFrom path F)
  | [] => List.Sublist.slnil
  | node a cs :: F => by
    rw [List.map_cons, forestEntriesFrom_cons, entriesFrom_node, List.cons_append]
    exact ((roots_sublist_forestEntriesFrom path F).trans (List.sublist_append_right _ _)).cons_cons _

/-- The path above a tree is a prefix of the path of each of its nodes. -/
def shift (path : List α) (e : α × List α) : α × List α := (e.1, path ++ e.2)

mutual
theorem entriesFrom_append (p q : List α) : ∀ t : Rose α,
    entriesFrom (p ++ q) t = (entriesFrom q t).map (shift p)
  | node a cs => by
    rw [entriesFrom_node, entriesFrom_node, List.append_assoc, forestEntriesFrom_append' p (q ++ [a])]
    rfl

theorem forestEntriesFrom_append' (p q : List α) : ∀ F : List (Rose α),
    forestEntriesFrom (p ++ q) F = (forestEntriesFrom q F).map (shift p)
  | [] => rfl
  | t :: F => by
    rw [forestEntriesFrom_cons, forestEntriesFrom_cons, List.map_append, entriesFrom_append p q t,
      forestEntriesFrom_append' p q F]
end

theorem entriesFrom_eq_map (p : List α) (t : Rose α) :
    entriesFrom p t = (entriesFrom [] t).map (shift p) := by
  simpa using entriesFrom_append p [] t

theorem forestEntriesFrom_eq_map (p : List α) (F : List (Rose α)) :
    forestEntriesFrom p F = (entries F).map (shift p) := by
  simpa [entries] using forestEntriesFrom_append' p [] F

theorem entries_cons (t : Rose α) (F : List (Rose α)) :
    entries (t :: F) = entriesFrom [] t ++ entries F :=
  forestEntriesFrom_cons [] t F

theorem entries_singleton (t : Rose α) : entries [t] = entriesFrom [] t := by
  rw [entries_cons, entries, forestEntriesFrom_nil, List.append_nil]

theorem entries_append (F G : List (Rose α)) : entries (F ++ G) = entries F ++ entries G :=
  forestEntriesFrom_append [] F G

theorem entriesFrom_nil_node (a : α) (cs : List (Rose α)) :
    entriesFrom [] (node a cs) = (a, []) :: (entries cs).map (shift [a]) := by
  rw [entriesFrom_node, List.nil_append, forestEntriesFrom_eq_map]

@[simp]
theorem map_fst_shift (p : List α) (es : List (α × List α)) :
    (es.map (shift p)).map Prod.fst = es.map Prod.fst := by
  simp [shift, Function.comp_def]

theorem labels_append (F G : List (Rose α)) : labels (F ++ G) = labels F ++ labels G := by
  rw [labels, entries_append, List.map_append]
  rfl

theorem labels_node_cons (a : α) (cs G : List (Rose α)) :
    labels (node a cs :: G) = a :: (labels cs ++ labels G) := by
  rw [labels, entries_cons, entriesFrom_nil_node, List.cons_append, List.map_cons, List.map_append,
    map_fst_shift]
  rfl

theorem labels_perm {F G : List (Rose α)} (h : F.Perm G) : (labels F).Perm (labels G) :=
  (forestEntriesFrom_perm [] h).map Prod.fst

theorem label_mem_labels {F : List (Rose α)} {t : Rose α} (ht : t ∈ F) : t.label ∈ labels F :=
  List.mem_map_of_mem ((entriesFrom_sublist_of_mem [] ht).subset (root_mem_entriesFrom [] t))

theorem mem_labels_iff {F : List (Rose α)} {x : α} : x ∈ labels F ↔ ∃ t ∈ F, x ∈ labels [t] := by
  simp only [labels, entries, List.mem_map, mem_forestEntriesFrom, forestEntriesFrom_cons,
    forestEntriesFrom_nil, List.append_nil]
  constructor
  · rintro ⟨e, ⟨t, ht, he⟩, rfl⟩
    exact ⟨t, ht, e, he, rfl⟩
  · rintro ⟨t, ht, e, he, rfl⟩
    exact ⟨e, ⟨t, ht, he⟩, rfl⟩

theorem length_forestEntriesFrom (path : List α) (F : List (Rose α)) :
    (forestEntriesFrom path F).length = (entries F).length := by
  rw [forestEntriesFrom_eq_map, List.length_map]

theorem length_entries_cons (t : Rose α) (F : List (Rose α)) :
    (entries (t :: F)).length = (entries t.children).length + 1 + (entries F).length := by
  obtain ⟨a, cs⟩ := t
  rw [entries_cons, List.length_append, entriesFrom_node, List.length_cons,
    length_forestEntriesFrom]
  rfl

theorem mem_entriesFrom {P : List α} {t : Rose α} {b : α × List α} (hb : b ∈ entriesFrom P t) :
    b = (t.label, P) ∨ ∃ q, b.2 = P ++ t.label :: q := by
  obtain ⟨a, cs⟩ := t
  rw [entriesFrom_node, List.mem_cons, forestEntriesFrom_eq_map] at hb
  rcases hb with rfl | hb
  · exact .inl rfl
  · obtain ⟨e, -, rfl⟩ := List.mem_map.mp hb
    exact .inr ⟨e.2, by simp [shift, label]⟩

mutual
theorem mem_path_entriesFrom (p : List α) : ∀ (t : Rose α), ∀ e ∈ entriesFrom p t, ∀ x ∈ e.2,
    x ∈ p ∨ x ∈ (entriesFrom p t).map Prod.fst
  | node a cs, e, he, x, hx => by
    rw [entriesFrom_node, List.mem_cons] at he
    rcases he with rfl | he
    · exact .inl hx
    · rcases mem_path_forestEntriesFrom (p ++ [a]) cs e he x hx with hx | hx
      · rcases List.mem_append.mp hx with hx | hx
        · exact .inl hx
        · right
          simp only [List.mem_singleton] at hx
          simp [hx]
      · right
        simp only [entriesFrom_node, List.map_cons, List.mem_cons]
        exact .inr hx

theorem mem_path_forestEntriesFrom (p : List α) : ∀ (F : List (Rose α)),
    ∀ e ∈ forestEntriesFrom p F, ∀ x ∈ e.2, x ∈ p ∨ x ∈ (forestEntriesFrom p F).map Prod.fst
  | [], e, he, _, _ => by simp at he
  | t :: F, e, he, x, hx => by
    rw [forestEntriesFrom_cons, List.mem_append] at he
    rcases he with he | he
    · rcases mem_path_entriesFrom p t e he x hx with hx | hx
      · exact .inl hx
      · right
        simp only [forestEntriesFrom_cons, List.map_append, List.mem_append]
        exact .inl hx
    · rcases mem_path_forestEntriesFrom p F e he x hx with hx | hx
      · exact .inl hx
      · right
        simp only [forestEntriesFrom_cons, List.map_append, List.mem_append]
        exact .inr hx
end

theorem mem_labels_of_mem_path {F : List (Rose α)} {e : α × List α} (he : e ∈ entries F) {x : α}
    (hx : x ∈ e.2) : x ∈ labels F := by
  rcases mem_path_forestEntriesFrom [] F e he x hx with hx | hx
  · simp at hx
  · exact hx

theorem mem_entries_node {a : α} {cs : List (Rose α)} {e : α × List α}
    (he : e ∈ entries [node a cs]) : e = (a, []) ∨ a ∈ e.2 := by
  simp only [entries, forestEntriesFrom_cons, entriesFrom_node, List.nil_append,
    forestEntriesFrom_nil, List.append_nil, List.mem_cons] at he
  rcases he with rfl | he
  · exact .inl rfl
  · right
    rw [show [a] = [a] ++ [] from rfl, forestEntriesFrom_append'] at he
    obtain ⟨e', -, rfl⟩ := List.mem_map.mp he
    simp [shift]

/-- Take out the subtree at an index path, root index first: the subtree, and the forest left
without it. An index out of range gives nothing. -/
def extract : List (Rose α) → List ℕ → Option (Rose α × List (Rose α))
  | _, [] => none
  | F, [i] => F[i]?.map fun t => (t, F.eraseIdx i)
  | F, i :: j :: rest =>
    match F[i]? with
    | some (node a cs) => (extract cs (j :: rest)).map fun r => (r.1, F.set i (node a r.2))
    | none => none

theorem extract_sublist : ∀ (F : List (Rose α)) (path : List ℕ) {t : Rose α}
    {F' : List (Rose α)}, extract F path = some (t, F') → ∃ P, (entriesFrom P t).Sublist (entries F)
  | _, [], _, _, h => by simp [extract] at h
  | F, [i], t, F', h => by
    simp only [extract, Option.map_eq_some_iff, Prod.mk.injEq] at h
    obtain ⟨t', ht', rfl, -⟩ := h
    have hsub := forestEntriesFrom_sublist [] (List.singleton_sublist.mpr (List.mem_of_getElem? ht'))
    rw [← entries, ← entries, entries_singleton] at hsub
    exact ⟨[], hsub⟩
  | F, i :: j :: rest, t, F', h => by
    simp only [extract] at h
    split at h
    · rename_i a cs hi
      obtain ⟨r, hr, hrt⟩ := Option.map_eq_some_iff.mp h
      obtain ⟨P, hP⟩ := extract_sublist cs (j :: rest) hr
      rw [Prod.mk.injEq] at hrt
      rw [← hrt.1]
      -- the path above the subtree starts at the root `a`
      refine ⟨[a] ++ P, ?_⟩
      have hnode := forestEntriesFrom_sublist [] (List.singleton_sublist.mpr (List.mem_of_getElem? hi))
      rw [← entries, ← entries, entries_singleton, entriesFrom_nil_node] at hnode
      rw [entriesFrom_append]
      exact ((hP.map (shift [a])).trans (List.sublist_cons_self _ _)).trans hnode
    · cases h

/-- The subtree at an index path below the root of a tree, root index first. -/
def subtreeAt (t : Rose α) : List ℕ → Option (Rose α)
  | [] => some t
  | i :: rest => t.children[i]?.bind fun c => subtreeAt c rest

theorem extract_isSome {F : List (Rose α)} {i : ℕ} {t : Rose α} (ht : F[i]? = some t) :
    ∀ {rest : List ℕ}, (subtreeAt t rest).isSome → (extract F (i :: rest)).isSome
  | [], _ => by simp [extract, ht]
  | j :: rest, h => by
    obtain ⟨a, cs⟩ := t
    obtain ⟨c, hc, hsub⟩ : ∃ c, cs[j]? = some c ∧ (subtreeAt c rest).isSome := by
      cases hc : cs[j]? <;> simp_all [subtreeAt, children]
    simp only [extract, ht]
    rw [Option.isSome_map]
    exact extract_isSome hc hsub

/-- The subtree of a forest at an index path, root index first. -/
def nodeAt (F : List (Rose α)) : List ℕ → Option (Rose α)
  | [] => none
  | i :: rest => F[i]?.bind fun t => subtreeAt t rest

@[simp]
theorem nodeAt_cons_zero (t : Rose α) (F : List (Rose α)) (rest : List ℕ) :
    nodeAt (t :: F) (0 :: rest) = subtreeAt t rest := rfl

@[simp]
theorem nodeAt_cons_succ (t : Rose α) (F : List (Rose α)) (j : ℕ) (rest : List ℕ) :
    nodeAt (t :: F) ((j + 1) :: rest) = nodeAt F (j :: rest) := rfl

theorem subtreeAt_node_cons (a : α) (cs : List (Rose α)) (i : ℕ) (rest : List ℕ) :
    subtreeAt (node a cs) (i :: rest) = nodeAt cs (i :: rest) := rfl

theorem subtreeAt_append (t : Rose α) (p q : List ℕ) :
    subtreeAt t (p ++ q) = (subtreeAt t p).bind fun s => subtreeAt s q := by
  induction p generalizing t with
  | nil => rfl
  | cons i p ih => simp only [List.cons_append, subtreeAt, Option.bind_assoc, ih]

theorem nodeAt_append {F : List (Rose α)} {p : List ℕ} {r : Rose α} (h : nodeAt F p = some r)
    (q : List ℕ) : nodeAt F (p ++ q) = subtreeAt r q := by
  cases p with
  | nil => cases h
  | cons i p =>
    obtain ⟨t, ht, hr⟩ := Option.bind_eq_some_iff.mp h
    simp only [List.cons_append, nodeAt, ht, Option.bind_some, subtreeAt_append, hr]

theorem exists_nodeAt_of_mem {F : List (Rose α)} {t : Rose α} (ht : t ∈ F) :
    ∃ p, nodeAt F p = some t := by
  obtain ⟨i, hi⟩ := List.mem_iff_getElem?.mp ht
  exact ⟨[i], by simp [nodeAt, hi, subtreeAt]⟩

theorem exists_nodeAt_of_mem_children {F : List (Rose α)} {p : List ℕ} {t c : Rose α}
    (h : nodeAt F p = some t) (hc : c ∈ t.children) : ∃ p', nodeAt F p' = some c := by
  obtain ⟨j, hj⟩ := List.mem_iff_getElem?.mp hc
  exact ⟨p ++ [j], by rw [nodeAt_append h]; simp [subtreeAt, hj]⟩

theorem nodeAt_trans {F G : List (Rose α)} (hG : ∀ r ∈ G, ∃ p, nodeAt F p = some r) {p : List ℕ}
    {y : Rose α} (hy : nodeAt G p = some y) : ∃ p', nodeAt F p' = some y := by
  cases p with
  | nil => cases hy
  | cons i q =>
    obtain ⟨r, hr, hry⟩ := Option.bind_eq_some_iff.mp hy
    obtain ⟨p', hp'⟩ := hG r (List.mem_of_getElem? hr)
    exact ⟨p' ++ q, by rw [nodeAt_append hp']; exact hry⟩

theorem extract_of_nodeAt : ∀ (F : List (Rose α)) (path : List ℕ) {t : Rose α},
    nodeAt F path = some t → ∃ F', extract F path = some (t, F')
  | _, [], _, h => by cases h
  | F, [i], t, h => by
    obtain ⟨c, hc, hct⟩ := Option.bind_eq_some_iff.mp h
    rw [subtreeAt, Option.some.injEq] at hct
    subst hct
    exact ⟨F.eraseIdx i, by rw [extract, hc, Option.map_some]⟩
  | F, i :: j :: rest, t, h => by
    obtain ⟨⟨a, cs⟩, hc, hct⟩ := Option.bind_eq_some_iff.mp h
    rw [subtreeAt_node_cons] at hct
    obtain ⟨cs', hcs'⟩ := extract_of_nodeAt cs (j :: rest) hct
    exact ⟨F.set i (node a cs'), by rw [extract, hc]; simp [hcs']⟩

open List in
theorem labels_extract : ∀ (F : List (Rose α)) (path : List ℕ) {t : Rose α} {F' : List (Rose α)},
    extract F path = some (t, F') → (labels F).Perm (labels (t :: F'))
  | _, [], _, _, h => by cases h
  | F, [i], t, F', h => by
    obtain ⟨t', ht', heq⟩ := Option.map_eq_some_iff.mp h
    obtain ⟨rfl, rfl⟩ := Prod.mk.inj heq
    obtain ⟨hi, hit⟩ := List.getElem?_eq_some_iff.mp ht'
    apply labels_perm
    rw [← hit]
    exact (List.getElem_cons_eraseIdx_perm hi).symm
  | F, i :: j :: rest, t, F', h => by
    rw [extract] at h
    split at h
    next a cs hi =>
      obtain ⟨r, hr, heq⟩ := Option.map_eq_some_iff.mp h
      obtain ⟨rfl, rfl⟩ := Prod.mk.inj heq
      obtain ⟨hlt, hit⟩ := List.getElem?_eq_some_iff.mp hi
      have hcs := labels_extract cs (j :: rest) hr
      -- the root `a` stays where it was, with the subtree taken out from below it
      calc labels F
          _ ~ labels (node a cs :: F.eraseIdx i) := by
            apply labels_perm
            rw [← hit]
            exact (List.getElem_cons_eraseIdx_perm hlt).symm
          _ = a :: (labels cs ++ labels (F.eraseIdx i)) := labels_node_cons a cs _
          _ ~ a :: (labels [r.1] ++ (labels r.2 ++ labels (F.eraseIdx i))) := by
            have hsplit : labels (r.1 :: r.2) = labels [r.1] ++ labels r.2 := by
              rw [← labels_append, List.singleton_append]
            rw [← List.append_assoc, ← hsplit]
            exact (hcs.append_right _).cons a
          _ ~ labels [r.1] ++ a :: (labels r.2 ++ labels (F.eraseIdx i)) := List.perm_middle.symm
          _ = labels (r.1 :: node a r.2 :: F.eraseIdx i) := by
            rw [← labels_node_cons, ← labels_append, List.singleton_append]
          _ ~ labels (r.1 :: F.set i (node a r.2)) :=
            labels_perm ((List.set_perm_cons_eraseIdx hlt _).symm.cons _)
    next => cases h

theorem subtreeAt_sublist (P : List α) :
    ∀ {t y : Rose α} {rest : List ℕ}, subtreeAt t rest = some y →
      ∃ Q, Q.length = rest.length ∧ (entriesFrom (P ++ Q) y).Sublist (entriesFrom P t)
  | t, y, [], h => by
    rw [subtreeAt, Option.some.injEq] at h
    subst h
    exact ⟨[], rfl, by rw [List.append_nil]⟩
  | node a cs, y, i :: rest, h => by
    obtain ⟨c, hc, hy⟩ := Option.bind_eq_some_iff.mp h
    obtain ⟨Q, hQ, hsub⟩ := subtreeAt_sublist (P ++ [a]) hy
    refine ⟨a :: Q, by simp [hQ], ?_⟩
    rw [show P ++ a :: Q = P ++ [a] ++ Q by simp, entriesFrom_node]
    exact (hsub.trans (entriesFrom_sublist_of_mem _ (List.mem_of_getElem? hc))).trans
      (List.sublist_cons_self _ _)

theorem nodeAt_sublist {F : List (Rose α)} {p : List ℕ} {y : Rose α} (h : nodeAt F p = some y) :
    ∃ Q, Q.length + 1 = p.length ∧ (entriesFrom Q y).Sublist (entries F) := by
  cases p with
  | nil => cases h
  | cons i rest =>
    obtain ⟨t, ht, hy⟩ := Option.bind_eq_some_iff.mp h
    obtain ⟨Q, hQ, hsub⟩ := subtreeAt_sublist [] hy
    exact ⟨Q, by simp [hQ], hsub.trans (entriesFrom_sublist_of_mem [] (List.mem_of_getElem? ht))⟩

mutual
theorem exists_shorter_of_mem_path (P : List α) : ∀ (t : Rose α), ∀ e ∈ entriesFrom P t,
    ∀ b ∈ e.2, b ∉ P → ∃ Q, (b, Q) ∈ entriesFrom P t ∧ Q.length < e.2.length
  | node a cs, e, he, b, hb, hbP => by
    rw [entriesFrom_node, List.mem_cons] at he
    rcases he with rfl | he
    · exact absurd hb hbP
    · -- below the root, every path starts with `P ++ [a]`
      have hlong : P.length < e.2.length := by
        rw [forestEntriesFrom_eq_map] at he
        obtain ⟨e', -, rfl⟩ := List.mem_map.mp he
        simp [shift]
      by_cases hba : b = a
      · subst hba
        exact ⟨P, by simp, hlong⟩
      · obtain ⟨Q, hQ, hlen⟩ := exists_shorter_of_mem_path_forest (P ++ [a]) cs e he b hb
          (by simpa [hba] using hbP)
        exact ⟨Q, by rw [entriesFrom_node]; exact List.mem_cons_of_mem _ hQ, hlen⟩

theorem exists_shorter_of_mem_path_forest (P : List α) : ∀ (F : List (Rose α)),
    ∀ e ∈ forestEntriesFrom P F, ∀ b ∈ e.2, b ∉ P →
      ∃ Q, (b, Q) ∈ forestEntriesFrom P F ∧ Q.length < e.2.length
  | [], e, he, _, _, _ => by simp at he
  | t :: F, e, he, b, hb, hbP => by
    rw [forestEntriesFrom_cons, List.mem_append] at he
    rcases he with he | he
    · obtain ⟨Q, hQ, hlen⟩ := exists_shorter_of_mem_path P t e he b hb hbP
      exact ⟨Q, by rw [forestEntriesFrom_cons]; exact List.mem_append_left _ hQ, hlen⟩
    · obtain ⟨Q, hQ, hlen⟩ := exists_shorter_of_mem_path_forest P F e he b hb hbP
      exact ⟨Q, by rw [forestEntriesFrom_cons]; exact List.mem_append_right _ hQ, hlen⟩
end

section Positions

variable {κ : Type} (key : α → κ)

theorem key_ne_of_getElem?_ne {Q : List α} {F : List (Rose α)}
    (hnodup : ((forestEntriesFrom Q F).map (key ∘ Prod.fst)).Nodup) {i i' : ℕ} {t t' : Rose α}
    (ht : F[i]? = some t) (ht' : F[i']? = some t') (hne : i ≠ i') :
    ∀ e ∈ entriesFrom Q t, ∀ e' ∈ entriesFrom Q t', key e.1 ≠ key e'.1 := by
  -- `t'` lies in the part of the forest before `t` or after it
  wlog hlt : i < i' generalizing i i' t t'
  · intro e he e' he' heq
    exact this ht' ht hne.symm (by omega) e' he' e he heq.symm
  have hi : i < F.length := (List.getElem?_eq_some_iff.mp ht).1
  have hsplit : F = F.take i ++ t :: F.drop (i + 1) := by
    rw [← (List.getElem?_eq_some_iff.mp ht).2, List.getElem_cons_drop, List.take_append_drop]
  have hmem : t' ∈ F.drop (i + 1) := by
    rw [List.mem_iff_getElem?]
    exact ⟨i' - (i + 1), by rw [List.getElem?_drop, show i + 1 + (i' - (i + 1)) = i' by omega, ht']⟩
  intro e he e' he' heq
  rw [hsplit, forestEntriesFrom_append, forestEntriesFrom_cons, List.map_append, List.map_append]
    at hnodup
  have hdisjoint := (List.nodup_append.mp (List.nodup_append.mp hnodup).2.1).2.2
  exact hdisjoint _ (List.mem_map_of_mem he) _
    (List.mem_map_of_mem ((entriesFrom_sublist_of_mem Q hmem).subset he')) heq

theorem nodeAt_inj : ∀ {Q : List α} {F : List (Rose α)} {p p' : List ℕ} {y y' : Rose α},
    ((forestEntriesFrom Q F).map (key ∘ Prod.fst)).Nodup → nodeAt F p = some y →
      nodeAt F p' = some y' → key y.label = key y'.label → p = p'
  | _, _, [], _, _, _, _, h, _, _ => by cases h
  | _, _, _ :: _, [], _, _, _, _, h', _ => by cases h'
  | Q, F, i :: r, i' :: r', y, y', hnodup, h, h', heq => by
    obtain ⟨t, ht, hy⟩ := Option.bind_eq_some_iff.mp h
    obtain ⟨t', ht', hy'⟩ := Option.bind_eq_some_iff.mp h'
    obtain ⟨Q₁, -, hsub⟩ := subtreeAt_sublist Q hy
    obtain ⟨Q₁', -, hsub'⟩ := subtreeAt_sublist Q hy'
    by_cases hii : i = i'
    · subst hii
      rw [ht, Option.some.injEq] at ht'
      subst ht'
      obtain ⟨a, cs⟩ := t
      have hnodup' := hnodup.sublist ((entriesFrom_sublist_of_mem Q (List.mem_of_getElem? ht)).map _)
      rw [entriesFrom_node, List.map_cons, List.nodup_cons] at hnodup'
      -- the root's key is the key of no node below it
      have hroot : ∀ {s : List ℕ} {z : Rose α}, subtreeAt (node a cs) s = some z → s ≠ [] →
          key z.label ≠ key a := by
        intro s z hz hs hkey
        obtain ⟨j, s, rfl⟩ := List.exists_cons_of_ne_nil hs
        obtain ⟨c, hc, hz⟩ := Option.bind_eq_some_iff.mp hz
        obtain ⟨Q₂, -, hsub₂⟩ := subtreeAt_sublist (Q ++ [a]) hz
        apply hnodup'.1
        show key a ∈ _
        rw [← hkey]
        exact List.mem_map_of_mem ((hsub₂.trans (entriesFrom_sublist_of_mem _
          (List.mem_of_getElem? hc))).subset (root_mem_entriesFrom _ z))
      cases r with
      | nil =>
        cases r' with
        | nil => rfl
        | cons j s =>
          rw [subtreeAt, Option.some.injEq] at hy
          subst hy
          exact absurd heq.symm (hroot hy' (List.cons_ne_nil j s))
      | cons j s =>
        cases r' with
        | nil =>
          rw [subtreeAt, Option.some.injEq] at hy'
          subst hy'
          exact absurd heq (hroot hy (List.cons_ne_nil j s))
        | cons j' s' =>
          rw [subtreeAt_node_cons] at hy hy'
          rw [nodeAt_inj hnodup'.2 hy hy' heq]
    · exact absurd heq (key_ne_of_getElem?_ne key hnodup ht ht' hii _
        (hsub.subset (root_mem_entriesFrom _ y)) _ (hsub'.subset (root_mem_entriesFrom _ y')))

theorem mem_entriesFrom_of_root_mem_path {F : List (Rose α)}
    (hnodup : ((entries F).map (key ∘ Prod.fst)).Nodup) {t : Rose α} (ht : t ∈ F)
    {e : α × List α} (he : e ∈ entries F) (hroot : t.label ∈ e.2) : e ∈ entriesFrom [] t := by
  obtain ⟨t', ht', he'⟩ := mem_forestEntriesFrom.mp he
  obtain ⟨i, hi⟩ := List.mem_iff_getElem?.mp ht
  obtain ⟨i', hi'⟩ := List.mem_iff_getElem?.mp ht'
  by_cases hii : i = i'
  · subst hii
    rw [hi, Option.some.injEq] at hi'
    rwa [hi']
  -- otherwise the root of `t` would be a node of `t'` as well
  rcases mem_path_entriesFrom [] t' e he' _ hroot with h | h
  · simp at h
  · obtain ⟨b, hb, hbt⟩ := List.mem_map.mp h
    exact absurd (congrArg key hbt) (key_ne_of_getElem?_ne key hnodup hi' hi (Ne.symm hii) b hb _
      (root_mem_entriesFrom [] t))

end Positions

section Subperm

variable {β : Type} {l₁ l₂ : List α}

theorem subperm_map (f : α → β) (h : l₁.Subperm l₂) : (l₁.map f).Subperm (l₂.map f) := by
  obtain ⟨l, hp, hs⟩ := h
  exact ⟨l.map f, hp.map f, hs.map f⟩

theorem nodup_of_subperm (h : l₁.Subperm l₂) (hn : l₂.Nodup) : l₁.Nodup := by
  obtain ⟨l, hp, hs⟩ := h
  exact hp.nodup_iff.mp (hn.sublist hs)

end Subperm

section WellFormed

variable {κ : Type} (key : α → κ) (R : α → α → Prop)

/-- No two nodes share a key, and the ancestors of each node are exactly the nodes related to it. -/
structure WellFormed (F : List (Rose α)) : Prop where
  nodup : ((entries F).map (key ∘ Prod.fst)).Nodup
  ancestors : ∀ e ∈ entries F, ∀ b ∈ entries F, b.1 ∈ e.2 ↔ R b.1 e.1

/-- `F'` is pruned from `F`: its nodes are nodes of `F`, and the ancestors of each are its
ancestors in `F` that are left. -/
structure Pruned (F' F : List (Rose α)) : Prop where
  subperm : (labels F').Subperm (labels F)
  ancestors : ∀ e' ∈ entries F', ∃ e ∈ entries F, e.1 = e'.1 ∧
    ∀ x, x ∈ e'.2 ↔ x ∈ e.2 ∧ x ∈ labels F'

/-- A strict order under which the elements below any one form a chain: the ancestor relation
of a forest. -/
structure ForestOrder (R : α → α → Prop) : Prop where
  irrefl : ∀ a, ¬R a a
  trans : ∀ a b c, R a b → R b c → R a c
  chain : ∀ a b c, R a c → R b c → a = b ∨ R a b ∨ R b a

variable {key R}

theorem WellFormed.pruned {F' F : List (Rose α)} (hF : WellFormed key R F) (h : Pruned F' F) :
    WellFormed key R F' where
  nodup := by
    have hkeys := subperm_map key h.subperm
    simp only [labels, List.map_map] at hkeys
    exact nodup_of_subperm hkeys hF.nodup
  ancestors e' he' b' hb' := by
    obtain ⟨e, he, hlabel, hpath⟩ := h.ancestors e' he'
    obtain ⟨b, hb, hblabel, -⟩ := h.ancestors b' hb'
    have hb'mem : b'.1 ∈ labels F' := List.mem_map_of_mem hb'
    rw [hpath, ← hlabel, ← hblabel, and_iff_left (hblabel ▸ hb'mem)]
    exact hF.ancestors e he b hb

theorem WellFormed.of_entries_perm {F' F : List (Rose α)} (hF : WellFormed key R F)
    (h : (entries F').Perm (entries F)) : WellFormed key R F' where
  nodup := (h.map _).nodup_iff.mpr hF.nodup
  ancestors e he b hb := hF.ancestors e (h.subset he) b (h.subset hb)

section Related

variable {F : List (Rose α)} (hF : WellFormed key R F)
include hF

theorem WellFormed.not_rel_of_path_eq (hirr : ∀ a, ¬R a a) {e b : α × List α}
    (he : e ∈ entries F) (hb : b ∈ entries F) (hpath : e.2 = b.2) : ¬R b.1 e.1 := fun hbe =>
  hirr b.1 ((hF.ancestors b hb b hb).mp (hpath ▸ (hF.ancestors e he b hb).mpr hbe))

theorem WellFormed.rel_of_mem_entriesFrom {P : List α} {t : Rose α}
    (hsub : (entriesFrom P t).Sublist (entries F)) {b : α × List α} (hb : b ∈ entriesFrom P t) :
    b.1 = t.label ∨ R t.label b.1 := by
  rcases mem_entriesFrom hb with rfl | ⟨q, hq⟩
  · exact .inl rfl
  · refine .inr ((hF.ancestors b (hsub.subset hb) (t.label, P) (hsub.subset ?_)).mp (by simp [hq]))
    obtain ⟨a, cs⟩ := t
    simp [label]

theorem WellFormed.label_eq_of_key_eq {x y : α} (hx : x ∈ labels F) (hy : y ∈ labels F)
    (hxy : key x = key y) : x = y := by
  have hnodup : ((labels F).map key).Nodup := by
    rw [labels, List.map_map]
    exact hF.nodup
  exact List.inj_on_of_nodup_map hnodup hx hy hxy

theorem WellFormed.not_rel_root {t : Rose α} (ht : t ∈ F) {x : α} (hx : x ∈ labels F) :
    ¬R x t.label := by
  intro hrel
  obtain ⟨e, he, rfl⟩ := List.mem_map.mp hx
  have hroot : (t.label, []) ∈ entries F :=
    (entriesFrom_sublist_of_mem [] ht).subset (root_mem_entriesFrom [] t)
  have hpath := (hF.ancestors (t.label, []) hroot e he).mpr hrel
  simp at hpath

theorem WellFormed.mem_labels_children_iff {t : Rose α} (ht : t ∈ F) {x : α} :
    x ∈ labels t.children ↔ x ∈ labels F ∧ R t.label x := by
  obtain ⟨a, cs⟩ := t
  have hsub : (entriesFrom [] (node a cs)).Sublist (entries F) := entriesFrom_sublist_of_mem [] ht
  have hroot : (a, []) ∈ entries F := hsub.subset (root_mem_entriesFrom [] (node a cs))
  -- the nodes below the root are its entries past the first, with `a` first on their paths
  have hlabels : labels (node a cs).children = (forestEntriesFrom [a] cs).map Prod.fst := by
    rw [forestEntriesFrom_eq_map, map_fst_shift]
    rfl
  constructor
  · intro hx
    rw [hlabels] at hx
    obtain ⟨e, he, rfl⟩ := List.mem_map.mp hx
    have he' : e ∈ entries F := hsub.subset (by
      rw [entriesFrom_node]
      exact List.mem_cons_of_mem _ (by simpa using he))
    have ha : a ∈ e.2 := by
      rw [forestEntriesFrom_eq_map] at he
      obtain ⟨e', -, rfl⟩ := List.mem_map.mp he
      simp [shift]
    exact ⟨List.mem_map_of_mem he', (hF.ancestors e he' (a, []) hroot).mp ha⟩
  · rintro ⟨hx, hrel⟩
    obtain ⟨e, he, rfl⟩ := List.mem_map.mp hx
    have ha : a ∈ e.2 := (hF.ancestors e he (a, []) hroot).mpr hrel
    have hin := mem_entriesFrom_of_root_mem_path key hF.nodup ht he ha
    rw [entriesFrom_node, List.mem_cons] at hin
    rcases hin with rfl | hin
    · simp at ha
    · rw [hlabels]
      exact List.mem_map_of_mem (by simpa using hin)

theorem WellFormed.length_lt_of_rel {e b : α × List α} (he : e ∈ entries F) (hb : b ∈ entries F)
    (hbe : R b.1 e.1) : b.2.length < e.2.length := by
  obtain ⟨Q, hQ, hlen⟩ := exists_shorter_of_mem_path_forest [] F e he b.1
    ((hF.ancestors e he b hb).mpr hbe) (by simp)
  -- the node with the label of `b` is `b`, as no two nodes share a key
  have heq : (b.1, Q) = b := List.inj_on_of_nodup_map hF.nodup hQ hb rfl
  rw [← heq]
  exact hlen

end Related

theorem WellFormed.key_ne_of_mem_cons {t : Rose α} {G : List (Rose α)} (hF : WellFormed key R (t :: G))
    {e b : α × List α} (he : e ∈ entriesFrom [] t) (hb : b ∈ entries G) : key e.1 ≠ key b.1 := by
  have hnodup := hF.nodup
  rw [entries_cons, List.map_append, List.nodup_append] at hnodup
  exact hnodup.2.2 _ (List.mem_map_of_mem he) _ (List.mem_map_of_mem hb)

end WellFormed

section Pruned

variable {F F' F'' : List (Rose α)}

theorem pruned_of_entries_perm (h : (entries F').Perm (entries F)) : Pruned F' F where
  subperm := (h.map Prod.fst).subperm
  ancestors e' he' := ⟨e', h.subset he', rfl, fun _ =>
    ⟨fun hx => ⟨hx, mem_labels_of_mem_path he' hx⟩, fun hx => hx.1⟩⟩

theorem pruned_of_perm (h : F'.Perm F) : Pruned F' F :=
  pruned_of_entries_perm (forestEntriesFrom_perm [] h)

theorem pruned_of_sublist (h : F'.Sublist F) : Pruned F' F where
  subperm := ((forestEntriesFrom_sublist [] h).map Prod.fst).subperm
  ancestors e' he' := ⟨e', (forestEntriesFrom_sublist [] h).subset he', rfl, fun _ =>
    ⟨fun hx => ⟨hx, mem_labels_of_mem_path he' hx⟩, fun hx => hx.1⟩⟩

theorem Pruned.trans (h' : Pruned F'' F') (h : Pruned F' F) : Pruned F'' F where
  subperm := h'.subperm.trans h.subperm
  ancestors e'' he'' := by
    obtain ⟨e', he', hlabel', hpath'⟩ := h'.ancestors e'' he''
    obtain ⟨e, he, hlabel, hpath⟩ := h.ancestors e' he'
    refine ⟨e, he, hlabel.trans hlabel', fun x => ?_⟩
    rw [hpath', hpath]
    -- the labels of `F''` are labels of `F'`
    exact ⟨fun hx => ⟨hx.1.1, hx.2⟩, fun hx => ⟨⟨hx.1, h'.subperm.subset hx.2⟩, hx.2⟩⟩

theorem Pruned.node {cs' cs : List (Rose α)} (h : Pruned cs' cs) (a : α) :
    Pruned [Rose.node a cs'] [Rose.node a cs] where
  subperm := by
    simp only [labels, entries, forestEntriesFrom_cons, entriesFrom_node, List.nil_append,
      forestEntriesFrom_nil, List.append_nil, List.map_cons]
    rw [show [a] = [a] ++ [] from rfl, forestEntriesFrom_append', forestEntriesFrom_append',
      List.map_map, List.map_map]
    exact (List.subperm_cons a).mpr h.subperm
  ancestors e' he' := by
    simp only [entries, forestEntriesFrom_cons, entriesFrom_node, List.nil_append,
      forestEntriesFrom_nil, List.append_nil, List.mem_cons] at he'
    rcases he' with rfl | he'
    · exact ⟨(a, []), by simp [entries], rfl, fun x => by simp⟩
    · rw [show [a] = [a] ++ [] from rfl, forestEntriesFrom_append'] at he'
      obtain ⟨f', hf', rfl⟩ := List.mem_map.mp he'
      obtain ⟨f, hf, hlabel, hpath⟩ := h.ancestors f' hf'
      refine ⟨shift [a] f, ?_, hlabel, fun x => ?_⟩
      · simp only [entries, forestEntriesFrom_cons, entriesFrom_node, List.nil_append,
          forestEntriesFrom_nil, List.append_nil, List.mem_cons]
        right
        rw [show [a] = [a] ++ [] from rfl, forestEntriesFrom_append']
        exact List.mem_map_of_mem hf
      · have hlabels : x ∈ labels [Rose.node a cs'] ↔ x = a ∨ x ∈ labels cs' := by
          simp only [labels, entries, forestEntriesFrom_cons, entriesFrom_node, List.nil_append,
            forestEntriesFrom_nil, List.append_nil, List.map_cons, List.mem_cons]
          rw [show [a] = [a] ++ [] from rfl, forestEntriesFrom_append', List.map_map]
          rfl
        simp only [shift, List.singleton_append, List.mem_cons, hlabels, hpath]
        tauto

variable {κ : Type} {key : α → κ} {R : α → α → Prop}

theorem not_mem_labels_of_nodup {a : α} {cs : List (Rose α)} {G : List (Rose α)}
    (hnodup : ((entries (node a cs :: G)).map (key ∘ Prod.fst)).Nodup) :
    a ∉ labels cs ∧ a ∉ labels G := by
  have hkeys : (entries (node a cs :: G)).map (key ∘ Prod.fst) =
      (labels (node a cs :: G)).map key := by
    rw [labels, List.map_map]
  rw [hkeys, labels_node_cons, List.map_cons, List.nodup_cons, List.map_append, List.mem_append]
    at hnodup
  -- a label equal to `a` would repeat its key
  exact ⟨fun ha => hnodup.1 (.inl (List.mem_map_of_mem ha)),
    fun ha => hnodup.1 (.inr (List.mem_map_of_mem ha))⟩

theorem WellFormed.pruned_promote (hF : WellFormed key R F) {t : Rose α} {G : List (Rose α)}
    (hperm : (t :: G).Perm F) : Pruned (G ++ t.children) F := by
  obtain ⟨a, cs⟩ := t
  have hentries : (entries (node a cs :: G)).Perm (entries F) := forestEntriesFrom_perm [] hperm
  obtain ⟨hcs, hG⟩ := not_mem_labels_of_nodup ((hentries.map _).nodup_iff.mpr hF.nodup)
  have hsplit : entries (node a cs :: G) =
      (a, []) :: ((entries cs).map (shift [a]) ++ entries G) := by
    rw [entries_cons, entriesFrom_nil_node, List.cons_append]
  have hlabels : labels (G ++ (node a cs).children) = labels G ++ labels cs := labels_append G cs
  refine ⟨?_, fun e' he' => ?_⟩
  · -- the labels left are those of `G` and of the children
    have hF' : (labels (node a cs :: G)).Perm (labels F) := hentries.map Prod.fst
    refine List.Subperm.trans ?_ hF'.subperm
    rw [hlabels, labels_node_cons]
    exact (List.perm_append_comm.subperm).trans (List.sublist_cons_self a _).subperm
  · rw [show (node a cs).children = cs from rfl, entries_append, List.mem_append] at he'
    rcases he' with he' | he'
    · -- a node of another root keeps its ancestors
      refine ⟨e', hentries.subset (by rw [hsplit]; simp [he']), rfl, fun x => ?_⟩
      exact ⟨fun hx => ⟨hx, by
        rw [hlabels]
        exact List.mem_append_left _ (mem_labels_of_mem_path he' hx)⟩, fun hx => hx.1⟩
    · -- a node below `t` loses `a`, which is no label left
      refine ⟨shift [a] e', hentries.subset (by rw [hsplit]; simp [List.mem_map_of_mem he']), rfl,
        fun x => ?_⟩
      have hx' : x ∈ labels (G ++ (node a cs).children) → x ≠ a := by
        rintro hx rfl
        rw [hlabels, List.mem_append] at hx
        exact hx.elim hG hcs
      simp only [shift, List.singleton_append, List.mem_cons]
      exact ⟨fun hx => ⟨.inr hx, by
        rw [hlabels]
        exact List.mem_append_right _ (mem_labels_of_mem_path he' hx)⟩,
        fun hx => hx.1.resolve_left (hx' hx.2)⟩

theorem WellFormed.pruned_subtree (hF : WellFormed key R F) (hirr : ∀ a, ¬R a a)
    (htrans : ∀ a b c, R a b → R b c → R a c) {t : Rose α} {P : List α}
    (hsub : (entriesFrom P t).Sublist (entries F)) : Pruned [t] F := by
  obtain ⟨a, cs⟩ := t
  have hshift : ∀ e ∈ entries [node a cs], shift P e ∈ entries F := fun e he =>
    hsub.subset (by rw [entriesFrom_eq_map]; simpa [entries] using List.mem_map_of_mem he)
  have hroot : (a, P) ∈ entries F := hsub.subset (by simp)
  refine ⟨?_, fun e' he' => ⟨shift P e', hshift e' he', rfl, fun x => ?_⟩⟩
  · have hmap := hsub.map Prod.fst
    rw [entriesFrom_eq_map, map_fst_shift] at hmap
    rw [labels, entries_singleton]
    exact hmap.subperm
  · simp only [shift, List.mem_append]
    refine ⟨fun hx => ⟨.inr hx, mem_labels_of_mem_path he' hx⟩, fun ⟨hx, hlabel⟩ => ?_⟩
    refine hx.resolve_left fun hxP => ?_
    -- `x` is above the root and a node of the tree: it would be related to itself
    obtain ⟨ex, hex, rfl⟩ := List.mem_map.mp hlabel
    have hxa : R ex.1 a := (hF.ancestors (a, P) hroot (shift P ex) (hshift ex hex)).mp hxP
    rcases mem_entries_node hex with rfl | hax
    · exact hirr _ hxa
    · have hax' : R a ex.1 := (hF.ancestors (shift P ex) (hshift ex hex) (a, P) hroot).mp
        (by simp [shift, hax])
      exact hirr _ (htrans _ _ _ hxa hax')

theorem WellFormed.of_perm_append (hF : WellFormed key R F) {F' : List (Rose α)} {n : α}
    {P : List α} (hperm : (entries F').Perm (entries F ++ [(n, P)]))
    (hfresh : ∀ e ∈ entries F, key e.1 ≠ key n) (hpath : ∀ b ∈ entries F, b.1 ∈ P ↔ R b.1 n)
    (hnotin : n ∉ P) (hirr : ¬R n n) (hbelow : ∀ e ∈ entries F, ¬R n e.1) :
    WellFormed key R F' where
  nodup := by
    rw [(hperm.map _).nodup_iff, List.map_append, List.nodup_append]
    refine ⟨hF.nodup, List.nodup_cons.mpr ⟨List.not_mem_nil, List.nodup_nil⟩, fun k hk k' hk' => ?_⟩
    obtain ⟨e, he, rfl⟩ := List.mem_map.mp hk
    rw [List.map_singleton, List.mem_singleton] at hk'
    rw [hk']
    exact hfresh e he
  ancestors e he b hb := by
    replace he := hperm.subset he
    replace hb := hperm.subset hb
    rw [List.mem_append, List.mem_singleton] at he hb
    rcases he with he | rfl <;> rcases hb with hb | rfl
    · exact hF.ancestors e he b hb
    · -- the new node is above no node of the forest
      refine ⟨fun hn => ?_, fun hn => absurd hn (hbelow e he)⟩
      obtain ⟨e', he', hlabel⟩ := List.mem_map.mp (mem_labels_of_mem_path he hn)
      exact absurd (congrArg key hlabel) (hfresh e' he')
    · exact hpath b hb
    · exact ⟨fun hn => absurd hn hnotin, fun hn => absurd hn hirr⟩

end Pruned

end Rose
