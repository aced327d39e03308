import Mathlib.Data.List.Perm.Basic
import Mathlib.Data.List.Nodup
import Mathlib.Tactic.Common

/-!
# Ordered forests

Ordered forests with labelled nodes and a list of leaves at each node, in first-child /
next-sibling form, so that every function on them is one structural recursion.  Nothing
here is about a particular program.

## Main definitions

* `Forest.tops`, `Forest.labs`, `Forest.leaves` — labels of the top nodes, all labels, all
  leaves.
* `Forest.bundles` — the leaves of each node as one list.
* `Forest.paths` — each leaf with the labels above it, outermost first.
* `Forest.Grown` — the forest is the unfolding of two functions that give the children and
  the leaves of a label.
* `Forest.prune` — bottom-up removal of nodes; a removed node passes its children and
  leaves to its parent.
-/

/-- An ordered forest: the first tree, given by the label, the leaves and the children of
its root, and the trees after it. -/
inductive Forest (α β : Type*) where
  | nil
  | node (lab : α) (ls : List β) (kids rest : Forest α β)
  deriving DecidableEq, Repr

namespace Forest

variable {α β γ δ : Type*}

/-- The labels of the top nodes, in order. -/
@[simp] def tops : Forest α β → List α
  | nil => []
  | node a _ _ R => a :: R.tops

/-- All labels, each node before its descendants. -/
@[simp] def labs : Forest α β → List α
  | nil => []
  | node a _ K R => a :: (K.labs ++ R.labs)

/-- All leaves. -/
@[simp] def leaves : Forest α β → List β
  | nil => []
  | node _ ls K R => ls ++ (K.leaves ++ R.leaves)

/-- The lists of leaves of all nodes. -/
@[simp] def bundles : Forest α β → List (List β)
  | nil => []
  | node _ ls K R => ls :: (K.bundles ++ R.bundles)

/-- One forest after the other. -/
@[simp] def append : Forest α β → Forest α β → Forest α β
  | nil, G => G
  | node a ls K R, G => node a ls K (R.append G)

/-- Relabel nodes and leaves. -/
@[simp] def map (f : α → γ) (g : β → δ) : Forest α β → Forest γ δ
  | nil => nil
  | node a ls K R => node (f a) (ls.map g) (K.map f g) (R.map f g)

/-- Every leaf with the labels above it, outermost label first. -/
@[simp] def paths : Forest α β → List (List α × β)
  | nil => []
  | node a ls K R =>
    ls.map (fun l => ([a], l)) ++ K.paths.map (fun q => (a :: q.1, q.2)) ++ R.paths

/-- Every node has a leaf or a child. -/
def Live : Forest α β → Prop
  | nil => True
  | node _ ls K R => (ls ≠ [] ∨ K ≠ nil) ∧ K.Live ∧ R.Live

/-- The forest unfolds `kids` and `lvs`: each node carries the leaves of its label, and
its children are those of its label. -/
def Grown (kids : α → List α) (lvs : α → List β) : Forest α β → Prop
  | nil => True
  | node a ls K R => ls = lvs a ∧ K.tops = kids a ∧ K.Grown kids lvs ∧ R.Grown kids lvs

@[simp] theorem append_nil (F : Forest α β) : F.append nil = F := by
  induction F with
  | nil => rfl
  | node a ls K R _ ihR => simp [ihR]

theorem append_assoc (F G H : Forest α β) : (F.append G).append H = F.append (G.append H) := by
  induction F with
  | nil => rfl
  | node a ls K R _ ihR => simp [ihR]

@[simp] theorem tops_append (F G : Forest α β) : (F.append G).tops = F.tops ++ G.tops := by
  induction F with
  | nil => rfl
  | node a ls K R _ ihR => simp [ihR]

@[simp] theorem labs_append (F G : Forest α β) : (F.append G).labs = F.labs ++ G.labs := by
  induction F with
  | nil => rfl
  | node a ls K R _ ihR => simp [ihR]

@[simp] theorem leaves_append (F G : Forest α β) :
    (F.append G).leaves = F.leaves ++ G.leaves := by
  induction F with
  | nil => rfl
  | node a ls K R _ ihR => simp [ihR]

@[simp] theorem paths_append (F G : Forest α β) :
    (F.append G).paths = F.paths ++ G.paths := by
  induction F with
  | nil => rfl
  | node a ls K R _ ihR => simp [ihR]

@[simp] theorem live_append (F G : Forest α β) : (F.append G).Live ↔ F.Live ∧ G.Live := by
  induction F with
  | nil => simp [Live]
  | node a ls K R _ ihR => simp [Live, ihR, and_assoc]

@[simp] theorem grown_append {kids : α → List α} {lvs : α → List β} (F G : Forest α β) :
    (F.append G).Grown kids lvs ↔ F.Grown kids lvs ∧ G.Grown kids lvs := by
  induction F with
  | nil => simp [Grown]
  | node a ls K R _ ihR => simp [Grown, ihR, and_assoc]

@[simp] theorem map_append (f : α → γ) (g : β → δ) (F G : Forest α β) :
    (F.append G).map f g = (F.map f g).append (G.map f g) := by
  induction F with
  | nil => rfl
  | node a ls K R _ ihR => simp [ihR]

@[simp] theorem tops_map (f : α → γ) (g : β → δ) (F : Forest α β) :
    (F.map f g).tops = F.tops.map f := by
  induction F with
  | nil => rfl
  | node a ls K R _ ihR => simp [ihR]

@[simp] theorem leaves_map (f : α → γ) (g : β → δ) (F : Forest α β) :
    (F.map f g).leaves = F.leaves.map g := by
  induction F with
  | nil => rfl
  | node a ls K R ihK ihR => simp [ihK, ihR]

@[simp] theorem labs_map (f : α → γ) (g : β → δ) (F : Forest α β) :
    (F.map f g).labs = F.labs.map f := by
  induction F with
  | nil => rfl
  | node a ls K R ihK ihR => simp [ihK, ihR]

@[simp] theorem live_map (f : α → γ) (g : β → δ) (F : Forest α β) :
    (F.map f g).Live ↔ F.Live := by
  induction F with
  | nil => simp [Live]
  | node a ls K R ihK ihR => cases K <;> simp_all [Live]

theorem tops_eq_nil {F : Forest α β} : F.tops = [] ↔ F = nil := by
  cases F <;> simp

theorem mem_labs_of_mem_tops {F : Forest α β} {a : α} (h : a ∈ F.tops) : a ∈ F.labs := by
  induction F with
  | nil => simp at h
  | node b ls K R _ ihR =>
      rcases List.mem_cons.mp h with rfl | h
      · simp
      · simp [ihR h]

/-- The leaves are the ends of the paths. -/
theorem paths_snd (F : Forest α β) : F.paths.map Prod.snd = F.leaves := by
  induction F with
  | nil => rfl
  | node a ls K R ihK ihR =>
      simp only [paths, leaves, List.map_append, List.map_map, ← ihK, ← ihR]
      simp [Function.comp_def]

theorem mem_leaves_iff {F : Forest α β} {l : β} : l ∈ F.leaves ↔ ∃ p, (p, l) ∈ F.paths := by
  rw [← paths_snd]
  simp

/-- A node without leaves has a child, a live forest that is not empty has a leaf. -/
theorem Live.leaves_ne_nil {F : Forest α β} (h : F.Live) (hF : F ≠ nil) : F.leaves ≠ [] := by
  induction F with
  | nil => exact absurd rfl hF
  | node a ls K R ihK _ =>
      obtain ⟨h1, hK, -⟩ := h
      rcases h1 with h1 | h1
      · simp [h1]
      · simp [ihK hK h1]

/-- Unfoldings depend on the two functions at their labels only. -/
theorem Grown.congr {kids kids' : α → List α} {lvs lvs' : α → List β} {F : Forest α β}
    (h : F.Grown kids lvs) (hk : ∀ a ∈ F.labs, kids' a = kids a)
    (hl : ∀ a ∈ F.labs, lvs' a = lvs a) : F.Grown kids' lvs' := by
  induction F with
  | nil => trivial
  | node a ls K R ihK ihR =>
      obtain ⟨h1, h2, h3, h4⟩ := h
      refine ⟨?_, ?_, ihK h3 ?_ ?_, ihR h4 ?_ ?_⟩
      · rw [hl a (by simp), h1]
      · rw [hk a (by simp), h2]
      all_goals
        intro b hb
        first
          | exact hk b (by simp [hb])
          | exact hl b (by simp [hb])

/-- The leaves of a label stand at its node. -/
theorem Grown.mem_bundles {kids : α → List α} {lvs : α → List β} {F : Forest α β}
    (h : F.Grown kids lvs) {a : α} (ha : a ∈ F.labs) : lvs a ∈ F.bundles := by
  induction F with
  | nil => cases ha
  | node b ls K R ihK ihR =>
      obtain ⟨rfl, -, hK, hR⟩ := h
      simp only [labs, List.mem_cons, List.mem_append] at ha
      simp only [bundles, List.mem_cons, List.mem_append]
      rcases ha with rfl | ha | ha
      · exact Or.inl rfl
      · exact Or.inr (Or.inl (ihK hK ha))
      · exact Or.inr (Or.inr (ihR hR ha))

/-- The unfolding of given roots is unique. -/
theorem Grown.unique {kids : α → List α} {lvs : α → List β} {F G : Forest α β}
    (hF : F.Grown kids lvs) (hG : G.Grown kids lvs) (h : F.tops = G.tops) : F = G := by
  induction F generalizing G with
  | nil =>
      cases G with
      | nil => rfl
      | node => simp at h
  | node a ls K R ihK ihR =>
      cases G with
      | nil => simp at h
      | node b ms L S =>
          simp only [tops, List.cons.injEq] at h
          obtain ⟨rfl, h⟩ := h
          obtain ⟨rfl, h2, h3, h4⟩ := hF
          obtain ⟨rfl, h6, h7, h8⟩ := hG
          rw [ihK h3 h7 (h2.trans h6.symm), ihR h4 h8 h]

/-- Relabelling an unfolding. -/
theorem Grown.map {kids : α → List α} {lvs : α → List β} {kids' : γ → List γ}
    {lvs' : γ → List δ} {f : α → γ} {g : β → δ} {F : Forest α β} (h : F.Grown kids lvs)
    (hk : ∀ a ∈ F.labs, kids' (f a) = (kids a).map f)
    (hl : ∀ a ∈ F.labs, lvs' (f a) = (lvs a).map g) : (F.map f g).Grown kids' lvs' := by
  induction F with
  | nil => trivial
  | node a ls K R ihK ihR =>
      obtain ⟨h1, h2, h3, h4⟩ := h
      refine ⟨?_, ?_, ihK h3 ?_ ?_, ihR h4 ?_ ?_⟩
      · rw [hl a (by simp), h1]
      · rw [hk a (by simp), ← h2, tops_map]
      all_goals
        intro b hb
        first
          | exact hk b (by simp [hb])
          | exact hl b (by simp [hb])

/-- The leaves of an unfolding, node by node. -/
theorem Grown.leaves_eq {kids : α → List α} {lvs : α → List β} {F : Forest α β}
    (h : F.Grown kids lvs) : F.leaves = F.labs.flatMap lvs := by
  induction F with
  | nil => rfl
  | node a ls K R ihK ihR =>
      obtain ⟨rfl, -, h3, h4⟩ := h
      simp [ihK h3, ihR h4]

/-- An unfolding is live if every label of it has a child or a leaf. -/
theorem Grown.live {kids : α → List α} {lvs : α → List β} {F : Forest α β}
    (hg : F.Grown kids lvs) (h : ∀ x ∈ F.labs, kids x ≠ [] ∨ lvs x ≠ []) : F.Live := by
  induction F with
  | nil => trivial
  | node a ls K R ihK ihR =>
      obtain ⟨rfl, hk, hgK, hgR⟩ := hg
      refine ⟨?_, ihK hgK fun x hx => h x (by simp [hx]), ihR hgR fun x hx => h x (by simp [hx])⟩
      rcases h a (by simp) with ha | ha
      · rw [← hk, ne_eq, tops_eq_nil] at ha
        exact Or.inr ha
      · exact Or.inl ha

/-- A node of an unfolding is a top node or a child of another node. -/
theorem Grown.mem_labs {kids : α → List α} {lvs : α → List β} {F : Forest α β}
    (h : F.Grown kids lvs) {y : α} (hy : y ∈ F.labs) :
    y ∈ F.tops ∨ ∃ x ∈ F.labs, y ∈ kids x := by
  induction F with
  | nil => simp at hy
  | node a ls K R ihK ihR =>
      obtain ⟨-, h2, h3, h4⟩ := h
      simp only [labs, List.mem_cons, List.mem_append] at hy
      rcases hy with rfl | hy | hy
      · simp
      · rcases ihK h3 hy with hy | ⟨x, hx, hy⟩
        · exact Or.inr ⟨a, by simp, h2 ▸ hy⟩
        · exact Or.inr ⟨x, by simp [hx], hy⟩
      · rcases ihR h4 hy with hy | ⟨x, hx, hy⟩
        · exact Or.inl (by simp [hy])
        · exact Or.inr ⟨x, by simp [hx], hy⟩

/-- The children of a node of an unfolding are nodes of it. -/
theorem Grown.kids_subset {kids : α → List α} {lvs : α → List β} {F : Forest α β}
    (h : F.Grown kids lvs) {x y : α} (hx : x ∈ F.labs) (hy : y ∈ kids x) : y ∈ F.labs := by
  induction F with
  | nil => simp at hx
  | node a ls K R ihK ihR =>
      obtain ⟨-, h2, h3, h4⟩ := h
      simp only [labs, List.mem_cons, List.mem_append] at hx ⊢
      rcases hx with rfl | hx | hx
      · exact Or.inr (Or.inl (mem_labs_of_mem_tops (h2.symm ▸ hy)))
      · exact Or.inr (Or.inl (ihK h3 hx))
      · exact Or.inr (Or.inr (ihR h4 hx))

/-- A forest as one over its own labels. -/
theorem exists_attach {p : α → Prop} (F : Forest α β) (hF : ∀ a ∈ F.labs, p a) :
    ∃ G : Forest {a // p a} β, G.map Subtype.val id = F := by
  induction F with
  | nil => exact ⟨nil, rfl⟩
  | node a ls K R ihK ihR =>
      obtain ⟨K', hK⟩ := ihK fun b hb => hF b (by simp [hb])
      obtain ⟨R', hR⟩ := ihR fun b hb => hF b (by simp [hb])
      exact ⟨node ⟨a, hF a (by simp)⟩ ls K' R', by simp [hK, hR]⟩

/-- If some measure decreases from a node to its children, the unfolding exists. -/
theorem exists_grown {kids : α → List α} (lvs : α → List β) (good : α → Prop) (μ : α → ℕ)
    (hμ : ∀ x, good x → ∀ c ∈ kids x, good c ∧ μ c < μ x) {x : α} (hx : good x) :
    ∃ F : Forest α β, F.tops = kids x ∧ F.Grown kids lvs := by
  induction hm : μ x using Nat.strongRecOn generalizing x with
  | _ m ih =>
      have hlist : ∀ l : List α, (∀ c ∈ l, c ∈ kids x) →
          ∃ F : Forest α β, F.tops = l ∧ F.Grown kids lvs := by
        intro l
        induction l with
        | nil => exact fun _ => ⟨nil, rfl, trivial⟩
        | cons c l ihl =>
            intro hl
            obtain ⟨R, hR, hRg⟩ := ihl fun d hd => hl d (List.mem_cons_of_mem _ hd)
            obtain ⟨hc, hlt⟩ := hμ x hx c (hl c (by simp))
            obtain ⟨K, hK, hKg⟩ := ih (μ c) (hm ▸ hlt) hc rfl
            exact ⟨node c (lvs c) K R, by simp [hR], rfl, hK, hKg, hRg⟩
      exact hlist (kids x) fun _ hc => hc

/-! ## Pruning -/

/-- Bottom-up pruning of the children of a node.  A child is removed when `cut` holds of
the number of its children and leaves after its own children were pruned.  The result
lists the leaves and the trees that removed children pass on, the last removed first, and
the children that remain. -/
def prune (cut : ℕ → ℕ → Bool) : Forest α β → List β × Forest α β × Forest α β
  | nil => ([], nil, nil)
  | node a ls K R =>
    let k := K.prune cut
    let ls' := k.1 ++ ls
    let K' := k.2.1.append k.2.2
    let r := R.prune cut
    if cut K'.tops.length ls'.length then (r.1 ++ ls', r.2.1.append K', r.2.2)
    else (r.1, r.2.1, node a ls' K' r.2.2)

variable {cut : ℕ → ℕ → Bool}

/-- Pruning the first trees and then the others. -/
theorem prune_append (cut : ℕ → ℕ → Bool) (F G : Forest α β) : (F.append G).prune cut =
    ((G.prune cut).1 ++ (F.prune cut).1, (G.prune cut).2.1.append (F.prune cut).2.1,
      (F.prune cut).2.2.append (G.prune cut).2.2) := by
  induction F with
  | nil => simp [prune]
  | node a ls K R _ ihR =>
      simp only [append, prune, ihR]
      split <;> simp [append_assoc]

/-- Pruning loses and duplicates no leaf. -/
theorem prune_leaves (cut : ℕ → ℕ → Bool) (F : Forest α β) :
    ((F.prune cut).1 ++ ((F.prune cut).2.1.append (F.prune cut).2.2).leaves).Perm F.leaves := by
  induction F with
  | nil => simp [prune]
  | node a ls K R ihK ihR =>
      classical
      simp only [prune]
      split <;> simp only [leaves_append, leaves] at ihK ihR ⊢
      all_goals
        rw [List.perm_iff_count] at ihK ihR ⊢
        intro x
        have h1 := ihK x
        have h2 := ihR x
        simp only [List.count_append] at h1 h2 ⊢
        omega

/-- The labels that remain are among the old ones, in the old multiplicity at most. -/
theorem prune_labs (F : Forest α β) :
    ((F.prune cut).2.1.append (F.prune cut).2.2).labs.Subperm F.labs := by
  induction F with
  | nil => simp [prune]
  | node a ls K R ihK ihR =>
      classical
      simp only [prune]
      split <;> simp only [labs_append, labs] at ihK ihR ⊢
      all_goals
        rw [List.subperm_ext_iff]
        intro x _
        have h1 := ihK.count_le x
        have h2 := ihR.count_le x
        simp only [List.count_append, List.count_cons] at h1 h2 ⊢
        omega

theorem mem_labs_of_prune {F : Forest α β} {x : α}
    (hx : x ∈ ((F.prune cut).2.1.append (F.prune cut).2.2).labs) : x ∈ F.labs :=
  (prune_labs F).subset hx

/-- If `cut` removes nodes without children and leaves, what remains is live. -/
theorem prune_live (hcut : cut 0 0 = true) (F : Forest α β) :
    (F.prune cut).2.1.Live ∧ (F.prune cut).2.2.Live := by
  induction F with
  | nil => simp [prune, Live]
  | node a ls K R ihK ihR =>
      have hK : ((K.prune cut).2.1.append (K.prune cut).2.2).Live := by
        rw [live_append]; exact ihK
      simp only [prune]
      split
      · exact ⟨(live_append _ _).mpr ⟨ihR.1, hK⟩, ihR.2⟩
      · rename_i hc
        refine ⟨ihR.1, ?_, hK, ihR.2⟩
        by_contra hne
        push Not at hne
        apply hc
        rw [hne.1, hne.2]
        exact hcut

/-- Relabelling commutes with pruning. -/
theorem prune_map (f : α → γ) (g : β → δ) (F : Forest α β) :
    (F.map f g).prune cut =
      ((F.prune cut).1.map g, (F.prune cut).2.1.map f g, (F.prune cut).2.2.map f g) := by
  induction F with
  | nil => rfl
  | node a ls K R ihK ihR =>
      simp only [map, prune, ihK, ihR, ← map_append, tops_map, List.length_map,
        ← List.map_append]
      split <;> simp

/-- The path of a leaf after pruning is a part of its path before. -/
theorem prune_paths (F : Forest α β) :
    ∀ q ∈ ((F.prune cut).2.1.append (F.prune cut).2.2).paths,
      ∃ p, (p, q.2) ∈ F.paths ∧ q.1.Sublist p := by
  induction F with
  | nil => simp [prune]
  | node a ls K R ihK ihR =>
      have hlK : ∀ l ∈ (K.prune cut).1, ∃ p, (p, l) ∈ K.paths := by
        intro l hl
        have := (prune_leaves cut K).subset (List.mem_append_left _ hl)
        exact mem_leaves_iff.mp this
      have hK : ∀ q ∈ ((K.prune cut).2.1.append (K.prune cut).2.2).paths,
          ∃ p, (p, q.2) ∈ (node a ls K R).paths ∧ q.1.Sublist p.tail ∧ p.head? = some a := by
        intro q hq
        obtain ⟨p, hp, hs⟩ := ihK q hq
        refine ⟨a :: p, ?_, hs, rfl⟩
        simp only [paths, List.mem_append, List.mem_map, Prod.mk.injEq]
        exact Or.inl (Or.inr ⟨(p, q.2), hp, rfl, rfl⟩)
      have hR : ∀ q ∈ ((R.prune cut).2.1.append (R.prune cut).2.2).paths,
          ∃ p, (p, q.2) ∈ (node a ls K R).paths ∧ q.1.Sublist p := by
        intro q hq
        obtain ⟨p, hp, hs⟩ := ihR q hq
        exact ⟨p, by simp [hp], hs⟩
      intro q hq
      simp only [prune] at hq
      split at hq
      · simp only [paths_append, List.mem_append] at hq
        rcases hq with (hq | hq) | hq
        · exact hR q (by simp [hq])
        · obtain ⟨p, hp, hs, -⟩ := hK q (by simpa using hq)
          exact ⟨p, hp, hs.trans (List.tail_sublist p)⟩
        · exact hR q (by simp [hq])
      · simp only [paths_append, paths, List.mem_append, List.mem_map] at hq
        rcases hq with hq | (⟨l, hl, rfl⟩ | ⟨q', hq', rfl⟩) | hq
        · exact hR q (by simp [hq])
        · rcases hl with hl | hl
          · obtain ⟨p, hp⟩ := hlK l hl
            refine ⟨a :: p, ?_, by simp⟩
            simp only [paths, List.mem_append, List.mem_map, Prod.mk.injEq]
            exact Or.inl (Or.inr ⟨(p, l), hp, rfl, rfl⟩)
          · exact ⟨[a], by simp [hl], List.Sublist.refl _⟩
        · obtain ⟨p, hp, hs, hh⟩ := hK q' (by simpa using hq')
          refine ⟨p, hp, ?_⟩
          cases p with
          | nil => simp at hh
          | cons b p =>
              simp only [List.head?_cons, Option.some.injEq] at hh
              subst hh
              exact hs.cons_cons b
        · exact hR q (by simp [hq])

end Forest
