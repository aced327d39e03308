import MEADcast.Lib.Forest

/-!
# Forests up to the order of siblings

`Forest.prune` lists what removed nodes leave behind in the order in which a program that
splices lists leaves it behind.  `Forest.reduce` is the same pruning written the way one
would define it, with a removed node replaced in its place.  The two agree up to the order of
siblings.

## Main definitions

* `Forest.Similar` — two forests differ in the order of siblings and of leaves only.
* `Forest.reduce` — bottom-up removal of nodes, in place.
* `Forest.Uncut` — no node of the forest would be removed.

## Main results

* `Forest.prune_similar` — the two prunings are similar.
* `Forest.prune_uncut` — nothing that remains would be removed.
-/

namespace Forest

variable {α β : Type*} {cut : ℕ → ℕ → Bool}

/-- Equality of forests up to the order of siblings and of the leaves of a node. -/
inductive Similar : Forest α β → Forest α β → Prop
  | nil : Similar nil nil
  | node (a : α) {ls ms : List β} {K L R S : Forest α β} (hl : ls.Perm ms) (hk : Similar K L)
      (hr : Similar R S) : Similar (node a ls K R) (node a ms L S)
  | swap (a b : α) (ls ms : List β) (K L R : Forest α β) :
      Similar (node a ls K (node b ms L R)) (node b ms L (node a ls K R))
  | trans {F G H : Forest α β} (h : Similar F G) (t : Similar G H) : Similar F H

namespace Similar

variable {F F' G G' : Forest α β}

theorem refl (F : Forest α β) : Similar F F := by
  induction F with
  | nil => exact .nil
  | node a ls K R ihK ihR => exact .node a (.refl ls) ihK ihR

theorem length_tops (h : Similar F G) : F.tops.length = G.tops.length := by
  induction h with
  | nil => rfl
  | node a _ _ _ _ ihr => simp [ihr]
  | swap => simp
  | trans _ _ ih₁ ih₂ => exact ih₁.trans ih₂

theorem append_left (F : Forest α β) (h : Similar G G') : Similar (F.append G) (F.append G') := by
  induction F with
  | nil => exact h
  | node a ls K R _ ihR => exact .node a (.refl ls) (refl K) ihR

theorem append_right (h : Similar F F') (G : Forest α β) : Similar (F.append G) (F'.append G) := by
  induction h with
  | nil => exact refl G
  | node a hl hk _ _ ihr => exact .node a hl hk ihr
  | swap a b ls ms K L R => exact .swap a b ls ms K L (R.append G)
  | trans _ _ ih₁ ih₂ => exact ih₁.trans ih₂

theorem append (h : Similar F F') (t : Similar G G') : Similar (F.append G) (F'.append G') :=
  (h.append_right G).trans (append_left F' t)

theorem symm (h : Similar F G) : Similar G F := by
  induction h with
  | nil => exact .nil
  | node a hl _ _ ihk ihr => exact .node a hl.symm ihk ihr
  | swap a b ls ms K L R => exact .swap b a ms ls L K R
  | trans _ _ ih₁ ih₂ => exact ih₂.trans ih₁

/-- A tree may stand before or behind the trees `G`. -/
theorem middle (a : α) (ls : List β) (K R G : Forest α β) :
    Similar (G.append (Forest.node a ls K R)) (Forest.node a ls K (G.append R)) := by
  induction G with
  | nil => exact refl _
  | node b ms L S _ ihS => exact (node b (.refl ms) (refl L) ihS).trans (.swap b a ms ls L K _)

theorem append_comm (F G : Forest α β) : Similar (F.append G) (G.append F) := by
  induction F with
  | nil => rw [append_nil]; exact refl G
  | node a ls K R _ ihR => exact (node a (.refl ls) (refl K) ihR).trans (middle a ls K R G).symm

end Similar

/-! ## Pruning in place -/

/-- Bottom-up pruning of the children of a node, with the leaves that removed children hand
to it.  The children of a child are pruned first; then it is replaced by its children and
leaves when `cut` holds of their numbers. -/
def reduce (cut : ℕ → ℕ → Bool) : Forest α β → List β × Forest α β
  | nil => ([], nil)
  | node a ls K R =>
    let k := K.reduce cut
    let ls' := ls ++ k.1
    let r := R.reduce cut
    if cut k.2.tops.length ls'.length then (ls' ++ r.1, k.2.append r.2)
    else (r.1, node a ls' k.2 r.2)

/-- Both ways to prune give the same up to the order of siblings. -/
theorem prune_similar (cut : ℕ → ℕ → Bool) (F : Forest α β) :
    ((F.prune cut).2.1.append (F.prune cut).2.2).Similar (F.reduce cut).2 ∧
      (F.prune cut).1.Perm (F.reduce cut).1 := by
  induction F with
  | nil => exact ⟨.nil, .refl _⟩
  | node a ls K R ihK ihR =>
      have hl : ((K.prune cut).1 ++ ls).Perm (ls ++ (K.reduce cut).1) :=
        List.perm_append_comm.trans (ihK.2.append_left ls)
      have hlen := ihK.1.length_tops
      simp only [prune, reduce, hlen, hl.length_eq]
      split
      · constructor
        · rw [append_assoc]
          have h₁ := Similar.append_comm (R.prune cut).2.1
            ((K.prune cut).2.1.append (K.prune cut).2.2)
          refine .trans ?_ (ihK.1.append ihR.1)
          have h₂ := h₁.append_right (R.prune cut).2.2
          rwa [append_assoc _ (R.prune cut).2.1, append_assoc] at h₂
        · exact List.perm_append_comm.trans (hl.append ihR.2)
      · constructor
        · exact .trans (.middle a _ _ _ _) (.node a hl ihK.1 ihR.1)
        · exact ihR.2

/-- No node of the forest would be removed. -/
def Uncut (cut : ℕ → ℕ → Bool) : Forest α β → Prop
  | nil => True
  | node _ ls K R => cut K.tops.length ls.length = false ∧ K.Uncut cut ∧ R.Uncut cut

@[simp] theorem uncut_append (F G : Forest α β) :
    (F.append G).Uncut cut ↔ F.Uncut cut ∧ G.Uncut cut := by
  induction F with
  | nil => simp [Uncut]
  | node a ls K R _ ihR => simp [Uncut, ihR, and_assoc]

theorem prune_uncut (cut : ℕ → ℕ → Bool) (F : Forest α β) :
    (F.prune cut).2.1.Uncut cut ∧ (F.prune cut).2.2.Uncut cut := by
  induction F with
  | nil => exact ⟨trivial, trivial⟩
  | node a ls K R ihK ihR =>
      have hK := (uncut_append _ _).mpr ihK
      simp only [prune]
      split
      · exact ⟨(uncut_append _ _).mpr ⟨ihR.1, hK⟩, ihR.2⟩
      · rename_i hc
        exact ⟨ihR.1, Bool.eq_false_iff.mpr hc, hK, ihR.2⟩

/-- In an unfolding, `cut` fails at every node that would not be removed. -/
theorem Uncut.of_mem {kids : α → List α} {lvs : α → List β} {F : Forest α β} (h : F.Uncut cut)
    (hg : F.Grown kids lvs) {x : α} (hx : x ∈ F.labs) :
    cut (kids x).length (lvs x).length = false := by
  induction F with
  | nil => simp at hx
  | node a ls K R ihK ihR =>
      obtain ⟨hc, hK, hR⟩ := h
      obtain ⟨rfl, hk, hgK, hgR⟩ := hg
      simp only [labs, List.mem_cons, List.mem_append] at hx
      rcases hx with rfl | hx | hx
      · rwa [← hk]
      · exact ihK hK hgK hx
      · exact ihR hR hgR hx

end Forest
