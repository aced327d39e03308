import MEADcast.Sender.Discover
import MEADcast.Lib.Fuel

/-!
# Results do not depend on the iteration bound

Each function with a loop takes a bound on its iterations.  A larger bound never changes a
result, so that an operation has at most one.

## Main results

* `step_keeps` — a larger bound keeps the result of an operation.
* `Completes.det` — an operation completes in one way at most.
-/

namespace MEADcast

open Fuel

/-- A bound that is at least a successor is one. -/
theorem exists_succ_of_le {m n : ℕ} (h : m + 1 ≤ n) : ∃ k, n = k + 1 ∧ m ≤ k :=
  ⟨n - 1, by omega, by omega⟩

section Keeps

variable {args : Args}

theorem pathLoop_keeps {h : Heap} {hops m n : ℕ} (hmn : m ≤ n) (x : NodeId) (p : Option NodeId) :
    Keeps (h.pathLoop hops m x p) (h.pathLoop hops n x p) := by
  induction m generalizing n x p with
  | zero => exact Keeps.none _
  | succ m ih =>
      obtain ⟨n, rfl, hle⟩ := exists_succ_of_le hmn
      cases p with
      | none => exact Keeps.refl _
      | some p => exact Keeps.bind (Keeps.refl _) fun r => Keeps.ite (Keeps.refl _) (ih hle _ _)

theorem getPathPos_keeps {h : Heap} {hops m n : ℕ} (hmn : m ≤ n) (l : NodeId) :
    Keeps (h.getPathPos m l hops) (h.getPathPos n l hops) :=
  Keeps.bind (Keeps.refl _) fun _ => Keeps.bind (pathLoop_keeps hmn _ _) fun _ => Keeps.refl _

theorem updateTopo_keeps {s : Sender} {rsa paddr : In6Addr} {hops m n : ℕ} (hmn : m ≤ n) :
    Keeps (s.updateTopo m rsa paddr hops) (s.updateTopo n rsa paddr hops) := by
  unfold Sender.updateTopo
  split
  · exact Keeps.refl _
  · refine Keeps.bind (Keeps.refl _) fun l => Keeps.bind (Keeps.refl _) fun nd => ?_
    split
    · exact Keeps.refl _
    · split
      · exact Keeps.bind (getPathPos_keeps hmn _) fun c => Keeps.refl _
      · refine Keeps.bind (Keeps.refl _) fun nd => ?_
        split
        · exact Keeps.refl _
        · exact Keeps.bind (getPathPos_keeps hmn _) fun c => Keeps.refl _

theorem reduce_keeps {m n : ℕ} (hmn : m ≤ n) :
    (∀ t r, Keeps (reduceTree args m t r) (reduceTree args n t r)) ∧
      ∀ t r i, Keeps (reduceChilds args m t r i) (reduceChilds args n t r i) := by
  induction m generalizing n with
  | zero => exact ⟨fun _ _ => Keeps.none _, fun _ _ _ => Keeps.none _⟩
  | succ m ih =>
      obtain ⟨n, rfl, hle⟩ := exists_succ_of_le hmn
      obtain ⟨ih₁, ih₂⟩ := ih hle
      refine ⟨fun t r => ?_, fun t r i => ?_⟩
      · unfold reduceTree
        exact Keeps.bind (Keeps.refl _) fun rt => Keeps.bind (ih₂ _ _ _) fun _ => Keeps.refl _
      · cases i with
        | none => unfold reduceChilds; exact Keeps.refl _
        | some i =>
            unfold reduceChilds
            exact Keeps.bind (Keeps.refl _) fun rt => Keeps.bind (ih₁ _ _) fun _ => ih₂ _ _ _

theorem startLoop_keeps {h : Heap} {m n : ℕ} (hmn : m ≤ n) (r : NodeId) (s c : Option NodeId) :
    Keeps (startLoop h m r s c) (startLoop h n r s c) := by
  induction m generalizing n r s c with
  | zero => exact Keeps.none _
  | succ m ih =>
      obtain ⟨n, rfl, hle⟩ := exists_succ_of_le hmn
      cases c with
      | none => exact Keeps.refl _
      | some c => exact Keeps.bind (Keeps.refl _) fun rt => ih hle _ _ _

theorem getStart_keeps {h : Heap} {m n : ℕ} (hmn : m ≤ n) (r : Option NodeId) :
    Keeps (getStart h m r) (getStart h n r) := by
  induction m generalizing n r with
  | zero => exact Keeps.none _
  | succ m ih =>
      obtain ⟨n, rfl, hle⟩ := exists_succ_of_le hmn
      cases r with
      | none => exact Keeps.refl _
      | some r =>
          refine Keeps.bind (Keeps.refl _) fun rt => Keeps.bind (startLoop_keeps hle _ _ _) ?_
          rintro ⟨r, s⟩
          cases s with
          | some s => exact Keeps.refl _
          | none =>
              refine Keeps.bind (Keeps.refl _) fun rt => ?_
              split
              · exact Keeps.refl _
              · exact ih hle _

theorem recBackPropagate_keeps {m n : ℕ} (hmn : m ≤ n) (h : Heap) (r : Option NodeId) :
    Keeps (recBackPropagate m h r) (recBackPropagate n h r) := by
  induction m generalizing n h r with
  | zero => exact Keeps.none _
  | succ m ih =>
      obtain ⟨n, rfl, hle⟩ := exists_succ_of_le hmn
      cases r with
      | none => exact Keeps.refl _
      | some r => exact Keeps.bind (Keeps.refl _) fun x => ih hle _ _

theorem leafLoop_keeps {max p : ℕ} {r : NodeId} {m n : ℕ} (hmn : m ≤ n) (h : Heap) (mg : Merging)
    (g : Packing) :
    Keeps (leafLoop args max p r m h mg g) (leafLoop args max p r n h mg g) := by
  induction m generalizing n h mg g with
  | zero => exact Keeps.none _
  | succ m ih =>
      obtain ⟨n, rfl, hle⟩ := exists_succ_of_le hmn
      refine Keeps.bind (Keeps.refl _) fun rt => Keeps.ite (Keeps.refl _) ?_
      refine Keeps.ite (Keeps.refl _) (Keeps.ite ?_ (Keeps.ite (Keeps.refl _) (ih hle _ _ _)))
      exact Keeps.bind (Keeps.refl _) fun x => Keeps.bind (recBackPropagate_keeps hle _ _) fun _ =>
        Keeps.refl _

theorem visit_keeps {max : ℕ} {m n : ℕ} (hmn : m ≤ n) (h : Heap) (mg : Merging) (g : Packing)
    (r : NodeId) : Keeps (visit args max m h mg g r) (visit args max n h mg g r) :=
  Keeps.bind (Keeps.refl _) fun _ => Keeps.bind (leafLoop_keeps hmn _ _ _) fun _ => Keeps.refl _

theorem groupLoop_keeps {max : ℕ} {m n : ℕ} (hmn : m ≤ n) (h : Heap) (mg : Merging) (g : Packing)
    (r : Option NodeId) :
    Keeps (groupLoop args max m h mg g r) (groupLoop args max n h mg g r) := by
  induction m generalizing n h mg g r with
  | zero => exact Keeps.none _
  | succ m ih =>
      obtain ⟨n, rfl, hle⟩ := exists_succ_of_le hmn
      cases r with
      | none => exact Keeps.refl _
      | some r =>
          refine Keeps.bind (visit_keeps hle _ _ _ _) ?_
          rintro ⟨h, mg, g, j⟩
          cases j with
          | start r => exact ih hle _ _ _ _
          | next r => exact Keeps.bind (getStart_keeps hle _) fun _ => ih hle _ _ _ _

theorem greedyGrouping_keeps {m n : ℕ} (hmn : m ≤ n) (h : Heap) (mg : Merging)
    (s : Option NodeId) :
    Keeps (greedyGrouping args m h mg s) (greedyGrouping args n h mg s) := by
  cases s with
  | none => exact Keeps.refl _
  | some s =>
      exact Keeps.bind (getStart_keeps hmn _) fun _ => Keeps.bind (groupLoop_keeps hmn _ _ _ _)
        fun _ => Keeps.refl _

theorem resetLeafs_keeps {s r : NodeId} {m n : ℕ} (hmn : m ≤ n) (h : Heap) (i : Option NodeId) :
    Keeps (resetLeafs s r m h i) (resetLeafs s r n h i) := by
  induction m generalizing n h i with
  | zero => exact Keeps.none _
  | succ m ih =>
      obtain ⟨n, rfl, hle⟩ := exists_succ_of_le hmn
      cases i with
      | none => exact Keeps.refl _
      | some i => exact Keeps.bind (Keeps.refl _) fun rt => Keeps.bind (Keeps.refl _) fun _ => ih hle _ _

theorem reset_keeps {s : NodeId} {m n : ℕ} (hmn : m ≤ n) :
    (∀ h r, Keeps (recResetTree s m h r) (recResetTree s n h r)) ∧
      ∀ h r i, Keeps (resetChilds s m h r i) (resetChilds s n h r i) := by
  induction m generalizing n with
  | zero => exact ⟨fun _ _ => Keeps.none _, fun _ _ _ => Keeps.none _⟩
  | succ m ih =>
      obtain ⟨n, rfl, hle⟩ := exists_succ_of_le hmn
      obtain ⟨ih₁, ih₂⟩ := ih hle
      refine ⟨fun h r => ?_, fun h r i => ?_⟩
      · unfold recResetTree
        refine Keeps.bind (Keeps.refl _) fun rt => Keeps.bind (ih₂ _ _ _) fun h =>
          Keeps.bind (Keeps.refl _) fun rt => ?_
        dsimp only
        split
        · exact Keeps.refl _
        · exact Keeps.bind (resetLeafs_keeps hle _ _) fun _ => Keeps.refl _
      · cases i with
        | none => unfold resetChilds; exact Keeps.refl _
        | some i =>
            unfold resetChilds
            exact Keeps.bind (Keeps.refl _) fun rt => Keeps.bind (ih₁ _ _) fun _ => ih₂ _ _ _

theorem toutHandler_keeps {s : Sender} {m n : ℕ} (hmn : m ≤ n) :
    Keeps (toutHandler args m s) (toutHandler args n s) := by
  obtain ⟨h, ht, root, rcvr, nrcvr, txg, mg⟩ := s
  cases root with
  | none =>
      refine Keeps.bind (Keeps.refl _) fun t => Keeps.bind (greedyGrouping_keeps hmn _ _ _) ?_
      rintro ⟨h, mg, grp⟩
      cases grp <;> exact Keeps.refl _
  | some r =>
      refine Keeps.bind ((reduce_keeps hmn).1 _ _) fun t =>
        Keeps.bind (greedyGrouping_keeps hmn _ _ _) ?_
      rintro ⟨h, mg, grp⟩
      cases grp with
      | none => exact Keeps.refl _
      | some grp => exact Keeps.bind ((reset_keeps hmn).1 _ _) fun _ => Keeps.refl _

/-- A larger bound keeps the result of an operation. -/
theorem step_keeps {s : Sender} {m n : ℕ} (hmn : m ≤ n) (op : Op) :
    Keeps (step args m s op) (step args n s op) := by
  cases op with
  | join addr port => exact Keeps.refl _
  | initTxg => exact Keeps.refl _
  | rsp rsa paddr hops => exact updateTopo_keeps hmn
  | tout => exact toutHandler_keeps hmn

/-- An operation completes in one way at most. -/
theorem Completes.det {s s' s'' : Sender} {op : Op} {ret ret' : Int}
    (h : Completes args s op s' ret) (h' : Completes args s op s'' ret') :
    s' = s'' ∧ ret = ret' := by
  obtain ⟨m, hm⟩ := h
  obtain ⟨n, hn⟩ := h'
  exact Prod.mk.inj (eq_of_keeps (fun m n hmn => step_keeps hmn op) hm hn)

/-- Execute operations, and test each one in the state it is applied to. -/
def execMeets (args : Args) (fuel : ℕ) (ok : Sender → Op → Bool) (s : Sender) : List Op → Bool
  | [] => true
  | op :: ops => ok s op && (step args fuel s op).any fun r => execMeets args fuel ok r.1 ops

theorem MeetsAlong.of_exec {fuel : ℕ} {ok : Sender → Op → Bool} {s : Sender} {ops : List Op}
    (h : execMeets args fuel ok s ops = true) : MeetsAlong args s ops fun t op => ok t op = true := by
  induction ops generalizing s with
  | nil => exact .nil
  | cons op ops ih =>
      obtain ⟨hok, hrest⟩ := Bool.and_eq_true_iff.mp h
      cases hstep : step args fuel s op with
      | none =>
          rw [hstep] at hrest
          cases hrest
      | some r =>
          rw [hstep] at hrest
          refine .cons hok fun s' ret' hc => ?_
          obtain ⟨rfl, -⟩ := hc.det ⟨fuel, hstep⟩
          exact ih hrest

end Keeps

end MEADcast
