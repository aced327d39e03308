import MEADcast.Network.System
import MEADcast.Sender.TxBuffer

/-!
# The groups that the sender publishes

## Main definitions

* `System.Publishes` — a group that was current at some time.

## Main results

* `System.Publishes.sized` — its headers have the size that the buffer has space for.
-/

namespace MEADcast

theorem sized_of_groupOk {args : Args} {h : Heap} {grp : List (Seg NodeId NodeId)}
    (G : GroupOk args grp) : (h.header grp).Sized args := by
  obtain ⟨hsz, W⟩ := @wellFormed_of_groupOk args h grp G
  have hdsts : (h.header grp).dsts.toNat = segSize (grp.map (Seg.map h.addr h.addr)) := by
    rw [Heap.header, dataHdr, setDataHdr, BitVec.toNat_ofNat]
    omega
  refine ⟨W, splittable_of_groupOk G, rfl, ?_⟩
  rw [hdsts, Heap.header, dataHdr]
  exact (length_setDataHdr (by omega) (by simp) _).2

namespace System

variable {args : Args} {root : NodeId} {addr : In6Addr} {peers : List In6Addr}
  {T : RouterTree addr peers} {P : Paths} {net : In6Addr → Net} {st₀ st st' : System}

/-- The group is the current one in some reachable state. -/
def Publishes (args : Args) (T : RouterTree addr peers) (P : Paths) (net : In6Addr → Net)
    (st₀ : System) (grp : TxGroup) : Prop :=
  ∃ st, Relation.ReflTransGen (Step args T P net) st₀ st ∧ st.sender.txg = some grp

/-- The current group has headers of the size that `args` allows. -/
def Sized (args : Args) (st : System) : Prop := ∀ grp, st.sender.txg = some grp → grp.Sized args

theorem Started.sized (B : st₀.Started root T) : st₀.Sized args := by
  intro grp hgrp
  obtain rfl := Option.some.inj (B.txg_eq.symm.trans hgrp)
  exact fun hd hhd => absurd hhd List.not_mem_nil

/-- Only a timeout changes the current group. -/
theorem Step.sized (h : Step args T P net st st') (hP : T.Charted P) (H : st.Safe root T P net)
    (Z : st.Sized args) : st'.Sized args := by
  cases h with
  | receive hf hd h =>
      rcases H.next_cases hP hf with hn | ⟨d, hd', ho, hhops⟩
      · simp [hn] at hd
      · obtain rfl := Option.some.inj (hd'.symm.trans hd)
        rw [hhops] at h
        intro grp hgrp
        exact Z grp ((H.sketches.rsp ho h).2.symm.trans hgrp)
  | timeout h =>
      intro grp hgrp hd hhd
      obtain ⟨-, F, gs, -, O⟩ := H.sketches.inv.tout h
      obtain rfl := Option.some.inj (O.txg_eq.symm.trans hgrp)
      obtain ⟨g, hg, rfl⟩ := List.mem_map.mp hhd
      have G := (O.groups.leaves_eq (args.kept_live F)).2 g hg
      exact sized_of_groupOk G
  | _ => exact Z

theorem Publishes.sized {grp : TxGroup} (h : Publishes args T P net st₀ grp)
    (B : st₀.Started root T) (hP : T.Charted P) (N : T.Equipped net) : grp.Sized args := by
  obtain ⟨st, hrun, hgrp⟩ := h
  have hinv := Reach.invariant (fun t => t.Safe root T P net ∧ t.Sized args)
    (fun _ _ H h => ⟨h.safe hP N H.1, h.sized hP H.1 H.2⟩) hrun ⟨B.safe, B.sized⟩
  exact hinv.2 grp hgrp

end System

end MEADcast
