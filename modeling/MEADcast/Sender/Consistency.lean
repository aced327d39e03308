import MEADcast.Sender.RxSpec
import MEADcast.Sender.Timeout
import MEADcast.Sender.Progress

/-!
# The hash table and the tree agree

Routers leave the tree by being freed together with their entry or by being detached, and
come back through their entry.  In every run of joins, responses and timeouts the table maps
exactly the addresses of the live nodes to these nodes, and no pointer refers to a freed
node.  Responses may change hop counts at will, so that the tree may have got cycles.

## Main definitions

* `Sender.members` — the members of the group.
* `Joining` — a run, and the joins in it that succeeded.

## Main results

* `Sender.Inv.step` — every operation keeps the invariant.
* `Sender.exists_joining` — the members are those who joined.
* `consistent_of_run` — table and tree agree in every run.
-/

namespace MEADcast

namespace Sender

variable {args : Args} {s s' : Sender} {root : NodeId} {addr : In6Addr}

/-- A timeout that completes publishes the groups and resets the tree. -/
theorem Inv.tout (I : s.Inv root) {ret : Int} (hc : Completes args s .tout s' ret) :
    ret = 0 ∧ ∃ F gs, s.heap.Below root F ∧ TimedOut args s s' root F gs := by
  obtain ⟨F, t, gs, N, hF, e, T⟩ := toutHandler_spec args I
  obtain ⟨rfl, rfl⟩ := hc.det ⟨N, e N le_rfl⟩
  exact ⟨rfl, F, gs, hF, T⟩

/-- Every timeout completes. -/
theorem Inv.tout_completes (I : s.Inv root) (args : Args) :
    ∃ s', Completes args s .tout s' 0 := by
  obtain ⟨F, t, gs, N, -, e, -⟩ := toutHandler_spec args I
  exact ⟨t, N, e N le_rfl⟩

end Sender

/-- The members of the group, the last one that joined first. -/
def Sender.members (s : Sender) : List Addr := s.rcvr.map s.heap.member

/-- The operation is not a response from the address `addr`. -/
def Op.NotFrom (addr : In6Addr) : Op → Prop
  | .rsp rsa _ b => rsa ≠ addr ∧ 1 ≤ b
  | _ => True

namespace Sender

variable {args : Args} {s s' : Sender} {root : NodeId} {addr : In6Addr}

/-- Every operation other than a response from the root's address keeps the invariant. -/
theorem Inv.step (I : s.Inv root) (hsa : s.heap.sa root = some addr) {op : Op} {ret : Int}
    (hop : op.NotFrom addr) (hc : Completes args s op s' ret) :
    s'.Inv root ∧ s'.heap.sa root = some addr := by
  cases op with
  | join a port =>
      obtain ⟨fuel, e⟩ := hc
      rcases join_spec I a port with ⟨-, h⟩ | ⟨-, s₁, h, J⟩
      · obtain ⟨rfl, -⟩ : s = s' ∧ -1 = ret := by simpa [MEADcast.step, h] using e
        exact ⟨I, hsa⟩
      · obtain ⟨rfl, -⟩ : s₁ = s' ∧ 0 = ret := by simpa [MEADcast.step, h] using e
        refine ⟨J.inv, ?_⟩
        have hrn : root ≠ s.heap.next := by
          rintro hr
          obtain ⟨r, hr'⟩ := I.root_router
          simp [hr, I.wf.fresh _ le_rfl] at hr'
        rw [Heap.sa, J.tag_eq, Function.update_of_ne hrn]
        exact hsa
  | initTxg =>
      obtain ⟨fuel, e⟩ := hc
      rcases initTxg_spec I with ⟨-, h⟩ | ⟨-, h⟩
      · obtain ⟨rfl, -⟩ : s = s' ∧ -1 = ret := by simpa [MEADcast.step, h] using e
        exact ⟨I, hsa⟩
      · obtain ⟨rfl, -⟩ : _ = s' ∧ 0 = ret := by simpa [MEADcast.step, h] using e
        exact ⟨I.publish _, hsa⟩
  | rsp rsa paddr b =>
      obtain ⟨fuel, e⟩ := hc
      have hne : s.heap.sa root ≠ some rsa := fun h =>
        hop.1 (Option.some.inj (h.symm.trans hsa))
      rcases updateTopo_cases I hne e with ⟨rfl, -, -⟩ | ⟨-, l, n, p, ha, A⟩
      · exact ⟨I, hsa⟩
      · refine ⟨A.inv, ?_⟩
        rw [Heap.sa, A.placed.tag_of_ne (routerId_ne_root I ha hne).symm]
        exact hsa
  | tout =>
      obtain ⟨-, F, gs, hF, T⟩ := I.tout hc
      refine ⟨T.inv, ?_⟩
      rw [Heap.sa, T.tag_frame root (I.below hF).2.2.1]
      exact hsa

end Sender

/-! ## Members -/

/-- Who joined, if the operation is a join that returned `ret`. -/
def Op.joined (ret : Int) : Op → List Addr
  | .join addr port => if ret = 0 then [⟨addr, port⟩] else []
  | _ => []

/-- A run, and the joins in it that succeeded, the last one first. -/
inductive Joining (args : Args) : Sender → List Op → Sender → List Addr → Prop
  | nil (s : Sender) : Joining args s [] s []
  | cons {s s' t : Sender} {op : Op} {ops : List Op} {l : List Addr} (ret : Int)
      (head : Completes args s op s' ret) (tail : Joining args s' ops t l) :
      Joining args s (op :: ops) t (l ++ op.joined ret)

namespace Sender

variable {args : Args} {s s' : Sender} {root : NodeId} {addr : In6Addr}

theorem Joined.members_eq (I : s.Inv root) (J : s.Joined s' root a) :
    s'.members = a :: s.members := by
  rw [members, J.rcvr_eq, List.map_cons]
  congr 1
  · rw [Heap.member, J.tag_eq, Function.update_self]
  · refine List.map_congr_left fun l hl => ?_
    have hne : l ≠ s.heap.next := by
      rintro rfl
      obtain ⟨lf, hlf⟩ := (I.mem_rcvr _).mp hl
      cases (I.wf.fresh _ le_rfl).symm.trans hlf
    rw [Heap.member, J.tag_eq, Function.update_of_ne hne, Heap.member]

/-- A response changes no receiver. -/
theorem Accepted.members_eq {rsa paddr : In6Addr} {b : ℕ} {l n p : NodeId} (I : s.Inv root) (ha : s.Admits rsa paddr l)
    (A : s.Accepted s' root rsa b l n p) : s'.members = s.members := by
  rw [members, members, A.rcvr_eq]
  refine List.map_congr_left fun m hm => ?_
  have hmr : m ≠ s.routerId rsa := fun h =>
    routerId_not_isLeaf I ha (h ▸ (I.mem_rcvr m).mp hm)
  simp [Heap.member, A.placed.tag_of_ne hmr]

/-- Neither does a timeout. -/
theorem TimedOut.members_eq {F : Forest NodeId NodeId} {gs : List (List (Seg NodeId NodeId))}
    (T : TimedOut args s s' root F gs) (I : s.Inv root) (hF : s.heap.Below root F) :
    s'.members = s.members := by
  rw [members, members, T.rcvr_eq]
  refine List.map_congr_left fun l hl => ?_
  have hout : l ∉ F.labs := fun hm =>
    ((I.mem_rcvr l).mp hl).not_isRouter ((I.below hF).1 l hm)
  simp [Heap.member, T.tag_frame l hout]

/-- Only a join that succeeds adds a member, and none goes. -/
theorem Inv.members_step (I : s.Inv root) (hsa : s.heap.sa root = some addr) {op : Op} {ret : Int}
    (hop : op.NotFrom addr) (hc : Completes args s op s' ret) :
    s'.members = op.joined ret ++ s.members := by
  cases op with
  | join a port =>
      obtain ⟨fuel, e⟩ := hc
      rcases join_spec I a port with ⟨-, h⟩ | ⟨-, s₁, h, J⟩
      · obtain ⟨rfl, rfl⟩ : s = s' ∧ -1 = ret := by simpa [MEADcast.step, h] using e
        rfl
      · obtain ⟨rfl, rfl⟩ : s₁ = s' ∧ 0 = ret := by simpa [MEADcast.step, h] using e
        exact J.members_eq I
  | initTxg =>
      obtain ⟨fuel, e⟩ := hc
      rcases initTxg_spec I with ⟨-, h⟩ | ⟨-, h⟩
      · obtain ⟨rfl, -⟩ : s = s' ∧ -1 = ret := by simpa [MEADcast.step, h] using e
        rfl
      · obtain ⟨rfl, -⟩ : _ = s' ∧ 0 = ret := by simpa [MEADcast.step, h] using e
        rfl
  | rsp rsa paddr b =>
      obtain ⟨fuel, e⟩ := hc
      have hne : s.heap.sa root ≠ some rsa := fun h =>
        hop.1 (Option.some.inj (h.symm.trans hsa))
      rcases updateTopo_cases I hne e with ⟨rfl, -, -⟩ | ⟨-, l, n, p, ha, A⟩
      · rfl
      · exact A.members_eq I ha
  | tout =>
      obtain ⟨-, F, gs, hF, T⟩ := I.tout hc
      exact T.members_eq I hF

theorem Inv.exists_joining {ops : List Op} (I : s.Inv root) (hsa : s.heap.sa root = some addr)
    (hops : ∀ op ∈ ops, op.NotFrom addr) (hrun : Run args s ops s') :
    ∃ l, Joining args s ops s' l ∧ s'.members = l ++ s.members := by
  induction hrun with
  | nil s => exact ⟨[], .nil s, rfl⟩
  | @cons s s₁ t op ops ret head tail ih =>
      have hop := hops op List.mem_cons_self
      obtain ⟨I', hsa'⟩ := I.step hsa hop head
      obtain ⟨l, hl, hm⟩ := ih I' hsa' fun op h => hops op (List.mem_cons_of_mem _ h)
      refine ⟨_, .cons ret head hl, ?_⟩
      rw [hm, I.members_step hsa hop head, List.append_assoc]

/-- The members are those who joined. -/
theorem exists_joining {ops : List Op} {s₁ : Sender}
    (hinit : Sender.initial.initGroup addr = some (s₁, 0)) (hrun : Run args s₁ ops s)
    (hops : ∀ op ∈ ops, op.NotFrom addr) : ∃ l, Joining args s₁ ops s l ∧ s.members = l := by
  obtain ⟨s₀, h₀, I, hsa, -, hrcvr, -⟩ := initGroup_initial addr
  obtain rfl : s₀ = s₁ := by simpa [h₀] using hinit
  obtain ⟨l, hl, hm⟩ := I.exists_joining hsa hops hrun
  refine ⟨l, hl, ?_⟩
  rw [hm, members, hrcvr]
  exact List.append_nil l

/-! ## Table and tree -/

/-- The hash table and the tree agree. -/
structure Consistent (s : Sender) (root : NodeId) : Prop where
  entry : ∀ a v, s.ht a = some v → ∃ n nd, v = some n ∧ s.heap.node n = some nd ∧ nd.sa = a
  tracked : ∀ n nd, s.heap.node n = some nd → ∃! a, s.ht a = some (some n)
  injective : ∀ a a' v, s.ht a = some v → s.ht a' = some v → a = a'
  root_live : s.root = some root ∧ s.heap.IsRouter root
  rcvr_live : ∀ l ∈ s.rcvr, s.heap.IsLeaf l
  parent_live : ∀ n nd p, s.heap.node n = some nd → nd.parent = some p → s.heap.IsRouter p
  cell_live : ∀ n nd, s.heap.node n = some nd →
    (∀ c ∈ nd.kids, s.heap.IsRouter c) ∧ ∀ l ∈ nd.lvs, s.heap.IsLeaf l

theorem Inv.consistent (I : s.Inv root) : s.Consistent root where
  entry a v hv := by
    obtain ⟨n, rfl, hn⟩ := (I.tracks a v).mp hv
    obtain ⟨t, ht, rfl⟩ := Option.map_eq_some_iff.mp hn
    obtain ⟨nd, hnd, rfl⟩ := Option.map_eq_some_iff.mp ht
    exact ⟨n, nd, rfl, hnd, (Node.sa_eq_tag nd).symm⟩
  tracked n nd hn := by
    have hs : s.heap.sa n = some nd.sa := by simp [Heap.sa, Heap.tag_of_node hn]
    refine ⟨nd.sa, I.tracks.get hs, fun a ha => ?_⟩
    exact Option.some.inj ((I.tracks.sa_of_get ha).symm.trans hs)
  injective a a' v ha ha' := by
    obtain ⟨n, rfl, hn⟩ := (I.tracks a v).mp ha
    exact Option.some.inj (hn.symm.trans (I.tracks.sa_of_get ha'))
  root_live := ⟨I.root_eq, I.root_router⟩
  rcvr_live l hl := (I.mem_rcvr l).mp hl
  parent_live n nd p hn hp := I.wf.par_router n p (by rw [Heap.par_of_node hn, hp])
  cell_live n nd hn := by
    refine ⟨fun c hc => ((I.wf.mem_kids n c).mp ?_).1, fun l hl => ((I.wf.mem_lvs n l).mp ?_).1⟩
    · rwa [Heap.kids_of_node hn]
    · rwa [Heap.lvs_of_node hn]

/-- A rejected response changes nothing. -/
theorem eq_of_updateTopo_rejected {fuel : ℕ} {rsa paddr : In6Addr} {b : ℕ}
    (e : s.updateTopo fuel rsa paddr b = some (s', -1)) : s' = s := by
  unfold updateTopo at e
  split at e
  · exact (Prod.mk.inj (Option.some.inj e)).1.symm
  · simp only [Option.bind_eq_bind, Option.bind_eq_some_iff] at e
    obtain ⟨l, -, nd, -, e⟩ := e
    split at e
    · exact (Prod.mk.inj (Option.some.inj e)).1.symm
    · split at e
      · simp [Option.bind_eq_some_iff] at e
      · simp only [Option.bind_eq_some_iff] at e
        obtain ⟨nd, -, e⟩ := e
        split at e
        · exact (Prod.mk.inj (Option.some.inj e)).1.symm
        · simp only [Option.bind_eq_some_iff] at e
          obtain ⟨c, -, e⟩ := e
          split at e <;> simp [Option.bind_eq_some_iff] at e

end Sender

/-- In every run of joins, responses that do not come from the root's own address and
timeouts, the members are those who joined, the hash table and the tree agree in the state that is
reached, and a response that is rejected there changes nothing. -/
theorem consistent_of_run (args : Args) (addr : In6Addr) {s₁ s : Sender} {ops : List Op}
    (hinit : Sender.initial.initGroup addr = some (s₁, 0)) (hrun : Run args s₁ ops s)
    (hops : ∀ op ∈ ops, op.NotFrom addr) :
    (∃ l, Joining args s₁ ops s l ∧ s.members = l) ∧ (∃ root, s.Consistent root) ∧
      ∀ rsa paddr b s', Completes args s (.rsp rsa paddr b) s' (-1) → s' = s := by
  obtain ⟨s₀, h₀, I, hsa, -, -, -⟩ := Sender.initGroup_initial addr
  obtain rfl : s₀ = s₁ := by simpa [h₀] using hinit
  have H : s.Inv 0 ∧ s.heap.sa 0 = some addr :=
    hrun.invariant (fun t => t.Inv 0 ∧ t.heap.sa 0 = some addr)
      (fun _ op => op.NotFrom addr) (fun t t' op ret G ok hc => G.1.step G.2 ok hc)
      (fun pre t op post e hr => hops op (by simp [e])) ⟨I, hsa⟩
  refine ⟨Sender.exists_joining hinit hrun hops, ⟨0, H.1.consistent⟩, fun rsa paddr b s' hc => ?_⟩
  obtain ⟨fuel, e⟩ := hc
  exact Sender.eq_of_updateTopo_rejected e

/-- The theorem at a run with two phases in which a router reports different hop counts. -/
theorem consistent_of_two_phases : ∃ s, Run Args.default
    (((Sender.initial.initGroup 1).get rfl).1)
    [.join 2 0, .join 3 0, .rsp 4 2 1, .rsp 4 3 2, .tout, .rsp 4 3 5, .rsp 2 3 1] s ∧
    ∃ root, s.Consistent root := by
  let s₁ : Sender := ((Sender.initial.initGroup 1).get rfl).1
  have hsome : (exec Args.default 20 s₁ [.join 2 0, .join 3 0, .rsp 4 2 1, .rsp 4 3 2, .tout,
      .rsp 4 3 5, .rsp 2 3 1]).isSome = true := by decide +kernel
  obtain ⟨s, h⟩ := Option.isSome_iff_exists.mp hsome
  exact ⟨s, Run.of_exec h,
    (consistent_of_run Args.default 1 rfl (Run.of_exec h) (by simp [Op.NotFrom])).2.1⟩

end MEADcast
