import MEADcast.Sender.Coverage
import MEADcast.Sender.View

/-!
# Phases are isolated

What the sender publishes at the end of a phase depends on the receivers and the responses of
the phase.  Two senders that rest and have the same receivers keep alike trees under addresses
while the same responses arrive, and the groups of a tree are a function of it.

## Main definitions

* `Sender.AtRest` — what a timeout leaves, in terms of the nodes.

## Main results

* `isolation_of_runs` — after any two histories of completed phases, the same phase publishes
  the same headers.
-/

namespace MEADcast

open ParentMap

theorem Args.kept_map {α β γ δ : Type*} (args : Args) (f : α → γ) (g : β → δ) (F : Forest α β) :
    args.kept (F.map f g) = (args.kept F).map f g := by
  simp [Args.kept, Forest.prune_map]

theorem Args.freed_map {α β γ δ : Type*} (args : Args) (f : α → γ) (g : β → δ)
    (F : Forest α β) : args.freed (F.map f g) = (args.freed F).map g := by
  simp [Args.freed, Forest.prune_map]

namespace Sender

variable {args : Args} {s s' t t' u u' : Sender} {root l n p : NodeId}
  {addr rsa paddr : In6Addr} {b : ℕ} {seen : In6Addr → Option ℕ}

/-! ## Responses -/

theorem Inv.peers_eq (I : s.Inv root) : s.members.map Addr.sin6_addr = s.peers := by
  rw [members, peers, List.map_map]
  exact List.map_congr_left fun l hl => Heap.addr_eq_member ((I.mem_rcvr l).mp hl)

/-- Two senders in the same phase with the same receivers and alike trees. -/
structure Twins (t t' : Sender) (root : NodeId) (addr : In6Addr) (seen : In6Addr → Option ℕ) :
    Prop where
  left : t.Phased root addr seen
  right : t'.Phased root addr seen
  alike : t.view.Alike t'.view addr
  members : t.members.Perm t'.members

theorem Twins.peers (W : t.Twins t' root addr seen) : t.peers.Perm t'.peers := by
  rw [← W.left.inv.peers_eq, ← W.right.inv.peers_eq]
  exact W.members.map _

/-- The same response for both. -/
theorem Twins.rsp (W : t.Twins t' root addr seen) (hne : rsa ≠ addr)
    (hb : ∀ b', seen rsa = some b' → b' = b) {ret ret' : Int}
    (hc : Completes args t (.rsp rsa paddr b) u ret)
    (hc' : Completes args t' (.rsp rsa paddr b) u' ret') :
    u.Twins u' root addr (Function.update seen rsa (some b)) := by
  have hadm : (paddr ∈ t.peers ∧ rsa ∉ t.peers) ↔ (paddr ∈ t'.peers ∧ rsa ∉ t'.peers) := by
    rw [W.peers.mem_iff, W.peers.mem_iff]
  have G := W.left.step (fun _ _ _ e => by
    obtain ⟨rfl, rfl, rfl⟩ := Op.rsp.inj e
    exact ⟨hb, fun h => absurd h hne⟩) hc
  have G' := W.right.step (fun _ _ _ e => by
    obtain ⟨rfl, rfl, rfl⟩ := Op.rsp.inj e
    exact ⟨hb, fun h => absurd h hne⟩) hc'
  have I := W.left.inv
  have I' := W.right.inv
  rcases W.left.rsp_cases hne hc with ⟨rfl, hno⟩ | ⟨h, l, n, p, ha, A⟩
  · rcases W.right.rsp_cases hne hc' with ⟨rfl, -⟩ | ⟨h, -⟩
    · exact ⟨G, G', W.alike, W.members⟩
    · exact absurd (hadm.mpr h) hno
  · rcases W.right.rsp_cases hne hc' with ⟨rfl, hno⟩ | ⟨-, l', n', p', ha', A'⟩
    · exact absurd (hadm.mp h) hno
    · refine ⟨G, G', W.alike.rsp (A.view_rsp I ha) (A'.view_rsp I' ha'), ?_⟩
      rw [A.members_eq I ha, A'.members_eq I' ha']
      exact W.members

end Sender

/-- The operation is a response. -/
def Op.IsRsp : Op → Prop
  | .rsp _ _ _ => True
  | _ => False

namespace Sender

variable {args : Args} {s s' t t' u u' : Sender} {root : NodeId} {addr : In6Addr}
  {seen : In6Addr → Option ℕ} {ops : List Op}

/-- The same responses for both. -/
theorem Twins.run (W : t.Twins t' root addr seen) (hrun : Run args t ops u)
    (hrun' : Run args t' ops u') (hrsp : ∀ op ∈ ops, op.IsRsp) (hst : Steady seen ops)
    (hops : ∀ op ∈ ops, op.NotFrom addr) : ∃ seen', u.Twins u' root addr seen' := by
  induction hrun generalizing t' seen with
  | nil =>
      cases hrun'
      exact ⟨seen, W⟩
  | @cons t t₁ u op ops ret hc _ ih =>
      cases hrun' with
      | cons ret' hc' tail' =>
          cases op with
          | rsp rsa paddr b =>
              exact ih (W.rsp (hops _ List.mem_cons_self : Op.NotFrom _ (.rsp rsa paddr b)).1 hst.2.1 hc hc') tail'
                (fun o ho => hrsp o (by simp [ho])) hst.2.2 fun o ho => hops o (by simp [ho])
          | _ => exact absurd (hrsp _ List.mem_cons_self) (by simp [Op.IsRsp])

/-- The responses of a phase are processed to their end. -/
theorem Phased.exists_run (args : Args) (G : s.Phased root addr seen) (hrsp : ∀ op ∈ ops, op.IsRsp)
    (hst : Steady seen ops) (hops : ∀ op ∈ ops, op.NotFrom addr) :
    ∃ u seen', Run args s ops u ∧ u.Phased root addr seen' := by
  induction ops generalizing s seen with
  | nil => exact ⟨s, seen, .nil s, G⟩
  | cons op ops ih =>
      cases op with
      | rsp rsa paddr b =>
          have hne := (hops (.rsp rsa paddr b) (by simp)).1
          obtain ⟨s', ret, hc, -⟩ := G.toPlanted.rsp args paddr b hne
          have G' := G.step (fun _ _ _ e => by
            obtain ⟨rfl, rfl, rfl⟩ := Op.rsp.inj e
            exact ⟨hst.2.1, fun h => absurd h hne⟩) hc
          obtain ⟨u, seen', hrun, hu⟩ := ih G' (fun o ho => hrsp o (by simp [ho])) hst.2.2
            fun o ho => hops o (by simp [ho])
          exact ⟨u, seen', .cons ret hc hrun, hu⟩
      | _ => exact absurd (hrsp _ List.mem_cons_self) (by simp [Op.IsRsp])

/-! ## The timeout -/

section Tout

variable {F F' : Forest NodeId NodeId} {gs gs' : List (List (Seg NodeId NodeId))}

/-- The trees below the root and the groups, under addresses. -/
structure Addressed (args : Args) (s : Sender) (addr : In6Addr) (F : Forest NodeId NodeId)
    (gs : List (List (Seg NodeId NodeId))) : Prop where
  tops : (F.map s.heap.addr s.heap.addr).tops = s.view.kids addr
  grown : (F.map s.heap.addr s.heap.addr).Grown s.view.kids s.view.lvs
  root_notMem : addr ∉ (F.map s.heap.addr s.heap.addr).labs
  groups : Plan.Groups args s.view.hops (args.kept (F.map s.heap.addr s.heap.addr))
    (mapGroups s.heap.addr s.heap.addr gs)

theorem TimedOut.addressed (T : TimedOut args s s' root F gs) (G : s.Planted root addr)
    (hF : s.heap.Below root F) : Addressed args s addr F gs := by
  have I := G.inv
  obtain ⟨hr, -, hrF, -⟩ := I.below hF
  have hlive : ∀ x ∈ F.labs, s.heap.node x ≠ none := fun x hx => by
    obtain ⟨rt, hrt⟩ := hr x hx
    simp [hrt]
  have hroot : s.routerId addr = root := I.routerId_of_sa G.root_sa
  constructor
  · rw [Forest.tops_map, hF.tops]
    simp only [view, hroot]
  · refine hF.grown.map (fun x hx => ?_) fun x hx => ?_
    · simp only [view, I.routerId_addr (hlive x hx)]
    · simp only [view, I.routerId_addr (hlive x hx)]
  · rw [Forest.labs_map]
    intro hm
    obtain ⟨x, hx, he⟩ := List.mem_map.mp hm
    refine hrF ?_
    rwa [← hroot, ← he, I.routerId_addr (hlive x hx)]
  · rw [Args.kept_map]
    have hG : Plan.Groups args (fun x => s.view.hops (s.heap.addr x)) (args.kept F) gs :=
      T.groups.congr (args.kept_live F) fun x hx =>
        I.view_hops (hlive x (Forest.mem_labs_of_prune hx))
    exact hG.map s.view.hops _ _ fun _ => rfl

/-- The trees and the groups are a function of the tree under addresses. -/
theorem Twins.addressed_eq (W : t.Twins t' root addr seen) (N : Addressed args t addr F gs)
    (N' : Addressed args t' addr F' gs') :
    F.map t.heap.addr t.heap.addr = F'.map t'.heap.addr t'.heap.addr ∧
      mapGroups t.heap.addr t.heap.addr gs = mapGroups t'.heap.addr t'.heap.addr gs' := by
  have hG : Forest.Grown t'.view.kids t'.view.lvs (F.map t.heap.addr t.heap.addr) :=
    N.grown.congr (fun a _ => by rw [W.alike.kids_eq]) fun a ha => by
      rw [W.alike.lvs_eq a fun h => N.root_notMem (h ▸ ha)]
  have hF := hG.unique N'.grown (by rw [N.tops, N'.tops, W.alike.kids_eq])
  have hgs := N.groups
  rw [hF, W.alike.hops_eq] at hgs
  exact ⟨hF, hgs.det N'.groups⟩

/-- A receiver is the member with its address. -/
theorem Inv.exists_member (I : s.Inv root) : ∃ f : In6Addr → Addr,
    ∀ m ∈ s.members, f m.sin6_addr = m := by
  have : Nonempty Addr := ⟨⟨0, 0⟩⟩
  have hinj : Set.InjOn Addr.sin6_addr {m | m ∈ s.members} := fun x hx y hy h =>
    List.inj_on_of_nodup_map I.nodup_members hx hy h
  exact ⟨_, fun m hm => hinj.leftInvOn_invFunOn hm⟩

/-- Both publish the same headers and the same unicast receivers. -/
theorem Twins.tout (W : t.Twins t' root addr seen) {ret ret' : Int}
    (hc : Completes args t .tout u ret) (hc' : Completes args t' .tout u' ret') :
    ∃ g g', u.txg = some g ∧ u'.txg = some g' ∧ g.mdc = g'.mdc ∧ g.uni.Perm g'.uni := by
  have I := W.left.inv
  have I' := W.right.inv
  obtain ⟨-, F, gs, hF, T⟩ := I.tout hc
  obtain ⟨-, F', gs', hF', T'⟩ := I'.tout hc'
  obtain ⟨hFF, hgg⟩ := W.addressed_eq (T.addressed W.left.toPlanted hF)
    (T'.addressed W.right.toPlanted hF')
  refine ⟨_, _, T.txg_eq, T'.txg_eq, ?_, ?_⟩
  · have hmdc : ∀ (h : Heap) (gs : List (List (Seg NodeId NodeId))),
        gs.map h.header = (mapGroups h.addr h.addr gs).map dataHdr := fun h gs => by
      simp [mapGroups, Heap.header, Function.comp_def]
    rw [hmdc, hmdc, hgg]
  · -- an entry is determined by its address
    obtain ⟨f, hf⟩ := I.exists_member
    have huni : ∀ {v : Sender} {E : Forest NodeId NodeId}, v.Inv root → v.members.Perm t.members →
        v.heap.Below root E → (args.freed E ++ v.heap.lvs root).map v.heap.member =
          (args.freed (E.map v.heap.addr v.heap.addr) ++
            (v.heap.lvs root).map v.heap.addr).map f := by
      intro v E J hp hE
      rw [Args.freed_map, ← List.map_append, List.map_map]
      refine List.map_congr_left fun l hl => ?_
      have hle : v.heap.IsLeaf l := by
        rcases List.mem_append.mp hl with hl | hl
        · exact (J.below hE).2.1 l ((args.kept_leaves E).subset (List.mem_append_left _ hl))
        · exact ((J.wf.mem_lvs root l).mp hl).1
      have hm : v.heap.member l ∈ v.members := List.mem_map_of_mem ((J.mem_rcvr l).mpr hle)
      rw [Function.comp_apply, ← Heap.addr_eq_member hle, hf _ (hp.subset hm)]
    have hlv : ∀ {v : Sender}, v.Planted root addr →
        (v.heap.lvs root).map v.heap.addr = v.view.lvs addr := fun {v} P => by
      simp only [view, P.inv.routerId_of_sa P.root_sa]
    dsimp only
    rw [huni I (.refl _) hF, huni I' W.members.symm hF', hFF, hlv W.left.toPlanted,
      hlv W.right.toPlanted]
    exact (W.alike.lvs_perm.append_left _).map f

end Tout

/-! ## What survives a phase -/

/-- What a timeout leaves.  Every receiver is a free direct leaf of the root once, the root has
no child routers, and every other router is as `create_router` makes it. -/
structure AtRest (s : Sender) (root : NodeId) : Prop where
  root_node : ∃ r, s.heap.node root = some (.router r) ∧ r.child = [] ∧ r.nchild = 0 ∧
    r.fchild = 0 ∧ r.leaf.Perm s.rcvr ∧ r.nleaf = r.leaf.length ∧ r.fleaf = r.leaf.length
  rcvr_nodup : s.rcvr.Nodup
  leaf_node : ∀ l ∈ s.rcvr, ∃ lf, s.heap.node l = some (.leaf lf) ∧ lf.parent = some root
  router_node : ∀ x r, x ≠ root → s.heap.node x = some (.router r) → r =
    { parent := none, sa := r.sa, hops := 0, child := [], leaf := [],
      nchild := 0, fchild := 0, nleaf := 0, fleaf := 0 }
  mg_eq : s.mg = resetMergingStats

theorem Resting.atRest (Z : s.Resting root addr) : s.AtRest root := by
  have I := Z.inv
  refine ⟨?_, I.rcvr_nodup, fun l hl => ?_, fun x r hx hr => ?_, I.mg_eq⟩
  · obtain ⟨r, hr⟩ := I.root_router
    have C := I.wf.counted root r hr
    have A := I.allFree root r hr
    have hk : r.child = [] := by
      rw [← Node.kids_router r, ← Heap.kids_of_node hr, Z.kids]
    have hv : r.leaf = s.heap.lvs root := by
      rw [← Node.lvs_router r, ← Heap.lvs_of_node hr]
    have hn : r.nchild = 0 := by rw [C.nchild_eq, hk, List.length_nil]
    exact ⟨r, hr, hk, hn, A.1.trans hn, hv ▸ Z.lvs_perm, C.nleaf_eq, A.2.trans C.nleaf_eq⟩
  · obtain ⟨lf, hlf⟩ := (I.mem_rcvr l).mp hl
    obtain ⟨q, hq⟩ := Option.ne_none_iff_exists'.mp (I.leaf_par l ⟨lf, hlf⟩)
    rw [(Z.par_eq l q hq).1, Heap.par_of_node hlf] at hq
    exact ⟨lf, hlf, hq⟩
  · have C := I.wf.counted x r hr
    have A := I.allFree x r hr
    have hp : r.parent = none := by
      by_contra hne
      obtain ⟨q, hq⟩ := Option.ne_none_iff_exists'.mp hne
      exact (Z.par_eq x q (by rw [Heap.par_of_node hr]; exact hq)).2.not_isRouter ⟨r, hr⟩
    have hk : r.child = [] := by
      rw [← Node.kids_router r, ← Heap.kids_of_node hr, Z.kids]
    have hv : r.leaf = [] := by
      rw [← Node.lvs_router r, ← Heap.lvs_of_node hr, Z.lvs_of_ne hx]
    have hh : r.hops = 0 := by rw [← Heap.hops_of_router hr, Z.hops]
    have hnc := C.nchild_eq
    have hnl := C.nleaf_eq
    have hfc := A.1
    have hfl := A.2
    obtain ⟨parent, sa, hops, child, leaf, nchild, fchild, nleaf, fleaf⟩ := r
    simp_all

end Sender

/-- After two histories of completed phases over the same receivers, the responses of a further
phase and its timeout are processed to their ends, and both senders publish the same headers and
the same unicast receivers.  A history leaves nothing but the receivers. -/
theorem isolation_of_runs (args : Args) (addr : In6Addr) {s₁ t t' : Sender}
    {ops ops' rsps : List Op} (hinit : Sender.initial.initGroup addr = some (s₁, 0))
    (hrun : Run args s₁ ops t) (hrun' : Run args s₁ ops' t')
    (hops : ∀ op ∈ ops ++ ops' ++ rsps, op.NotFrom addr) (hst : Steady (fun _ => none) ops)
    (hst' : Steady (fun _ => none) ops') (hst'' : Steady (fun _ => none) rsps)
    (hover : PhasesOver ops) (hover' : PhasesOver ops') (hrsp : ∀ op ∈ rsps, op.IsRsp)
    (hmem : t.members.Perm t'.members) :
    (∃ root, t.root = some root ∧ t.AtRest root) ∧ (∃ u, Run args t (rsps ++ [.tout]) u) ∧
      (∃ u', Run args t' (rsps ++ [.tout]) u') ∧
      ∀ u u', Run args t (rsps ++ [.tout]) u → Run args t' (rsps ++ [.tout]) u' →
        ∃ g g', u.txg = some g ∧ u'.txg = some g' ∧ g.mdc = g'.mdc ∧ g.uni.Perm g'.uni := by
  have G₁ := Sender.phased_init hinit
  have Z₁ := Sender.resting_init hinit
  have Z := G₁.resting hrun (fun op h => hops op (by simp [h])) hst hover (Or.inl Z₁)
  have Z' := G₁.resting hrun' (fun op h => hops op (by simp [h])) hst' hover' (Or.inl Z₁)
  have hno : ∀ op ∈ rsps, op.NotFrom addr := fun op h => hops op (by simp [h])
  have hex : ∀ {v : Sender}, v.Resting 0 addr → ∃ u, Run args v (rsps ++ [.tout]) u := by
    intro v Y
    obtain ⟨w, seen, hw, G⟩ := Y.phased.exists_run args hrsp hst'' hno
    obtain ⟨u, hu⟩ := G.inv.tout_completes args
    exact ⟨u, hw.append (.single hu)⟩
  have hpeers : t.peers.Perm t'.peers := by
    rw [← Z.inv.peers_eq, ← Z'.inv.peers_eq]
    exact hmem.map _
  have W : t.Twins t' 0 addr fun _ => none := ⟨Z.phased, Z'.phased, Z.alike Z' hpeers, hmem⟩
  refine ⟨⟨0, Z.inv.root_eq, Z.atRest⟩, hex Z, hex Z', fun u u' hu hu' => ?_⟩
  obtain ⟨v, hv, h⟩ := hu.of_append
  obtain ⟨v', hv', h'⟩ := hu'.of_append
  obtain ⟨seen, W'⟩ := W.run hv hv' hrsp hst'' hno
  cases h with
  | cons ret hc tail =>
      cases tail
      cases h' with
      | cons ret' hc' tail' =>
          cases tail'
          exact W'.tout hc hc'

/-- The theorem at a sender that has only been joined and one that knows a router from a phase
with another hop count; the receivers joined in different orders. -/
theorem isolation_of_two_histories : ∃ (t t' u u' : Sender) (g g' : TxGroup),
    Run Args.default (((Sender.initial.initGroup 1).get rfl).1) [.join 2 0, .join 3 0] t ∧
    Run Args.default (((Sender.initial.initGroup 1).get rfl).1)
      [.join 3 0, .join 2 0, .rsp 4 3 2, .tout] t' ∧
    Run Args.default t [.rsp 4 2 1, .rsp 4 3 1, .tout] u ∧
    Run Args.default t' [.rsp 4 2 1, .rsp 4 3 1, .tout] u' ∧
    u.txg = some g ∧ u'.txg = some g' ∧ g.mdc = g'.mdc ∧ g.uni.Perm g'.uni := by
  let s₁ : Sender := ((Sender.initial.initGroup 1).get rfl).1
  let ops : List Op := [.join 2 0, .join 3 0]
  let ops' : List Op := [.join 3 0, .join 2 0, .rsp 4 3 2, .tout]
  have hall : ((exec Args.default 20 s₁ ops).bind fun t =>
      (exec Args.default 20 s₁ ops').map fun t' => decide (t.members.Perm t'.members)) =
        some true := by decide +kernel
  obtain ⟨t, ht, hall⟩ := Option.bind_eq_some_iff.mp hall
  obtain ⟨t', ht', hall⟩ := Option.map_eq_some_iff.mp hall
  have hrsp : ∀ op ∈ [Op.rsp 4 2 1, .rsp 4 3 1], op.IsRsp := by simp [Op.IsRsp]
  obtain ⟨-, ⟨u, hu⟩, ⟨u', hu'⟩, h⟩ := isolation_of_runs Args.default 1 rfl (Run.of_exec ht)
    (Run.of_exec ht') (by simp [ops, ops', Op.NotFrom]) (by simp [ops, Steady])
    (by simp [ops', Steady]) (by simp [Steady]) (by simp [ops, PhasesOver])
    (by simp [ops', PhasesOver]) hrsp (of_decide_eq_true hall)
  obtain ⟨g, g', h1, h2, h3, h4⟩ := h u u' hu hu'
  exact ⟨t, t', u, u', g, g', Run.of_exec ht, Run.of_exec ht', hu, hu', h1, h2, h3, h4⟩

end MEADcast
