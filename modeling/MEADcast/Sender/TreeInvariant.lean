import MEADcast.Sender.RxSpec
import MEADcast.Sender.Progress

/-!
# The tree invariant during discovery

`TreeInv` says that what the sender holds is a finite rooted tree with exact counters.
Responses keep it except in one situation: a router that is known and in the tree already
answers with a hop count that makes the position search stop below a router which is above
both the receiver and itself.  `adopt` then moves an ancestor of the router below it.

## Main results

* `tree_of_run` — the invariant holds along every run without that situation, and the next
  response keeps it exactly outside that situation.
* `looping_run` — four responses of two routers for two receivers that close a cycle.
-/

namespace MEADcast

open ParentMap

namespace Heap

/-- `h.Path root x xs`: the cells lead from `root` to `x`, and `xs` lists the nodes on the
way from `x` back to `root`. -/
inductive Path (h : Heap) (root : NodeId) : NodeId → List NodeId → Prop
  | root : Path h root root [root]
  | step {p c : NodeId} {xs : List NodeId} (tail : Path h root p xs)
      (hc : c ∈ h.kids p ∨ c ∈ h.lvs p) : Path h root c (c :: xs)

variable {h : Heap} {root x : NodeId}

theorem Path.exists_of_up (W : h.Wf) (hx : Up h.par x root) : ∃ xs, h.Path root x xs := by
  induction hx using Relation.ReflTransGen.head_induction_on with
  | refl => exact ⟨_, .root⟩
  | @head a c hac _ ih =>
      obtain ⟨xs, hxs⟩ := ih
      obtain ⟨nd, hnd⟩ := node_of_par hac
      refine ⟨a :: xs, .step hxs ?_⟩
      rcases isRouter_or_isLeaf hnd with hr | hl
      · exact Or.inl ((W.mem_kids c a).mpr ⟨hr, hac⟩)
      · exact Or.inr ((W.mem_lvs c a).mpr ⟨hl, hac⟩)

theorem Path.par_of_step (W : h.Wf) {p c : NodeId} (hc : c ∈ h.kids p ∨ c ∈ h.lvs p) :
    h.par c = some p :=
  hc.elim W.kids_parent W.lvs_parent

theorem Path.unique (W : h.Wf) (hroot : h.par root = none) {xs ys : List NodeId}
    (hx : h.Path root x xs) (hy : h.Path root x ys) : xs = ys := by
  induction hx generalizing ys with
  | root =>
      cases hy with
      | root => rfl
      | step _ hc => simp [par_of_step W hc] at hroot
  | step _ hc ih =>
      cases hy with
      | root => simp [par_of_step W hc] at hroot
      | step t hc' =>
          obtain rfl := Option.some.inj ((par_of_step W hc).symm.trans (par_of_step W hc'))
          rw [ih t]

end Heap

namespace Sender

/-- The sender holds a finite rooted tree: every node with a parent, and every receiver,
leads to the root and is reached from it by one path only, cells and parent pointers
describe the same edges, and all counters are exact. -/
structure TreeInv (s : Sender) (root : NodeId) : Prop where
  root_eq : s.root = some root
  root_par : s.heap.par root = none
  rooted : Rooted s.heap.par root
  up_root : ∀ l ∈ s.rcvr, Up s.heap.par l root
  path : ∀ l ∈ s.rcvr, ∃! xs, s.heap.Path root l xs
  cell : ∀ x p, s.heap.par x = some p → ∃ r, s.heap.node p = some (.router r) ∧
    ((s.heap.IsRouter x ∧ r.child.count x = 1 ∧ x ∉ r.leaf) ∨
      (s.heap.IsLeaf x ∧ r.leaf.count x = 1 ∧ x ∉ r.child))
  cell_parent : ∀ p r x, s.heap.node p = some (.router r) → x ∈ r.child ++ r.leaf →
    s.heap.par x = some p
  counters : ∀ x r, s.heap.node x = some (.router r) → r.nchild = r.child.length ∧
    r.nleaf = r.leaf.length ∧ r.fchild = r.nchild ∧ r.fleaf = r.nleaf

variable {s s' : Sender} {root : NodeId}

/-- Between operations, being rooted is all that a tree needs. -/
theorem Inv.treeInv (I : s.Inv root) (H : Rooted s.heap.par root) : s.TreeInv root := by
  have hup : ∀ l ∈ s.rcvr, Up s.heap.par l root := by
    intro l hl
    obtain ⟨p, hp⟩ := Option.ne_none_iff_exists'.mp (I.leaf_par l ((I.mem_rcvr l).mp hl))
    exact H l p hp
  have W := I.wf
  refine ⟨I.root_eq, I.root_par, H, hup, ?_, ?_, ?_, ?_⟩
  · intro l hl
    obtain ⟨xs, hxs⟩ := Heap.Path.exists_of_up W (hup l hl)
    exact ⟨xs, hxs, fun ys hys => hys.unique W I.root_par hxs⟩
  · intro x p hp
    obtain ⟨r, hr⟩ := W.par_router x p hp
    obtain ⟨nd, hnd⟩ := Heap.node_of_par hp
    have hk : s.heap.kids p = r.child := Heap.kids_of_node hr
    have hl : s.heap.lvs p = r.leaf := Heap.lvs_of_node hr
    have mk := W.mem_kids p x
    have ml := W.mem_lvs p x
    have nk := W.kids_nodup p
    have nl := W.lvs_nodup p
    rw [hk] at mk nk
    rw [hl] at ml nl
    refine ⟨r, hr, ?_⟩
    rcases Heap.isRouter_or_isLeaf hnd with hx | hx
    · refine Or.inl ⟨hx, List.count_eq_one_of_mem nk (mk.mpr ⟨hx, hp⟩), fun hm => ?_⟩
      exact (ml.mp hm).1.not_isRouter hx
    · refine Or.inr ⟨hx, List.count_eq_one_of_mem nl (ml.mpr ⟨hx, hp⟩), fun hm => ?_⟩
      exact hx.not_isRouter (mk.mp hm).1
  · intro p r x hr hx
    have hk : s.heap.kids p = r.child := Heap.kids_of_node hr
    have hl : s.heap.lvs p = r.leaf := Heap.lvs_of_node hr
    rcases List.mem_append.mp hx with hx | hx
    · exact W.kids_parent (hk ▸ hx)
    · exact W.lvs_parent (hl ▸ hx)
  · intro x r hr
    have C := W.counted x r hr
    have A := I.allFree x r hr
    exact ⟨C.nchild_eq, C.nleaf_eq, A.1, A.2⟩

/-! ## The step -/

/-- No router `n` lies above both the receiver and the responding router such that every
router from the receiver up to `n` has more hops than the response says and is not the
responding one. -/
def LoopFree (s : Sender) (rsa paddr : In6Addr) (b : ℕ) : Prop :=
  ∀ l r, s.ht paddr = some (some l) → s.heap.IsLeaf l → s.ht rsa = some (some r) →
    s.heap.IsRouter r → ¬ ∃ n, SUp s.heap.par l n ∧ Up s.heap.par r n ∧
      ∀ z, SUp s.heap.par l z → Up s.heap.par z n → z ≠ r ∧ b < s.heap.hops z

/-- A rooted tree whose root has address `addr` and hop count `0`. -/
structure Planted (s : Sender) (root : NodeId) (addr : In6Addr) : Prop where
  inv : s.Inv root
  rooted : Rooted s.heap.par root
  root_sa : s.heap.sa root = some addr
  root_hops : s.heap.hops root = 0

section Step

variable {addr rsa paddr : In6Addr} {b : ℕ} {l n p : NodeId}

/-- Nothing leads to the next identifier. -/
theorem Inv.not_up_next (I : s.Inv root) {x : NodeId} (hx : s.heap.node x ≠ none) :
    ¬ Up s.heap.par x s.heap.next := by
  have hfresh := I.wf.fresh _ le_rfl
  intro h
  rcases Relation.ReflTransGen.cases_tail h with h | ⟨y, -, hy⟩
  · exact hx (h ▸ hfresh)
  · obtain ⟨r, hr⟩ := I.wf.par_router _ _ hy
    simp [hfresh] at hr

/-- Only routers are above other nodes. -/
theorem Inv.not_up_leaf (I : s.Inv root) {x : NodeId} (hl : s.heap.IsLeaf l) (hx : x ≠ l) :
    ¬ Up s.heap.par x l := by
  intro h
  rcases Relation.ReflTransGen.cases_tail h with h | ⟨y, -, hy⟩
  · exact hx h.symm
  · exact hl.not_isRouter (I.wf.par_router _ _ hy)

/-- The router and the node it is placed above are different. -/
theorem Accepted.ne {s' : Sender} (A : s.Accepted s' root rsa b l n p)
    (hr : s.routerId rsa ≠ l) : s.routerId rsa ≠ n := by
  intro h
  rcases A.climb.eq_or_lt_key with hn | hlt
  · exact hr (h.trans hn)
  · simp [← h] at hlt

/-- The position search stops below an ancestor of the responding router exactly in the
situation that `LoopFree` excludes. -/
theorem Planted.loopFree_iff (G : s.Planted root addr) (ha : s.Admits rsa paddr l)
    (A : s.Accepted s' root rsa b l n p) :
    s.LoopFree rsa paddr b ↔ ¬ Up s.heap.par (s.routerId rsa) n := by
  have I := G.inv
  have c := A.climb
  have hrl : s.routerId rsa ≠ l := fun h => routerId_not_isLeaf I ha (h ▸ ha.isLeaf)
  have hloop : ¬ SUp s.heap.par n n := not_sUp_self I.root_par (G.rooted n p c.par_eq)
  constructor
  · intro hlf hup
    rcases routerId_cases (b := 0) I ha with ⟨-, hid, -⟩ | ⟨r, rt, hv, hr, hrt, -, -⟩
    · rcases hup.cases_head with h | ⟨z, hz, -⟩
      · exact A.ne hrl h
      · simp [hid, Heap.par, I.wf.fresh _ le_rfl] at hz
    · rw [hr] at hup hrl c
      have hln : SUp s.heap.par l n := by
        rcases c.up_node.eq_or_sUp with h | h
        · exact absurd (h ▸ hup) (I.not_up_leaf ha.isLeaf hrl)
        · exact h
      refine hlf l r (I.tracks.get ha.peer) ha.isLeaf hv ⟨rt, hrt⟩ ⟨n, hln, hup, ?_⟩
      intro z hlz hzn
      have hlt := c.lt_key_of_passed hlz hzn hloop
      have hzr : z ≠ r := by rintro rfl; simp at hlt
      exact ⟨hzr, by rwa [Function.update_of_ne hzr] at hlt⟩
  · rintro hno l' r hp - hv - ⟨m, hlm, hrm, hm⟩
    obtain rfl : l' = l :=
      I.tracks.inj (I.tracks.sa_of_get hp) ha.peer
    have hr : s.routerId rsa = r := by simp [routerId, hv]
    rw [hr] at hno c
    refine hno (hrm.trans ?_)
    rcases (Up.of_sUp hlm).total c.up_node with h | h
    · exact h
    · rcases h.cases_head with h | ⟨q, hq, hqm⟩
      · exact h ▸ Up.refl _ _
      · obtain rfl := Option.some.inj (c.par_eq.symm.trans hq)
        obtain ⟨hpr, hlt⟩ := hm p (SUp.iff_exists.mpr (by
          rcases c.up_node.cases_head with rfl | ⟨z, hz, hzn⟩
          · exact ⟨p, c.par_eq, Up.refl _ _⟩
          · exact ⟨z, hz, hzn.tail c.par_eq⟩)) hqm
        have hle := c.key_le
        rw [Function.update_of_ne hpr] at hle
        omega

/-- The responding router differs from the node it is placed above and from the root. -/
theorem Planted.rooted_iff (G : s.Planted root addr) (hne : rsa ≠ addr)
    (ha : s.Admits rsa paddr l) (A : s.Accepted s' root rsa b l n p) :
    Rooted s'.heap.par root ↔ s.LoopFree rsa paddr b := by
  have I := G.inv
  have hrl : s.routerId rsa ≠ l := fun h => routerId_not_isLeaf I ha (h ▸ ha.isLeaf)
  have hrr : s.routerId rsa ≠ root := routerId_ne_root I ha fun h =>
    hne (Option.some.inj (h.symm.trans G.root_sa))
  have hrn := A.ne hrl
  rw [G.loopFree_iff ha A, A.placed.par_eq]
  constructor
  · intro H hup
    have hself := sUp_placed_self (p := p) hrn hup
    obtain ⟨z, hz, -⟩ := SUp.iff_exists.mp hself
    refine not_sUp_self ?_ (H n z hz) hself
    have := A.inv.root_par
    rwa [A.placed.par_eq] at this
  · exact fun hno => G.rooted.placed I.root_par A.climb.par_eq hrn hrr hno

/-- An accepted response outside the looping situation. -/
theorem Planted.accepted (G : s.Planted root addr) (hne : rsa ≠ addr)
    (ha : s.Admits rsa paddr l) (A : s.Accepted s' root rsa b l n p)
    (hlf : s.LoopFree rsa paddr b) : s'.Planted root addr := by
  have hrr : s.routerId rsa ≠ root := routerId_ne_root G.inv ha fun h =>
    hne (Option.some.inj (h.symm.trans G.root_sa))
  refine ⟨A.inv, (G.rooted_iff hne ha A).mpr hlf, ?_, ?_⟩
  · rw [Heap.sa, A.placed.tag_of_ne hrr.symm]
    exact G.root_sa
  · rw [A.placed.hops_eq, Function.update_of_ne hrr.symm, G.root_hops]

/-- A joining receiver is a new leaf of the root. -/
theorem Planted.joined (G : s.Planted root addr) {a : Addr} (J : s.Joined s' root a) :
    s'.Planted root addr := by
  have I := G.inv
  have hrn : root ≠ s.heap.next := by
    rintro hr
    obtain ⟨r, hr'⟩ := I.root_router
    simp [hr, I.wf.fresh _ le_rfl] at hr'
  refine ⟨J.inv, ?_, ?_, ?_⟩
  · rw [J.par_eq]
    have hup : ∀ x, s.heap.node x ≠ none → Up s.heap.par x root →
        Up (Function.update s.heap.par s.heap.next (some root)) x root :=
      fun x hx h => h.update_of_not_up (I.not_up_next hx)
    intro x q hx
    by_cases hxn : x = s.heap.next
    · subst hxn
      refine Up.head (by simp) (hup root ?_ (Up.refl _ _))
      obtain ⟨r, hr⟩ := I.root_router
      simp [hr]
    · rw [Function.update_of_ne hxn] at hx
      obtain ⟨nd, hnd⟩ := Heap.node_of_par hx
      exact hup x (by simp [hnd]) (G.rooted x q hx)
  · rw [Heap.sa, J.tag_eq, Function.update_of_ne hrn]
    exact G.root_sa
  · rw [Heap.hops_congr (h := s.heap), G.root_hops]
    rw [J.tag_eq, Function.update_of_ne hrn]

/-- In a rooted tree the position search always ends. -/
theorem Planted.exists_climb (G : s.Planted root addr) (hne : rsa ≠ addr)
    (ha : s.Admits rsa paddr l) (b : ℕ) :
    ∃ n p, Climb s.heap.par (Function.update s.heap.hops (s.routerId rsa) b) b l n p := by
  have hrr : s.routerId rsa ≠ root := routerId_ne_root G.inv ha fun h =>
    hne (Option.some.inj (h.symm.trans G.root_sa))
  obtain ⟨q, hq⟩ := Option.ne_none_iff_exists'.mp (G.inv.leaf_par l ha.isLeaf)
  refine Climb.exists_of_up (r := root) ?_ ?_
  · rcases (G.rooted l q hq).eq_or_sUp with h | h
    · exact absurd (h ▸ G.inv.root_router) ha.isLeaf.not_isRouter
    · exact h
  · rw [Function.update_of_ne hrr.symm, G.root_hops]
    exact Nat.zero_le b

end Step

end Sender

/-! ## Runs -/

/-- What happens to the tree before the first timeout: receivers join, and responses pass
`rx_dcvr` that do not come from the root's own address. -/
def Op.Discovers (addr : In6Addr) : Op → Prop
  | .join _ _ => True
  | .initTxg => True
  | .rsp rsa _ b => rsa ≠ addr ∧ 1 ≤ b ∧ b ≤ 63
  | .tout => False

/-- `LoopFree` for the operation at hand. -/
def Sender.LoopFreeOp (s : Sender) : Op → Prop
  | .rsp rsa paddr b => s.LoopFree rsa paddr b
  | _ => True

section Run

open Sender

variable {args : Args} {s s' : Sender} {root : NodeId} {addr rsa paddr : In6Addr} {b : ℕ}

/-- A response that is rejected is not in the looping situation either. -/
theorem loopFree_of_rejected (I : s.Inv root) (h : ∀ l, ¬ s.Admits rsa paddr l) :
    s.LoopFree rsa paddr b := by
  intro l r hp hl hv hr
  refine absurd ⟨hl, I.tracks.sa_of_get hp, fun x hx => ?_⟩ (h l)
  obtain rfl : x = r := I.tracks.inj hx (I.tracks.sa_of_get hv)
  exact hr

/-- One response: it is processed to its end, and the tree stays a tree exactly outside
the looping situation. -/
theorem Sender.Planted.rsp (G : s.Planted root addr) (args : Args) (paddr : In6Addr) (b : ℕ)
    (hne : rsa ≠ addr) :
    ∃ s' ret, Completes args s (.rsp rsa paddr b) s' ret ∧
      (s'.TreeInv root ↔ s.LoopFree rsa paddr b) := by
  by_cases ha : ∃ l, s.Admits rsa paddr l
  · obtain ⟨l, ha⟩ := ha
    have hsa : s.heap.sa root ≠ some rsa := fun h =>
      hne (Option.some.inj (h.symm.trans G.root_sa))
    obtain ⟨n, p, c⟩ := G.exists_climb hne ha b
    obtain ⟨N, hN⟩ := updateTopo_complete G.inv ha hsa c
    obtain ⟨s', e, A⟩ := hN N le_rfl
    refine ⟨s', 0, ⟨N, e⟩, ?_⟩
    rw [← G.rooted_iff hne ha A]
    exact ⟨fun T => T.rooted, A.inv.treeInv⟩
  · push Not at ha
    exact ⟨s, -1, ⟨0, updateTopo_rejected G.inv ha⟩,
      iff_of_true (G.inv.treeInv G.rooted) (loopFree_of_rejected G.inv ha)⟩

/-- One operation outside the looping situation. -/
theorem Sender.Planted.step {op : Op} {ret : Int} (G : s.Planted root addr)
    (hop : op.Discovers addr) (hlf : s.LoopFreeOp op) (hc : Completes args s op s' ret) :
    s'.Planted root addr := by
  obtain ⟨fuel, e⟩ := hc
  cases op with
  | join a port =>
      rcases join_spec G.inv a port with ⟨-, h⟩ | ⟨-, s₁, h, J⟩
      · obtain ⟨rfl, -⟩ : s = s' ∧ -1 = ret := by simpa [MEADcast.step, h] using e
        exact G
      · obtain ⟨rfl, -⟩ : s₁ = s' ∧ 0 = ret := by simpa [MEADcast.step, h] using e
        exact G.joined J
  | initTxg =>
      rcases initTxg_spec G.inv with ⟨-, h⟩ | ⟨-, h⟩
      · obtain ⟨rfl, -⟩ : s = s' ∧ -1 = ret := by simpa [MEADcast.step, h] using e
        exact G
      · obtain ⟨rfl, -⟩ : _ = s' ∧ 0 = ret := by simpa [MEADcast.step, h] using e
        exact ⟨G.inv.publish _, G.rooted, G.root_sa, G.root_hops⟩
  | rsp rsa paddr b =>
      have hsa : s.heap.sa root ≠ some rsa := fun h =>
        hop.1 (Option.some.inj (h.symm.trans G.root_sa))
      rcases updateTopo_cases G.inv hsa e with ⟨rfl, -, -⟩ | ⟨-, l, n, p, ha, A⟩
      · exact G
      · exact G.accepted hop.1 ha A hlf
  | tout => exact absurd hop (by simp [Op.Discovers])

/-- In every run of joins and responses in which no response is in the looping situation,
the sender holds a finite rooted tree.  There every further response is processed to its
end, and its result is a tree exactly if it is not in the looping situation. -/
theorem tree_of_run (addr : In6Addr) {s₁ : Sender} {ops : List Op}
    (hinit : Sender.initial.initGroup addr = some (s₁, 0)) (hrun : Run args s₁ ops s)
    (hops : ∀ op ∈ ops, op.Discovers addr) (hok : MeetsAlong args s₁ ops LoopFreeOp) :
    ∃ root, s.TreeInv root ∧ ∀ rsa paddr b, rsa ≠ addr →
      ∃ s' ret, Completes args s (.rsp rsa paddr b) s' ret ∧
        (s'.TreeInv root ↔ s.LoopFree rsa paddr b) := by
  obtain ⟨s₀, h₀, I, hsa, hh, -, htag⟩ := initGroup_initial addr
  obtain rfl : s₀ = s₁ := by simpa [h₀] using hinit
  have G₀ : s₀.Planted 0 addr := by
    refine ⟨I, fun x q hx => ?_, hsa, hh⟩
    obtain ⟨nd, hnd⟩ := Heap.node_of_par hx
    rw [htag x (by simp [Heap.tag_of_node hnd])]
    exact Up.refl _ _
  have G : s.Planted 0 addr := by
    refine hrun.invariant (fun t => t.Planted 0 addr)
      (fun t op => op.Discovers addr ∧ t.LoopFreeOp op)
      (fun t t' op ret G ok hc => G.step ok.1 ok.2 hc) (fun pre t op post e hr => ?_) G₀
    exact ⟨hops op (by simp [e]), hok pre t op post e hr⟩
  exact ⟨0, G.inv.treeInv G.rooted, fun rsa paddr b hne => G.rsp args paddr b hne⟩

end Run

/-- The router that the receiver hangs below has no more hops than the response says. -/
def Sender.InOrder (s : Sender) : Op → Bool
  | .rsp _ paddr b =>
    match s.ht paddr with
    | some (some l) => (s.heap.par l).all fun p => decide (s.heap.hops p ≤ b)
    | _ => true
  | _ => true

/-- Then the search for a place ends there. -/
theorem Sender.InOrder.loopFreeOp {s : Sender} {op : Op} (h : s.InOrder op = true) : s.LoopFreeOp op := by
  cases op with
  | rsp rsa paddr b =>
      rintro l r hl - - - ⟨n, hn, -, hz⟩
      obtain ⟨p, hp, hpn⟩ := SUp.iff_exists.mp hn
      rw [Sender.InOrder, hl] at h
      simp only [hp, Option.all_some, decide_eq_true_eq] at h
      have hlt := (hz p (.single hp) hpn).2
      omega
  | join addr port => trivial
  | initTxg => trivial
  | tout => trivial

/-- The theorem at a run with two receivers: router `4` answers for both of them, and router `5`, which
is known from the first answer, does so once more. -/
theorem tree_of_short_run : ∃ s, Run Args.default (((Sender.initial.initGroup 1).get rfl).1)
    [.join 2 0, .join 3 0, .rsp 4 2 1, .rsp 5 2 2, .rsp 4 3 1, .rsp 5 3 2] s ∧
    ∃ root, s.TreeInv root := by
  let s₁ : Sender := ((Sender.initial.initGroup 1).get rfl).1
  let ops : List Op := [.join 2 0, .join 3 0, .rsp 4 2 1, .rsp 5 2 2, .rsp 4 3 1, .rsp 5 3 2]
  have hsome : (exec Args.default 9 s₁ ops).isSome = true := by decide +kernel
  obtain ⟨s, h⟩ := Option.isSome_iff_exists.mp hsome
  have hmeets : execMeets Args.default 9 Sender.InOrder s₁ ops = true := by decide +kernel
  have hok := (MeetsAlong.of_exec hmeets).mono fun _ _ h => Sender.InOrder.loopFreeOp h
  obtain ⟨root, T, -⟩ := tree_of_run 1 rfl (Run.of_exec h) (by simp [ops, Op.Discovers]) hok
  exact ⟨s, Run.of_exec h, root, T⟩

/-! ## The looping situation is reachable -/

/-- Receivers `2` and `3` join the group of sender `1`.  Routers `4` and `5` answer for
receiver `2` in this order from the sender.  Then `4` moves up to hop count `2` for receiver
`3`, and `5`, now nearer than `4`, answers for receiver `3` too: it adopts `4`, below which it
hangs itself. -/
def loopingOps : List Op :=
  [.join 2 0, .join 3 0, .rsp 4 2 2, .rsp 5 2 3, .rsp 4 3 2, .rsp 5 3 1]

theorem looping_run : ∃ (s₁ s : Sender),
    Sender.initial.initGroup 1 = some (s₁, 0) ∧ Run Args.default s₁ loopingOps s ∧
      (∀ op ∈ loopingOps, op.Discovers 1) ∧ ¬ ∃ root, s.TreeInv root := by
  let s₁ : Sender := ((Sender.initial.initGroup 1).get rfl).1
  have hsome : (exec Args.default 9 s₁ loopingOps).isSome = true := by decide +kernel
  have hpar : (exec Args.default 9 s₁ loopingOps).map (fun s => (s.heap.par 3, s.heap.par 4)) =
      some (some 4, some 3) := by decide +kernel
  obtain ⟨s, h⟩ := Option.isSome_iff_exists.mp hsome
  refine ⟨s₁, s, rfl, Run.of_exec h, by simp [loopingOps, Op.Discovers], ?_⟩
  rw [h] at hpar
  obtain ⟨h3, h4⟩ : s.heap.par 3 = some 4 ∧ s.heap.par 4 = some 3 := by simpa using hpar
  rintro ⟨root, T⟩
  refine not_sUp_self T.root_par (T.rooted 3 4 h3) ?_
  exact SUp.iff_exists.mpr ⟨4, h3, Up.head h4 (Up.refl _ _)⟩

end MEADcast
