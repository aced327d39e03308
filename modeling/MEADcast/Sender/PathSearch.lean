import MEADcast.Sender.Phase

/-!
# The position search and the root

`get_path_pos` climbs from a receiver to the first router whose hop count is small enough.
The root with hop count `0` is its last stop.  A response that carries the root's own address
overwrites that hop count, and then the next search may run past the root.

## Main results

* `search_of_run` — without such responses every search ends at a cell of a router.
* `root_answers_run` — such a response, and an honest one after it that finds no position.
-/

namespace MEADcast

open ParentMap

namespace Sender

/-- The position search that `update_topo` makes for a response ends at a router with few
enough hops and returns one of its cells. -/
def SearchEnds (s : Sender) (rsa paddr : In6Addr) (b : ℕ) : Prop :=
  ∀ l, s.Admits rsa paddr l → ∃ N p r c, (∀ fuel, N ≤ fuel →
    (s.searchHeap rsa b).getPathPos fuel l b = some (some c)) ∧
    (s.searchHeap rsa b).node p = some (.router r) ∧ r.hops ≤ b ∧ c ∈ r.child ++ r.leaf

/-- The response carries the root's address and names a receiver. -/
def RootAnswers (addr : In6Addr) (s : Sender) : Op → Prop
  | .rsp rsa paddr _ => rsa = addr ∧ ∃ l, s.heap.IsLeaf l ∧ s.heap.sa l = some paddr
  | _ => False

section Search

variable {args : Args} {s s' : Sender} {root l : NodeId} {addr rsa paddr : In6Addr} {b : ℕ}
  {seen : In6Addr → Option ℕ}

/-- If the climb ends, so does the search. -/
theorem searchEnds_of_climb (I : s.Inv root)
    (hc : ∀ l, s.Admits rsa paddr l → ∃ n p,
      Climb s.heap.par (Function.update s.heap.hops (s.routerId rsa) b) b l n p) :
    s.SearchEnds rsa paddr b := by
  intro l ha
  obtain ⟨n, p, c⟩ := hc l ha
  obtain ⟨W, -, -, hl⟩ := searchHeap_spec (b := b) I ha
  have c' := (climb_searchHeap I ha).mpr c
  obtain ⟨N, hN⟩ := Heap.getPathPos_complete W hl c'
  obtain ⟨r, hr⟩ := W.par_router n p c'.par_eq
  refine ⟨N, p, r, n, hN, hr, ?_, ?_⟩
  · rw [← Heap.hops_of_router hr]
    exact c'.key_le
  · rw [List.mem_append, ← Node.kids_router r, ← Heap.kids_of_node hr, ← Node.lvs_router r,
      ← Heap.lvs_of_node hr, W.mem_kids, W.mem_lvs]
    rcases Heap.climb_kind W hl c' with ⟨-, hn⟩ | ⟨-, hn⟩
    · exact Or.inr ⟨hn, c'.par_eq⟩
    · exact Or.inl ⟨hn, c'.par_eq⟩

/-- The search ends for every response, even one that carries the root's address. -/
theorem Planted.searchEnds (G : s.Planted root addr) (rsa paddr : In6Addr) (b : ℕ) :
    s.SearchEnds rsa paddr b := by
  refine searchEnds_of_climb G.inv fun l ha => ?_
  by_cases hne : rsa = addr
  · have hid : s.routerId rsa = root := by
      have := G.inv.tracks.get G.root_sa
      simp [routerId, hne, this]
    obtain ⟨q, hq⟩ := Option.ne_none_iff_exists'.mp (G.inv.leaf_par l ha.isLeaf)
    refine Climb.exists_of_up (r := root) ?_ (by rw [hid, Function.update_self])
    exact (G.rooted l q hq).eq_or_sUp.resolve_left fun h =>
      absurd (h ▸ G.inv.root_router) ha.isLeaf.not_isRouter
  · exact G.exists_climb hne ha b

/-- A response of the root for a receiver is accepted and overwrites the root's hop
count. -/
theorem Planted.root_answers (G : s.Planted root addr) (args : Args) (b : ℕ) (ha : s.Admits addr paddr l) :
    ∃ s', Completes args s (.rsp addr paddr b) s' 0 ∧ s'.heap.hops root = b := by
  have I := G.inv
  obtain ⟨rt, hrt⟩ := I.root_router
  have hv := I.tracks.get G.root_sa
  have hs : s.searchHeap addr b = s.heap.set root (.router { rt with hops := b }) := by
    simp [searchHeap, hv, Heap.router_eq_some.mpr hrt]
  obtain ⟨N, p, r, n, hN, hr, -, hn⟩ := G.searchEnds addr paddr b l ha
  rw [hs] at hN hr
  obtain ⟨W, hpar, -, -, htag, -⟩ := Heap.setHops_spec I.wf hrt b
  have hnp : (s.heap.set root (.router { rt with hops := b })).par n = some p := by
    rw [List.mem_append, ← Node.kids_router r, ← Heap.kids_of_node hr, ← Node.lvs_router r,
      ← Heap.lvs_of_node hr] at hn
    rcases hn with hn | hn
    · exact W.kids_parent hn
    · exact W.lvs_parent hn
  have hnr : n ≠ root := by
    rintro rfl
    rw [hpar, I.root_par] at hnp
    simp at hnp
  have hR : (s.heap.set root (.router { rt with hops := b })).IsRouter root :=
    ⟨{ rt with hops := b }, by simp⟩
  obtain ⟨h', e, M⟩ := Heap.adopt_spec W hnp hR hnr
  -- something hangs below the root
  have hne : ¬ (rt.parent = none ∧ rt.nleaf = 0 ∧ rt.nchild = 0) := by
    rintro ⟨-, h1, h2⟩
    have C := I.wf.counted root rt hrt
    have hk : s.heap.kids root = [] := by
      rw [Heap.kids_of_node hrt]
      exact List.length_eq_zero_iff.mp (C.nchild_eq.symm.trans h2)
    have hlv : s.heap.lvs root = [] := by
      rw [Heap.lvs_of_node hrt]
      exact List.length_eq_zero_iff.mp (C.nleaf_eq.symm.trans h1)
    obtain ⟨q, hq⟩ := Option.ne_none_iff_exists'.mp (I.leaf_par l ha.isLeaf)
    have hup := (G.rooted l q hq).eq_or_sUp.resolve_left fun h =>
      absurd (h ▸ I.root_router) ha.isLeaf.not_isRouter
    obtain ⟨y, -, hy⟩ := Relation.TransGen.tail'_iff.mp hup
    obtain ⟨nd, hnd⟩ := Heap.node_of_par hy
    rcases Heap.isRouter_or_isLeaf hnd with hyR | hyL
    · have := (I.wf.mem_kids root y).mpr ⟨hyR, hy⟩
      simp [hk] at this
    · have := (I.wf.mem_lvs root y).mpr ⟨hyL, hy⟩
      simp [hlv] at this
  refine ⟨{ s with heap := h' }, ⟨N, ?_⟩, ?_⟩
  · have hins : s.ht.ins addr = (s.ht, some root) := by simp [Judy.ins, hv]
    obtain ⟨lf, hlf⟩ := ha.isLeaf
    simp only [MEADcast.step, updateTopo, I.tracks.get ha.peer, hlf, Option.bind_eq_bind, Option.bind_some]
    rw [hins]
    simp only [hrt, Option.bind_some, hN N le_rfl, hne, if_false, e]
  · have ht : h'.tag root = some (.router rt.sa b) := by rw [M.tag_eq, htag]; simp
    simp [Heap.hops, ht]

/-- One response: the search ends, the response is processed to its end, and the root's
hop count stays `0` unless the root's address answers for a receiver. -/
theorem Phased.response (G : s.Phased root addr seen) (hb : 1 ≤ b)
    (hseen : ∀ b', seen rsa = some b' → b' = b) :
    s.SearchEnds rsa paddr b ∧ ∃ s' ret, Completes args s (.rsp rsa paddr b) s' ret ∧
      (s'.heap.hops root = 0 ↔ ¬ s.RootAnswers addr (.rsp rsa paddr b)) := by
  have I := G.inv
  refine ⟨G.toPlanted.searchEnds rsa paddr b, ?_⟩
  by_cases ha : ∃ l, s.Admits rsa paddr l
  · obtain ⟨l, ha⟩ := ha
    by_cases hne : rsa = addr
    · subst hne
      obtain ⟨s', hc, hh⟩ := G.toPlanted.root_answers args b ha
      refine ⟨s', 0, hc, iff_of_false (by omega) fun hno => hno ?_⟩
      exact ⟨rfl, l, ha.isLeaf, ha.peer⟩
    · obtain ⟨s', ret, hc, -⟩ := G.toPlanted.rsp args paddr b hne
      have G' := G.step (fun rsa' paddr' b' e => by
        obtain ⟨rfl, rfl, rfl⟩ := Op.rsp.inj e
        exact ⟨hseen, fun h => absurd h hne⟩) hc
      exact ⟨s', ret, hc, iff_of_true G'.root_hops fun h => hne h.1⟩
  · push Not at ha
    refine ⟨s, -1, ⟨0, updateTopo_rejected I ha⟩, iff_of_true G.root_hops ?_⟩
    rintro ⟨rfl, l, hl, hp⟩
    refine ha l ⟨hl, hp, fun x hx => ?_⟩
    rw [I.tracks.inj hx G.root_sa]
    exact I.root_router

end Search

end Sender

/-- In every run with constant hop counts in which the root's own address answers for no
receiver, the root keeps hop count `0`.  There every search of a further response, whatever
its address, ends at a cell of a router, the response is processed to its end, and the root
keeps its hop count exactly if the response is none of the root for a receiver. -/
theorem search_of_run (args : Args) (addr : In6Addr) {s₁ s : Sender} {ops : List Op}
    (hinit : Sender.initial.initGroup addr = some (s₁, 0)) (hrun : Run args s₁ ops s)
    (hst : Steady (fun _ => none) ops)
    (hok : MeetsAlong args s₁ ops fun t op => ¬ t.RootAnswers addr op) :
    ∃ root, s.root = some root ∧ s.heap.hops root = 0 ∧
      ∀ rsa paddr b, Steady (fun _ => none) (ops ++ [.rsp rsa paddr b]) →
        s.SearchEnds rsa paddr b ∧ ∃ s' ret, Completes args s (.rsp rsa paddr b) s' ret ∧
          (s'.heap.hops root = 0 ↔ ¬ s.RootAnswers addr (.rsp rsa paddr b)) := by
  have G := (Sender.phased_init hinit).run hrun hst (hok.mono fun t op h rsa paddr b e hra l ha => by
    subst e
    exact h ⟨hra, l, ha.isLeaf, ha.peer⟩)
  refine ⟨0, G.inv.root_eq, G.root_hops, fun rsa paddr b hs => ?_⟩
  obtain ⟨-, h1, h2, -⟩ := steady_append.mp hs
  exact G.response h1 h2

/-- The theorem at a run in which a router answers for two receivers. -/
theorem search_of_short_run : ∃ s, Run Args.default (((Sender.initial.initGroup 1).get rfl).1)
    [.join 2 0, .join 3 0, .rsp 4 2 1] s ∧ ∃ root, s.root = some root ∧ s.heap.hops root = 0 ∧
      s.SearchEnds 4 3 1 := by
  let s₁ : Sender := ((Sender.initial.initGroup 1).get rfl).1
  have hsome : (exec Args.default 9 s₁ [.join 2 0, .join 3 0, .rsp 4 2 1]).isSome = true := by
    decide +kernel
  obtain ⟨s, h⟩ := Option.isSome_iff_exists.mp hsome
  have hok : MeetsAlong Args.default s₁ [.join 2 0, .join 3 0, .rsp 4 2 1]
      fun t op => ¬ t.RootAnswers 1 op := by
    intro pre t op post e _
    have hop : op ∈ [.join 2 0, .join 3 0, .rsp 4 2 1] := e ▸ by simp
    rcases List.mem_cons.mp hop with rfl | hop
    · exact fun h => h
    rcases List.mem_cons.mp hop with rfl | hop
    · exact fun h => h
    obtain rfl := List.mem_singleton.mp hop
    exact fun h => absurd h.1 (by decide)
  obtain ⟨root, h1, h2, h3⟩ := search_of_run Args.default 1 rfl (Run.of_exec h)
    (by simp [Steady]) hok
  exact ⟨s, Run.of_exec h, root, h1, h2, (h3 4 3 1 (by simp [Steady])).1⟩

/-! ## The root's own address -/

/-- Receiver `2` joins the group of sender `1`, and a response for it carries the address of
the sender. -/
def rootAnswersOps : List Op := [.join 2 0, .rsp 1 2 5]

/-- The root has hop count `5` afterwards, and no response of a router with fewer hops is
processed to its end any more: its search runs past the root. -/
theorem root_answers_run : ∃ (s₁ s : Sender), Sender.initial.initGroup 1 = some (s₁, 0) ∧
    Run Args.default s₁ rootAnswersOps s ∧
    Steady (fun _ => none) (rootAnswersOps ++ [.rsp 4 2 1]) ∧
    (∃ root, s.root = some root ∧ s.heap.hops root = 5) ∧ ¬ s.SearchEnds 4 2 1 ∧
    ¬ ∃ s' ret, Completes Args.default s (.rsp 4 2 1) s' ret := by
  let s₁ : Sender := ((Sender.initial.initGroup 1).get rfl).1
  have hsome : (exec Args.default 9 s₁ rootAnswersOps).isSome = true := by decide +kernel
  let s : Sender := (exec Args.default 9 s₁ rootAnswersOps).get hsome
  have hpos : ∀ fuel, (s.searchHeap 4 1).getPathPos fuel 1 1 = none := by
    intro fuel
    match fuel with
    | 0 => rfl
    | 1 => rfl
    | 2 => rfl
    | n + 3 => rfl
  have hrun : Run Args.default s₁ rootAnswersOps s := Run.of_exec (Option.some_get hsome).symm
  have hadm : s.Admits 4 2 1 := by
    refine ⟨⟨_, rfl⟩, rfl, fun x hx => ?_⟩
    match x with
    | 0 =>
        have h : some (1 : In6Addr) = some 4 := hx
        exact absurd h (by decide)
    | 1 =>
        have h : some (2 : In6Addr) = some 4 := hx
        exact absurd h (by decide)
    | n + 2 =>
        have h : none = some (4 : In6Addr) := hx
        exact absurd h (by simp)
  refine ⟨s₁, s, rfl, hrun, by simp [rootAnswersOps, Steady], ⟨0, rfl, rfl⟩, fun h => ?_, ?_⟩
  · obtain ⟨N, p, r, c, hN, -⟩ := h 1 hadm
    exact absurd ((hpos N).symm.trans (hN N le_rfl)) (by simp)
  · rintro ⟨s', ret, fuel, e⟩
    have hnone : s.updateTopo fuel 4 2 1 = (s.heap.getPathPos fuel 1 1).bind _ := rfl
    rw [show s.heap.getPathPos fuel 1 1 = none from hpos fuel] at hnone
    exact absurd (hnone.symm.trans e) (by simp)

end MEADcast
