import MEADcast.Sender.TreeSpec
import MEADcast.Sender.Grouping

/-!
# The invariant of the sender state

Between two operations the hash table maps exactly the addresses of the live nodes to
these nodes, the root is the only parentless router with neighbours, and the counters and
the merging variables hold nothing of an earlier grouping.  Nothing is said about cycles,
so that the invariant holds in every run.

## Main definitions

* `Tracks` — the hash table and the heap agree.
* `Sender.Inv` — the invariant.
-/

namespace MEADcast

/-- The address a live node carries. -/
def Heap.sa (h : Heap) (x : NodeId) : Option In6Addr := (h.tag x).map Tag.sa

theorem Heap.sa_of_tag {h : Heap} {x : NodeId} {t : Tag} (ht : h.tag x = some t) :
    h.sa x = some t.sa := by
  simp [Heap.sa, ht]

theorem Heap.sa_eq_none {h : Heap} {x : NodeId} : h.sa x = none ↔ h.node x = none := by
  simp [Heap.sa, Heap.tag]

/-- Address and port of a receiver. -/
def Heap.member (h : Heap) (x : NodeId) : Addr :=
  match h.tag x with
  | some (.leaf a) => a
  | _ => ⟨0, 0⟩

theorem Heap.member_of_node {h : Heap} {x : NodeId} {l : Leaf} (hx : h.node x = some (.leaf l)) :
    h.member x = l.addr := by
  simp [Heap.member, Heap.tag_of_node hx]

theorem Heap.member_congr {h h' : Heap} (ht : h'.tag = h.tag) : h'.member = h.member := by
  funext x
  rw [Heap.member, ht, Heap.member]

/-- The entries of the hash table are the live nodes under their addresses. -/
def Tracks (ht : Judy) (h : Heap) : Prop :=
  ∀ a v, ht a = some v ↔ ∃ n, v = some n ∧ h.sa n = some a

namespace Tracks

variable {ht : Judy} {h h' : Heap} {a : In6Addr} {x y : NodeId}

theorem get (T : Tracks ht h) (hx : h.sa x = some a) : ht a = some (some x) :=
  (T a (some x)).mpr ⟨x, rfl, hx⟩

theorem sa_of_get (T : Tracks ht h) (hx : ht a = some (some x)) : h.sa x = some a := by
  obtain ⟨n, hn, hs⟩ := (T a (some x)).mp hx
  rwa [Option.some.inj hn]

/-- Two live nodes never share an address. -/
theorem inj (T : Tracks ht h) (hx : h.sa x = some a) (hy : h.sa y = some a) : x = y :=
  Option.some.inj (Option.some.inj ((T.get hx).symm.trans (T.get hy)))

theorem ne_of_none (T : Tracks ht h) (ha : ht a = none) (x : NodeId) : h.sa x ≠ some a := by
  intro hx
  simp [T.get hx] at ha

/-- No entry holds the word `0`. -/
theorem ne_null (T : Tracks ht h) : ht a ≠ some none := by
  intro ha
  obtain ⟨n, hn, -⟩ := (T a none).mp ha
  simp at hn

theorem congr (T : Tracks ht h) (hs : h'.sa = h.sa) : Tracks ht h' := by
  unfold Tracks
  rw [hs]
  exact T

/-- A new node under a new address. -/
theorem insert (T : Tracks ht h) (ha : ht a = none) (hx : h.sa x = none)
    (hs : h'.sa = Function.update h.sa x (some a)) : Tracks ((ht.ins a).1.put a (some x)) h' := by
  intro b v
  have hput : (ht.ins a).1.put a (some x) b = if b = a then some (some x) else ht b := by
    by_cases hb : b = a <;> simp [Judy.ins, Judy.put, ha, hb]
  rw [hput, hs]
  by_cases hb : b = a
  · subst hb
    rw [if_pos rfl]
    constructor
    · intro hv
      exact ⟨x, (Option.some.inj hv).symm, by simp⟩
    · rintro ⟨n, rfl, hn⟩
      by_cases hnx : n = x
      · rw [hnx]
      · exact absurd (by simpa [hnx] using hn) (T.ne_of_none ha n)
  · rw [if_neg hb, T b v]
    refine exists_congr fun n => and_congr_right fun _ => ?_
    by_cases hnx : n = x
    · subst hnx; simp [hx, Ne.symm hb]
    · simp [hnx]

/-- A freed node whose entry is deleted. -/
theorem delete (T : Tracks ht h) (hx : h.sa x = some a)
    (hs : h'.sa = Function.update h.sa x none) : Tracks (ht.del a) h' := by
  intro b v
  rw [hs]
  by_cases hb : b = a
  · subst hb
    simp only [Judy.del, if_true, reduceCtorEq, false_iff, not_exists, not_and]
    rintro n rfl hn
    by_cases hnx : n = x
    · simp [hnx] at hn
    · exact hnx (T.inj (by simpa [hnx] using hn) hx)
  · simp only [Judy.del, if_neg hb]
    rw [T b v]
    refine exists_congr fun n => and_congr_right fun _ => ?_
    by_cases hnx : n = x
    · subst hnx; simp [hx, Ne.symm hb]
    · simp [hnx]

end Tracks

namespace Sender

/-- The invariant that every completed operation keeps. -/
structure Inv (s : Sender) (root : NodeId) : Prop where
  wf : s.heap.Wf
  allFree : s.heap.AllFree
  root_eq : s.root = some root
  root_router : s.heap.IsRouter root
  root_par : s.heap.par root = none
  tracks : Tracks s.ht s.heap
  orphan : ∀ r, s.heap.IsRouter r → s.heap.par r = none → r ≠ root →
    s.heap.kids r = [] ∧ s.heap.lvs r = [] ∧ s.heap.hops r = 0
  leaf_par : ∀ l, s.heap.IsLeaf l → s.heap.par l ≠ none
  rcvr_nodup : s.rcvr.Nodup
  mem_rcvr : ∀ l, l ∈ s.rcvr ↔ s.heap.IsLeaf l
  nrcvr_eq : s.nrcvr = s.rcvr.length
  mg_eq : s.mg = resetMergingStats

end Sender

/-! ## Creating the group and joining it -/

theorem Heap.wf_empty : ({ node := fun _ => none, next := 0 } : Heap).Wf where
  kids_nodup _ := List.nodup_nil
  lvs_nodup _ := List.nodup_nil
  mem_kids _ c := by simp [Heap.kids, Heap.IsRouter]
  mem_lvs _ c := by simp [Heap.lvs, Heap.IsLeaf]
  par_router _ _ hp := by simp [Heap.par] at hp
  par_ne _ := by simp [Heap.par]
  counted _ _ hr := by simp at hr
  fresh _ _ := rfl

namespace Sender

/-- `init_group` creates the root, and nothing else. -/
theorem initGroup_initial (addr : In6Addr) :
    ∃ s, Sender.initial.initGroup addr = some (s, 0) ∧ s.Inv 0 ∧ s.heap.sa 0 = some addr ∧
      s.heap.hops 0 = 0 ∧ s.rcvr = [] ∧ ∀ x, s.heap.tag x ≠ none → x = 0 := by
  let nd : Node := .router { parent := none, sa := addr, hops := 0, child := [], leaf := [],
                             nchild := 0, fchild := 0, nleaf := 0, fleaf := 0 }
  have hC : ∀ r, nd = .router r → r.Counted := by
    rintro r hr
    obtain rfl := Node.router.inj hr
    exact ⟨rfl, rfl, le_rfl, le_rfl⟩
  have hA : ∀ r, nd = .router r → r.AllFree := by
    rintro r hr
    obtain rfl := Node.router.inj hr
    exact ⟨rfl, rfl⟩
  obtain ⟨W, hpar, -, -, htag⟩ := Heap.wf_empty.alloc nd rfl rfl rfl hC
  let h : Heap := (Heap.alloc { node := fun _ => none, next := 0 } nd).1
  have htag' : ∀ x, h.tag x = if x = 0 then some (.router addr 0) else none := by
    intro x
    change (Heap.alloc _ nd).1.tag x = _
    rw [htag]
    by_cases hx : x = 0
    · simp [hx, nd]
    · simp [hx, Heap.tag]
  have hsa : h.sa = Function.update (fun _ => none) 0 (some addr) := by
    funext x
    by_cases hx : x = 0 <;> simp [Heap.sa, htag', hx, Tag.sa]
  have hnone : ∀ x, h.par x = none := fun x => by
    change (Heap.alloc _ nd).1.par x = none
    rw [hpar]; rfl
  refine ⟨_, rfl, ⟨W, ?_, rfl, ?_, hnone 0, ?_, ?_, ?_, List.nodup_nil, ?_, rfl, rfl⟩, ?_, ?_, rfl, ?_⟩
  · refine fun x => Heap.FreeAt.set (fun r hr => ?_) fun _ => hA
    simp [Sender.initial] at hr
  · exact Heap.isRouter_iff_tag.mpr ⟨addr, 0, (htag' 0).trans rfl⟩
  · have hempty : Tracks (fun _ => none) { node := fun _ => none, next := 0 } := fun a v => by
      simp [Heap.sa, Heap.tag]
    exact hempty.insert rfl rfl hsa
  · intro r hr _ hne
    obtain ⟨sa, k, ht⟩ := Heap.isRouter_iff_tag.mp hr
    change h.tag r = _ at ht
    simp [htag', hne] at ht
  · intro l hl
    obtain ⟨a, ht⟩ := Heap.isLeaf_iff_tag.mp hl
    change h.tag l = _ at ht
    rw [htag'] at ht
    split at ht <;> simp at ht
  · intro l
    simp only [Sender.initial, List.not_mem_nil, false_iff]
    intro hl
    obtain ⟨a, ht⟩ := Heap.isLeaf_iff_tag.mp hl
    change h.tag l = _ at ht
    rw [htag'] at ht
    split at ht <;> simp at ht
  · change h.sa 0 = _
    rw [hsa]; simp
  · change h.hops 0 = 0
    simp [Heap.hops, htag']
  · intro x hx
    change h.tag x ≠ none at hx
    by_contra hne
    exact hx (by simp [htag', hne])

/-- The state after a receiver with address `a` has joined. -/
structure Joined (s s' : Sender) (root : NodeId) (a : Addr) : Prop where
  inv : s'.Inv root
  par_eq : s'.heap.par = Function.update s.heap.par s.heap.next (some root)
  kids_eq : s'.heap.kids = s.heap.kids
  lvs_eq : s'.heap.lvs = Function.update s.heap.lvs root (s.heap.next :: s.heap.lvs root)
  tag_eq : s'.heap.tag = Function.update s.heap.tag s.heap.next (some (.leaf a))
  rcvr_eq : s'.rcvr = s.heap.next :: s.rcvr
  txg_eq : s'.txg = s.txg

/-- `join` refuses an address that is already in the table and adds every other one. -/
theorem join_spec {s : Sender} {root : NodeId} (I : s.Inv root) (addr : In6Addr)
    (port : BitVec 16) :
    (s.ht addr ≠ none ∧ s.join addr port = some (s, -1)) ∨
      (s.ht addr = none ∧ ∃ s', s.join addr port = some (s', 0) ∧
        s.Joined s' root ⟨addr, port⟩) := by
  cases ha : s.ht addr with
  | some v =>
      refine Or.inl ⟨by simp, ?_⟩
      have hv : v ≠ none := fun hv => I.tracks.ne_null (hv ▸ ha)
      obtain ⟨n, rfl⟩ := Option.ne_none_iff_exists'.mp hv
      simp [join, I.root_eq, entryForJoin, Judy.ins, ha]
  | none =>
      refine Or.inr ⟨rfl, ?_⟩
      obtain ⟨h', e, W', hpar, hkids, hlvs, htag, -, hA⟩ :=
        Heap.createLeaf_spec I.wf ⟨addr, port⟩ I.root_router
      have hent : s.entryForJoin addr = some (s.ht.ins addr).1 := by
        simp [entryForJoin, Judy.ins, ha]
      have hfresh : s.heap.tag s.heap.next = none := by simp [Heap.tag, I.wf.fresh _ le_rfl]
      have hrn : root ≠ s.heap.next := by
        rintro hr
        obtain ⟨r, hr'⟩ := I.root_router
        simp [hr, I.wf.fresh _ le_rfl] at hr'
      have hold : ∀ x, x ≠ s.heap.next → h'.tag x = s.heap.tag x := fun x hx => by
        rw [htag, Function.update_of_ne hx]
      have hnewL : h'.IsLeaf s.heap.next := Heap.isLeaf_iff_tag.mpr ⟨⟨addr, port⟩, by rw [htag]; simp⟩
      have hRold : ∀ x, h'.IsRouter x → x ≠ s.heap.next := by
        rintro x hx rfl
        exact hnewL.not_isRouter hx
      have hLiff : ∀ l, h'.IsLeaf l ↔ l = s.heap.next ∨ s.heap.IsLeaf l := by
        intro l
        by_cases hl : l = s.heap.next
        · subst hl; simp [hnewL]
        · simp [hl, Heap.isLeaf_congr (hold l hl)]
      refine ⟨{ s with
        heap := h'
        ht := (s.ht.ins addr).1.put addr (some s.heap.next)
        rcvr := s.heap.next :: s.rcvr
        nrcvr := s.nrcvr + 1 }, ?_, ?_, hpar, hkids, hlvs, htag, rfl, rfl⟩
      · simp [join, I.root_eq, hent, e]
      refine ⟨W', hA I.allFree, I.root_eq, ?_, ?_, ?_, ?_, ?_, ?_, ?_, ?_, I.mg_eq⟩
      · exact (Heap.isRouter_congr (hold root hrn)).mpr I.root_router
      · simp [hpar, hrn, I.root_par]
      · refine I.tracks.insert ha (by simp [Heap.sa, hfresh]) ?_
        funext x
        by_cases hx : x = s.heap.next <;> simp [Heap.sa, htag, hx, Tag.sa]
      · intro r hr hp hne
        have hrx := hRold r hr
        have hr' := (Heap.isRouter_congr (hold r hrx)).mp hr
        obtain ⟨h1, h2, h3⟩ := I.orphan r hr' (by simpa [hpar, hrx] using hp) hne
        refine ⟨by rw [hkids]; exact h1, by simpa [hlvs, hne] using h2, ?_⟩
        rw [Heap.hops_congr (hold r hrx)]; exact h3
      · intro l hl
        by_cases hx : l = s.heap.next
        · simp [hpar, hx]
        · simpa [hpar, hx] using I.leaf_par l ((Heap.isLeaf_congr (hold l hx)).mp hl)
      · refine List.nodup_cons.mpr ⟨fun hm => ?_, I.rcvr_nodup⟩
        obtain ⟨a, ht⟩ := Heap.isLeaf_iff_tag.mp ((I.mem_rcvr _).mp hm)
        simp [hfresh] at ht
      · intro l
        rw [hLiff, List.mem_cons, I.mem_rcvr]
      · simp [I.nrcvr_eq]

/-- The group that `init_txg` publishes. -/
def unicastGroup (s : Sender) : TxGroup where
  mdc := []
  nuni := s.rcvr.length
  uni := s.rcvr.map s.heap.member

/-- `init_txg` publishes the receivers, unless there are none, and changes nothing else. -/
theorem initTxg_spec {s : Sender} {root : NodeId} (I : s.Inv root) :
    (s.rcvr = [] ∧ s.initTxg = some (s, -1)) ∨
      (s.rcvr ≠ [] ∧ s.initTxg = some ({ s with txg := some s.unicastGroup }, 0)) := by
  by_cases hr : s.rcvr = []
  · exact Or.inl ⟨hr, by simp [initTxg, hr]⟩
  have hmap : ∀ xs : List NodeId, (∀ x ∈ xs, s.heap.IsLeaf x) →
      (xs.mapM fun x => do some (← s.heap.leaf x).addr) = some (xs.map s.heap.member) := by
    intro xs
    induction xs with
    | nil => exact fun _ => rfl
    | cons x xs ih =>
        intro hx
        obtain ⟨lf, hlf⟩ := hx x (by simp)
        have := ih fun y hy => hx y (by simp [hy])
        simp only [Option.bind_eq_bind] at this
        simp [List.mapM_cons, Heap.leaf_eq_some.mpr hlf, this, Heap.member_of_node hlf]
  refine Or.inr ⟨hr, ?_⟩
  unfold initTxg
  split
  · contradiction
  · rw [hmap s.rcvr fun x hx => (I.mem_rcvr x).mp hx]
    simp [unicastGroup, I.nrcvr_eq]

/-- What is published is no part of the invariant. -/
theorem Inv.publish {s : Sender} {root : NodeId} (I : s.Inv root) (g : Option TxGroup) :
    ({ s with txg := g } : Sender).Inv root :=
  ⟨I.wf, I.allFree, I.root_eq, I.root_router, I.root_par, I.tracks, I.orphan, I.leaf_par,
    I.rcvr_nodup, I.mem_rcvr, I.nrcvr_eq, I.mg_eq⟩

end Sender

end MEADcast
