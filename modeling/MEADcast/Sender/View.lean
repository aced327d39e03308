import MEADcast.Sender.PackSpec
import MEADcast.Sender.Phase

/-!
# The tree under addresses

Which identifier a node has depends on the order of allocations, its address does not.  Under
addresses a router that the hash table remembers without a place in the tree is the same as one
that was never seen, and a response acts as `Topo.Rsp` says on the tree under addresses alone.

## Main definitions

* `Sender.view` — the tree with every node named by its address.
* `Sender.peers` — the addresses of the receivers.
* `Sender.Resting` — all receivers are direct leaves of the root, and nothing else is in the tree.

## Main results

* `Sender.Accepted.view` — an accepted response is one of the tree under addresses.
* `Sender.Phased.resting` — completed phases leave a resting sender.
-/

namespace MEADcast

open ParentMap

theorem map_erase_of_inj {α β : Type*} [DecidableEq α] [DecidableEq β] {f : α → β}
    {l : List α} {a : α} (h : ∀ x ∈ l, f x = f a → x = a) :
    (l.erase a).map f = (l.map f).erase (f a) := by
  induction l with
  | nil => rfl
  | cons x l ih =>
      have ih' := ih fun y hy => h y (by simp [hy])
      by_cases hx : x = a
      · simp [hx]
      · have hf : f x ≠ f a := fun e => hx (h x (by simp) e)
        rw [List.erase_cons_tail (by simpa using hx), List.map_cons, List.map_cons,
          List.erase_cons_tail (by simpa using hf), ih']

namespace Sender

/-- The tree under addresses.  An unknown address stands for the node that the next allocation
returns, where nothing is yet. -/
def view (s : Sender) : Topo In6Addr where
  par a := (s.heap.par (s.routerId a)).map s.heap.addr
  hops a := s.heap.hops (s.routerId a)
  kids a := (s.heap.kids (s.routerId a)).map s.heap.addr
  lvs a := (s.heap.lvs (s.routerId a)).map s.heap.addr

/-- The addresses of the receivers, the last one that joined first. -/
def peers (s : Sender) : List In6Addr := s.rcvr.map s.heap.addr

section View

variable {s s' : Sender} {root l n p x y : NodeId} {a rsa paddr : In6Addr} {b : ℕ}

theorem addr_of_sa (h : s.heap.sa x = some a) : s.heap.addr x = a := by
  simp [Heap.addr, h]

theorem sa_of_node (h : s.heap.node x ≠ none) : s.heap.sa x = some (s.heap.addr x) := by
  obtain ⟨a, ha⟩ := Option.ne_none_iff_exists'.mp (mt Heap.sa_eq_none.mp h)
  rw [ha, addr_of_sa ha]

theorem Inv.routerId_of_sa (I : s.Inv root) (h : s.heap.sa x = some a) : s.routerId a = x := by
  simp [routerId, I.tracks.get h]

/-- An address belongs to a live node or is unknown. -/
theorem Inv.sa_or_unknown (I : s.Inv root) (a : In6Addr) :
    (∃ x, s.heap.sa x = some a) ∨ s.ht a = none := by
  cases hv : s.ht a with
  | none => exact Or.inr rfl
  | some v =>
      obtain ⟨x, -, hx⟩ := (I.tracks a v).mp hv
      exact Or.inl ⟨x, hx⟩

/-- Different live nodes have different addresses. -/
theorem Inv.addr_inj (I : s.Inv root) (hx : s.heap.node x ≠ none) (hy : s.heap.node y ≠ none)
    (h : s.heap.addr x = s.heap.addr y) : x = y :=
  I.tracks.inj (sa_of_node hx) (h ▸ sa_of_node hy)

theorem Inv.routerId_addr (I : s.Inv root) (hx : s.heap.node x ≠ none) :
    s.routerId (s.heap.addr x) = x :=
  I.routerId_of_sa (sa_of_node hx)

theorem Inv.view_par (I : s.Inv root) (hx : s.heap.node x ≠ none) :
    s.view.par (s.heap.addr x) = (s.heap.par x).map s.heap.addr := by
  simp only [view, I.routerId_addr hx]

theorem Inv.view_hops (I : s.Inv root) (hx : s.heap.node x ≠ none) :
    s.view.hops (s.heap.addr x) = s.heap.hops x := by
  simp only [view, I.routerId_addr hx]

/-- The addresses for which, and from which, a response is accepted. -/
theorem Inv.exists_admits_iff (I : s.Inv root) :
    (∃ l, s.Admits rsa paddr l) ↔ paddr ∈ s.peers ∧ rsa ∉ s.peers := by
  have hsa : ∀ {l}, s.heap.IsLeaf l → s.heap.sa l = some (s.heap.addr l) := fun ⟨lf, hlf⟩ =>
    sa_of_node (by simp [hlf])
  constructor
  · rintro ⟨l, ha⟩
    refine ⟨List.mem_map.mpr ⟨l, (I.mem_rcvr l).mpr ha.isLeaf, addr_of_sa ha.peer⟩, fun hm => ?_⟩
    obtain ⟨m, hr, rfl⟩ := List.mem_map.mp hm
    have hL := (I.mem_rcvr m).mp hr
    exact hL.not_isRouter (ha.router m (hsa hL))
  · rintro ⟨hm, hr⟩
    obtain ⟨l, hl, rfl⟩ := List.mem_map.mp hm
    have hL := (I.mem_rcvr l).mp hl
    refine ⟨l, hL, hsa hL, fun x hx => ?_⟩
    cases hn : s.heap.node x with
    | none => simp [Heap.sa_eq_none.mpr hn] at hx
    | some nd =>
        rcases Heap.isRouter_or_isLeaf hn with h | h
        · exact h
        · exact absurd (List.mem_map.mpr ⟨x, (I.mem_rcvr x).mpr h, addr_of_sa hx⟩) hr

/-- At an unknown address there is nothing. -/
theorem Inv.view_unknown (I : s.Inv root) (ha : s.ht a = none) :
    s.view.par a = none ∧ s.view.hops a = 0 ∧ s.view.kids a = [] ∧ s.view.lvs a = [] := by
  have hid : s.routerId a = s.heap.next := by simp [routerId, ha]
  have hn := I.wf.fresh _ le_rfl
  simp [view, hid, Heap.par, Heap.hops, Heap.tag, Heap.kids, Heap.lvs, hn]

/-- Child and leaf lists agree with the parents. -/
theorem Inv.view_listed (I : s.Inv root) : s.view.Listed (· ∈ s.peers) := by
  have W := I.wf
  have hk : ∀ {x c}, c ∈ s.heap.kids x → s.heap.node c ≠ none := fun hc => by
    obtain ⟨rt, hrt⟩ := ((W.mem_kids _ _).mp hc).1
    simp [hrt]
  have hv : ∀ {x c}, c ∈ s.heap.lvs x → s.heap.node c ≠ none := fun hc => by
    obtain ⟨lf, hlf⟩ := ((W.mem_lvs _ _).mp hc).1
    simp [hlf]
  have hpeer : ∀ {c}, s.heap.node c ≠ none → (s.heap.addr c ∈ s.peers ↔ s.heap.IsLeaf c) := by
    intro c hc
    constructor
    · intro hm
      obtain ⟨l, hl, he⟩ := List.mem_map.mp hm
      have hL := (I.mem_rcvr l).mp hl
      obtain ⟨lf, hlf⟩ := hL
      exact I.addr_inj (by simp [hlf]) hc he ▸ ⟨lf, hlf⟩
    · exact fun hl => List.mem_map_of_mem ((I.mem_rcvr c).mpr hl)
  -- an address below another is that of a live node
  have hpar : ∀ {a b}, s.view.par a = some b → ∃ c, s.heap.node c ≠ none ∧ s.heap.addr c = a ∧
      s.heap.par c = some (s.routerId b) := by
    intro a b h
    rcases I.sa_or_unknown a with ⟨c, hc⟩ | hu
    · have hcn : s.heap.node c ≠ none := by
        rw [ne_eq, ← Heap.sa_eq_none, hc]
        simp
      rw [← addr_of_sa hc, I.view_par hcn] at h
      obtain ⟨q, hq, rfl⟩ := Option.map_eq_some_iff.mp h
      obtain ⟨rt, hrt⟩ := W.par_router c q hq
      exact ⟨c, hcn, addr_of_sa hc, by rw [I.routerId_addr (by simp [hrt]), hq]⟩
    · rw [(I.view_unknown hu).1] at h
      simp at h
  have hback : ∀ {a c}, s.heap.node c ≠ none → s.heap.par c = some (s.routerId a) →
      s.view.par (s.heap.addr c) = some a := by
    intro a c hc hp
    rw [I.view_par hc, hp, Option.map_some]
    rcases I.sa_or_unknown a with ⟨x, hx⟩ | hu
    · rw [I.routerId_of_sa hx, addr_of_sa hx]
    · obtain ⟨rt, hrt⟩ := W.par_router _ _ hp
      have hid : s.routerId a = s.heap.next := by simp [routerId, hu]
      simp [hid, W.fresh _ le_rfl] at hrt
  constructor
  · exact fun a => (W.kids_nodup _).map_on fun x hx y hy h => I.addr_inj (hk hx) (hk hy) h
  · exact fun a => (W.lvs_nodup _).map_on fun x hx y hy h => I.addr_inj (hv hx) (hv hy) h
  · intro a b
    constructor
    · intro hm
      obtain ⟨c, hc, rfl⟩ := List.mem_map.mp hm
      obtain ⟨hR, hp⟩ := (W.mem_kids _ c).mp hc
      exact ⟨fun h => ((hpeer (hk hc)).mp h).not_isRouter hR, hback (hk hc) hp⟩
    · rintro ⟨hno, h⟩
      obtain ⟨c, hc, rfl, hp⟩ := hpar h
      refine List.mem_map_of_mem ((W.mem_kids _ c).mpr ⟨?_, hp⟩)
      obtain ⟨nd, hnd⟩ := Option.ne_none_iff_exists'.mp hc
      exact (Heap.isRouter_or_isLeaf hnd).resolve_right fun hl => hno ((hpeer hc).mpr hl)
  · intro a b
    constructor
    · intro hm
      obtain ⟨c, hc, rfl⟩ := List.mem_map.mp hm
      obtain ⟨hL, hp⟩ := (W.mem_lvs _ c).mp hc
      exact ⟨(hpeer (hv hc)).mpr hL, hback (hv hc) hp⟩
    · rintro ⟨hm, h⟩
      obtain ⟨c, hc, rfl, hp⟩ := hpar h
      exact List.mem_map_of_mem ((W.mem_lvs _ c).mpr ⟨(hpeer hc).mp hm, hp⟩)

/-! ## A response under addresses -/

section Response

variable (I : s.Inv root) (ha : s.Admits rsa paddr l) (A : s.Accepted s' root rsa b l n p)

include A in
theorem Accepted.sa_routerId : s'.heap.sa (s.routerId rsa) = some rsa := by
  simp [Heap.sa, A.placed.tag_eq, Tag.sa]

include I in
/-- Before the response, no other live node has the address of the router. -/
theorem Inv.addr_ne (hx : s.heap.node x ≠ none) (hxr : x ≠ s.routerId rsa) :
    s.heap.addr x ≠ rsa := by
  intro h
  exact hxr (h ▸ (I.routerId_addr hx).symm)

include I A in
/-- The response changes no address of a live node. -/
theorem Accepted.addr_eq (hx : s.heap.node x ≠ none) : s'.heap.addr x = s.heap.addr x := by
  by_cases hxr : x = s.routerId rsa
  · subst hxr
    rw [addr_of_sa A.sa_routerId]
    rcases I.sa_or_unknown rsa with ⟨y, hy⟩ | hv
    · rw [I.routerId_of_sa hy, addr_of_sa hy]
    · refine absurd (I.wf.fresh _ le_rfl) ?_
      simpa [routerId, hv] using hx
  · simp [Heap.addr, Heap.sa, A.placed.tag_of_ne hxr]

include I ha in
/-- The position search under addresses. -/
theorem Admits.climb_view
    (c : Climb s.heap.par (Function.update s.heap.hops (s.routerId rsa) b) b l n p) :
    Climb s.view.par (Function.update s.view.hops rsa b) b paddr (s.heap.addr n)
      (s.heap.addr p) := by
  have hkey : ∀ q, s.heap.node q ≠ none →
      Function.update s.view.hops rsa b (s.heap.addr q) =
        Function.update s.heap.hops (s.routerId rsa) b q := by
    intro q hq
    by_cases hqr : q = s.routerId rsa
    · have hra : s.heap.addr q = rsa := by
        rcases I.sa_or_unknown rsa with ⟨y, hy⟩ | hv
        · rw [hqr, I.routerId_of_sa hy, addr_of_sa hy]
        · exact absurd (I.wf.fresh _ le_rfl) (by simpa [hqr, routerId, hv] using hq)
      rw [hra, hqr, Function.update_self, Function.update_self]
    · rw [Function.update_of_ne (I.addr_ne hq hqr), Function.update_of_ne hqr,
        I.view_hops hq]
  have hlive : ∀ {x q}, s.heap.par x = some q → s.heap.node x ≠ none ∧ s.heap.node q ≠ none := by
    intro x q hx
    obtain ⟨nd, hnd⟩ := Heap.node_of_par hx
    obtain ⟨r, hr⟩ := I.wf.par_router x q hx
    simp [hnd, hr]
  have hstep : ∀ {x q}, s.heap.par x = some q →
      s.view.par (s.heap.addr x) = some (s.heap.addr q) := by
    intro x q hx
    rw [I.view_par (hlive hx).1, hx, Option.map_some]
  rw [← addr_of_sa ha.peer]
  clear ha
  induction c with
  | here hp hb => exact .here (hstep hp) (by rwa [hkey _ (hlive hp).2])
  | up hq hb _ ih => exact .up (hstep hq) (by rwa [hkey _ (hlive hq).2]) ih

include A in
theorem Accepted.live (hx : s.heap.node x ≠ none) : s'.heap.node x ≠ none := by
  rw [Heap.node_ne_none_iff] at hx ⊢
  by_cases hxr : x = s.routerId rsa
  · simp [hxr, A.placed.tag_eq]
  · rwa [A.placed.tag_of_ne hxr]

include I A in
/-- A node that is live afterwards has the same identifier under its address before. -/
theorem Accepted.routerId_of_sa (hx : s'.heap.sa x = some a) : s.routerId a = x := by
  by_cases hxr : x = s.routerId rsa
  · rw [hxr, A.sa_routerId] at hx
    rw [hxr, Option.some.inj hx]
  · rw [Heap.sa, A.placed.tag_of_ne hxr] at hx
    exact I.routerId_of_sa hx

include I A in
/-- An address is that of a live node exactly if the node is that one. -/
theorem Accepted.eq_addr_iff (hx : s'.heap.sa x = some a) (hy : s.heap.node y ≠ none) :
    a = s.heap.addr y ↔ x = y := by
  have hsa := sa_of_node (A.live hy)
  rw [A.addr_eq I hy] at hsa
  constructor
  · rintro rfl
    exact A.inv.tracks.inj hx hsa
  · rintro rfl
    exact Option.some.inj (hx.symm.trans hsa)

include A in
theorem Accepted.eq_rsa_iff (hx : s'.heap.sa x = some a) : a = rsa ↔ x = s.routerId rsa := by
  constructor
  · rintro rfl
    exact A.inv.tracks.inj hx A.sa_routerId
  · rintro rfl
    exact Option.some.inj (hx.symm.trans A.sa_routerId)

include I A in
/-- The two nodes at the position that was found. -/
theorem Accepted.live_pos : s.heap.node n ≠ none ∧ s.heap.node p ≠ none := by
  have hnp := A.climb.par_eq
  obtain ⟨nd, hnd⟩ := Heap.node_of_par hnp
  obtain ⟨r, hr⟩ := I.wf.par_router n p hnp
  simp [hnd, hr]

include I A in
/-- Parents under addresses after the response. -/
theorem Accepted.par_view (hx : s'.heap.sa x = some a) : (s'.heap.par x).map s'.heap.addr =
    ParentMap.placed s.view.par rsa (s.heap.addr n) (s.heap.addr p) a := by
  obtain ⟨hn, hp⟩ := A.live_pos I
  have hrsa := addr_of_sa A.sa_routerId
  rw [A.placed.par_eq, ParentMap.placed, ParentMap.placed]
  by_cases hxn : x = n
  · rw [hxn, (A.eq_addr_iff I hx hn).mpr hxn, Function.update_self, Function.update_self,
      Option.map_some, hrsa]
  rw [Function.update_of_ne hxn, Function.update_of_ne (mt (A.eq_addr_iff I hx hn).mp hxn)]
  by_cases hxr : x = s.routerId rsa
  · rw [hxr, (A.eq_rsa_iff hx).mpr hxr, Function.update_self, Function.update_self,
      Option.map_some]
    change _ = some (((s.heap.par (s.routerId rsa)).map s.heap.addr).getD (s.heap.addr p))
    cases hq : s.heap.par (s.routerId rsa) with
    | none => simp [A.addr_eq I hp]
    | some q =>
        obtain ⟨rt, hrt⟩ := I.wf.par_router _ _ hq
        simp [A.addr_eq I (show s.heap.node q ≠ none by simp [hrt])]
  · rw [Function.update_of_ne hxr, Function.update_of_ne (mt (A.eq_rsa_iff hx).mp hxr)]
    change _ = (s.heap.par (s.routerId a)).map s.heap.addr
    rw [A.routerId_of_sa I hx]
    refine Option.map_congr fun q hq => A.addr_eq I ?_
    obtain ⟨rt, hrt⟩ := I.wf.par_router x q hq
    simp [hrt]

include I ha A in
/-- Children and leaves under addresses after the response. -/
theorem Accepted.cells_view (hx : s'.heap.sa x = some a) :
    (s'.heap.kids x).map s'.heap.addr =
        (s.view.place paddr b rsa (s.heap.addr n) (s.heap.addr p)).kids a ∧
      (s'.heap.lvs x).map s'.heap.addr =
        (s.view.place paddr b rsa (s.heap.addr n) (s.heap.addr p)).lvs a := by
  obtain ⟨hn, hp⟩ := A.live_pos I
  have hrsa := addr_of_sa A.sa_routerId
  have hl : s.heap.node l ≠ none := by
    obtain ⟨lf, hlf⟩ := ha.isLeaf
    simp [hlf]
  have hnl : s.heap.addr n = paddr ↔ n = l := by
    rw [← addr_of_sa ha.peer]
    exact ⟨fun h => I.addr_inj hn hl h, fun h => h ▸ rfl⟩
  -- cells of live nodes name live nodes
  have hmap : ∀ ls : List NodeId, (∀ y ∈ ls, s.heap.node y ≠ none) →
      ls.map s'.heap.addr = ls.map s.heap.addr := fun ls hls =>
    List.map_congr_left fun y hy => A.addr_eq I (hls y hy)
  have herase : ∀ ls : List NodeId, (∀ y ∈ ls, s'.heap.node y ≠ none) →
      (ls.erase n).map s'.heap.addr = (ls.map s'.heap.addr).erase (s.heap.addr n) := by
    intro ls hls
    rw [← A.addr_eq I hn]
    exact map_erase_of_inj fun y hy h => A.inv.addr_inj (hls y hy) (A.live hn) h
  have hk : ∀ y ∈ s.heap.kids x, s.heap.node y ≠ none := fun y hy => by
    obtain ⟨rt, hrt⟩ := ((I.wf.mem_kids x y).mp hy).1
    simp [hrt]
  have hv : ∀ y ∈ s.heap.lvs x, s.heap.node y ≠ none := fun y hy => by
    obtain ⟨lf, hlf⟩ := ((I.wf.mem_lvs x y).mp hy).1
    simp [hlf]
  have hr' : s'.heap.node (s.routerId rsa) ≠ none := by
    obtain ⟨rt, hrt⟩ := A.placed.isRouter
    simp [hrt]
  constructor
  · rw [A.placed.kids_eq]
    simp only [Topo.place, Heap.topo, List.map_append]
    rw [herase, List.map_append, hmap _ hk]
    · simp only [A.eq_rsa_iff hx, A.eq_addr_iff I hx hp, ne_eq, hnl, view,
        A.routerId_of_sa I hx, Option.map_eq_none_iff]
      congr 1
      · split <;> simp [A.addr_eq I hn]
      · congr 2
        by_cases hc : x = p ∧ s.heap.par (s.routerId rsa) = none <;> simp [hc, hrsa]
    · intro y hy
      rcases List.mem_append.mp hy with hy | hy
      · obtain ⟨-, rfl⟩ := List.mem_ite_nil_right.mp hy |>.imp_right List.mem_singleton.mp
        exact hr'
      · exact A.live (hk y hy)
  · rw [A.placed.lvs_eq]
    simp only [Topo.place, Heap.topo, List.map_append]
    rw [herase _ fun y hy => A.live (hv y hy), hmap _ hv]
    simp only [A.eq_rsa_iff hx, hnl, view, A.routerId_of_sa I hx]
    congr 1
    split <;> simp [A.addr_eq I hn]

include I ha A in
/-- An accepted response is one of the tree under addresses. -/
theorem Accepted.view_rsp : s.view.Rsp rsa paddr b s'.view := by
  refine ⟨s.heap.addr n, s.heap.addr p, Admits.climb_view I ha A.climb, ?_⟩
  obtain ⟨hn, hp⟩ := A.live_pos I
  have hcase : ∀ a, (∃ x, s'.heap.sa x = some a ∧ s'.routerId a = x ∧ s.routerId a = x) ∨
      (s'.ht a = none ∧ s.ht a = none ∧ a ≠ rsa ∧ a ≠ s.heap.addr n ∧ a ≠ s.heap.addr p) := by
    intro a
    rcases A.inv.sa_or_unknown a with ⟨x, hx⟩ | hv
    · exact Or.inl ⟨x, hx, A.inv.routerId_of_sa hx, A.routerId_of_sa I hx⟩
    · have hno := A.inv.tracks.ne_of_none hv
      have hold : ∀ y, s.heap.node y ≠ none → a ≠ s.heap.addr y := by
        rintro y hy rfl
        refine hno y ?_
        rw [sa_of_node (A.live hy), A.addr_eq I hy]
      refine Or.inr ⟨hv, ?_, ?_, hold n hn, hold p hp⟩
      · refine (I.sa_or_unknown a).resolve_left ?_
        rintro ⟨y, hy⟩
        refine hold y (fun h => ?_) (addr_of_sa hy).symm
        rw [Heap.sa_eq_none.mpr h] at hy
        simp at hy
      · rintro rfl
        exact hno _ A.sa_routerId
  ext1
  · funext a
    rcases hcase a with ⟨x, hx, hid, -⟩ | ⟨h', h, har, han, hap⟩
    · change (s'.heap.par (s'.routerId a)).map s'.heap.addr = _
      rw [hid, A.par_view I hx]
      rfl
    · rw [(A.inv.view_unknown h').1]
      simp [Topo.place, ParentMap.placed, har, han, (I.view_unknown h).1]
  · funext a
    rcases hcase a with ⟨x, hx, hid, hid'⟩ | ⟨h', h, har, han, hap⟩
    · change s'.heap.hops (s'.routerId a) = Function.update s.view.hops rsa b a
      rw [hid, A.placed.hops_eq]
      by_cases hxr : x = s.routerId rsa
      · rw [hxr, (A.eq_rsa_iff hx).mpr hxr, Function.update_self, Function.update_self]
      · rw [Function.update_of_ne hxr, Function.update_of_ne (mt (A.eq_rsa_iff hx).mp hxr)]
        exact congrArg _ hid'.symm
    · rw [(A.inv.view_unknown h').2.1]
      simp [Topo.place, har, (I.view_unknown h).2.1]
  · funext a
    rcases hcase a with ⟨x, hx, hid, -⟩ | ⟨h', h, har, han, hap⟩
    · change (s'.heap.kids (s'.routerId a)).map s'.heap.addr = _
      rw [hid, (A.cells_view I ha hx).1]
    · rw [(A.inv.view_unknown h').2.2.1]
      simp [Topo.place, har, hap, (I.view_unknown h).2.2.1]
  · funext a
    rcases hcase a with ⟨x, hx, hid, -⟩ | ⟨h', h, har, han, hap⟩
    · change (s'.heap.lvs (s'.routerId a)).map s'.heap.addr = _
      rw [hid, (A.cells_view I ha hx).2]
    · rw [(A.inv.view_unknown h').2.2.2]
      simp [Topo.place, har, (I.view_unknown h).2.2.2]

include I A in
theorem Accepted.peers_eq : s'.peers = s.peers := by
  rw [peers, peers, A.rcvr_eq]
  refine List.map_congr_left fun m hm => A.addr_eq I ?_
  obtain ⟨lf, hlf⟩ := (I.mem_rcvr m).mp hm
  simp [hlf]

end Response

/-- One response in a phase: it is rejected and changes nothing, or it is accepted. -/
theorem Phased.rsp_cases {args : Args} {addr : In6Addr} {seen : In6Addr → Option ℕ}
    (G : s.Phased root addr seen) (hne : rsa ≠ addr) {ret : Int}
    (hc : Completes args s (.rsp rsa paddr b) s' ret) :
    (s' = s ∧ ¬ (paddr ∈ s.peers ∧ rsa ∉ s.peers)) ∨
      ((paddr ∈ s.peers ∧ rsa ∉ s.peers) ∧
        ∃ l n p, s.Admits rsa paddr l ∧ s.Accepted s' root rsa b l n p) := by
  obtain ⟨fuel, e⟩ := hc
  have hsa : s.heap.sa root ≠ some rsa := fun h =>
    hne (Option.some.inj (h.symm.trans G.root_sa))
  rcases updateTopo_cases G.inv hsa e with ⟨rfl, -, hno⟩ | ⟨-, l, n, p, ha, A⟩
  · refine Or.inl ⟨rfl, fun h => ?_⟩
    obtain ⟨l, ha⟩ := G.inv.exists_admits_iff.mpr h
    exact hno l ha
  · exact Or.inr ⟨G.inv.exists_admits_iff.mp ⟨l, ha⟩, l, n, p, ha, A⟩

/-! ## Between phases -/

/-- All receivers are direct leaves of the root, and no router is in the tree. -/
structure Resting (s : Sender) (root : NodeId) (addr : In6Addr) : Prop where
  inv : s.Inv root
  root_sa : s.heap.sa root = some addr
  root_hops : s.heap.hops root = 0
  par_eq : ∀ x q, s.heap.par x = some q → q = root ∧ s.heap.IsLeaf x

namespace Resting

variable {addr : In6Addr} (Z : s.Resting root addr)

include Z

theorem planted : s.Planted root addr := by
  refine ⟨Z.inv, fun x q hq => ?_, Z.root_sa, Z.root_hops⟩
  obtain ⟨rfl, -⟩ := Z.par_eq x q hq
  exact Up.head hq (Up.refl _ _)

theorem phased : s.Phased root addr fun _ => none :=
  ⟨Z.planted, fun x _ q hx hq _ => absurd hx (Z.par_eq x q hq).2.not_isRouter,
    fun x q hx hq => absurd hx (Z.par_eq x q hq).2.not_isRouter⟩

theorem kids (x : NodeId) : s.heap.kids x = [] := by
  refine List.eq_nil_iff_forall_not_mem.mpr fun c hc => ?_
  obtain ⟨hr, hp⟩ := (Z.inv.wf.mem_kids x c).mp hc
  exact (Z.par_eq c x hp).2.not_isRouter hr

theorem lvs_of_ne (hx : x ≠ root) : s.heap.lvs x = [] := by
  refine List.eq_nil_iff_forall_not_mem.mpr fun c hc => ?_
  exact hx (Z.par_eq c x ((Z.inv.wf.mem_lvs x c).mp hc).2).1

theorem mem_lvs (l : NodeId) : l ∈ s.heap.lvs root ↔ l ∈ s.rcvr := by
  rw [Z.inv.wf.mem_lvs, Z.inv.mem_rcvr]
  refine and_iff_left_of_imp fun hl => ?_
  obtain ⟨q, hq⟩ := Option.ne_none_iff_exists'.mp (Z.inv.leaf_par l hl)
  rw [hq, (Z.par_eq l q hq).1]

theorem lvs_perm : (s.heap.lvs root).Perm s.rcvr :=
  (List.perm_ext_iff_of_nodup (Z.inv.wf.lvs_nodup root) Z.inv.rcvr_nodup).mpr Z.mem_lvs

theorem hops (x : NodeId) : s.heap.hops x = 0 := by
  by_cases hR : s.heap.IsRouter x
  · by_cases hx : x = root
    · rw [hx, Z.root_hops]
    · refine (Z.inv.orphan x hR ?_ hx).2.2
      by_contra hp
      obtain ⟨q, hq⟩ := Option.ne_none_iff_exists'.mp hp
      exact (Z.par_eq x q hq).2.not_isRouter hR
  · cases ht : s.heap.tag x with
    | none => simp [Heap.hops, ht]
    | some t =>
        cases t with
        | leaf _ => simp [Heap.hops, ht]
        | router a k => exact absurd (Heap.isRouter_iff_tag.mpr ⟨a, k, ht⟩) hR

/-- Under addresses, the parents are the root for receivers, and there are no others. -/
theorem view_par (a q : In6Addr) :
    s.view.par a = some q ↔ q = addr ∧ a ∈ s.peers := by
  have I := Z.inv
  have hra := addr_of_sa Z.root_sa
  constructor
  · intro h
    obtain ⟨y, hy, rfl⟩ := Option.map_eq_some_iff.mp h
    obtain ⟨rfl, hl⟩ := Z.par_eq _ y hy
    refine ⟨hra, List.mem_map.mpr ⟨_, (I.mem_rcvr _).mpr hl, ?_⟩⟩
    rcases I.sa_or_unknown a with ⟨x, hx⟩ | hv
    · rw [I.routerId_of_sa hx, addr_of_sa hx]
    · rw [(I.view_unknown hv).1] at h
      simp at h
  · rintro ⟨rfl, hm⟩
    obtain ⟨l, hl, rfl⟩ := List.mem_map.mp hm
    have hle := (I.mem_rcvr l).mp hl
    obtain ⟨lf, hlf⟩ := hle
    obtain ⟨y, hy⟩ := Option.ne_none_iff_exists'.mp (I.leaf_par l ⟨lf, hlf⟩)
    rw [I.view_par (by simp [hlf]), hy, (Z.par_eq l y hy).1, Option.map_some, hra]

end Resting

/-- Two resting senders with the same root and receivers look alike. -/
theorem Resting.alike {t t' : Sender} {addr : In6Addr} {root' : NodeId} (Z : t.Resting root addr)
    (Z' : t'.Resting root' addr)
    (h : t.peers.Perm t'.peers) :
    t.view.Alike t'.view addr := by
  have hid : t.routerId addr = root := Z.inv.routerId_of_sa Z.root_sa
  have hid' : t'.routerId addr = root' := Z'.inv.routerId_of_sa Z'.root_sa
  have hlv : ∀ {u : Sender} {r : NodeId}, u.Resting r addr → ∀ a, a ≠ addr →
      u.view.lvs a = [] := by
    intro u r Y a ha
    rcases Y.inv.sa_or_unknown a with ⟨x, hx⟩ | hv
    · refine List.map_eq_nil_iff.mpr (Y.lvs_of_ne fun hr => ?_)
      rw [Y.inv.routerId_of_sa hx] at hr
      exact ha (Option.some.inj (hx.symm.trans (hr ▸ Y.root_sa)))
    · exact (Y.inv.view_unknown hv).2.2.2
  constructor
  · funext a
    refine Option.ext fun q => ?_
    rw [Z.view_par, Z'.view_par, h.mem_iff]
  · funext a
    exact (Z.hops _).trans (Z'.hops _).symm
  · funext a
    change (t.heap.kids _).map _ = (t'.heap.kids _).map _
    rw [Z.kids, Z'.kids]
    rfl
  · intro a ha
    rw [hlv Z a ha, hlv Z' a ha]
  · change ((t.heap.lvs (t.routerId addr)).map _).Perm ((t'.heap.lvs (t'.routerId addr)).map _)
    rw [hid, hid']
    exact (Z.lvs_perm.map _).trans (h.trans (Z'.lvs_perm.map _).symm)

section Phases

variable {args : Args} {addr : In6Addr} {seen : In6Addr → Option ℕ}

/-- A timeout leaves a resting sender. -/
theorem Phased.resting_tout (G : s.Phased root addr seen) {F : Forest NodeId NodeId}
    {gs : List (List (Seg NodeId NodeId))} (hF : s.heap.Below root F)
    (T : TimedOut args s s' root F gs) : s'.Resting root addr := by
  have G' := G.tout hF T
  exact ⟨G'.inv, G'.root_sa, G'.root_hops, fun x q hq => T.par_eq G.inv G.rooted hF hq⟩

theorem Resting.joined (Z : s.Resting root addr) {m : Addr} (J : s.Joined s' root m) :
    s'.Resting root addr := by
  have P := Z.planted.joined J
  refine ⟨P.inv, P.root_sa, P.root_hops, fun x q hq => ?_⟩
  rw [J.par_eq] at hq
  by_cases hx : x = s.heap.next
  · subst hx
    rw [Function.update_self] at hq
    exact ⟨(Option.some.inj hq).symm, Heap.isLeaf_iff_tag.mpr ⟨m, by rw [J.tag_eq]; simp⟩⟩
  · rw [Function.update_of_ne hx] at hq
    obtain ⟨hqr, hl⟩ := Z.par_eq x q hq
    exact ⟨hqr, (Heap.isLeaf_congr (by rw [J.tag_eq, Function.update_of_ne hx])).mpr hl⟩

theorem resting_init {s₁ : Sender} (hinit : Sender.initial.initGroup addr = some (s₁, 0)) :
    s₁.Resting 0 addr := by
  obtain ⟨s₀, h₀, I, hsa, hh, -, htag⟩ := initGroup_initial addr
  obtain rfl : s₀ = s₁ := by simpa [h₀] using hinit
  refine ⟨I, hsa, hh, fun x q hx => ?_⟩
  obtain ⟨nd, hnd⟩ := Heap.node_of_par hx
  rw [htag x (by simp [Heap.tag_of_node hnd]), I.root_par] at hx
  simp at hx

end Phases

end View

end Sender

/-- Every response is followed by a timeout, so that all phases are over. -/
def PhasesOver : List Op → Prop
  | [] => True
  | .rsp _ _ _ :: ops => .tout ∈ ops ∧ PhasesOver ops
  | _ :: ops => PhasesOver ops

namespace Sender

variable {args : Args} {s s' : Sender} {root : NodeId} {addr : In6Addr}
  {seen : In6Addr → Option ℕ}

/-- Completed phases leave a resting sender. -/
theorem Phased.resting {ops : List Op} (G : s.Phased root addr seen) (hrun : Run args s ops s')
    (hops : ∀ op ∈ ops, op.NotFrom addr) (hst : Steady seen ops) (hover : PhasesOver ops)
    (h : s.Resting root addr ∨ .tout ∈ ops) : s'.Resting root addr := by
  induction hrun generalizing seen with
  | nil => simpa using h
  | @cons s s₁ t op ops ret hc _ ih =>
      have hop := hops op (by simp)
      have G₁ := G.step (fun rsa paddr b e => by
        subst e
        exact ⟨hst.2.1, fun he => absurd he hop.1⟩) hc
      have ih := ih G₁ fun o ho => hops o (by simp [ho])
      cases op with
      | join a port =>
          refine ih hst hover (h.imp (fun Z => ?_) fun hm => by simpa using hm)
          obtain ⟨fuel, e⟩ := hc
          rcases join_spec Z.inv a port with ⟨-, h⟩ | ⟨-, s₂, h, J⟩
          · obtain ⟨rfl, -⟩ : s = s₁ ∧ -1 = ret := by simpa [MEADcast.step, h] using e
            exact Z
          · obtain ⟨rfl, -⟩ : s₂ = s₁ ∧ 0 = ret := by simpa [MEADcast.step, h] using e
            exact Z.joined J
      | initTxg =>
          refine ih hst hover (h.imp (fun Z => ?_) fun hm => by simpa using hm)
          obtain ⟨fuel, e⟩ := hc
          rcases initTxg_spec Z.inv with ⟨-, h⟩ | ⟨-, h⟩
          · obtain ⟨rfl, -⟩ : s = s₁ ∧ -1 = ret := by simpa [MEADcast.step, h] using e
            exact Z
          · obtain ⟨rfl, -⟩ : _ = s₁ ∧ 0 = ret := by simpa [MEADcast.step, h] using e
            exact ⟨Z.inv.publish _, Z.root_sa, Z.root_hops, Z.par_eq⟩
      | rsp rsa paddr b => exact ih hst.2.2 hover.2 (Or.inr hover.1)
      | tout =>
          obtain ⟨-, F, gs, hF, T⟩ := G.inv.tout hc
          exact ih hst hover (Or.inl (G.resting_tout hF T))

end Sender

end MEADcast
