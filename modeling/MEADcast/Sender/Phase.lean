import MEADcast.Sender.TreeInvariant
import MEADcast.Sender.Consistency

/-!
# Phases with constant hop counts

Between two timeouts an honest router always reports the same hop count.  Then hop counts
never decrease away from the root, no response makes a cycle, and every operation is
processed to its end.

## Main definitions

* `Steady` — in each phase every address reports one hop count.
* `Sender.Phased` — the invariant of such runs.

## Main results

* `Sender.Phased.step` — the invariant is kept.
-/

namespace MEADcast

open ParentMap

/-- Between two timeouts every address reports one hop count, at least `1`; `seen` gives
what the addresses reported so far in the phase in which the operations start. -/
def Steady (seen : In6Addr → Option ℕ) : List Op → Prop
  | [] => True
  | .rsp rsa _ b :: ops =>
    1 ≤ b ∧ (∀ b', seen rsa = some b' → b' = b) ∧ Steady (Function.update seen rsa (some b)) ops
  | .tout :: ops => Steady (fun _ => none) ops
  | _ :: ops => Steady seen ops

namespace Sender

/-- The state of a phase: a tree in which the routers have the hop counts they reported
and no router has fewer hops than its parent. -/
structure Phased (s : Sender) (root : NodeId) (addr : In6Addr) (seen : In6Addr → Option ℕ) :
    Prop extends s.Planted root addr where
  heard : ∀ x a p, s.heap.IsRouter x → s.heap.par x = some p → s.heap.sa x = some a →
    seen a = some (s.heap.hops x)
  ordered : ∀ x p, s.heap.IsRouter x → s.heap.par x = some p → s.heap.hops p ≤ s.heap.hops x

section Phased

variable {args : Args} {s s' : Sender} {root l n p : NodeId} {addr rsa paddr : In6Addr} {b : ℕ}
  {seen : In6Addr → Option ℕ}

/-- Hop counts do not increase towards the root. -/
theorem Phased.hops_le_of_up (G : s.Phased root addr seen) {x y : NodeId}
    (hx : s.heap.IsRouter x) (h : Up s.heap.par x y) : s.heap.hops y ≤ s.heap.hops x := by
  induction h using Relation.ReflTransGen.head_induction_on with
  | refl => exact le_rfl
  | @head a c hac _ ih => exact (ih (G.inv.wf.par_router a c hac)).trans (G.ordered a c hx hac)

/-- The hop count of a known router in the tree does not change. -/
theorem Phased.hops_eq (G : s.Phased root addr seen) (ha : s.Admits rsa paddr l)
    (hb : ∀ b', seen rsa = some b' → b' = b) {q : NodeId}
    (hq : s.heap.par (s.routerId rsa) = some q) :
    s.heap.IsRouter (s.routerId rsa) ∧ s.heap.hops (s.routerId rsa) = b := by
  rcases routerId_cases (b := b) G.inv ha with ⟨-, hid, -⟩ | ⟨r, rt, hv, hid, hrt, -, -⟩
  · obtain ⟨nd, hnd⟩ := Heap.node_of_par hq
    simp [hid, G.inv.wf.fresh _ le_rfl] at hnd
  · rw [hid] at hq ⊢
    exact ⟨⟨rt, hrt⟩, hb _ (G.heard r rsa q ⟨rt, hrt⟩ hq (G.inv.tracks.sa_of_get hv))⟩

/-- Responses with the reported hop count make no cycle. -/
theorem Phased.loopFree (G : s.Phased root addr seen)
    (hb : ∀ b', seen rsa = some b' → b' = b) (ha : s.Admits rsa paddr l) :
    s.LoopFree rsa paddr b := by
  rintro l r - - hv hr ⟨n, hln, hrn, hz⟩
  obtain ⟨hne, hlt⟩ := hz n hln (Up.refl _ _)
  rcases hrn.cases_head with rfl | ⟨q, hq, hqn⟩
  · exact hne rfl
  · have hid : s.routerId rsa = r := by simp [routerId, hv]
    have hrb := (G.hops_eq ha hb (q := q) (by rw [hid]; exact hq)).2
    have := G.hops_le_of_up hr (Up.head hq hqn)
    rw [hid] at hrb
    omega

/-- What the hop counts are after an accepted response. -/
theorem Phased.accepted (G : s.Phased root addr seen) (hne : rsa ≠ addr)
    (hb : ∀ b', seen rsa = some b' → b' = b) (ha : s.Admits rsa paddr l)
    (A : s.Accepted s' root rsa b l n p) :
    s'.Phased root addr (Function.update seen rsa (some b)) := by
  have hnl := routerId_not_isLeaf G.inv ha
  have hrn : s.routerId rsa ≠ n := A.ne fun h => hnl (h ▸ ha.isLeaf)
  have hpar := A.placed.par_eq
  have hhops := A.placed.hops_eq
  have hkind : ∀ x, x ≠ s.routerId rsa → (s'.heap.IsRouter x ↔ s.heap.IsRouter x) :=
    fun x hx => Heap.isRouter_congr (A.placed.tag_of_ne hx)
  have hold : ∀ x y, x ≠ n → x ≠ s.routerId rsa → s'.heap.par x = some y →
      s.heap.par x = some y := by
    intro x y hxn hxr h
    simpa [hpar, ParentMap.placed, hxn, hxr] using h
  refine ⟨G.toPlanted.accepted hne ha A (G.loopFree hb ha), ?_, ?_⟩
  · intro x a q hx hq hxa
    by_cases hxr : x = s.routerId rsa
    · subst hxr
      have hra : s'.heap.sa (s.routerId rsa) = some rsa := by simp [Heap.sa, A.placed.tag_eq, Tag.sa]
      obtain rfl : rsa = a := Option.some.inj (hra.symm.trans hxa)
      rw [hhops, Function.update_self, Function.update_self]
    · have hra : s'.heap.sa (s.routerId rsa) = some rsa := by simp [Heap.sa, A.placed.tag_eq, Tag.sa]
      have hne : a ≠ rsa := fun h => hxr (A.inv.tracks.inj (h ▸ hxa) hra)
      have hxa' : s.heap.sa x = some a := by rwa [Heap.sa, A.placed.tag_of_ne hxr] at hxa
      obtain ⟨q', hq'⟩ : ∃ q', s.heap.par x = some q' := by
        by_cases hxn : x = n
        · exact ⟨p, hxn ▸ A.climb.par_eq⟩
        · exact ⟨q, hold x q hxn hxr hq⟩
      rw [Function.update_of_ne hne, hhops, Function.update_of_ne hxr]
      exact G.heard x a q' ((hkind x hxr).mp hx) hq' hxa'
  · intro x y hx hxy
    have hkey := A.climb.key_le
    rw [← hhops] at hkey
    by_cases hxn : x = n
    · subst hxn
      obtain rfl : s.routerId rsa = y := by simpa [hpar, ParentMap.placed] using hxy
      have hxR := (hkind x hrn.symm).mp hx
      rcases A.climb.eq_or_lt_key with h | h
      · exact absurd hxR (h ▸ ha.isLeaf.not_isRouter)
      · rw [hhops, Function.update_self]
        exact h.le
    · by_cases hxr : x = s.routerId rsa
      · subst hxr
        have hy : (s.heap.par (s.routerId rsa)).getD p = y := by
          simpa [hpar, ParentMap.placed, hxn] using hxy
        rw [hhops, Function.update_self, ← hhops]
        cases hq : s.heap.par (s.routerId rsa) with
        | none =>
            rw [hq, Option.getD_none] at hy
            exact hy ▸ hkey
        | some q =>
            rw [hq, Option.getD_some] at hy
            subst hy
            obtain ⟨hR, hrb⟩ := G.hops_eq ha hb hq
            have hqr : q ≠ s.routerId rsa := fun h => G.inv.wf.par_ne _ (h ▸ hq)
            rw [hhops, Function.update_of_ne hqr, ← hrb]
            exact G.ordered _ _ hR hq
      · have hxy' := hold x y hxn hxr hxy
        have hxR := (hkind x hxr).mp hx
        have := G.ordered x y hxR hxy'
        rw [hhops, Function.update_of_ne hxr]
        by_cases hyr : y = s.routerId rsa
        · -- a router with children is in the tree, and its hop count stays
          subst hyr
          obtain ⟨q, hq⟩ : ∃ q, s.heap.par (s.routerId rsa) = some q := by
            refine Option.ne_none_iff_exists'.mp fun hq => ?_
            have hrr := routerId_ne_root G.inv ha fun h =>
              hne (Option.some.inj (h.symm.trans G.root_sa))
            have hR := G.inv.wf.par_router _ _ hxy'
            have := (G.inv.orphan _ hR hq hrr).1
            have hm := (G.inv.wf.mem_kids _ x).mpr ⟨hxR, hxy'⟩
            simp [this] at hm
          rw [Function.update_self, ← (G.hops_eq ha hb hq).2]
          exact this
        · rw [Function.update_of_ne hyr]
          exact this

/-- A response that is rejected counts as reported all the same. -/
theorem Phased.reported (G : s.Phased root addr seen) (hb : ∀ b', seen rsa = some b' → b' = b) :
    s.Phased root addr (Function.update seen rsa (some b)) := by
  refine ⟨G.toPlanted, fun x a q hx hq hxa => ?_, G.ordered⟩
  have hs := G.heard x a q hx hq hxa
  by_cases h : a = rsa
  · subst h
    rw [Function.update_self, hb _ hs]
  · rw [Function.update_of_ne h, hs]

/-- A joining receiver. -/
theorem Phased.joined (G : s.Phased root addr seen) {a : Addr} (J : s.Joined s' root a) :
    s'.Phased root addr seen := by
  have hnl : ¬ s'.heap.IsRouter s.heap.next := fun hr =>
    (Heap.isLeaf_iff_tag.mpr ⟨a, by rw [J.tag_eq]; simp⟩ : s'.heap.IsLeaf s.heap.next).not_isRouter hr
  have hold : ∀ x, s'.heap.IsRouter x → x ≠ s.heap.next ∧ s'.heap.tag x = s.heap.tag x ∧
      s'.heap.par x = s.heap.par x := by
    intro x hx
    have hxn : x ≠ s.heap.next := fun h => hnl (h ▸ hx)
    exact ⟨hxn, by rw [J.tag_eq, Function.update_of_ne hxn], by
      rw [J.par_eq, Function.update_of_ne hxn]⟩
  refine ⟨G.toPlanted.joined J, fun x sa q hx hq hxa => ?_, fun x q hx hq => ?_⟩
  · obtain ⟨-, ht, hp⟩ := hold x hx
    rw [Heap.hops_congr ht]
    exact G.heard x sa q ((Heap.isRouter_congr ht).mp hx) (hp ▸ hq) (by rwa [Heap.sa, ht] at hxa)
  · obtain ⟨-, ht, hp⟩ := hold x hx
    obtain ⟨-, ht', -⟩ := hold q (J.inv.wf.par_router x q hq)
    rw [Heap.hops_congr ht, Heap.hops_congr ht']
    exact G.ordered x q ((Heap.isRouter_congr ht).mp hx) (hp ▸ hq)

/-- After a timeout of a rooted tree all that has a parent is a direct leaf of the root. -/
theorem TimedOut.par_eq {F : Forest NodeId NodeId} {gs : List (List (Seg NodeId NodeId))}
    (T : TimedOut args s s' root F gs) (I : s.Inv root) (H : Rooted s.heap.par root)
    (hF : s.heap.Below root F) {x q : NodeId} (hq : s'.heap.par x = some q) :
    q = root ∧ s'.heap.IsLeaf x := by
  obtain ⟨-, hl, -, -⟩ := I.below hF
  have hleaf : ∀ x, s.heap.IsLeaf x → s'.heap.IsLeaf x := fun x hx =>
    (T.inv.mem_rcvr x).mp (T.rcvr_eq ▸ (I.mem_rcvr x).mpr hx)
  by_cases hx : x ∈ F.labs
  · simp [T.par_gone x hx] at hq
  by_cases hm : x ∈ F.leaves
  · exact ⟨Option.some.inj (hq.symm.trans (T.par_leaf x hm)), hleaf x (hl x hm)⟩
  rw [T.par_frame x hx hm] at hq
  obtain ⟨nd, hnd⟩ := Heap.node_of_par hq
  rcases Heap.isRouter_or_isLeaf hnd with hR | hL
  · refine absurd ((I.wf.mem_labs hF x).mpr ⟨hR, ?_⟩) hx
    rcases (H x q hq).eq_or_sUp with h | h
    · rw [h, I.root_par] at hq
      simp at hq
    · exact h
  · refine ⟨?_, hleaf x hL⟩
    by_contra hne
    have hqR := I.wf.par_router x q hq
    have hqF : q ∈ F.labs := by
      refine (I.wf.mem_labs hF q).mpr ⟨hqR, ?_⟩
      rcases (H x q hq).cases_head with rfl | ⟨z, hz, hzr⟩
      · exact absurd I.root_router hL.not_isRouter
      · obtain rfl := Option.some.inj (hq.symm.trans hz)
        exact (hzr.eq_or_sUp).resolve_left hne
    refine hm ((Heap.Wf.mem_leaves hF x).mpr ⟨q, hqF, ?_⟩)
    exact (I.wf.mem_lvs q x).mpr ⟨hL, hq⟩

/-- A timeout starts a new phase. -/
theorem Phased.tout (G : s.Phased root addr seen) {F : Forest NodeId NodeId}
    {gs : List (List (Seg NodeId NodeId))} (hF : s.heap.Below root F)
    (T : TimedOut args s s' root F gs) : s'.Phased root addr fun _ => none := by
  have hpar : ∀ x q, s'.heap.par x = some q → q = root ∧ s'.heap.IsLeaf x :=
    fun x q hq => T.par_eq G.inv G.rooted hF hq
  have htag := T.tag_frame root (G.inv.below hF).2.2.1
  refine ⟨⟨T.inv, fun x q hq => ?_, ?_, ?_⟩, fun x a q hx hq _ => ?_, fun x q hx hq => ?_⟩
  · obtain ⟨rfl, -⟩ := hpar x q hq
    exact Up.head hq (Up.refl _ _)
  · rw [Heap.sa, htag]
    exact G.root_sa
  · rw [Heap.hops_congr htag, G.root_hops]
  · exact absurd hx (hpar x q hq).2.not_isRouter
  · exact absurd hx (hpar x q hq).2.not_isRouter

/-- What the addresses reported after one more operation. -/
def report (seen : In6Addr → Option ℕ) : Op → In6Addr → Option ℕ
  | .rsp rsa _ b => Function.update seen rsa (some b)
  | .tout => fun _ => none
  | _ => seen

/-- Every operation keeps the invariant, if responses that carry the root's address are
rejected. -/
theorem Phased.step (G : s.Phased root addr seen) {op : Op} {ret : Int}
    (hop : ∀ rsa paddr b, op = .rsp rsa paddr b → (∀ b', seen rsa = some b' → b' = b) ∧
      (rsa = addr → ∀ l, ¬ s.Admits rsa paddr l))
    (hc : Completes args s op s' ret) : s'.Phased root addr (report seen op) := by
  cases op with
  | join a port =>
      obtain ⟨fuel, e⟩ := hc
      rcases join_spec G.inv a port with ⟨-, h⟩ | ⟨-, s₁, h, J⟩
      · obtain ⟨rfl, -⟩ : s = s' ∧ -1 = ret := by simpa [MEADcast.step, h] using e
        exact G
      · obtain ⟨rfl, -⟩ : s₁ = s' ∧ 0 = ret := by simpa [MEADcast.step, h] using e
        exact G.joined J
  | initTxg =>
      obtain ⟨fuel, e⟩ := hc
      rcases initTxg_spec G.inv with ⟨-, h⟩ | ⟨-, h⟩
      · obtain ⟨rfl, -⟩ : s = s' ∧ -1 = ret := by simpa [MEADcast.step, h] using e
        exact G
      · obtain ⟨rfl, -⟩ : _ = s' ∧ 0 = ret := by simpa [MEADcast.step, h] using e
        exact ⟨⟨G.inv.publish _, G.rooted, G.root_sa, G.root_hops⟩, G.heard, G.ordered⟩
  | rsp rsa paddr b =>
      obtain ⟨hb, hno⟩ := hop rsa paddr b rfl
      by_cases ha : ∃ l, s.Admits rsa paddr l
      · obtain ⟨l, ha⟩ := ha
        have hne : rsa ≠ addr := fun h => hno h l ha
        have hsa : s.heap.sa root ≠ some rsa := fun h =>
          hne (Option.some.inj (h.symm.trans G.root_sa))
        obtain ⟨fuel, e⟩ := hc
        obtain ⟨-, n, p, A⟩ := updateTopo_sound G.inv ha hsa e
        exact G.accepted hne hb ha A
      · push Not at ha
        obtain ⟨fuel, e⟩ := hc
        obtain ⟨rfl, -⟩ : s = s' ∧ -1 = ret := by
          simpa [MEADcast.step, updateTopo_rejected G.inv ha] using e
        exact G.reported hb
  | tout =>
      obtain ⟨-, F, gs, hF, T⟩ := G.inv.tout hc
      exact G.tout hF T

/-- `init_group` starts the first phase. -/
theorem phased_init {s₁ : Sender} (hinit : Sender.initial.initGroup addr = some (s₁, 0)) :
    s₁.Phased 0 addr fun _ => none := by
  obtain ⟨s₀, h₀, I, hsa, hh, -, htag⟩ := initGroup_initial addr
  obtain rfl : s₀ = s₁ := by simpa [h₀] using hinit
  have hpar : ∀ x q, s₀.heap.par x = some q → x = 0 := fun x q hx => by
    obtain ⟨nd, hnd⟩ := Heap.node_of_par hx
    exact htag x (by simp [Heap.tag_of_node hnd])
  have hno : ∀ x q, s₀.heap.par x ≠ some q := fun x q hx => by
    rw [hpar x q hx, I.root_par] at hx
    simp at hx
  exact ⟨⟨I, fun x q hx => absurd hx (hno x q), hsa, hh⟩, fun x a q _ hq => absurd hq (hno x q),
    fun x q _ hq => absurd hq (hno x q)⟩

/-- What the addresses reported after a list of operations. -/
def reports (seen : In6Addr → Option ℕ) (ops : List Op) : In6Addr → Option ℕ :=
  ops.foldl report seen

end Phased

end Sender

theorem steady_append {seen : In6Addr → Option ℕ} {ops ops' : List Op} :
    Steady seen (ops ++ ops') ↔ Steady seen ops ∧ Steady (Sender.reports seen ops) ops' := by
  induction ops generalizing seen with
  | nil => simp [Steady, Sender.reports]
  | cons op ops ih =>
      cases op <;>
        simp [Steady, ih, Sender.reports, Sender.report, and_assoc]

/-- In every run with constant hop counts whose responses do not come from the root's
address, unless they are rejected, the invariant holds. -/
theorem Sender.Phased.run {args : Args} {s s' : Sender} {root : NodeId} {addr : In6Addr}
    {seen : In6Addr → Option ℕ} {ops : List Op} (G : s.Phased root addr seen)
    (hrun : Run args s ops s') (hst : Steady seen ops)
    (hok : MeetsAlong args s ops fun t op => ∀ rsa paddr b, op = .rsp rsa paddr b →
      rsa = addr → ∀ l, ¬ t.Admits rsa paddr l) :
    s'.Phased root addr (Sender.reports seen ops) := by
  induction hrun generalizing seen with
  | nil => exact G
  | @cons s s₁ t op ops ret head tail ih =>
      have hop : ∀ rsa paddr b, op = .rsp rsa paddr b → (∀ b', seen rsa = some b' → b' = b) ∧
          (rsa = addr → ∀ l, ¬ s.Admits rsa paddr l) := by
        rintro rsa paddr b rfl
        exact ⟨hst.2.1, hok [] s _ ops rfl (.nil s) rsa paddr b rfl⟩
      refine ih (G.step hop head) ?_ (hok.tail head)
      cases op with
      | rsp rsa paddr b => exact hst.2.2
      | _ => exact hst

end MEADcast
