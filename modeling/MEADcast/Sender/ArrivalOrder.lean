import MEADcast.Sender.Narrow
import MEADcast.Sender.Rebuild
import Mathlib.Data.Set.Finite.Lattice

/-!
# The order in which the responses arrive

The responses of a phase may arrive in any order.  If a router at depth three or more serves two
receivers, then there is an order in which the router two hops above it is put below the root and
loses what hangs below it before its real parent answers.  Otherwise every order gives the real
tree.

## Main definitions

* `RouterTree.Order` — an order of all responses.

## Main results

* `order_irrelevant_iff` — the order does not matter exactly for narrow trees.
* `order_matters` — two orders of the responses of three routers that give different trees.
-/

namespace MEADcast

open ParentMap

namespace RouterTree

variable {ι : Type*} {root : ι} {peers : List ι} {T : RouterTree root peers}
  {heard rest : List (ι × ι)} {v v' : Topo ι} {a q r l n p k z : ι}

/-- All responses, each of them once. -/
structure Order (T : RouterTree root peers) (heard : List (ι × ι)) : Prop where
  nodup : heard.Nodup
  mem_iff : ∀ r l, (r, l) ∈ heard ↔ T.On r l

/-- A router on a path has a router at every smaller depth above it. -/
theorem On.exists_depth (h : T.On r l) {d : ℕ} (hd : 1 ≤ d) (hdr : d ≤ T.depth r) :
    ∃ z, Up T.par r z ∧ T.depth z = d ∧ ∀ l', T.On r l' → T.On z l' := by
  induction hm : T.depth r - d generalizing r with
  | zero => exact ⟨r, Up.refl _ _, by omega, fun _ h => h⟩
  | succ m ih =>
      obtain ⟨q, hq⟩ := h.exists_par
      have hdq := T.depth_succ r q hq
      have hqr : q ≠ root := by
        rintro rfl
        rw [T.depth_root] at hdq
        omega
      have hon : ∀ l', T.On r l' → T.On q l' := fun l' h => ⟨h.peer, h.above.tail hq, hqr⟩
      obtain ⟨z, hz, hdz, hzl⟩ := ih (hon l h) (by omega) (by omega)
      exact ⟨z, Up.head hq hz, hdz, fun l' h => hzl l' (hon l' h)⟩

/-- There are finitely many responses. -/
theorem finite_on (T : RouterTree root peers) : {x : ι × ι | T.On x.1 x.2}.Finite := by
  have hup : ∀ l ∈ peers, {r | Up T.par l r}.Finite := by
    intro l hl
    obtain ⟨q, hq⟩ := Option.ne_none_iff_exists'.mp (T.peer_par l hl)
    have h := T.rooted l q hq
    clear hq hl
    induction h using Relation.ReflTransGen.head_induction_on with
    | refl =>
        refine (Set.finite_singleton root).subset fun r hr => ?_
        exact (Up.eq_of_none hr T.root_par).symm
    | @head a b hab _ ih =>
        refine (ih.insert a).subset fun r hr => ?_
        rcases Up.cases_head hr with rfl | ⟨z, hz, hzr⟩
        · exact Set.mem_insert _ _
        · obtain rfl := Option.some.inj (hab.symm.trans hz)
          exact Set.mem_insert_of_mem _ hzr
  refine (Set.Finite.biUnion (List.finite_toSet peers) fun l hl =>
    (hup l hl).image fun r => (r, l)).subset fun x hx => ?_
  simp only [Set.mem_iUnion]
  exact ⟨x.2, hx.peer, x.1, Up.of_sUp hx.above, rfl⟩

/-- The responses in the order of depths. -/
theorem exists_order (T : RouterTree root peers) : ∃ heard, T.Order heard ∧ T.Gapless heard := by
  classical
  let le : ι × ι → ι × ι → Bool := fun x y => decide (T.depth x.1 ≤ T.depth y.1)
  let all := T.finite_on.toFinset.toList
  have hmem : ∀ r l, (r, l) ∈ all.mergeSort le ↔ T.On r l := by
    intro r l
    rw [(List.mergeSort_perm all le).mem_iff]
    simp [all]
  have hsort : (all.mergeSort le).Pairwise fun x y => le x y :=
    List.pairwise_mergeSort (fun a b c h₁ h₂ => by simp only [le, decide_eq_true_eq] at *; omega)
      (fun a b => by simp only [le, Bool.or_eq_true, decide_eq_true_eq]; omega) all
  refine ⟨all.mergeSort le, ⟨?_, hmem⟩, fun pre r l post e => ?_⟩
  · exact (List.mergeSort_perm all le).nodup_iff.mpr (Finset.nodup_toList _)
  · have ho := (hmem r l).mp (by simp [e])
    obtain ⟨q, hq⟩ := ho.exists_par
    refine ⟨q, hq, ?_⟩
    by_cases hr : q = root
    · exact Or.inl hr
    have hql := (hmem q l).mpr ⟨ho.peer, ho.above.tail hq, hr⟩
    have hd := T.depth_succ r q hq
    rw [e] at hql hsort
    refine Or.inr ((List.mem_append.mp hql).resolve_right fun hm => ?_)
    rcases List.mem_cons.mp hm with h | h
    · rw [(Prod.mk.inj h).1] at hd
      omega
    · have := (List.pairwise_cons.mp (List.pairwise_append.mp hsort).2.1).1 _ h
      simp only [le, decide_eq_true_eq] at this
      omega

/-! ## An order that goes wrong -/

/-- The routers `a`, `b` and `c` at depths one, two and three serve both `x` and `y`. -/
structure Fork (T : RouterTree root peers) (a b c x y : ι) : Prop where
  on_a : T.On a x ∧ T.On a y
  on_b : T.On b x ∧ T.On b y
  on_c : T.On c x ∧ T.On c y
  depth_a : T.depth a = 1
  depth_b : T.depth b = 2
  depth_c : T.depth c = 3
  ne : x ≠ y

/-- The responses that make `b` lose `c`: both `x` and `y` are heard from `a` before `b` gets `c`
back. -/
def lateRsps (a b c x y : ι) : List (ι × ι) :=
  [(b, x), (c, y), (c, x), (a, x), (a, y), (b, y)]

/-- A tree that is not narrow has a fork. -/
theorem exists_fork (h : ¬ T.Narrow) : ∃ a b c x y, T.Fork a b c x y := by
  simp only [Narrow, not_forall] at h
  obtain ⟨r, x, y, hd, hx, hy, hne⟩ := h
  obtain ⟨c, -, hc, honc⟩ := hx.exists_depth (show 1 ≤ 3 by omega) hd
  obtain ⟨b, -, hb, honb⟩ := (honc x hx).exists_depth (show 1 ≤ 2 by omega) (by omega)
  obtain ⟨a, -, ha, hona⟩ := (honb x (honc x hx)).exists_depth (show 1 ≤ 1 by omega) (by omega)
  have onb : ∀ l, T.On r l → T.On b l := fun l h => honb l (honc l h)
  exact ⟨a, b, c, x, y, ⟨hona x (onb x hx), hona y (onb y hy)⟩, ⟨onb x hx, onb y hy⟩,
    ⟨honc x hx, honc y hy⟩, ha, hb, hc, hne⟩

variable [DecidableEq ι] {a b c x y : ι}

/-- A response moves no other receiver. -/
theorem Sampled.par_peer (S : T.Sampled heard v) (ho : T.On r l) (P : T.Stepped v v' r l n p)
    (hk : k ∈ peers) (hkl : k ≠ l) : v'.par k = v.par k := by
  refine P.par_of_ne k ?_ fun e => ho.not_mem (e ▸ hk)
  rintro rfl
  exact S.not_up_peer hk (Ne.symm hkl) P.climb.up_node

/-- The parents after a response whose place is known. -/
theorem Sampled.rsp_at (S : T.Sampled heard v) (ho : T.On r l) (hR : v.Rsp r l (T.depth r) v')
    (hc : Climb v.par T.depth (T.depth r) l n p) : T.Sampled (heard ++ [(r, l)]) v' ∧
      v'.par n = some r ∧ v'.par r = some ((v.par r).getD p) ∧
        ∀ z, z ≠ n → z ≠ r → v'.par z = v.par z := by
  obtain ⟨n', p', P⟩ := S.stepped ho hR
  obtain ⟨rfl, rfl⟩ := P.climb.det hc
  exact ⟨S.rsp ho hR, P.par_n, P.par_r, P.par_of_ne⟩

namespace Fork

variable (F : T.Fork a b c x y)

include F

omit [DecidableEq ι] in
theorem ne_routers : a ≠ b ∧ a ≠ c ∧ b ≠ c := by
  have h₁ := F.depth_a
  have h₂ := F.depth_b
  have h₃ := F.depth_c
  refine ⟨?_, ?_, ?_⟩ <;> rintro rfl <;> omega

omit [DecidableEq ι] in
theorem ne_peers : (x ≠ b ∧ x ≠ c) ∧ y ≠ a ∧ y ≠ b ∧ y ≠ c := by
  have h : ∀ {r l k}, T.On r l → k ∈ peers → k ≠ r := fun h hk e => h.not_mem (e ▸ hk)
  have hx := F.on_a.1.peer
  have hy := F.on_a.2.peer
  exact ⟨⟨h F.on_b.1 hx, h F.on_c.1 hx⟩, h F.on_a.1 hy, h F.on_b.1 hy, h F.on_c.1 hy⟩

/-- Router `b` comes before `a` and loses `c` to `a` before `a` is heard for the last receiver
of `b`. -/
theorem par_of_late (S : T.Sampled heard v) (hx : v.par x = some root) (hy : v.par y = some root)
    (hb : v.par b = none) (hc : v.par c = none)
    (hR : Topo.Rsps T.depth v (lateRsps a b c x y) v') : v'.par b = some root := by
  have da := F.depth_a
  have db := F.depth_b
  have dc := F.depth_c
  have d₀ := T.depth_root
  obtain ⟨hab, hac, hbc⟩ := F.ne_routers
  obtain ⟨⟨hxb, hxc⟩, hya, hyb, hyc⟩ := F.ne_peers
  have hxy := F.ne
  -- `b` is put between the root and `x`
  cases hR with | cons h₁ hR =>
  obtain ⟨S₁, x₁, b₁, k₁⟩ := S.rsp_at F.on_b.1 h₁ (.here hx (by omega))
  rw [hb, Option.getD_none] at b₁
  have y₁ := (k₁ y hxy.symm hyb).trans hy
  have c₁ := (k₁ c hxc.symm hbc.symm).trans hc
  -- `c` is put between the root and `y`
  cases hR with | cons h₂ hR =>
  obtain ⟨S₂, y₂, c₂, k₂⟩ := S₁.rsp_at F.on_c.2 h₂ (.here y₁ (by omega))
  rw [c₁, Option.getD_none] at c₂
  have x₂ := (k₂ x hxy hxc).trans x₁
  have b₂ := (k₂ b hyb.symm hbc).trans b₁
  -- `c` takes `x` from `b`
  cases hR with | cons h₃ hR =>
  obtain ⟨S₃, x₃, c₃, k₃⟩ := S₂.rsp_at F.on_c.1 h₃ (.here x₂ (by omega))
  rw [c₂, Option.getD_some] at c₃
  have y₃ := (k₃ y hxy.symm hyc).trans y₂
  have b₃ := (k₃ b hxb.symm hbc).trans b₂
  -- `a` is put between the root and `c`
  cases hR with | cons h₄ hR =>
  obtain ⟨S₄, c₄, -, k₄⟩ := S₃.rsp_at F.on_a.1 h₄ (.up x₃ (by omega) (.here c₃ (by omega)))
  have y₄ := (k₄ y hyc hya).trans y₃
  have b₄ := (k₄ b hbc hab.symm).trans b₃
  cases hR with | cons h₅ hR =>
  obtain ⟨S₅, c₅, -, k₅⟩ := S₄.rsp_at F.on_a.2 h₅ (.up y₄ (by omega) (.here c₄ (by omega)))
  have y₅ := (k₅ y hyc hya).trans y₄
  have b₅ := (k₅ b hbc hab.symm).trans b₄
  -- `b` takes `c` from `a` and stays where it is
  cases hR with | cons h₆ hR =>
  obtain ⟨-, -, b₆, -⟩ := S₅.rsp_at F.on_b.2 h₆ (.up y₅ (by omega) (.here c₅ (by omega)))
  rw [b₅, Option.getD_some] at b₆
  cases hR
  exact b₆

/-- Only `a` could move `b`. -/
theorem par_of_rest (S : T.Sampled heard v) (hb : v.par b = some root) (hR : Topo.Rsps T.depth v rest v')
    (hon : ∀ r l, (r, l) ∈ rest → T.On r l ∧ r ≠ a) : v'.par b = some root := by
  refine (hR.invariant (fun m v => T.Sampled m v ∧ v.par b = some root)
    (fun _ r l => T.On r l ∧ r ≠ a) (fun m r l v v' h ho hR => ?_) heard
    (fun m r l post e => hon r l (by simp [e])) ⟨S, hb⟩).2
  obtain ⟨S, hb⟩ := h
  obtain ⟨n, p, P⟩ := S.stepped ho.1 hR
  refine ⟨S.rsp ho.1 hR, ?_⟩
  have hbn : b ≠ n := by
    rintro rfl
    have hd := T.depth_lt P.below
    rw [F.depth_b] at hd
    have hba : Up T.par b a := Up.of_sUp (T.sUp_of_depth_lt (Up.of_sUp F.on_b.1.above)
      (Up.of_sUp F.on_a.1.above) (by rw [F.depth_a, F.depth_b]; omega))
    refine ho.2 (T.eq_of_depth (Up.of_sUp P.below) hba ?_)
    have := ho.1.depth_pos
    rw [F.depth_a]
    omega
  rw [Sampled.par_kept P hbn fun e => by rw [← e, hb]; simp, hb]

/-- Responses of `a` for other receivers. -/
theorem par_of_others (S : T.Sampled [] v) (hx : v.par x = some root) (hy : v.par y = some root)
    (hR : Topo.Rsps T.depth v rest v')
    (hon : ∀ r l, (r, l) ∈ rest → T.On r l ∧ r = a ∧ l ≠ x ∧ l ≠ y) :
    T.Sampled rest v' ∧ v'.par x = some root ∧ v'.par y = some root ∧ v'.par b = none ∧
      v'.par c = none := by
  obtain ⟨hab, hac, -⟩ := F.ne_routers
  have H := hR.invariant (fun m v => T.Sampled m v ∧ v.par x = some root ∧ v.par y = some root)
    (fun _ r l => T.On r l ∧ r = a ∧ l ≠ x ∧ l ≠ y) (fun m r l v v' h ho hR => ?_) []
    (fun m r l post e => hon r l (by simp [e])) ⟨S, hx, hy⟩
  · obtain ⟨S', hx', hy'⟩ := H
    rw [List.nil_append] at S'
    have hnone : ∀ {r}, T.On r x → r ≠ a → v'.par r = none := by
      intro r hr hra
      refine Option.eq_none_iff_forall_ne_some.mpr fun q hq => ?_
      obtain ⟨l, hl⟩ := (S'.node_cases r q hq).resolve_left hr.not_mem
      exact hra (hon r l hl).2.1
    exact ⟨S', hx', hy', hnone F.on_b.1 hab.symm, hnone F.on_c.1 hac.symm⟩
  · obtain ⟨S, hx, hy⟩ := h
    obtain ⟨ho, -, hlx, hly⟩ := ho
    obtain ⟨n, p, P⟩ := S.stepped ho hR
    exact ⟨S.rsp ho hR, (S.par_peer ho P F.on_a.1.peer (Ne.symm hlx)).trans hx,
      (S.par_peer ho P F.on_a.2.peer (Ne.symm hly)).trans hy⟩

/-- All responses, in an order that starts with those of `a` for other receivers and those
that make `b` lose `c`. -/
theorem exists_order : ∃ others rest : List (ι × ι),
    T.Order (others ++ (lateRsps a b c x y ++ rest)) ∧
    (∀ r l, (r, l) ∈ others → T.On r l ∧ r = a ∧ l ≠ x ∧ l ≠ y) ∧
    ∀ r l, (r, l) ∈ rest → T.On r l ∧ r ≠ a := by
  obtain ⟨all, O, -⟩ := T.exists_order
  obtain ⟨hab, hac, hbc⟩ := F.ne_routers
  have hxy := F.ne
  have hnd : (lateRsps a b c x y).Nodup := by
    simp [lateRsps, hab, hbc, hab.symm, hac.symm, hbc.symm, hxy, hxy.symm]
  have hlate : ∀ z ∈ lateRsps a b c x y, T.On z.1 z.2 ∧ (z.2 = x ∨ z.2 = y) := by
    intro z hz
    simp only [lateRsps, List.mem_cons, List.not_mem_nil, or_false] at hz
    rcases hz with rfl | rfl | rfl | rfl | rfl | rfl
    · exact ⟨F.on_b.1, Or.inl rfl⟩
    · exact ⟨F.on_c.2, Or.inr rfl⟩
    · exact ⟨F.on_c.1, Or.inl rfl⟩
    · exact ⟨F.on_a.1, Or.inl rfl⟩
    · exact ⟨F.on_a.2, Or.inr rfl⟩
    · exact ⟨F.on_b.2, Or.inr rfl⟩
  obtain ⟨others, hothers, hno⟩ : ∃ others : List (ι × ι),
      (∀ z, z ∈ others ↔ T.On z.1 z.2 ∧ z.1 = a ∧ z.2 ≠ x ∧ z.2 ≠ y) ∧ others.Nodup :=
    ⟨all.filter fun z => z.1 = a ∧ z.2 ≠ x ∧ z.2 ≠ y, fun z => by simp [O.mem_iff],
      O.nodup.filter _⟩
  obtain ⟨rest, hrest, hnr⟩ : ∃ rest : List (ι × ι),
      (∀ z, z ∈ rest ↔ T.On z.1 z.2 ∧ z.1 ≠ a ∧ z ∉ lateRsps a b c x y) ∧ rest.Nodup :=
    ⟨all.filter fun z => z.1 ≠ a ∧ z ∉ lateRsps a b c x y, fun z => by simp [O.mem_iff],
      O.nodup.filter _⟩
  refine ⟨others, rest, ⟨List.nodup_append.mpr ⟨hno, List.nodup_append.mpr ⟨hnd, hnr, ?_⟩, ?_⟩,
    fun r l => ⟨fun hm => ?_, fun h => ?_⟩⟩, fun r l hm => (hothers _).mp hm, fun r l hm => ?_⟩
  · rintro z hz w hw rfl
    exact ((hrest z).mp hw).2.2 hz
  · rintro z hz w hw rfl
    obtain ⟨-, hza, hzx, hzy⟩ := (hothers z).mp hz
    rcases List.mem_append.mp hw with hw | hw
    · exact (hlate z hw).2.elim hzx hzy
    · exact ((hrest z).mp hw).2.1 hza
  · rcases List.mem_append.mp hm with hm | hm
    · exact ((hothers _).mp hm).1
    rcases List.mem_append.mp hm with hm | hm
    · exact (hlate _ hm).1
    · exact ((hrest _).mp hm).1
  · by_cases hm : (r, l) ∈ lateRsps a b c x y
    · exact List.mem_append_right _ (List.mem_append_left _ hm)
    by_cases hra : r = a
    · subst hra
      refine List.mem_append_left _ ((hothers _).mpr ⟨h, rfl, ?_, ?_⟩)
      · rintro rfl
        exact hm (by simp [lateRsps])
      · rintro rfl
        exact hm (by simp [lateRsps])
    · exact List.mem_append_right _ (List.mem_append_right _ ((hrest _).mpr ⟨h, hra, hm⟩))
  · obtain ⟨h₁, h₂, -⟩ := (hrest _).mp hm
    exact ⟨h₁, h₂⟩

end Fork

end RouterTree

open RouterTree in
/-- From a resting sender, all orders of the responses of a complete phase are processed to their
ends.  They all give the same tree if and only if every router at depth three or more serves a
single receiver. -/
theorem order_irrelevant_iff (args : Args) {s : Sender} {root : NodeId} {addr : In6Addr}
    {peers : List In6Addr} (Z : s.Resting root addr) (hpeers : s.peers = peers)
    (T : RouterTree addr peers) :
    (∀ heard, T.Order heard → ∃ s', Run args s (T.ops heard) s') ∧
      ((∀ heard heard' s' s'', T.Order heard → T.Order heard' → Run args s (T.ops heard) s' →
        Run args s (T.ops heard') s'' → s'.view.par = s''.view.par) ↔ T.Narrow) := by
  have hon : ∀ {heard}, T.Order heard → ∀ r l, (r, l) ∈ heard → T.On r l :=
    fun O r l h => (O.mem_iff r l).mp h
  have hrsps : ∀ {heard s'}, T.Order heard → Run args s (T.ops heard) s' →
      Topo.Rsps T.depth s.view heard s'.view := fun O hr =>
    (Z.phased.rsps hpeers (by simp) (hon O) hr).1
  have K := Z.known hpeers T
  refine ⟨fun heard O => Z.exists_run_ops args (hon O), fun h => ?_, fun N => ?_⟩
  · -- one order gives the real tree, another one does not
    by_contra hN
    obtain ⟨a, b, c, x, y, F⟩ := exists_fork hN
    obtain ⟨good, O, hgap⟩ := T.exists_order
    obtain ⟨others, rest, O', hothers, hrest⟩ := F.exists_order
    obtain ⟨s', hs'⟩ := Z.exists_run_ops args (hon O)
    obtain ⟨s'', hs''⟩ := Z.exists_run_ops args (hon O')
    have hgood := (K.rsps (hrsps O hs') (hon O) hgap).par_eq (hon O) fun r l => (O.mem_iff r l).mpr
    obtain ⟨v₁, R₁, R⟩ := (hrsps O' hs'').of_append
    obtain ⟨v₂, R₂, R₃⟩ := R.of_append
    have hroot : ∀ l ∈ peers, s.view.par l = some addr := fun l hl =>
      (Z.view_par l addr).mpr ⟨rfl, hpeers ▸ hl⟩
    obtain ⟨S₁, hx, hy, hb, hc⟩ := F.par_of_others K.toSampled (hroot x F.on_a.1.peer)
      (hroot y F.on_a.2.peer) R₁ hothers
    have hb₂ := F.par_of_late S₁ hx hy hb hc R₂
    have S₂ : T.Sampled (others ++ lateRsps a b c x y) v₂ := by
      refine R₂.invariant (fun m v => T.Sampled m v) (fun _ r l => T.On r l)
        (fun m r l v v' S ho hR => S.rsp ho hR) others (fun m r l post e => ?_) S₁
      exact hon O' r l (by simp [e])
    have hbad := F.par_of_rest S₂ hb₂ R₃ hrest
    rw [← h good _ s' s'' O O' hs' hs'', hgood] at hbad
    have := T.depth_succ b addr hbad
    rw [T.depth_root, F.depth_b] at this
    omega
  · intro heard heard' s' s'' O O' hs' hs''
    have C : T.Settled [] s.view := ⟨K.toSampled, by simp, by simp, by simp⟩
    have hpar : ∀ {heard s'}, T.Order heard → Run args s (T.ops heard) s' → s'.view.par = T.par :=
      fun O hr => (C.rsps N (hrsps O hr) (hon O)).par_eq fun r l => (O.mem_iff r l).mpr
    rw [hpar O hs', hpar O' hs'']

/-! ## Two orders that give different trees -/

theorem forkTree_on_iff {r l : In6Addr} :
    forkTree.On r l ↔ l ∈ [(3 : In6Addr), 2] ∧ r ∈ [(6 : In6Addr), 5, 4] := by
  refine ⟨fun h => ⟨h.peer, ?_⟩, fun h => forkTree_on h.1 h.2⟩
  have habove : ∃ a, forkPar a = some r := by
    obtain ⟨y, -, hy⟩ := Relation.TransGen.tail'_iff.mp h.above
    exact ⟨y, hy⟩
  obtain ⟨a, ha⟩ := habove
  rcases forkPar_cases ha with ⟨-, rfl⟩ | ⟨-, rfl⟩ | ⟨-, rfl⟩ | ⟨-, rfl⟩
  · simp
  · simp
  · simp
  · exact absurd rfl h.ne_root

/-- The receivers `2` and `3` join. -/
theorem exists_resting_fork : ∃ s, Run Args.default (((Sender.initial.initGroup 1).get rfl).1)
    [.join 2 0, .join 3 0] s ∧ s.Resting 0 1 ∧ s.peers = [3, 2] ∧
    (exec Args.default 20 s (forkTree.ops [(4, 2), (4, 3), (5, 2), (5, 3), (6, 2), (6, 3)])).map
      (fun t => t.view.par 5) = some (some 4) ∧
    (exec Args.default 20 s (forkTree.ops (RouterTree.lateRsps 4 5 6 2 3))).map
      (fun t => t.view.par 5) = some (some 1) := by
  let s₁ : Sender := ((Sender.initial.initGroup 1).get rfl).1
  let ops : List Op := [.join 2 0, .join 3 0]
  have hall : (exec Args.default 20 s₁ ops).all (fun s => decide (s.peers = [3, 2] ∧
      (exec Args.default 20 s (forkTree.ops [(4, 2), (4, 3), (5, 2), (5, 3), (6, 2), (6, 3)])).map
        (fun t => t.view.par 5) = some (some 4) ∧
      (exec Args.default 20 s (forkTree.ops (RouterTree.lateRsps 4 5 6 2 3))).map
        (fun t => t.view.par 5) = some (some 1))) = true := by decide +kernel
  have hsome : (exec Args.default 20 s₁ ops).isSome = true := by decide +kernel
  obtain ⟨s, e⟩ := Option.isSome_iff_exists.mp hsome
  rw [e] at hall
  simp only [Option.all_some, decide_eq_true_eq] at hall
  have Z : s.Resting 0 1 := (Sender.phased_init rfl).resting (Run.of_exec e)
    (by simp [ops, Op.NotFrom]) (by simp [ops, Steady]) (by simp [ops, PhasesOver])
    (Or.inl (Sender.resting_init rfl))
  exact ⟨s, Run.of_exec e, Z, hall.1, hall.2⟩

/-- The routers `4`, `5` and `6` answer for the receivers `2` and `3`.  In the order of hops,
router `5` ends below `4`; if `4` answers late, `5` stays below the root. -/
theorem order_matters : ∃ (s s' s'' : Sender) (heard heard' : List (In6Addr × In6Addr)),
    s.Resting 0 1 ∧ s.peers = [3, 2] ∧ forkTree.Order heard ∧ forkTree.Order heard' ∧
    Run Args.default s (forkTree.ops heard) s' ∧ Run Args.default s (forkTree.ops heard') s'' ∧
    s'.view.par ≠ s''.view.par := by
  obtain ⟨s, -, Z, hp, h, h'⟩ := exists_resting_fork
  obtain ⟨s', e, h⟩ := Option.map_eq_some_iff.mp h
  obtain ⟨s'', e', h'⟩ := Option.map_eq_some_iff.mp h'
  have hmem : ∀ r l, forkTree.On r l ↔
      (r, l) ∈ [((4 : In6Addr), (2 : In6Addr)), (4, 3), (5, 2), (5, 3), (6, 2), (6, 3)] := by
    intro r l
    rw [forkTree_on_iff]
    simp only [List.mem_cons, Prod.mk.injEq, List.not_mem_nil, or_false]
    grind
  refine ⟨s, s', s'', _, _, Z, hp, ⟨by decide +kernel, fun r l => (hmem r l).symm⟩,
    ⟨by decide +kernel, fun r l => ?_⟩, Run.of_exec e, Run.of_exec e', fun he => ?_⟩
  · rw [hmem, RouterTree.lateRsps]
    simp only [List.mem_cons, Prod.mk.injEq, List.not_mem_nil, or_false]
    grind
  · rw [he, h'] at h
    simp at h

/-- The theorem for the same three routers, one of which serves both receivers at depth three. -/
theorem order_irrelevant_fork : ∃ s : Sender, s.Resting 0 1 ∧ s.peers = [3, 2] ∧
    ¬ ∀ heard heard' s' s'', forkTree.Order heard → forkTree.Order heard' →
      Run Args.default s (forkTree.ops heard) s' → Run Args.default s (forkTree.ops heard') s'' →
        s'.view.par = s''.view.par := by
  obtain ⟨s, -, Z, hp, -⟩ := exists_resting_fork
  refine ⟨s, Z, hp, fun h => ?_⟩
  have N := (order_irrelevant_iff Args.default Z hp forkTree).2.mp h
  have := N 6 2 3 (le_of_eq rfl) (forkTree_on (by simp) (by simp)) (forkTree_on (by simp) (by simp))
  simp at this

end MEADcast
