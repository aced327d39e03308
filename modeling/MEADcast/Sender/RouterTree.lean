import MEADcast.Sender.Topology

/-!
# Discovery of a tree of routers

`RouterTree` is the tree between a sender and its receivers as it really is.  Every router on
the path to a receiver answers for it with its depth.  In whatever order such responses arrive,
a node is only ever put below one that is above it in the real tree.

## Main definitions

* `RouterTree` — a rooted tree whose leaves are the receivers.
* `RouterTree.On` — a router is on the path to a receiver.
* `Topo.Rsps` — a sequence of responses of routers with their depths.
* `RouterTree.Sampled` — what holds after any sequence of responses.

## Main results

* `RouterTree.Sampled.rsp` — a response keeps `Sampled`.
* `RouterTree.Sampled.pos` — where a response finds its place.
-/

namespace MEADcast

open ParentMap

/-- The tree of the routers between the sender `root` and the receivers `peers`.  The leaves
are the receivers: every router has one below it. -/
structure RouterTree {ι : Type*} (root : ι) (peers : List ι) where
  par : ι → Option ι
  depth : ι → ℕ
  root_par : par root = none
  rooted : Rooted par root
  depth_root : depth root = 0
  depth_succ : ∀ a q, par a = some q → depth a = depth q + 1
  peer_par : ∀ l ∈ peers, par l ≠ none
  peer_leaf : ∀ a q, par a = some q → q ∉ peers
  covered : ∀ a q, par a = some q → a ∉ peers → ∃ l ∈ peers, SUp par l a

namespace RouterTree

variable {ι : Type*} {root : ι} {peers : List ι} (T : RouterTree root peers) {a b q r l x : ι}

/-- Router `r` is on the path to receiver `l`. -/
structure On (r l : ι) : Prop where
  peer : l ∈ peers
  above : SUp T.par l r
  ne_root : r ≠ root

theorem depth_lt (h : SUp T.par a q) : T.depth q < T.depth a := by
  induction h using Relation.TransGen.head_induction_on with
  | single h => exact Nat.lt_of_succ_le (T.depth_succ _ _ h).ge
  | head h _ ih => exact ih.trans (Nat.lt_of_succ_le (T.depth_succ _ _ h).ge)

theorem depth_le (h : Up T.par a q) : T.depth q ≤ T.depth a := by
  rcases h.eq_or_sUp with rfl | h
  · exact le_rfl
  · exact (T.depth_lt h).le

/-- On one path the depth tells the node. -/
theorem eq_of_depth (ha : Up T.par x a) (hb : Up T.par x b) (h : T.depth a = T.depth b) :
    a = b := by
  rcases ha.total hb with hab | hba
  · exact hab.eq_or_sUp.resolve_right fun hs => by have := T.depth_lt hs; omega
  · exact (hba.eq_or_sUp.resolve_right fun hs => by have := T.depth_lt hs; omega).symm

theorem sUp_of_depth_lt (ha : Up T.par x a) (hb : Up T.par x b) (h : T.depth b < T.depth a) :
    SUp T.par a b := by
  rcases ha.total hb with hab | hba
  · exact hab.eq_or_sUp.resolve_left fun he => by rw [he] at h; omega
  · have := T.depth_le hba
    omega

theorem not_mem_of_sUp (h : SUp T.par a q) : q ∉ peers := by
  obtain ⟨y, -, hy⟩ := Relation.TransGen.tail'_iff.mp h
  exact T.peer_leaf y q hy

theorem not_sUp_root : ¬ SUp T.par root q := by
  intro h
  obtain ⟨z, hz, -⟩ := SUp.iff_exists.mp h
  simp [T.root_par] at hz

variable {T}

theorem On.not_mem (h : T.On r l) : r ∉ peers := T.not_mem_of_sUp h.above

/-- Only the root is above others without being below one. -/
theorem On.exists_par (h : T.On r l) : ∃ q, T.par r = some q := by
  refine Option.ne_none_iff_exists'.mp fun hr => h.ne_root ?_
  obtain ⟨y, hy, hyr⟩ := SUp.iff_exists.mp h.above
  rcases (Up.head hy hyr).total (T.rooted l y hy) with hr' | hr'
  · exact hr'.eq_of_none hr
  · exact (hr'.eq_of_none T.root_par).symm

theorem On.depth_pos (h : T.On r l) : 1 ≤ T.depth r := by
  obtain ⟨q, hq⟩ := h.exists_par
  have := T.depth_succ r q hq
  omega

end RouterTree

/-! ## Sequences of responses -/

namespace Topo

variable {ι : Type*} [DecidableEq ι]

/-- The responses of routers, given with the receivers they answer for, arrive one after the
other. -/
inductive Rsps (depth : ι → ℕ) : Topo ι → List (ι × ι) → Topo ι → Prop
  | nil (v : Topo ι) : Rsps depth v [] v
  | cons {v v₁ v₂ : Topo ι} {r l : ι} {rest : List (ι × ι)} (head : v.Rsp r l (depth r) v₁)
      (tail : Rsps depth v₁ rest v₂) : Rsps depth v ((r, l) :: rest) v₂

/-- What each response keeps holds after all of them. -/
theorem Rsps.invariant {depth : ι → ℕ} {v v' : Topo ι} {rest : List (ι × ι)}
    (P : List (ι × ι) → Topo ι → Prop) (ok : List (ι × ι) → ι → ι → Prop)
    (hstep : ∀ pre r l v v', P pre v → ok pre r l → v.Rsp r l (depth r) v' →
      P (pre ++ [(r, l)]) v')
    (h : Rsps depth v rest v') (pre : List (ι × ι))
    (hok : ∀ m r l post, rest = m ++ (r, l) :: post → ok (pre ++ m) r l) (h₀ : P pre v) :
    P (pre ++ rest) v' := by
  induction h generalizing pre with
  | nil => rwa [List.append_nil]
  | @cons v v₁ v₂ r l rest head _ ih =>
      have h₁ := hstep pre r l _ _ h₀ (by simpa using hok [] r l rest rfl) head
      have := ih (pre ++ [(r, l)]) (fun m r' l' post e => ?_) h₁
      · simpa using this
      · simpa using hok ((r, l) :: m) r' l' post (by rw [e]; rfl)

theorem Rsps.of_append {depth : ι → ℕ} {v v' : Topo ι} {m rest : List (ι × ι)}
    (h : Rsps depth v (m ++ rest) v') : ∃ u, Rsps depth v m u ∧ Rsps depth u rest v' := by
  induction m generalizing v with
  | nil => exact ⟨v, .nil v, h⟩
  | cons x m ih =>
      cases h with
      | cons head tail =>
          obtain ⟨u, h₁, h₂⟩ := ih tail
          exact ⟨u, .cons head h₁, h₂⟩

end Topo

namespace RouterTree

variable {ι : Type*} {root : ι} {peers : List ι} {T : RouterTree root peers}
  {heard : List (ι × ι)} {v v' : Topo ι} {a b q r l n p : ι}

/-- The tree that the sender holds after the responses `heard`: whatever is above a node is
above it in the real tree, and the routers that answered are in the tree with their depths. -/
structure Sampled (T : RouterTree root peers) (heard : List (ι × ι)) (v : Topo ι) : Prop where
  on : ∀ r l, (r, l) ∈ heard → T.On r l
  above : ∀ a q, v.par a = some q → SUp T.par a q
  peer_par : ∀ l ∈ peers, v.par l ≠ none
  root_hops : v.hops root = 0
  hops_eq : ∀ r l, (r, l) ∈ heard → v.hops r = T.depth r
  attached : ∀ r l, (r, l) ∈ heard → v.par r ≠ none
  node_cases : ∀ a q, v.par a = some q → a ∈ peers ∨ ∃ l, (a, l) ∈ heard
  par_cases : ∀ a q, v.par a = some q → q = root ∨ ∃ l, (q, l) ∈ heard

/-- The response of `r` for `l` put `r` above `n` and, if it was not in the tree, below `p`. -/
structure Stepped [DecidableEq ι] (T : RouterTree root peers) (v v' : Topo ι) (r l n p : ι) :
    Prop where
  climb : Climb v.par T.depth (T.depth r) l n p
  par_n : v'.par n = some r
  par_r : v'.par r = some ((v.par r).getD p)
  par_of_ne : ∀ a, a ≠ n → a ≠ r → v'.par a = v.par a
  hops_eq : v'.hops = Function.update v.hops r (T.depth r)
  below : SUp T.par n r
  above : ∀ q, some ((v.par r).getD p) = some q → SUp T.par r q

namespace Stepped

variable [DecidableEq ι] (P : T.Stepped v v' r l n p)

include P

theorem ne : n ≠ r := by
  rintro rfl
  exact (T.depth_lt P.below).false

/-- Where a parent comes from. -/
theorem par_cases (hq : v'.par a = some q) : (a = n ∧ q = r) ∨
    (a = r ∧ some ((v.par r).getD p) = some q) ∨ ((a ≠ n ∧ a ≠ r) ∧ v.par a = some q) := by
  by_cases han : a = n
  · subst han
    exact Or.inl ⟨rfl, (Option.some.inj (P.par_n.symm.trans hq)).symm⟩
  by_cases har : a = r
  · subst har
    exact Or.inr (Or.inl ⟨rfl, P.par_r.symm.trans hq⟩)
  · exact Or.inr (Or.inr ⟨⟨han, har⟩, (P.par_of_ne a han har).symm.trans hq⟩)

/-- No node leaves the tree. -/
theorem par_ne_none (ha : v.par a ≠ none) : v'.par a ≠ none := by
  by_cases han : a = n
  · simp [han, P.par_n]
  by_cases har : a = r
  · simp [har, P.par_r]
  · rwa [P.par_of_ne a han har]

/-- If the router was above the receiver already, no parent changes. -/
theorem par_eq (hp : p = r) (hr : v.par r ≠ none) : v'.par = v.par := by
  obtain ⟨q, hq⟩ := Option.ne_none_iff_exists'.mp hr
  funext a
  by_cases han : a = n
  · rw [han, P.par_n, P.climb.par_eq, hp]
  by_cases har : a = r
  · rw [har, P.par_r, hq, Option.getD_some]
  · exact P.par_of_ne a han har

end Stepped

namespace Sampled

variable (S : T.Sampled heard v)

include S

theorem sUp (h : SUp v.par a q) : SUp T.par a q := by
  induction h with
  | single h => exact S.above _ _ h
  | tail _ h ih => exact ih.trans (S.above _ _ h)

theorem up (h : Up v.par a q) : Up T.par a q := by
  rcases h.eq_or_sUp with rfl | h
  · exact Up.refl _ _
  · exact Up.of_sUp (S.sUp h)

theorem not_sUp_self : ¬ SUp v.par a a := fun h => (T.depth_lt (S.sUp h)).false

/-- Whatever is above another node has its depth as hop count. -/
theorem hops_of_sUp (h : SUp v.par a q) : v.hops q = T.depth q := by
  obtain ⟨y, -, hy⟩ := Relation.TransGen.tail'_iff.mp h
  rcases S.par_cases y q hy with rfl | ⟨l, hl⟩
  · rw [S.root_hops, T.depth_root]
  · exact S.hops_eq q l hl

/-- The place of a router: it is above the node it is put above, and below the node it is put
below unless it is that node. -/
theorem pos (ho : T.On r l) (c : Climb v.par T.depth (T.depth r) l n p) :
    SUp T.par n r ∧ (p = r ∨ SUp T.par r p) := by
  have hn := S.up c.up_node
  have hp := S.up c.up_stop
  have hr := Up.of_sUp ho.above
  constructor
  · rcases c.eq_or_lt_key with rfl | hlt
    · exact ho.above
    · exact T.sUp_of_depth_lt hn hr hlt
  · rcases c.key_le.lt_or_eq with hlt | heq
    · exact Or.inr (T.sUp_of_depth_lt hr hp hlt)
    · exact Or.inl (T.eq_of_depth hp hr heq)

/-- The search goes past no node that is near enough. -/
theorem up_of_stop {k : ℕ} (c : Climb v.par T.depth k l n p) (h : SUp v.par l q)
    (hq : T.depth q ≤ k) : Up v.par p q := by
  rcases (Up.of_sUp h).total c.up_stop with hqp | hpq
  · rcases hqp.eq_or_sUp with rfl | hs
    · exact Up.refl _ _
    have hqn : Up v.par q n := by
      rcases (Up.of_sUp h).total c.up_node with hqn | hnq
      · exact hqn
      · rcases hnq.cases_head with rfl | ⟨z, hz, hzq⟩
        · exact Up.refl _ _
        · obtain rfl := Option.some.inj (c.par_eq.symm.trans hz)
          exact absurd (Relation.TransGen.trans_left hs hzq) S.not_sUp_self
    have := c.lt_key_of_passed h hqn S.not_sUp_self
    omega
  · exact hpq

/-- If the router is above the receiver already, the search stops there. -/
theorem stop_eq (c : Climb v.par T.depth (T.depth r) l n p) (h : SUp v.par l r) : p = r := by
  refine (S.up_of_stop c h le_rfl).eq_or_sUp.resolve_right fun hs => ?_
  have := T.depth_lt (S.sUp hs)
  have := c.key_le
  omega

/-- A receiver is above no other node. -/
theorem not_up_peer (hl : l ∈ peers) (ha : a ≠ l) : ¬ Up v.par a l := fun h =>
  T.not_mem_of_sUp (S.sUp (h.eq_or_sUp.resolve_left ha)) hl

/-- A router above another node is in the tree. -/
theorem par_of_sUp (h : SUp v.par a q) (hq : q ≠ root) : v.par q ≠ none := by
  obtain ⟨y, -, hy⟩ := Relation.TransGen.tail'_iff.mp h
  obtain ⟨l, hl⟩ := (S.par_cases y q hy).resolve_left hq
  exact S.attached q l hl

variable [DecidableEq ι]

/-- The position search reads depths. -/
theorem climb_depth {k : ℕ} (c : Climb v.par (Function.update v.hops r (T.depth r)) k l n p) :
    Climb v.par T.depth k l n p := by
  refine c.congr (fun _ _ => rfl) fun z hz => ?_
  by_cases hzr : z = r
  · subst hzr
    rw [Function.update_self]
  · rw [Function.update_of_ne hzr, S.hops_of_sUp hz]

/-- A response in the tree. -/
theorem stepped (ho : T.On r l) (h : v.Rsp r l (T.depth r) v') : ∃ n p, T.Stepped v v' r l n p := by
  obtain ⟨n, p, c, rfl⟩ := h
  have c := S.climb_depth c
  obtain ⟨hnr, hp⟩ := S.pos ho c
  have hne : n ≠ r := by
    rintro rfl
    exact (T.depth_lt hnr).false
  refine ⟨n, p, c, Function.update_self _ _ _, ?_, fun a han har => ?_, rfl, hnr, fun q hq => ?_⟩
  · change placed v.par r n p r = _
    rw [placed, Function.update_of_ne hne.symm, Function.update_self]
  · change placed v.par r n p a = _
    rw [placed, Function.update_of_ne han, Function.update_of_ne har]
  · cases hv : v.par r with
    | some q' =>
        obtain rfl : q' = q := by simpa [hv] using hq
        exact S.above r q' hv
    | none =>
        obtain rfl : p = q := by simpa [hv] using hq
        -- a router that is not in the tree is not the one it is put below
        refine hp.resolve_left fun hpr => ?_
        rcases S.par_cases n p c.par_eq with h | ⟨l', hl'⟩
        · exact ho.ne_root (hpr.symm.trans h)
        · exact S.attached p l' hl' (hpr ▸ hv)

/-- A response keeps the invariant. -/
theorem rsp (ho : T.On r l) (h : v.Rsp r l (T.depth r) v') :
    T.Sampled (heard ++ [(r, l)]) v' := by
  obtain ⟨n, p, P⟩ := S.stepped ho h
  have hmem : ∀ {a}, (∃ l, (a, l) ∈ heard) → ∃ l', (a, l') ∈ heard ++ [(r, l)] :=
    fun ⟨l', h⟩ => ⟨l', List.mem_append_left _ h⟩
  have hnew : ∃ l', (r, l') ∈ heard ++ [(r, l)] := ⟨l, by simp⟩
  have hcases : ∀ {r' l'}, (r', l') ∈ heard ++ [(r, l)] → (r', l') ∈ heard ∨ r' = r ∧ l' = l := by
    intro r' l' hm
    simpa using hm
  constructor
  · intro r' l' hm
    rcases hcases hm with hm | ⟨rfl, rfl⟩
    · exact S.on r' l' hm
    · exact ho
  · intro a q hq
    rcases P.par_cases hq with ⟨rfl, rfl⟩ | ⟨rfl, h⟩ | ⟨-, h⟩
    · exact P.below
    · exact P.above q h
    · exact S.above a q h
  · intro l' hl'
    exact P.par_ne_none (S.peer_par l' hl')
  · rw [P.hops_eq, Function.update_of_ne ho.ne_root.symm, S.root_hops]
  · intro r' l' hm
    by_cases hr : r' = r
    · rw [P.hops_eq, hr, Function.update_self]
    · rw [P.hops_eq, Function.update_of_ne hr]
      exact S.hops_eq r' l' ((hcases hm).resolve_right fun h => hr h.1)
  · intro r' l' hm
    by_cases hr : r' = r
    · simp [hr, P.par_r]
    · exact P.par_ne_none (S.attached r' l' ((hcases hm).resolve_right fun h => hr h.1))
  · intro a q hq
    rcases P.par_cases hq with ⟨rfl, -⟩ | ⟨rfl, -⟩ | ⟨-, h⟩
    · exact (S.node_cases _ p P.climb.par_eq).imp_right hmem
    · exact Or.inr hnew
    · exact (S.node_cases a q h).imp_right hmem
  · intro a q hq
    rcases P.par_cases hq with ⟨-, rfl⟩ | ⟨-, h⟩ | ⟨-, h⟩
    · exact Or.inr hnew
    · cases hv : v.par r with
      | none =>
          obtain rfl : p = q := by simpa [hv] using h
          exact (S.par_cases n p P.climb.par_eq).imp_right hmem
      | some q' =>
          obtain rfl : q' = q := by simpa [hv] using h
          exact (S.par_cases r q' hv).imp_right hmem
    · exact (S.par_cases a q h).imp_right hmem

end Sampled

/-! ## Which paths a response keeps -/

namespace Sampled

variable [DecidableEq ι] {k z : ι} (S : T.Sampled heard v) (P : T.Stepped v v' r l n p)

include P in
theorem par_kept (ha : a ≠ n) (har : a = r → v.par r ≠ none) : v'.par a = v.par a := by
  by_cases h : a = r
  · subst h
    obtain ⟨q, hq⟩ := Option.ne_none_iff_exists'.mp (har rfl)
    rw [P.par_r, hq, Option.getD_some]
  · exact P.par_of_ne a ha h

include P in
/-- Paths that avoid the moved node stay. -/
theorem up_of_not_up (h : Up v.par a z) (hn : ¬ Up v.par a n)
    (hr : Up v.par a r → v.par r ≠ none) : Up v'.par a z := by
  refine h.congr fun y hy => par_kept P ?_ fun e => hr (e ▸ hy)
  rintro rfl
  exact hn hy

include S P in
/-- Paths that end below the moved node, or at it, stay. -/
theorem up_of_up (h : Up v.par a z) (hn : Up v.par z n) : Up v'.par a z := by
  induction h using Relation.ReflTransGen.head_induction_on with
  | refl => exact Up.refl _ _
  | @head a b hab h ih =>
      refine Up.head (Eq.trans (par_kept P ?_ fun e => ?_) hab) ih
      · rintro rfl
        exact S.not_sUp_self (SUp.iff_exists.mpr ⟨b, hab, h.trans hn⟩)
      · rw [← e, hab]
        simp

include S P in
/-- What is above a receiver stays there, unless the moved node leaves it behind. -/
theorem sUp_kept (ho : T.On r l) (h : SUp v.par k z)
    (hlost : Up v.par k n → v.par r ≠ none → Up v.par p z → z = r ∨ SUp v.par r z) :
    SUp v'.par k z := by
  have hkz : k ≠ z := fun e => S.not_sUp_self (e ▸ h)
  suffices hup : Up v'.par k z from hup.eq_or_sUp.resolve_left hkz
  have hatt : ∀ {a}, a ≠ r → Up v.par a r → v.par r ≠ none := fun ha hr =>
    S.par_of_sUp (hr.eq_or_sUp.resolve_left ha) ho.ne_root
  have hrn : ¬ Up v.par r n := fun hu => by
    have h₁ := T.depth_le (S.up hu)
    have h₂ := T.depth_lt P.below
    omega
  by_cases hkn : Up v.par k n
  · rcases (Up.of_sUp h).total hkn with hzn | hnz
    · exact S.up_of_up P (Up.of_sUp h) hzn
    rcases hnz.cases_head with rfl | ⟨y, hy, hyz⟩
    · exact S.up_of_up P hkn (Up.refl _ _)
    obtain rfl := Option.some.inj (P.climb.par_eq.symm.trans hy)
    refine ((S.up_of_up P hkn (Up.refl _ _)).tail P.par_n).trans ?_
    by_cases hr : v.par r = none
    · have hpn : ¬ Up v.par p n := fun hu =>
        S.not_sUp_self (SUp.iff_exists.mpr ⟨p, hy, hu⟩)
      refine Up.head (by rw [P.par_r, hr, Option.getD_none]) (up_of_not_up P hyz hpn fun hu => ?_)
      exact S.par_of_sUp (SUp.iff_exists.mpr ⟨p, hy, hu⟩) ho.ne_root
    · rcases hlost hkn hr hyz with rfl | hs
      · exact Up.refl _ _
      · exact up_of_not_up P (Up.of_sUp hs) hrn fun _ => hr
  · refine up_of_not_up P (Up.of_sUp h) hkn fun hu => ?_
    by_cases hkr : k = r
    · obtain ⟨q, hq, -⟩ := SUp.iff_exists.mp h
      simp [← hkr, hq]
    · exact hatt hkr hu

include S P in
/-- The router is above the receiver it answers for. -/
theorem sUp_rsp : SUp v'.par l r :=
  Relation.TransGen.tail' (S.up_of_up P P.climb.up_node (Up.refl _ _)) P.par_n

end Sampled

end RouterTree

end MEADcast
