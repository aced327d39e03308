import MEADcast.Sender.RouterTree

/-!
# Discovery of narrow trees in any order

If every router at depth three or more serves a single receiver, the order in which the
responses arrive does not matter.  Only routers at depth one and two are shared then, and what a
response of a router takes from the path of another receiver is put back by later ones.

## Main definitions

* `RouterTree.Narrow` — routers at depth three or more serve one receiver.
* `RouterTree.Settled` — what the responses heard so far guarantee.

## Main results

* `RouterTree.Settled.rsp` — a response keeps `Settled`.
* `RouterTree.Settled.par_eq` — after all responses the tree is the real one.
-/

namespace MEADcast

open ParentMap

namespace RouterTree

variable {ι : Type*} {root : ι} {peers : List ι} {T : RouterTree root peers}
  {heard rest : List (ι × ι)} {v v' : Topo ι} {a q r l n p k z : ι}

/-- Every router at depth three or more serves a single receiver. -/
def Narrow (T : RouterTree root peers) : Prop :=
  ∀ r l l', 3 ≤ T.depth r → T.On r l → T.On r l' → l = l'

/-- Routers at depth two or more that were heard for a receiver are above it.  A router at depth
two is below its real parent unless this was not heard for one of its receivers.  A router at depth
one that was heard for a receiver is above it until a router at depth two is heard. -/
structure Settled (T : RouterTree root peers) (heard : List (ι × ι)) (v : Topo ι) : Prop
    extends T.Sampled heard v where
  deep : ∀ r l, (r, l) ∈ heard → 2 ≤ T.depth r → SUp v.par l r
  second : ∀ r l, (r, l) ∈ heard → T.depth r = 2 →
    v.par r = T.par r ∨ ∃ q l', T.par r = some q ∧ (r, l') ∈ heard ∧ (q, l') ∉ heard
  first : ∀ q l, (q, l) ∈ heard → T.depth q = 1 → (∀ r, (r, l) ∈ heard → T.depth r ≠ 2) →
    SUp v.par l q

/-- What a response leaves behind above the moved node is nearer to the root than the router. -/
theorem Sampled.depth_lt_of_left [DecidableEq ι] (S : T.Sampled heard v)
    (P : T.Stepped v v' r l n p) (hpz : Up v.par p z) (hz : z ≠ r) : T.depth z < T.depth r := by
  have hle := (T.depth_le (S.up hpz)).trans P.climb.key_le
  refine hle.lt_of_ne fun he => hz ?_
  exact T.eq_of_depth (S.up (Up.head P.climb.par_eq hpz)) (Up.of_sUp P.below) he

namespace Settled

variable [DecidableEq ι] (C : T.Settled heard v) (N : T.Narrow) (ho : T.On r l)
  (P : T.Stepped v v' r l n p)

section Second

include C ho P

/-- The router above one at depth two that was heard for the receiver moves it. -/
theorem eq_of_first (hz : (z, l) ∈ heard) (hd : T.depth z = 2) (hr : T.depth r = 1) : z = n := by
  have hup := Up.of_sUp (C.deep z l hz (by omega))
  have hkey := P.climb.key_le
  rcases hup.total P.climb.up_node with hzn | hnz
  · refine hzn.eq_or_sUp.resolve_right fun hs => ?_
    have h₁ := T.depth_lt (C.sUp hs)
    rcases P.climb.eq_or_lt_key with hnl | hlt
    · refine C.not_up_peer (a := z) ho.peer (fun e => ?_) (hnl ▸ Up.of_sUp hs)
      exact (C.on z l hz).not_mem (e ▸ ho.peer)
    · omega
  · rcases hnz.cases_head with h | ⟨y, hy, hyz⟩
    · exact h.symm
    · obtain rfl := Option.some.inj (P.climb.par_eq.symm.trans hy)
      have := T.depth_le (C.up hyz)
      omega

/-- A new router at depth two is put below its real parent if that was heard for the receiver. -/
theorem pos_of_first (hq : T.par r = some q) (hd : T.depth r = 2) (hr : v.par r = none)
    (hm : (q, l) ∈ heard) : p = q := by
  have hdq := T.depth_succ r q hq
  have hup : SUp v.par l q := C.first q l hm (by omega) fun q₂ h₂ hd₂ => by
    have := T.eq_of_depth (Up.of_sUp (C.on q₂ l h₂).above) (Up.of_sUp ho.above) (by omega)
    exact C.attached r l (this ▸ h₂) hr
  have hdp := T.depth_lt (P.above p (by rw [hr, Option.getD_none]))
  refine (C.up_of_stop P.climb hup (by omega)).eq_or_sUp.resolve_right fun hs => ?_
  have := T.depth_lt (C.sUp hs)
  omega

/-- The parent of a router at depth two. -/
theorem second_kept (hz : T.On z k) (hm : (z, k) ∈ heard ++ [(r, l)]) (hd : T.depth z = 2) :
    v'.par z = T.par z ∨ ∃ q l', T.par z = some q ∧ (z, l') ∈ heard ++ [(r, l)] ∧
      (q, l') ∉ heard ++ [(r, l)] := by
  obtain ⟨q, hq⟩ := hz.exists_par
  have hdq := T.depth_succ z q hq
  have hcases : ∀ {x}, x ∈ heard ++ [(r, l)] ↔ x ∈ heard ∨ x = (r, l) := by simp
  by_cases hzn : z = n
  · -- it is moved below its real parent
    subst hzn
    have hdr := ho.depth_pos
    have hlt := T.depth_lt P.below
    rw [P.par_n, hq, T.eq_of_depth (.single hq) (Up.of_sUp P.below) (by omega)]
    exact Or.inl rfl
  -- a parent that was not heard for a receiver is still not heard unless it answers now
  have hold : ∀ l', (z, l') ∈ heard → v'.par z = v.par z →
      v'.par z = T.par z ∨ ∃ q l', T.par z = some q ∧ (z, l') ∈ heard ++ [(r, l)] ∧
        (q, l') ∉ heard ++ [(r, l)] := by
    intro l₀ hl₀ hpar
    rcases C.second z l₀ hl₀ hd with h | ⟨q', l', hq', hl', hno⟩
    · exact Or.inl (hpar.trans h)
    obtain rfl := Option.some.inj (hq.symm.trans hq')
    refine Or.inr ⟨q, l', hq, hcases.mpr (Or.inl hl'), fun hm => ?_⟩
    obtain ⟨rfl, rfl⟩ := Prod.mk.inj ((hcases.mp hm).resolve_left hno)
    exact hzn (C.eq_of_first ho P hl' hd (by omega))
  by_cases hzr : z = r
  · subst hzr
    cases hv : v.par z with
    | some q' =>
        obtain ⟨l₀, hl₀⟩ := (C.node_cases z q' hv).resolve_left ho.not_mem
        exact hold l₀ hl₀ (by rw [P.par_r, hv, Option.getD_some])
    | none =>
        have hparz : v'.par z = some p := by rw [P.par_r, hv, Option.getD_none]
        by_cases hql : (q, l) ∈ heard
        · rw [hparz, C.pos_of_first ho P hq hd hv hql, hq]
          exact Or.inl rfl
        · refine Or.inr ⟨q, l, hq, hcases.mpr (Or.inr rfl), fun hm => ?_⟩
          obtain ⟨rfl, -⟩ := Prod.mk.inj ((hcases.mp hm).resolve_left hql)
          omega
  · have hm' : (z, k) ∈ heard := (hcases.mp hm).resolve_right fun e => hzr (Prod.mk.inj e).1
    exact hold k hm' (P.par_of_ne z hzn hzr)

end Second

include C N ho P

/-- A router at depth three or more that is in the tree was heard for its receiver before, and
the response changes no parent. -/
theorem par_eq_of_deep (hr : v.par r ≠ none) (hd : 3 ≤ T.depth r) : v'.par = v.par := by
  obtain ⟨q, hq⟩ := Option.ne_none_iff_exists'.mp hr
  obtain ⟨l', hl'⟩ := (C.node_cases r q hq).resolve_left ho.not_mem
  obtain rfl := N r l' l hd (C.on r l' hl') ho
  exact P.par_eq (C.stop_eq P.climb (C.deep r l' hl' (by omega))) hr

/-- Routers at depth two or more stay above their receivers. -/
theorem deep_kept (h : SUp v.par k z) (hz : 2 ≤ T.depth z) : SUp v'.par k z := by
  by_cases hpar : v'.par = v.par
  · rwa [hpar]
  refine C.sUp_kept P ho h fun hkn hr hpz => ?_
  by_cases hzr : z = r
  · exact Or.inl hzr
  · have := C.depth_lt_of_left P hpz hzr
    exact absurd (C.par_eq_of_deep N ho P hr (by omega)) hpar

/-- A router at depth one stays above a receiver for which no router at depth two is heard. -/
theorem first_kept (hk : k ∈ peers) (h : SUp v.par k z) (hz : T.depth z = 1)
    (hno : ∀ q, (q, k) ∈ heard ++ [(r, l)] → T.depth q ≠ 2) : SUp v'.par k z := by
  by_cases hpar : v'.par = v.par
  · rwa [hpar]
  refine C.sUp_kept P ho h fun hkn hr hpz => ?_
  by_cases hzr : z = r
  · exact Or.inl hzr
  have hlt := C.depth_lt_of_left P hpz hzr
  have hd : T.depth r = 2 := by
    by_contra hne
    exact hpar (C.par_eq_of_deep N ho P hr (by omega))
  -- what a router at depth two takes away serves one receiver
  have hkl : k = l := by
    by_cases hnl : n = l
    · subst hnl
      by_contra hne
      exact C.not_up_peer ho.peer hne hkn
    · have hln := P.climb.up_node.eq_or_sUp.resolve_left (Ne.symm hnl)
      have hn : n ∉ peers := T.not_mem_of_sUp (C.sUp hln)
      have hnr : n ≠ root := by
        rintro rfl
        exact T.not_sUp_root P.below
      have hdn := T.depth_lt P.below
      refine N n k l (by omega) ⟨hk, ?_, hnr⟩ ⟨ho.peer, C.sUp hln, hnr⟩
      refine C.sUp (hkn.eq_or_sUp.resolve_left ?_)
      rintro rfl
      exact hn hk
  exact absurd hd (hno r (by simp [hkl]))

/-- A response keeps the invariant. -/
theorem rsp (hR : v.Rsp r l (T.depth r) v') : T.Settled (heard ++ [(r, l)]) v' := by
  have S := Sampled.rsp C.toSampled ho hR
  have hnew := C.sUp_rsp P
  have hcases : ∀ {r' l'}, (r', l') ∈ heard ++ [(r, l)] → (r', l') ∈ heard ∨ r' = r ∧ l' = l := by
    intro r' l' hm
    simpa using hm
  refine ⟨S, fun r' l' hm hd => ?_, fun r' l' hm hd => ?_, fun q l' hm hd hno => ?_⟩
  · rcases hcases hm with hm | ⟨rfl, rfl⟩
    · exact C.deep_kept N ho P (C.deep r' l' hm hd) hd
    · exact hnew
  · exact C.second_kept ho P (S.on r' l' hm) hm hd
  · rcases hcases hm with hm | ⟨rfl, rfl⟩
    · refine C.first_kept N ho P (C.on q l' hm).peer (C.first q l' hm hd fun r' h => ?_) hd hno
      exact hno r' (List.mem_append_left _ h)
    · exact hnew

end Settled

/-- All responses of a sequence. -/
theorem Settled.rsps [DecidableEq ι] (C : T.Settled heard v) (N : T.Narrow)
    (hR : Topo.Rsps T.depth v rest v') (hon : ∀ r l, (r, l) ∈ rest → T.On r l) :
    T.Settled (heard ++ rest) v' := by
  refine hR.invariant (fun m v => T.Settled m v) (fun _ r l => T.On r l)
    (fun m r l v v' C ho hR => ?_) heard (fun m r l post e => hon r l (by simp [e])) C
  obtain ⟨n, p, P⟩ := C.stepped ho hR
  exact C.rsp N ho P hR

/-- If the parent of a node in the real tree is above it in the sender's tree, it is its parent
there, too. -/
theorem Sampled.par_eq_of_sUp (S : T.Sampled heard v) (hq : T.par a = some q)
    (h : SUp v.par a q) : v.par a = some q := by
  obtain ⟨q', hq', hup⟩ := SUp.iff_exists.mp h
  rw [hq']
  have hd := T.depth_succ a q hq
  have hlt := T.depth_lt (S.above a q' hq')
  have hle := T.depth_le (S.up hup)
  refine congrArg some (T.eq_of_depth (Up.of_sUp (S.above a q' hq')) (.single hq) (by omega))

/-- After all responses the tree is the real one. -/
theorem Settled.par_eq (C : T.Settled heard v) (hall : ∀ r l, T.On r l → (r, l) ∈ heard) :
    v.par = T.par := by
  have htop : ∀ {a q q'}, v.par a = some q → T.par a = some q' → T.depth q' = 0 → q = q' := by
    intro a q q' hq hq' hd
    have := T.depth_succ a q' hq'
    have := T.depth_lt (C.above a q hq)
    exact T.eq_of_depth (Up.of_sUp (C.above a q hq)) (.single hq') (by omega)
  funext a
  cases hq : T.par a with
  | none =>
      refine Option.eq_none_iff_forall_ne_some.mpr fun q hvq => ?_
      obtain ⟨z, hz, -⟩ := SUp.iff_exists.mp (C.above a q hvq)
      simp [hq] at hz
  | some q =>
      have hda := T.depth_succ a q hq
      by_cases ha : a ∈ peers
      · have habove : SUp T.par a q := .single hq
        obtain ⟨q', hq'⟩ := Option.ne_none_iff_exists'.mp (C.peer_par a ha)
        by_cases hr : q = root
        · rw [hq', htop hq' hq (by rw [hr, T.depth_root])]
        have hon : T.On q a := ⟨ha, habove, hr⟩
        have hm := hall q a hon
        have hd := hon.depth_pos
        refine C.par_eq_of_sUp hq ?_
        by_cases h2 : 2 ≤ T.depth q
        · exact C.deep q a hm h2
        · refine C.first q a hm (by omega) fun r hr' hdr => ?_
          have := T.depth_lt (C.on r a hr').above
          omega
      · obtain ⟨l, hl, hup⟩ := T.covered a q hq ha
        have hr : a ≠ root := by
          rintro rfl
          simp [T.root_par] at hq
        have hon : T.On a l := ⟨hl, hup, hr⟩
        have hm := hall a l hon
        obtain ⟨q', hq'⟩ := Option.ne_none_iff_exists'.mp (C.attached a l hm)
        by_cases h0 : T.depth q = 0
        · rw [hq', htop hq' hq h0]
        have hqr : q ≠ root := by
          rintro rfl
          exact h0 T.depth_root
        have honq : ∀ {l'}, T.On a l' → T.On q l' := fun h => ⟨h.peer, h.above.tail hq, hqr⟩
        by_cases h2 : T.depth a = 2
        · rcases C.second a l hm h2 with h | ⟨q', l', hq', hl', hno⟩
          · rw [h, hq]
          · obtain rfl := Option.some.inj (hq.symm.trans hq')
            exact absurd (hall q l' (honq (C.on a l' hl'))) hno
        · refine C.par_eq_of_sUp hq ?_
          have hla := C.deep a l hm (by omega)
          have hlq := C.deep q l (hall q l (honq hon)) (by omega)
          rcases (Up.of_sUp hla).total (Up.of_sUp hlq) with haq | hqa
          · exact haq.eq_or_sUp.resolve_left fun e => by rw [e] at hda; omega
          · have := T.depth_le (C.up hqa)
            omega

end RouterTree

end MEADcast
