import MEADcast.Sender.Isolation
import MEADcast.Sender.RouterTree

/-!
# Discovery rebuilds the tree

If the routers on the path to each receiver are first heard in the order of their depth, then
the sender holds the union of the path prefixes that were heard, whatever the interleaving of
the receivers and however often responses are repeated.

## Main definitions

* `RouterTree.Gapless` — no router is heard for a receiver before the router above it.
* `RouterTree.Union` — the tree is the union of the path prefixes heard.

## Main results

* `rebuild_of_responses` — it is, after every prefix of such a sequence.
-/

namespace MEADcast

open ParentMap

namespace RouterTree

section Union

variable {ι : Type*} {root : ι} {peers : List ι} (T : RouterTree root peers)
  (heard : List (ι × ι))

/-- No router is heard for a receiver before the router above it, unless that is the root. -/
def Gapless : Prop := ∀ pre r l post, heard = pre ++ (r, l) :: post →
  ∃ q, T.par r = some q ∧ (q = root ∨ (q, l) ∈ pre)

/-- The deepest router heard for the receiver, or the root if none was. -/
def Deepest (l q : ι) : Prop :=
  (q = root ∧ ∀ r, (r, l) ∉ heard) ∨
    ((q, l) ∈ heard ∧ ∀ r, (r, l) ∈ heard → T.depth r ≤ T.depth q)

/-- The tree is the union of the path prefixes heard: a router that was heard for some receiver
is below its real parent and has its depth as hop count, each receiver is below the deepest
router heard for it, and nothing else is in the tree. -/
structure Union (v : Topo ι) : Prop where
  router : ∀ r l, (r, l) ∈ heard → v.par r = T.par r ∧ v.hops r = T.depth r
  peer : ∀ l ∈ peers, ∃ q, v.par l = some q ∧ T.Deepest heard l q
  other : ∀ a, a ∉ peers → (∀ l, (a, l) ∉ heard) → v.par a = none

/-- After each prefix of a sequence without gaps, the routers above a router that was heard
for a receiver were heard for it, too. -/
structure Known (v : Topo ι) : Prop extends T.Sampled heard v, T.Union heard v where
  closed : ∀ r l, (r, l) ∈ heard → ∃ q, T.par r = some q ∧ (q = root ∨ (q, l) ∈ heard)

variable {T heard} {rest : List (ι × ι)} {v v' : Topo ι} {r l q z : ι}

/-- One more response without a gap. -/
theorem Gapless.concat (h : T.Gapless heard) (hq : T.par r = some q)
    (hql : q = root ∨ (q, l) ∈ heard) : T.Gapless (heard ++ [(r, l)]) := by
  intro pre r' l' post e
  rcases List.eq_nil_or_concat post with rfl | ⟨post, x, rfl⟩
  · obtain ⟨rfl, he⟩ := List.append_inj' e rfl
    obtain ⟨rfl, rfl⟩ := Prod.mk.inj (List.cons.inj he).1
    exact ⟨q, hq, hql⟩
  · rw [List.concat_eq_append, ← List.cons_append, ← List.append_assoc] at e
    exact h pre r' l' post (List.append_inj' e rfl).1

namespace Known

variable (K : T.Known heard v)

include K

/-- The routers above a router that was heard are above it in the sender's tree. -/
theorem up_of_heard (hz : (z, l) ∈ heard) (h : Up T.par z r) (hr : r ≠ root) :
    Up v.par z r ∧ (r, l) ∈ heard := by
  induction h using Relation.ReflTransGen.head_induction_on with
  | refl => exact ⟨Up.refl _ _, hz⟩
  | @head z y hzy h ih =>
      obtain ⟨q, hq, hql⟩ := K.closed z l hz
      obtain rfl := Option.some.inj (hzy.symm.trans hq)
      have hyl := hql.resolve_left fun he => by
        rw [he] at h
        exact hr (Up.eq_of_none h T.root_par).symm
      obtain ⟨h₁, h₂⟩ := ih hyl
      exact ⟨Up.head ((K.router z l hz).1.trans hzy) h₁, h₂⟩

/-- A router that was heard for a receiver is above it in the sender's tree. -/
theorem sUp_of_heard (h : (r, l) ∈ heard) : SUp v.par l r := by
  have ho := K.on r l h
  obtain ⟨q, hq, hd⟩ := K.peer l ho.peer
  have hql := hd.resolve_left fun hn => hn.2 r h
  have hqr : Up T.par q r := by
    have hqo := K.on q l hql.1
    rcases (Up.of_sUp hqo.above).total (Up.of_sUp ho.above) with hqr | hrq
    · exact hqr
    · rcases hrq.eq_or_sUp with rfl | hs
      · exact Up.refl _ _
      · have := T.depth_lt hs
        have := hql.2 r h
        omega
  exact SUp.iff_exists.mpr ⟨q, hq, (K.up_of_heard hql.1 hqr ho.ne_root).1⟩

/-- A router that was not heard for a receiver, below one that was, is the next one on the
path: the receiver hangs below the router above it. -/
theorem par_of_new (ho : T.On r l) (hnew : (r, l) ∉ heard) (hq : T.par r = some q)
    (hql : q = root ∨ (q, l) ∈ heard) : v.par l = some q := by
  obtain ⟨q₀, hq₀, hd⟩ := K.peer l ho.peer
  have hup : Up T.par l q := (Up.of_sUp ho.above).tail hq
  have hlt : ∀ z, (z, l) ∈ heard → T.depth z < T.depth r := by
    intro z hz
    by_contra hle
    have hzo := Up.of_sUp (K.on z l hz).above
    rcases Nat.lt_or_ge (T.depth r) (T.depth z) with hlt | hge
    · have hs := T.sUp_of_depth_lt hzo (Up.of_sUp ho.above) hlt
      exact hnew (K.up_of_heard hz (Up.of_sUp hs) ho.ne_root).2
    · have := T.eq_of_depth hzo (Up.of_sUp ho.above) (by omega)
      exact hnew (this ▸ hz)
  rw [hq₀]
  have hdr := T.depth_succ r q hq
  rcases hd with ⟨rfl, hno⟩ | ⟨hm, hmax⟩
  · rw [hql.resolve_right (hno q)]
  · have hlt₀ := hlt q₀ hm
    have hle : T.depth q ≤ T.depth q₀ := by
      rcases hql with rfl | hql
      · rw [T.depth_root]
        exact Nat.zero_le _
      · exact hmax q hql
    rw [T.eq_of_depth (Up.of_sUp (K.on q₀ l hm).above) hup (by omega)]

variable [DecidableEq ι]

/-- A repeated response changes nothing. -/
theorem rsp_again (h : (r, l) ∈ heard) (hR : v.Rsp r l (T.depth r) v') :
    T.Known (heard ++ [(r, l)]) v' := by
  have ho := K.on r l h
  obtain ⟨n, p, P⟩ := K.stepped ho hR
  have hpar := P.par_eq (K.stop_eq P.climb (K.sUp_of_heard h)) (K.attached r l h)
  have hhops : v'.hops = v.hops := by
    rw [P.hops_eq, ← K.hops_eq r l h, Function.update_eq_self]
  have hmem : ∀ x, x ∈ heard ++ [(r, l)] ↔ x ∈ heard := by
    intro x
    simp only [List.mem_append, List.mem_singleton, or_iff_left_iff_imp]
    rintro rfl
    exact h
  refine ⟨K.rsp ho hR, ⟨?_, ?_, ?_⟩, ?_⟩
  · intro r' l' hm
    rw [hpar, hhops]
    exact K.router r' l' ((hmem _).mp hm)
  · intro l' hl'
    rw [hpar]
    simpa only [Deepest, hmem] using K.peer l' hl'
  · intro a ha hno
    rw [hpar]
    exact K.other a ha fun l' hm => hno l' ((hmem _).mpr hm)
  · simpa only [hmem] using K.closed

/-- The first response of the next router on the path. -/
theorem rsp_new (ho : T.On r l) (hnew : (r, l) ∉ heard) (hq : T.par r = some q)
    (hql : q = root ∨ (q, l) ∈ heard) (hR : v.Rsp r l (T.depth r) v') :
    T.Known (heard ++ [(r, l)]) v' := by
  obtain ⟨n, p, P⟩ := K.stepped ho hR
  have hdr := T.depth_succ r q hq
  have hlq := K.par_of_new ho hnew hq hql
  obtain ⟨rfl, rfl⟩ := P.climb.det (.here hlq (by omega))
  have hcases : ∀ {r' l'}, (r', l') ∈ heard ++ [(r, n)] → (r', l') ∈ heard ∨ r' = r ∧ l' = n := by
    intro r' l' hm
    simpa using hm
  have hr : v'.par r = T.par r := by
    rw [P.par_r, hq]
    by_cases hex : ∃ l', (r, l') ∈ heard
    · obtain ⟨l', hl'⟩ := hex
      rw [(K.router r l' hl').1, hq, Option.getD_some]
    · rw [K.other r ho.not_mem fun l' hm => hex ⟨l', hm⟩, Option.getD_none]
  refine ⟨K.rsp ho hR, ⟨?_, ?_, ?_⟩, ?_⟩
  · intro r' l' hm
    by_cases hr' : r' = r
    · rw [hr', hr, P.hops_eq, Function.update_self]
      exact ⟨rfl, rfl⟩
    · have hm := (hcases hm).resolve_right fun h => hr' h.1
      have hrn : r' ≠ n := fun h => (K.on r' l' hm).not_mem (h ▸ ho.peer)
      rw [P.par_of_ne r' hrn hr', P.hops_eq, Function.update_of_ne hr']
      exact K.router r' l' hm
  · intro l' hl'
    by_cases hln : l' = n
    · rw [hln]
      refine ⟨r, P.par_n, Or.inr ⟨by simp, fun r' hm => ?_⟩⟩
      rcases hcases hm with hm | ⟨rfl, -⟩
      · by_contra hle
        have hs := T.sUp_of_depth_lt (Up.of_sUp (K.on r' n hm).above) (Up.of_sUp ho.above)
          (by omega)
        exact hnew (K.up_of_heard hm (Up.of_sUp hs) ho.ne_root).2
      · exact le_rfl
    · rw [P.par_of_ne l' hln fun h => ho.not_mem (h ▸ hl')]
      obtain ⟨q', hq', hd⟩ := K.peer l' hl'
      refine ⟨q', hq', hd.imp (fun h => ⟨h.1, fun r' hm => ?_⟩) fun h =>
        ⟨List.mem_append_left _ h.1, fun r' hm => ?_⟩⟩
      · exact h.2 r' ((hcases hm).resolve_right fun e => hln e.2)
      · exact h.2 r' ((hcases hm).resolve_right fun e => hln e.2)
  · intro a ha hno
    have han : a ≠ n := fun h => ha (h ▸ ho.peer)
    have har : a ≠ r := fun h => hno n (by simp [h])
    rw [P.par_of_ne a han har]
    exact K.other a ha fun l' hm => hno l' (List.mem_append_left _ hm)
  · intro r' l' hm
    rcases hcases hm with hm | ⟨rfl, rfl⟩
    · obtain ⟨q', h₁, h₂⟩ := K.closed r' l' hm
      exact ⟨q', h₁, h₂.imp_right (List.mem_append_left _)⟩
    · exact ⟨_, hq, hql.imp_right (List.mem_append_left _)⟩

/-- All responses of a sequence without gaps. -/
theorem rsps (hR : Topo.Rsps T.depth v rest v') (hon : ∀ r l, (r, l) ∈ rest → T.On r l)
    (hgap : T.Gapless (heard ++ rest)) : T.Known (heard ++ rest) v' := by
  refine hR.invariant (fun m v => T.Known m v)
    (fun m r l => T.On r l ∧ ∃ q, T.par r = some q ∧ (q = root ∨ (q, l) ∈ m))
    (fun m r l v v' K ho hR => ?_) heard (fun m r l post e => ⟨hon r l (by simp [e]), ?_⟩) K
  · obtain ⟨q, hq, hql⟩ := ho.2
    by_cases hm : (r, l) ∈ m
    · exact K.rsp_again hm hR
    · exact K.rsp_new ho.1 hm hq hql hR
  · exact hgap (heard ++ m) r l post (by simp [e])

end Known

/-- The union of complete paths is the tree itself. -/
theorem Union.par_eq (U : T.Union heard v) (hon : ∀ r l, (r, l) ∈ heard → T.On r l)
    (hall : ∀ r l, T.On r l → (r, l) ∈ heard) : v.par = T.par := by
  funext a
  by_cases ha : a ∈ peers
  · obtain ⟨q, hq, hd⟩ := U.peer a ha
    obtain ⟨q', hq'⟩ := Option.ne_none_iff_exists'.mp (T.peer_par a ha)
    have habove : SUp T.par a q' := SUp.iff_exists.mpr ⟨q', hq', Up.refl _ _⟩
    have hon' : q' = root ∨ (q', a) ∈ heard := by
      by_cases hr : q' = root
      · exact Or.inl hr
      · exact Or.inr (hall q' a ⟨ha, habove, hr⟩)
    rw [hq, hq']
    rcases hd with ⟨rfl, hno⟩ | ⟨hm, hmax⟩
    · rw [hon'.resolve_right (hno q')]
    · have hqa := (hon q a hm).above
      have hd' := T.depth_succ a q' hq'
      have hlt := T.depth_lt hqa
      have hle : T.depth q' ≤ T.depth q := by
        rcases hon' with rfl | hm'
        · rw [T.depth_root]
          exact Nat.zero_le _
        · exact hmax q' hm'
      rw [T.eq_of_depth (Up.of_sUp hqa) (Up.of_sUp habove) (by omega)]
  · cases hp : T.par a with
    | none =>
        refine U.other a ha fun l hm => ?_
        obtain ⟨q, hq⟩ := (hon a l hm).exists_par
        simp [hq] at hp
    | some q =>
        obtain ⟨l, hl, hup⟩ := T.covered a q hp ha
        have hr : a ≠ root := by
          rintro rfl
          simp [T.root_par] at hp
        rw [(U.router a l (hall a l ⟨hl, hup, hr⟩)).1, hp]

end Union

/-- The responses of routers, given with the receivers they answer for. -/
def ops {addr : In6Addr} {peers : List In6Addr} (T : RouterTree addr peers)
    (heard : List (In6Addr × In6Addr)) : List Op :=
  heard.map fun x => .rsp x.1 x.2 (T.depth x.1)

end RouterTree

namespace Sender

variable {args : Args} {s s' : Sender} {root : NodeId} {addr : In6Addr}
  {seen : In6Addr → Option ℕ} {peers : List In6Addr} {T : RouterTree addr peers}
  {heard : List (In6Addr × In6Addr)}

/-- Routers that report their depths report constant hop counts. -/
theorem seen_update {depth : In6Addr → ℕ} (h : ∀ a b, seen a = some b → b = depth a) (r : In6Addr) :
    ∀ a b, Function.update seen r (some (depth r)) a = some b → b = depth a := by
  intro a b hab
  by_cases har : a = r
  · subst har
    simpa using hab.symm
  · exact h a b (by simpa [har] using hab)

/-- Responses of routers on the paths are responses of the tree under addresses. -/
theorem Phased.rsps (G : s.Phased root addr seen) (hp : s.peers = peers)
    (hseen : ∀ a b, seen a = some b → b = T.depth a)
    (hon : ∀ r l, (r, l) ∈ heard → T.On r l) (hrun : Run args s (T.ops heard) s') :
    Topo.Rsps T.depth s.view heard s'.view ∧ (∃ seen', s'.Phased root addr seen') ∧
      s'.peers = peers := by
  induction heard generalizing s seen with
  | nil =>
      cases hrun
      exact ⟨.nil _, ⟨_, G⟩, hp⟩
  | cons x heard ih =>
      obtain ⟨r, l⟩ := x
      have ho := hon r l (by simp)
      cases hrun with
      | cons ret hc tail =>
          have hb : ∀ b, seen r = some b → b = T.depth r := hseen r
          have G' := G.step (fun _ _ _ e => by
            obtain ⟨rfl, rfl, rfl⟩ := Op.rsp.inj e
            exact ⟨hb, fun h => absurd h ho.ne_root⟩) hc
          rcases G.rsp_cases ho.ne_root hc with ⟨-, hno⟩ | ⟨-, k, n, p, ha, A⟩
          · exact absurd ⟨hp ▸ ho.peer, fun h => ho.not_mem (hp ▸ h)⟩ hno
          · obtain ⟨h₁, h₂⟩ := ih G' ((A.peers_eq G.inv).trans hp) (seen_update hseen r)
              (fun r' l' h => hon r' l' (by simp [h])) tail
            exact ⟨.cons (A.view_rsp G.inv ha) h₁, h₂⟩

/-- They are processed to their end. -/
theorem Resting.exists_run_ops (args : Args) (Z : s.Resting root addr)
    (hon : ∀ r l, (r, l) ∈ heard → T.On r l) : ∃ s', Run args s (T.ops heard) s' := by
  have hsteady : ∀ (heard : List (In6Addr × In6Addr)) (seen : In6Addr → Option ℕ),
      (∀ r l, (r, l) ∈ heard → T.On r l) → (∀ a b, seen a = some b → b = T.depth a) →
        Steady seen (T.ops heard) := by
    intro heard
    induction heard with
    | nil => exact fun _ _ _ => trivial
    | cons x heard ih =>
        intro seen hon hseen
        exact ⟨(hon x.1 x.2 (by simp)).depth_pos, hseen x.1,
          ih _ (fun r l h => hon r l (by simp [h])) (seen_update hseen x.1)⟩
  have hops : ∀ op ∈ T.ops heard, op.IsRsp ∧ op.NotFrom addr := by
    intro op hop
    obtain ⟨x, hx, rfl⟩ := List.mem_map.mp hop
    have ho := hon x.1 x.2 hx
    exact ⟨trivial, ho.ne_root, ho.depth_pos⟩
  obtain ⟨s', -, h, -⟩ := Z.phased.exists_run args (fun op h => (hops op h).1)
    (hsteady heard _ hon (by simp)) fun op h => (hops op h).2
  exact ⟨s', h⟩

/-- Before the first response nothing has been heard. -/
theorem Resting.known (Z : s.Resting root addr) (hp : s.peers = peers)
    (T : RouterTree addr peers) : T.Known [] s.view := by
  subst hp
  have hroot : s.view.hops addr = 0 := Z.hops _
  have hpar : ∀ l ∈ s.peers, s.view.par l = some addr := fun l hl => (Z.view_par l addr).mpr ⟨rfl, hl⟩
  refine ⟨⟨by simp, fun a q hq => ?_, fun l hl => by simp [hpar l hl], hroot, by simp, by simp,
    fun a q hq => Or.inl ((Z.view_par a q).mp hq).2, fun a q hq => Or.inl ((Z.view_par a q).mp hq).1⟩,
    ⟨by simp, fun l hl => ⟨addr, hpar l hl, Or.inl ⟨rfl, by simp⟩⟩, fun a ha _ => ?_⟩, by simp⟩
  · obtain ⟨rfl, ha⟩ := (Z.view_par a q).mp hq
    obtain ⟨p, hp⟩ := Option.ne_none_iff_exists'.mp (T.peer_par a ha)
    rcases (T.rooted a p hp).eq_or_sUp with h | h
    · rw [h, T.root_par] at hp
      simp at hp
    · exact h
  · refine Option.eq_none_iff_forall_ne_some.mpr fun q hq => ?_
    exact ha ((Z.view_par a q).mp hq).2

end Sender

/-- From a resting sender, let the routers on the paths to the receivers answer in any
interleaving and with any repetitions, but so that no router is heard for a receiver before the
router above it.  After every prefix of the responses the sender's tree is the union of the path
prefixes heard, and if all routers were heard for all their receivers, it is the real tree. -/
theorem rebuild_of_responses (args : Args) {s : Sender} {root : NodeId} {addr : In6Addr}
    {peers : List In6Addr} (Z : s.Resting root addr) (hpeers : s.peers = peers)
    (T : RouterTree addr peers) {heard : List (In6Addr × In6Addr)}
    (hon : ∀ r l, (r, l) ∈ heard → T.On r l) (hgap : T.Gapless heard) :
    ∀ pre, pre <+: heard → (∃ s', Run args s (T.ops pre) s') ∧
      ∀ s', Run args s (T.ops pre) s' → T.Union pre s'.view ∧ s'.view.Listed (· ∈ peers) ∧
        ((∀ r l, T.On r l → (r, l) ∈ pre) → s'.view.par = T.par) := by
  rintro pre ⟨rest, rfl⟩
  have hon' : ∀ r l, (r, l) ∈ pre → T.On r l := fun r l h => hon r l (List.mem_append_left _ h)
  refine ⟨Z.exists_run_ops args hon', fun s' hrun => ?_⟩
  obtain ⟨R, ⟨_, G'⟩, hp⟩ := Z.phased.rsps hpeers (by simp) hon' hrun
  have hgap' : T.Gapless pre := fun m r l post e => hgap m r l (post ++ rest) (by simp [e])
  have K : T.Known pre s'.view := (Z.known hpeers T).rsps R hon' hgap'
  refine ⟨K.toUnion, ?_, fun hall => K.toUnion.par_eq hon' hall⟩
  have := G'.inv.view_listed
  rwa [hp] at this

/-- A chain of three routers `4`, `5` and `6` with the receivers `2` and `3` below the last. -/
def forkPar (a : In6Addr) : Option In6Addr :=
  if a = 2 ∨ a = 3 then some 6 else if a = 6 then some 5 else if a = 5 then some 4
  else if a = 4 then some 1 else none

def forkDepth (a : In6Addr) : ℕ :=
  if a = 2 ∨ a = 3 then 4 else if a = 6 then 3 else if a = 5 then 2 else if a = 4 then 1 else 0

theorem forkPar_cases {a q : In6Addr} (h : forkPar a = some q) :
    (a = 2 ∨ a = 3) ∧ q = 6 ∨ a = 6 ∧ q = 5 ∨ a = 5 ∧ q = 4 ∨ a = 4 ∧ q = 1 := by
  unfold forkPar at h
  split_ifs at h with h1 h2 h3 h4
  · exact Or.inl ⟨h1, (Option.some.inj h).symm⟩
  · exact Or.inr (Or.inl ⟨h2, (Option.some.inj h).symm⟩)
  · exact Or.inr (Or.inr (Or.inl ⟨h3, (Option.some.inj h).symm⟩))
  · exact Or.inr (Or.inr (Or.inr ⟨h4, (Option.some.inj h).symm⟩))

theorem fork_sUp {l r : In6Addr} (hl : l ∈ [(3 : In6Addr), 2]) (hr : r ∈ [(6 : In6Addr), 5, 4]) :
    SUp forkPar l r := by
  have h6 : SUp forkPar l 6 := by
    rcases List.mem_pair.mp hl with rfl | rfl <;> exact .single rfl
  have h5 := h6.tail (show forkPar 6 = some 5 from rfl)
  have h4 := h5.tail (show forkPar 5 = some 4 from rfl)
  simp only [List.mem_cons, List.not_mem_nil, or_false] at hr
  rcases hr with rfl | rfl | rfl
  · exact h6
  · exact h5
  · exact h4

def forkTree : RouterTree (1 : In6Addr) [3, 2] where
  par := forkPar
  depth := forkDepth
  root_par := rfl
  rooted a q h := by
    have h4 : Up forkPar 4 1 := .single rfl
    have h5 : Up forkPar 5 1 := Up.head rfl h4
    have h6 : Up forkPar 6 1 := Up.head rfl h5
    rcases forkPar_cases h with ⟨-, rfl⟩ | ⟨-, rfl⟩ | ⟨-, rfl⟩ | ⟨-, rfl⟩
    · exact Up.head h h6
    · exact Up.head h h5
    · exact Up.head h h4
    · exact Up.head h (Up.refl _ _)
  depth_root := rfl
  depth_succ a q h := by
    rcases forkPar_cases h with ⟨rfl | rfl, rfl⟩ | ⟨rfl, rfl⟩ | ⟨rfl, rfl⟩ | ⟨rfl, rfl⟩ <;> rfl
  peer_par l hl := by
    rcases List.mem_pair.mp hl with rfl | rfl <;> simp [forkPar]
  peer_leaf a q h := by
    rcases forkPar_cases h with ⟨-, rfl⟩ | ⟨-, rfl⟩ | ⟨-, rfl⟩ | ⟨-, rfl⟩ <;> simp
  covered a q h ha := by
    have h2 : (2 : In6Addr) ∈ [(3 : In6Addr), 2] := by simp
    rcases forkPar_cases h with ⟨rfl | rfl, -⟩ | ⟨rfl, -⟩ | ⟨rfl, -⟩ | ⟨rfl, -⟩
    · exact absurd h2 ha
    · exact absurd (show (3 : In6Addr) ∈ [(3 : In6Addr), 2] by simp) ha
    all_goals exact ⟨2, h2, fork_sUp h2 (by simp)⟩

theorem forkTree_on {l r : In6Addr} (hl : l ∈ [(3 : In6Addr), 2])
    (hr : r ∈ [(6 : In6Addr), 5, 4]) : forkTree.On r l := by
  refine ⟨hl, fork_sUp hl hr, ?_⟩
  rintro rfl
  simp at hr

/-- The theorem at a sender that remembers router `5` from an earlier phase with another hop
count. -/
theorem rebuild_of_fork : ∃ s s', Run Args.default (((Sender.initial.initGroup 1).get rfl).1)
    [.join 2 0, .join 3 0, .rsp 5 2 1, .tout] s ∧
    Run Args.default s [.rsp 4 2 1, .rsp 4 3 1, .rsp 5 3 2, .rsp 4 3 1, .rsp 6 3 3, .rsp 5 2 2] s' ∧
    forkTree.Union [(4, 2), (4, 3), (5, 3), (4, 3), (6, 3), (5, 2)] s'.view := by
  let s₁ : Sender := ((Sender.initial.initGroup 1).get rfl).1
  let ops : List Op := [.join 2 0, .join 3 0, .rsp 5 2 1, .tout]
  let heard : List (In6Addr × In6Addr) := [(4, 2), (4, 3), (5, 3), (4, 3), (6, 3), (5, 2)]
  have hall : (exec Args.default 20 s₁ ops).all (fun s => decide (s.peers = [3, 2])) = true := by
    decide +kernel
  have hsome : (exec Args.default 20 s₁ ops).isSome = true := by decide +kernel
  obtain ⟨s, e⟩ := Option.isSome_iff_exists.mp hsome
  rw [e] at hall
  simp only [Option.all_some, decide_eq_true_eq] at hall
  have Z : s.Resting 0 1 := (Sender.phased_init rfl).resting (Run.of_exec e)
    (by simp [ops, Op.NotFrom]) (by simp [ops, Steady]) (by simp [ops, PhasesOver])
    (Or.inl (Sender.resting_init rfl))
  have hon : ∀ r l, (r, l) ∈ heard → forkTree.On r l := by
    intro r l hm
    refine forkTree_on ?_ ?_ <;> simp [heard] at hm ⊢ <;> grind
  have hgap : forkTree.Gapless heard := by
    have h₀ : forkTree.Gapless [] := fun pre r l post e => by simp at e
    exact (((((h₀.concat rfl (Or.inl rfl)).concat rfl (Or.inl rfl)).concat rfl
      (Or.inr (by simp))).concat rfl (Or.inl rfl)).concat rfl (Or.inr (by simp))).concat rfl
      (Or.inr (by simp))
  obtain ⟨⟨s', hrun⟩, h⟩ := rebuild_of_responses Args.default Z hall forkTree hon hgap heard
    (List.prefix_refl _)
  exact ⟨s, s', Run.of_exec e, hrun, (h s' hrun).1⟩

end MEADcast
