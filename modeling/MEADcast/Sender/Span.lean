import MEADcast.Sender.Leaders

/-!
# How far a segment spans

The leader of the open segment changes while receivers are in it already.  Whether the parents
of all receivers stay within the merge range of the last leader is decided round by round: it is
lost when the lead passes to a router that is too far away from one of these parents, and it is
never regained, because the hop count of the leader only decreases.

## Main definitions

* `Seg.Ranged` — the parents of the leaves are at most `k` hops behind the leader.
* `Plan.Keeps` — a round does not pass the lead to a router that is too far away.

## Main results

* `Plan.Groups.ranged_iff` — all segments are in range if and only if all rounds are of this
  kind.
-/

namespace MEADcast

variable {α β : Type*} {args : Args} {hops : α → ℕ} {par : α → Option α} {home : β → Option α}
  {root : α}

/-- The parents of the leaves of a segment have at most `k` hops more than its router. -/
def Seg.Ranged (hops : α → ℕ) (home : β → Option α) (k : ℕ) (s : Seg α β) : Prop :=
  ∀ l ∈ s.leaves, ∀ p, home l = some p → hops p ≤ hops s.router + k

/-- The parents of the leaves of a segment have at least as many hops as its router. -/
def Seg.Foremost (hops : α → ℕ) (home : β → Option α) (s : Seg α β) : Prop :=
  ∀ l ∈ s.leaves, ∀ p, home l = some p → hops s.router ≤ hops p

/-! ## Adding leaves -/

/-- A segment stays in range if and only if it was and a new leader is not too far away. -/
theorem Last.ranged_extend {l : Last α β} {a : α} {ls : List β} {k : ℕ} (hne : ls ≠ [])
    (hls : ∀ x ∈ ls, home x = some a) (hk : hops a ≤ hops l.seg.router + k) :
    (l.extend hops a ls).seg.Ranged hops home k ↔ l.seg.Ranged hops home k ∧
      ∀ d, l.successor hops a = some d → hops a ≤ hops d + k ∧
        ∀ x ∈ l.seg.leaves, ∀ p, home x = some p → hops p ≤ hops d + k := by
  obtain ⟨y, hy⟩ := List.exists_mem_of_ne_nil ls hne
  -- with a leader `d` that is not behind the old one
  have hlead : ∀ d, hops d ≤ hops l.seg.router →
      ((⟨d, l.seg.leaves ++ ls⟩ : Seg α β).Ranged hops home k ↔ l.seg.Ranged hops home k ∧
        hops a ≤ hops d + k ∧ ∀ x ∈ l.seg.leaves, ∀ p, home x = some p → hops p ≤ hops d + k) := by
    intro d hd
    refine ⟨fun H => ?_, fun H x hx p hp => ?_⟩
    · have hold : ∀ x ∈ l.seg.leaves, ∀ p, home x = some p → hops p ≤ hops d + k := fun x hx p hp =>
        H x (List.mem_append_left _ hx) p hp
      refine ⟨fun x hx p hp => ?_, H y (List.mem_append_right _ hy) a (hls y hy), hold⟩
      have := hold x hx p hp
      omega
    · rcases List.mem_append.mp hx with hx | hx
      · exact H.2.2 x hx p hp
      · obtain rfl := Option.some.inj ((hls x hx).symm.trans hp)
        exact H.2.1
  rcases l.extend_cases hops a ls with ⟨q, -, -, hlt, hs, e⟩ | ⟨-, hlt, hs, e⟩ | ⟨-, -, hs, e⟩
  · rw [e, hs, hlead q hlt.le]
    simp
  · rw [e, hs, hlead a hlt.le]
    simp
  · rw [e, hs, hlead l.seg.router le_rfl]
    refine and_congr_right fun H => ⟨fun _ => by simp, fun _ => ⟨hk, H⟩⟩

theorem Last.foremost_extend {l : Last α β} {a : α} {ls : List β}
    (hls : ∀ x ∈ ls, home x = some a) (H : l.seg.Foremost hops home) :
    (l.extend hops a ls).seg.Foremost hops home := by
  have hlead : ∀ d, hops d ≤ hops l.seg.router → hops d ≤ hops a →
      (⟨d, l.seg.leaves ++ ls⟩ : Seg α β).Foremost hops home := by
    intro d hd ha x hx p hp
    rcases List.mem_append.mp hx with hx | hx
    · exact hd.trans (H x hx p hp)
    · obtain rfl := Option.some.inj ((hls x hx).symm.trans hp)
      exact ha
  rcases l.extend_cases hops a ls with ⟨q, -, hlt, hlt', -, e⟩ | ⟨-, hlt, -, e⟩ | ⟨-, hle, -, e⟩
  · rw [e]
    exact hlead q hlt'.le hlt.le
  · rw [e]
    exact hlead a hlt.le le_rfl
  · rw [e]
    exact hlead _ le_rfl hle

namespace Plan

/-- If leaves of the current router join the open segment, and the lead passes to a router `d`,
then the current router and the parents of the leaves in the segment are within range of `d`. -/
def Keeps (args : Args) (hops : α → ℕ) (home : β → Option α) (z : Spot α β) (g : Pack α β) : Prop :=
  g.mergeable args hops z.lab = true → z.ls ≠ [] → Room args hops z g →
    ∀ l, g.last = some l → ∀ d, l.successor hops z.lab = some d →
      hops z.lab ≤ hops d + args.merge_range ∧
      ∀ x ∈ l.seg.leaves, ∀ p, home x = some p → hops p ≤ hops d + args.merge_range

/-- Adding leaves of the current router to a group. -/
theorem ranged_add {z : Spot α β} {g : Pack α β} {ls : List β} (hne : ls ≠ [])
    (hls : ∀ x ∈ ls, home x = some z.lab) (hz : z.ls ≠ []) (hroom : Room args hops z g) :
    ((∀ s ∈ ((g.ready args hops z.lab).add args hops z.lab ls).all,
        s.Ranged hops home args.merge_range) ↔
      (∀ s ∈ g.all, s.Ranged hops home args.merge_range) ∧ Keeps args hops home z g) ∧
    ((∀ s ∈ g.all, s.Foremost hops home) →
      ∀ s ∈ ((g.ready args hops z.lab).add args hops z.lab ls).all, s.Foremost hops home) := by
  by_cases hm : g.mergeable args hops z.lab = true
  · -- the open segment is extended
    obtain ⟨segs, last⟩ := g
    obtain ⟨l, rfl⟩ := Option.ne_none_iff_exists'.mp (Pack.last_of_mergeable hm)
    have hk : hops z.lab ≤ hops l.seg.router + args.merge_range := by
      have := hm
      simp only [Pack.mergeable, decide_eq_true_eq] at this
      omega
    have hall : ∀ (l : Last α β) (Q : Seg α β → Prop),
        (∀ s ∈ (⟨segs, some l⟩ : Pack α β).all, Q s) ↔ (∀ s ∈ segs, Q s) ∧ Q l.seg := fun l Q => by
      simp [Pack.all, or_imp, forall_and]
    have hkeep : Keeps args hops home z ⟨segs, some l⟩ ↔ ∀ d, l.successor hops z.lab = some d →
        hops z.lab ≤ hops d + args.merge_range ∧
        ∀ x ∈ l.seg.leaves, ∀ p, home x = some p → hops p ≤ hops d + args.merge_range :=
      ⟨fun H => H hm hz hroom l rfl, fun H _ _ _ l' hl' => Option.some.inj hl' ▸ H⟩
    simp only [Pack.ready, hm, if_true, Pack.add]
    rw [hall, hall, hall, hall, Last.ranged_extend hne hls hk, hkeep, and_assoc]
    exact ⟨Iff.rfl, fun H => ⟨H.1, Last.foremost_extend hls H.2⟩⟩
  · -- a new segment is opened
    have hnew : (⟨z.lab, ls⟩ : Seg α β).Ranged hops home args.merge_range ∧
        (⟨z.lab, ls⟩ : Seg α β).Foremost hops home := by
      refine ⟨fun x hx p hp => ?_, fun x hx p hp => ?_⟩
      · obtain rfl := Option.some.inj ((hls x hx).symm.trans hp)
        exact Nat.le_add_right _ _
      · obtain rfl := Option.some.inj ((hls x hx).symm.trans hp)
        exact le_rfl
    have hkeep : Keeps args hops home z g := fun h => absurd h hm
    have hall : ∀ Q : Seg α β → Prop, (∀ s ∈ (g.close.add args hops z.lab ls).all, Q s) ↔
        (∀ s ∈ g.all, Q s) ∧ Q ⟨z.lab, ls⟩ := by
      intro Q
      have : (g.close.add args hops z.lab ls).all = g.all ++ [⟨z.lab, ls⟩] := by
        simp only [Pack.add, Pack.close]
        split <;> simp [Pack.all]
      simp [this, or_imp, forall_and]
    rw [Pack.ready, if_neg hm, hall, hall]
    exact ⟨⟨fun H => ⟨H.1, hkeep⟩, fun H => ⟨H.1, hnew.1⟩⟩, fun H => ⟨H, hnew.2⟩⟩

/-- Filling keeps all segments in range if and only if the round is of the right kind. -/
theorem fill_ranged {z : Spot α β} {g : Pack α β} (G : PackOk args g)
    (hz : ∀ x ∈ z.ls, home x = some z.lab) : ∃ ls g' full,
      fill args hops z g = ({ z with ls := ls }, g', full) ∧ ls ⊆ z.ls ∧ (full = false → ls = []) ∧
      ((∀ s ∈ g'.all, s.Ranged hops home args.merge_range) ↔
        (∀ s ∈ g.all, s.Ranged hops home args.merge_range) ∧ Keeps args hops home z g) ∧
      ((∀ s ∈ g.all, s.Foremost hops home) → ∀ s ∈ g'.all, s.Foremost hops home) := by
  rcases fill_cases hops z g G with ⟨hl, e⟩ | ⟨-, hroom, e⟩ |
      ⟨hl, hroom, taken, rest, full, htake, hne, -, hf, e⟩
  · have hkeep : Keeps args hops home z g := fun _ h => absurd hl h
    exact ⟨z.ls, _, _, e, List.Subset.refl _, fun _ => hl, by simp [hkeep], by simp⟩
  · have hkeep : Keeps args hops home z g := fun _ _ h => absurd h hroom
    exact ⟨z.ls, _, _, e, List.Subset.refl _, by simp, by simp [hkeep], by simp⟩
  · have hsub : ∀ x ∈ taken, home x = some z.lab := fun x hx => hz x (by simp [htake, hx])
    obtain ⟨h1, h2⟩ := ranged_add hne hsub hl hroom
    exact ⟨rest, _, full, e, by simp [htake], fun h => (hf h).1, h1, h2⟩

/-! ## One round -/

/-- All segments of the state have the property. -/
def All (Q : Seg α β → Prop) (P : Plan α β) : Prop :=
  (∀ s ∈ P.pack.all, Q s) ∧ ∀ g ∈ P.done, ∀ s ∈ g, Q s

/-- A round moves the segments, but does not change them once the group is filled. -/
theorem body_all {Q : Seg α β → Prop} {P : Plan α β} {ls : List β} {g' : Pack α β} {full : Bool}
    (e : fill args hops P.spot P.pack = ({ P.spot with ls := ls }, g', full))
    (hfull : full = false → ls = []) :
    (∀ P', body args hops P = .inl P' →
      (P'.All Q ↔ (∀ s ∈ g'.all, Q s) ∧ ∀ g ∈ P.done, ∀ s ∈ g, Q s)) ∧
    ∀ gs, body args hops P = .inr gs →
      ((∀ g ∈ gs, ∀ s ∈ g, Q s) ↔ (∀ s ∈ g'.all, Q s) ∧ ∀ g ∈ P.done, ∀ s ∈ g, Q s) := by
  apply body_rule e hfull
  · intro z' _
    simp [All]
  · intro _
    simp
  · intro b ms L rest _ _
    simp [All]
  · intro f ctx _ _ _
    simp [All]

/-- A round keeps all segments in range if and only if it is of the right kind. -/
theorem body_ranged {P : Plan α β} (G : PackOk args P.pack)
    (hz : ∀ x ∈ P.spot.ls, home x = some P.spot.lab) :
    (∀ P', body args hops P = .inl P' →
      (P'.All (Seg.Ranged hops home args.merge_range) ↔
        P.All (Seg.Ranged hops home args.merge_range) ∧ Keeps args hops home P.spot P.pack) ∧
      (P.All (Seg.Foremost hops home) → P'.All (Seg.Foremost hops home))) ∧
    ∀ gs, body args hops P = .inr gs →
      ((∀ g ∈ gs, ∀ s ∈ g, s.Ranged hops home args.merge_range) ↔
        P.All (Seg.Ranged hops home args.merge_range) ∧ Keeps args hops home P.spot P.pack) ∧
      (P.All (Seg.Foremost hops home) → ∀ g ∈ gs, ∀ s ∈ g, s.Foremost hops home) := by
  obtain ⟨ls, g', full, e, -, hfull, hR, hF⟩ := fill_ranged G hz
  obtain ⟨h1, h2⟩ := body_all (Q := Seg.Ranged hops home args.merge_range) e hfull
  obtain ⟨h3, h4⟩ := body_all (Q := Seg.Foremost hops home) e hfull
  refine ⟨fun P' hP' => ⟨?_, fun H => ?_⟩, fun gs hgs => ⟨?_, fun H => ?_⟩⟩
  · rw [h1 P' hP', hR, All]
    tauto
  · exact (h3 P' hP').mpr ⟨hF H.1, H.2⟩
  · rw [h2 gs hgs, hR, All]
    tauto
  · exact (h4 gs hgs).mpr ⟨hF H.1, H.2⟩

/-- All segments of all groups are in range if and only if no round passes the lead to a router
that is too far away. -/
theorem Groups.ranged_iff {F : Forest α β} {gs : List (List (Seg α β))} (h : Groups args hops F gs)
    (hF : F.Live) (hH : Hangs par home root F) :
    ((∀ g ∈ gs, ∀ s ∈ g, s.Ranged hops home args.merge_range) ↔
      ∀ P, Visited args hops F P → Keeps args hops home P.spot P.pack) ∧
    ∀ g ∈ gs, ∀ s ∈ g, s.Foremost hops home := by
  unfold Groups at h
  cases hz : Spot.resume [] F with
  | none =>
      rw [hz] at h
      have hno : ∀ P, ¬ Visited args hops F P := by
        rintro P ⟨z, hz', -⟩
        simp [hz] at hz'
      simp only [h, List.not_mem_nil, false_imp_iff, implies_true, true_iff, and_true]
      exact fun P hP => absurd hP (hno P)
  | some z =>
      rw [hz] at h
      have hempty : ∀ Q : Seg α β → Prop, (⟨z, .empty, []⟩ : Plan α β).All Q := fun Q => by simp [All]
      have hvis : ∀ P, Visited args hops F P ↔ Loop.Visits (body args hops) ⟨z, .empty, []⟩ P := by
        intro P
        simp [Visited, hz]
      -- what every round keeps
      have keep : ∀ P P', P.Ok args ∧ P.spot.Hangs par home root → body args hops P = .inl P' →
          P'.Ok args ∧ P'.spot.Hangs par home root := fun P P' H e =>
        ⟨((body_spec P H.1).1 P' e).1, hangs_body H.2 H.1.pack e⟩
      have first : (⟨z, .empty, []⟩ : Plan α β).Ok args ∧
          (⟨z, .empty, []⟩ : Plan α β).spot.Hangs par home root := ⟨ok_start hF hz, hangs_first hH hz⟩
      refine ⟨?_, ?_⟩
      · have := h.iff_forall_visits (fun P => P.Ok args ∧ P.spot.Hangs par home root)
          (fun P => P.All (Seg.Ranged hops home args.merge_range))
          (fun P => Keeps args hops home P.spot P.pack)
          (fun gs => ∀ g ∈ gs, ∀ s ∈ g, s.Ranged hops home args.merge_range) first keep
          (fun P P' H e => ((body_ranged H.1.pack H.2.ls).1 P' e).1)
          fun P gs H e => ((body_ranged H.1.pack H.2.ls).2 gs e).1
        simp only [hempty, true_and] at this
        simpa only [hvis] using this
      · exact h.invariant
          (fun P => (P.Ok args ∧ P.spot.Hangs par home root) ∧ P.All (Seg.Foremost hops home)) _
          ⟨first, hempty _⟩
          (fun P P' H e => ⟨keep P P' H.1 e, ((body_ranged H.1.1.pack H.1.2.ls).1 P' e).2 H.2⟩)
          fun P gs H e => ((body_ranged H.1.1.pack H.1.2.ls).2 gs e).2 H.2

end Plan

end MEADcast
