import MEADcast.Lib.Reach
import Mathlib.Algebra.BigOperators.Group.Multiset.Basic
import Mathlib.Data.Prod.Lex
import Mathlib.Logic.Hydra
import Mathlib.Tactic.Abel

/-!
# Items that are replaced one at a time

The state is a multiset of items.  In each step some item, whichever it is, is replaced by the
items it turns into.  What holds of single items then holds of all of them in every order.

## Main definitions

* `Swarm.Step`, `Swarm.Run` — one replacement, and any number of them.
* `Swarm.Trace` — a run with the items that were replaced.
* `Swarm.Simulates` — replacements on one level are replacements on another.

## Main results

* `Swarm.Run.forall` — what every replacement preserves holds of all items after every run.
* `Swarm.Run.sum_map` — a weight that every replacement preserves adds up to the same.
* `Swarm.acc_of_rank` — no run goes on forever if replacements have a smaller rank.
* `Swarm.Trace.countP_add_le` — a potential that pays for marked replacements bounds their number.
* `Swarm.Run.simulate` — runs on one level are runs on the other.
-/

namespace MEADcast

namespace Swarm

variable {α β M : Type*} {R : α → Multiset α → Prop} {P : α → Prop} {s t : Multiset α}

/-- Some item is replaced by what it turns into. -/
inductive Step (R : α → Multiset α → Prop) : Multiset α → Multiset α → Prop
  | replace {a : α} {out : Multiset α} (rest : Multiset α) (h : R a out) :
      Step R (a ::ₘ rest) (out + rest)

/-- A sequence of replacements. -/
abbrev Run (R : α → Multiset α → Prop) : Multiset α → Multiset α → Prop :=
  Relation.ReflTransGen (Step R)

/-- Every replacement of an item with the property consists of such items. -/
def Preserves (R : α → Multiset α → Prop) (P : α → Prop) : Prop :=
  ∀ a out, P a → R a out → ∀ b ∈ out, P b

theorem Step.forall (hP : Preserves R P) (h : Step R s t) (hs : ∀ a ∈ s, P a) :
    ∀ a ∈ t, P a := by
  cases h with
  | replace rest h =>
      intro b hb
      rcases Multiset.mem_add.mp hb with hb | hb
      · exact hP _ _ (hs _ (Multiset.mem_cons_self _ _)) h b hb
      · exact hs b (Multiset.mem_cons_of_mem hb)

theorem Run.forall (hP : Preserves R P) (h : Run R s t) (hs : ∀ a ∈ s, P a) : ∀ a ∈ t, P a :=
  Reach.invariant (fun s => ∀ a ∈ s, P a) (fun _ _ hs h => h.forall hP hs) h hs

theorem Step.sum_map [AddCommMonoid M] {f : α → M}
    (hf : ∀ a out, P a → R a out → (out.map f).sum = f a) (h : Step R s t) (hs : ∀ a ∈ s, P a) :
    (t.map f).sum = (s.map f).sum := by
  cases h with
  | replace rest h =>
      rw [Multiset.map_add, Multiset.sum_add, Multiset.map_cons, Multiset.sum_cons,
        hf _ _ (hs _ (Multiset.mem_cons_self _ _)) h]

/-- A weight that every replacement preserves adds up to the same after every run. -/
theorem Run.sum_map [AddCommMonoid M] {f : α → M} (hP : Preserves R P)
    (hf : ∀ a out, P a → R a out → (out.map f).sum = f a) (h : Run R s t) (hs : ∀ a ∈ s, P a) :
    (t.map f).sum = (s.map f).sum :=
  Reach.constant (fun s => ∀ a ∈ s, P a) (fun s => (s.map f).sum)
    (fun _ _ hs h => h.forall hP hs) (fun _ _ hs h => h.sum_map hf hs) h hs

/-- If each item turns into items of smaller rank, no run goes on forever. -/
theorem acc_of_rank [Preorder β] [WellFoundedLT β] {rank : α → β} (hP : Preserves R P)
    (hrank : ∀ a out, P a → R a out → ∀ b ∈ out, rank b < rank a) (hs : ∀ a ∈ s, P a) :
    Acc (fun t s => Step R s t) s := by
  have hwf : WellFounded (Relation.CutExpand fun a b : α => rank a < rank b) :=
    (InvImage.wf rank wellFounded_lt).cutExpand
  induction hwf.apply s with
  | intro s _ ih =>
      refine Acc.intro _ fun t h => ih t ?_ (h.forall hP hs)
      cases h with
      | @replace a out rest h =>
          refine ⟨out, a, hrank a out (hs a (Multiset.mem_cons_self _ _)) h, ?_⟩
          rw [← Multiset.singleton_add]
          abel

/-- At the end of a run that cannot go on, no item can be replaced. -/
theorem not_of_final (h : ∀ t, ¬ Step R s t) {a : α} (ha : a ∈ s) (out : Multiset α) :
    ¬ R a out := by
  intro hR
  obtain ⟨rest, rfl⟩ := Multiset.exists_cons_of_mem ha
  exact h _ (.replace rest hR)

/-! ### Counting replacements -/

/-- A run with the items that were replaced, in this order. -/
inductive Trace (R : α → Multiset α → Prop) : Multiset α → List α → Multiset α → Prop
  | nil (s : Multiset α) : Trace R s [] s
  | cons {a : α} {out : Multiset α} (rest : Multiset α) {l : List α} {t : Multiset α} (h : R a out)
      (ht : Trace R (out + rest) l t) : Trace R (a ::ₘ rest) (a :: l) t

theorem Trace.run {l : List α} (h : Trace R s l t) : Run R s t := by
  induction h with
  | nil s => exact .refl
  | cons rest h _ ih => exact .head (.replace rest h) ih

theorem Run.exists_trace (h : Run R s t) : ∃ l, Trace R s l t := by
  induction h using Relation.ReflTransGen.head_induction_on with
  | refl => exact ⟨[], .nil t⟩
  | head hstep _ ih =>
      obtain ⟨l, hl⟩ := ih
      cases hstep with
      | replace rest h => exact ⟨_, .cons rest h hl⟩

theorem Trace.forall {l : List α} (hP : Preserves R P) (h : Trace R s l t) (hs : ∀ a ∈ s, P a) :
    ∀ a ∈ l, P a := by
  induction h with
  | nil s => exact fun a ha => absurd ha List.not_mem_nil
  | @cons a out rest l t h _ ih =>
      intro b hb
      rcases List.mem_cons.mp hb with rfl | hb
      · exact hs b (Multiset.mem_cons_self _ _)
      · exact ih (Step.forall hP (.replace rest h) hs) b hb

/-- If the weight of an item pays for what takes its place, and for one more if the item is marked,
then the weights pay for all marked replacements of a run. -/
theorem Trace.countP_add_le {f : α → ℕ} {mark : α → Prop} [DecidablePred mark] {l : List α}
    (hP : Preserves R P)
    (hf : ∀ a out, P a → R a out → (out.map f).sum + (if mark a then 1 else 0) ≤ f a)
    (h : Trace R s l t) (hs : ∀ a ∈ s, P a) :
    l.countP (fun a => mark a) + (t.map f).sum ≤ (s.map f).sum := by
  induction h with
  | nil s => simp
  | @cons a out rest l t h _ ih =>
      have hstep := hf a out (hs a (Multiset.mem_cons_self _ _)) h
      have hrest := ih (Step.forall hP (.replace rest h) hs)
      rw [Multiset.map_add, Multiset.sum_add] at hrest
      rw [List.countP_cons, Multiset.map_cons, Multiset.sum_cons]
      simp only [decide_eq_true_eq]
      omega

/-! ### Two levels -/

section Simulation

variable {V : α → β → Prop} {Q : β → Multiset β → Prop} {s' : Multiset β}

/-- Whatever an item turns into, an item that corresponds to it turns into what corresponds to
that. -/
def Simulates (V : α → β → Prop) (R : α → Multiset α → Prop) (Q : β → Multiset β → Prop) : Prop :=
  ∀ a b out, V a b → R a out → ∃ out', Q b out' ∧ Multiset.Rel V out out'

theorem Step.simulate (hV : Simulates V R Q) (h : Step R s t) (hs : Multiset.Rel V s s') :
    ∃ t', Step Q s' t' ∧ Multiset.Rel V t t' := by
  cases h with
  | @replace a out rest h =>
      obtain ⟨b, rest', hab, hrest, rfl⟩ := Multiset.rel_cons_left.mp hs
      obtain ⟨out', hQ, hout⟩ := hV a b out hab h
      exact ⟨out' + rest', .replace rest' hQ, hout.add hrest⟩

/-- Runs on one level are runs on the other. -/
theorem Run.simulate (hV : Simulates V R Q) (h : Run R s t) (hs : Multiset.Rel V s s') :
    ∃ t', Run Q s' t' ∧ Multiset.Rel V t t' := by
  induction h with
  | refl => exact ⟨s', .refl, hs⟩
  | tail _ h ih =>
      obtain ⟨u', hrun, hu⟩ := ih
      obtain ⟨t', hstep, ht⟩ := h.simulate hV hu
      exact ⟨t', hrun.tail hstep, ht⟩

/-- If no run goes on forever on the one level, none does on the other. -/
theorem acc_of_simulates (hV : Simulates V R Q) (h : Acc (fun t s => Step Q s t) s') :
    ∀ {s}, Multiset.Rel V s s' → Acc (fun t s => Step R s t) s := by
  induction h with
  | intro s' _ ih =>
      intro s hs
      refine Acc.intro _ fun t ht => ?_
      obtain ⟨t', hstep, hrel⟩ := ht.simulate hV hs
      exact ih t' hstep hrel

/-- If the one level can go on, so can the other. -/
theorem final_of_simulates (hV : Simulates (fun b a => V a b) Q R) (hs : Multiset.Rel V s s')
    (h : ∀ t, ¬ Step R s t) : ∀ t', ¬ Step Q s' t' := by
  intro t' ht'
  obtain ⟨t, ht, -⟩ := ht'.simulate hV (Multiset.rel_flip.mpr hs)
  exact h t ht

/-- Items that correspond as lists do so as multisets. -/
theorem rel_coe {l : List α} {l' : List β} (h : List.Forall₂ V l l') :
    Multiset.Rel V (l : Multiset α) (l' : Multiset β) := by
  induction h with
  | nil => exact .zero
  | cons hab _ ih => exact .cons hab ih

/-- What is made in two ways of the items of one list. -/
theorem rel_map_coe {γ : Type*} {l : List γ} {f : γ → α} {g : γ → β} (h : ∀ x ∈ l, V (f x) (g x)) :
    Multiset.Rel V ↑(l.map f) ↑(l.map g) :=
  rel_coe (List.forall₂_map_left_iff.mpr (List.forall₂_map_right_iff.mpr (List.forall₂_same.mpr h)))

/-- Items at the same position correspond. -/
theorem exists_getElem?_of_forall₂ {l : List α} {l' : List β} (h : List.Forall₂ V l l') {i : ℕ}
    {a : α} (ha : l[i]? = some a) : ∃ b, l'[i]? = some b ∧ V a b := by
  obtain ⟨hi, rfl⟩ := List.getElem?_eq_some_iff.mp ha
  exact ⟨_, List.getElem?_eq_getElem (h.length_eq ▸ hi), h.get hi (h.length_eq ▸ hi)⟩

/-- What corresponds is split where the other is. -/
theorem exists_append_of_forall₂ {x : α} {D' : List α} : ∀ {D : List α} {l : List β},
    List.Forall₂ V (D ++ x :: D') l →
      ∃ E y E', l = E ++ y :: E' ∧ List.Forall₂ V D E ∧ V x y ∧ List.Forall₂ V D' E'
  | [], _, .cons hxy h => ⟨[], _, _, rfl, .nil, hxy, h⟩
  | _ :: _, _, .cons hab h => by
      obtain ⟨E, y, E', rfl, hD, hxy, hD'⟩ := exists_append_of_forall₂ h
      exact ⟨_ :: E, y, E', rfl, .cons hab hD, hxy, hD'⟩

/-- Corresponding parts of what corresponds. -/
theorem rel_filter {p : α → Prop} {q : β → Prop} [DecidablePred p] [DecidablePred q]
    (hpq : ∀ a b, V a b → (p a ↔ q b)) (hs : Multiset.Rel V s s') :
    Multiset.Rel V (s.filter p) (s'.filter q) := by
  induction hs with
  | zero => exact .zero
  | @cons a b s s' hab _ ih =>
      by_cases ha : p a
      · rw [Multiset.filter_cons_of_pos _ ha, Multiset.filter_cons_of_pos _ ((hpq a b hab).mp ha)]
        exact .cons hab ih
      · rw [Multiset.filter_cons_of_neg _ ha,
          Multiset.filter_cons_of_neg _ fun hb => ha ((hpq a b hab).mpr hb)]
        exact ih

end Simulation

end Swarm

end MEADcast
