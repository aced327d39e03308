import Mathlib.Data.List.Basic
import Mathlib.Logic.Relation
import Mathlib.Order.GameAdd

/-!
# Programs on a shared memory

A program loads and stores cells of a memory and hands ranges of cells over to its environment, which
answers whether it took them.  Programs that run at the same time on one memory take turns with
single accesses.  If they use disjoint parts of the memory, this makes no difference to what they
compute and hand over.

## Main definitions

* `Mem`, `Mem.load`, `Mem.store` — memories.
* `Prog`, `Prog.run` — programs, and what they do on their own.
* `Prog.Within` — the part of the memory that a program uses.
* `Par` — two programs that take turns.

## Main results

* `Mem.load_store`, `Mem.load_store_of_disjoint` — what a store changes.
* `Par.eq_run` — programs on disjoint parts of the memory do what they do on their own.
* `Par.wellFounded_step`, `Par.exists_done` — whatever turns they take, both are done in the end.
-/

namespace MEADcast

/-- A memory with cells of type `β`. -/
def Mem (β : Type) : Type := ℕ → β

namespace Mem

variable {β : Type} {m m' : Mem β} {a b k n : ℕ} {l : List β}

/-- The `n` cells from address `a` on. -/
def load (m : Mem β) (a n : ℕ) : List β := (List.range n).map fun i => m (a + i)

/-- The memory with the cells `l` from address `a` on. -/
def store (m : Mem β) (a : ℕ) (l : List β) : Mem β := fun i =>
  if a ≤ i then (l[i - a]?).getD (m i) else m i

@[simp] theorem length_load (m : Mem β) (a n : ℕ) : (m.load a n).length = n := by
  simp [load]

theorem getElem?_load (h : k < n) : (m.load a n)[k]? = some (m (a + k)) := by
  simp [load, h]

theorem load_congr (h : ∀ i < n, m (a + i) = m' (a + i)) : m.load a n = m'.load a n :=
  List.map_congr_left fun i hi => h i (List.mem_range.mp hi)

theorem load_add (m : Mem β) (a n k : ℕ) : m.load a (n + k) = m.load a n ++ m.load (a + n) k := by
  rw [load, load, load, List.range_add, List.map_append, List.map_map]
  simp [Function.comp_def, Nat.add_assoc]

theorem take_load (h : k ≤ n) : (m.load a n).take k = m.load a k := by
  obtain ⟨c, rfl⟩ := Nat.exists_eq_add_of_le h
  rw [load_add, List.take_left' (length_load _ _ _)]

/-- A part of a range. -/
theorem take_drop_load (h : k + b ≤ n) : ((m.load a n).drop k).take b = m.load (a + k) b := by
  obtain ⟨c, rfl⟩ := Nat.exists_eq_add_of_le h
  rw [Nat.add_assoc, load_add, List.drop_left' (length_load _ _ _), take_load (Nat.le_add_right _ _)]

theorem store_of_lt {i : ℕ} (h : i < a) : m.store a l i = m i := if_neg (by omega)

theorem store_of_le {i : ℕ} (h : a + l.length ≤ i) : m.store a l i = m i := by
  rw [store, if_pos (by omega), List.getElem?_eq_none (by omega), Option.getD_none]

/-- Stored cells can be loaded. -/
theorem load_store (m : Mem β) (a : ℕ) (l : List β) : (m.store a l).load a l.length = l := by
  refine List.ext_getElem? fun i => ?_
  by_cases hi : i < l.length
  · rw [getElem?_load hi, store, if_pos (Nat.le_add_right _ _), Nat.add_sub_cancel_left,
      List.getElem?_eq_getElem hi, Option.getD_some]
  · rw [List.getElem?_eq_none (by rw [length_load]; omega), List.getElem?_eq_none (by omega)]

/-- Other cells stay as they are. -/
theorem load_store_of_disjoint (h : a + l.length ≤ b ∨ b + n ≤ a) :
    (m.store a l).load b n = m.load b n := by
  refine load_congr fun i hi => ?_
  rcases h with h | h
  · exact store_of_le (by omega)
  · exact store_of_lt (by omega)

/-- A store inside a range. -/
theorem load_store_inside (h : k + l.length ≤ n) : (m.store (a + k) l).load a n =
    (m.load a n).take k ++ l ++ (m.load a n).drop (k + l.length) := by
  obtain ⟨c, rfl⟩ := Nat.exists_eq_add_of_le h
  rw [load_add _ a (k + l.length) c, load_add _ a k, load_store,
    load_store_of_disjoint (Or.inr (Nat.le_refl _)),
    load_store_of_disjoint (Or.inl (by omega)),
    load_add m a (k + l.length) c, load_add m a k l.length]
  simp [List.drop_append]

end Mem

/-! ## Programs -/

/-- A program with results in `α` on a memory with cells of type `β` that hands ranges of cells over
to destinations in `δ`. -/
inductive Prog (β δ α : Type) : Type
  | done (a : α)
  | load (addr n : ℕ) (k : List β → Prog β δ α)
  | store (addr : ℕ) (l : List β) (k : Prog β δ α)
  | send (addr n : ℕ) (dst : δ) (k : Bool → Prog β δ α)

/-- How often a program handed something over so far, and what was taken. -/
structure Sent (β δ : Type) where
  calls : ℕ
  sent : List (δ × List β)

/-- One call of the environment; `ok` tells which calls succeed. -/
def Sent.call {β δ : Type} (ok : ℕ → δ → Bool) (s : Sent β δ) (dst : δ) (l : List β) :
    Bool × Sent β δ :=
  if ok s.calls dst then (true, ⟨s.calls + 1, s.sent ++ [(dst, l)]⟩)
  else (false, ⟨s.calls + 1, s.sent⟩)

namespace Prog

variable {β δ α γ : Type}

protected def bind : Prog β δ α → (α → Prog β δ γ) → Prog β δ γ
  | done a, f => f a
  | load addr n k, f => load addr n fun l => (k l).bind f
  | store addr l k, f => store addr l (k.bind f)
  | send addr n dst k, f => send addr n dst fun b => (k b).bind f

instance : Monad (Prog β δ) where
  pure := done
  bind := Prog.bind

def read (addr n : ℕ) : Prog β δ (List β) := load addr n done

def write (addr : ℕ) (l : List β) : Prog β δ Unit := store addr l (done ())

def handOver (addr n : ℕ) (dst : δ) : Prog β δ Bool := send addr n dst done

/-- The program on its own. -/
def run (ok : ℕ → δ → Bool) : Prog β δ α → Mem β → Sent β δ → α × Mem β × Sent β δ
  | done a, m, s => (a, m, s)
  | load addr n k, m, s => (k (m.load addr n)).run ok m s
  | store addr l k, m, s => k.run ok (m.store addr l) s
  | send addr n dst k, m, s =>
      let r := Sent.call ok s dst (m.load addr n)
      (k r.1).run ok m r.2

theorem run_bind (ok : ℕ → δ → Bool) (p : Prog β δ α) (f : α → Prog β δ γ) :
    ∀ (m : Mem β) (s : Sent β δ), (p >>= f).run ok m s =
      (f (p.run ok m s).1).run ok (p.run ok m s).2.1 (p.run ok m s).2.2 := by
  change ∀ m s, (p.bind f).run ok m s = _
  induction p with
  | done a => exact fun m s => rfl
  | load addr n k ih => exact fun m s => ih _ m s
  | store addr l k ih => exact fun m s => ih _ s
  | send addr n dst k ih => exact fun m s => ih _ m _

@[simp] theorem run_pure (ok : ℕ → δ → Bool) (a : α) (m : Mem β) (s : Sent β δ) :
    (pure a : Prog β δ α).run ok m s = (a, m, s) := rfl

@[simp] theorem run_read (ok : ℕ → δ → Bool) (addr n : ℕ) (m : Mem β) (s : Sent β δ) :
    (read addr n).run ok m s = (m.load addr n, m, s) := rfl

@[simp] theorem run_write (ok : ℕ → δ → Bool) (addr : ℕ) (l : List β) (m : Mem β)
    (s : Sent β δ) : (write addr l).run ok m s = ((), m.store addr l, s) := rfl

@[simp] theorem run_handOver (ok : ℕ → δ → Bool) (addr n : ℕ) (dst : δ) (m : Mem β)
    (s : Sent β δ) : (handOver addr n dst).run ok m s =
      ((Sent.call ok s dst (m.load addr n)).1, m, (Sent.call ok s dst (m.load addr n)).2) := rfl

/-! ### The part of the memory that a program uses -/

/-- Whatever it loads, the program uses addresses in `F` only. -/
def Within (F : ℕ → Prop) : Prog β δ α → Prop
  | done _ => True
  | load addr n k => (∀ i < n, F (addr + i)) ∧ ∀ l, (k l).Within F
  | store addr l k => (∀ i < l.length, F (addr + i)) ∧ k.Within F
  | send addr n _ k => (∀ i < n, F (addr + i)) ∧ ∀ b, (k b).Within F

variable {F : ℕ → Prop} {p : Prog β δ α} {f : α → Prog β δ γ} {m m' : Mem β}

theorem Within.bind (hp : p.Within F) (hf : ∀ a, (f a).Within F) : (p >>= f).Within F := by
  change (p.bind f).Within F
  induction p with
  | done a => exact hf a
  | load addr n k ih => exact ⟨hp.1, fun l => ih l (hp.2 l)⟩
  | store addr l k ih => exact ⟨hp.1, ih hp.2⟩
  | send addr n dst k ih => exact ⟨hp.1, fun b => ih b (hp.2 b)⟩

theorem within_pure (a : α) : (pure a : Prog β δ α).Within F := trivial

theorem within_read {addr n : ℕ} (h : ∀ i < n, F (addr + i)) :
    (read addr n : Prog β δ _).Within F := ⟨h, fun _ => trivial⟩

theorem within_write {addr : ℕ} {l : List β} (h : ∀ i < l.length, F (addr + i)) :
    (write addr l : Prog β δ _).Within F := ⟨h, trivial⟩

theorem within_handOver {addr n : ℕ} {dst : δ} (h : ∀ i < n, F (addr + i)) :
    (handOver addr n dst : Prog β δ _).Within F := ⟨h, fun _ => trivial⟩

/-- What a program returns and hands over depends on its part of the memory only. -/
theorem Within.run_congr (ok : ℕ → δ → Bool) (hp : p.Within F) (hm : ∀ i, F i → m i = m' i)
    (s : Sent β δ) : (p.run ok m s).1 = (p.run ok m' s).1 ∧
      (p.run ok m s).2.2 = (p.run ok m' s).2.2 := by
  induction p generalizing m m' s with
  | done a => exact ⟨rfl, rfl⟩
  | load addr n k ih =>
      have hl : m.load addr n = m'.load addr n := Mem.load_congr fun i hi => hm _ (hp.1 i hi)
      rw [run, run, hl]
      exact ih _ (hp.2 _) hm s
  | store addr l k ih =>
      refine ih hp.2 (fun i hi => ?_) s
      rw [Mem.store, Mem.store, hm i hi]
  | send addr n dst k ih =>
      have hl : m.load addr n = m'.load addr n := Mem.load_congr fun i hi => hm _ (hp.1 i hi)
      rw [run, run, hl]
      exact ih _ (hp.2 _) hm _

/-! ### Turns -/

/-- The next access of a program. -/
inductive Turn (ok : ℕ → δ → Bool) :
    Prog β δ α × Mem β × Sent β δ → Prog β δ α × Mem β × Sent β δ → Prop
  | load {addr n : ℕ} {k : List β → Prog β δ α} {m : Mem β} {s : Sent β δ} :
      Turn ok (load addr n k, m, s) (k (m.load addr n), m, s)
  | store {addr : ℕ} {l : List β} {k : Prog β δ α} {m : Mem β} {s : Sent β δ} :
      Turn ok (store addr l k, m, s) (k, m.store addr l, s)
  | send {addr n : ℕ} {dst : δ} {k : Bool → Prog β δ α} {m : Mem β} {s : Sent β δ} :
      Turn ok (send addr n dst k, m, s)
        (k (Sent.call ok s dst (m.load addr n)).1, m, (Sent.call ok s dst (m.load addr n)).2)

variable {ok : ℕ → δ → Bool} {q : Prog β δ α} {s s' : Sent β δ}

theorem Turn.run_eq (h : Turn ok (p, m, s) (q, m', s')) : p.run ok m s = q.run ok m' s' := by
  cases h <;> rfl

/-- A turn stays in the program's part of the memory, and so does the rest of the program. -/
theorem Turn.within (h : Turn ok (p, m, s) (q, m', s')) (hp : p.Within F) :
    q.Within F ∧ ∀ i, ¬ F i → m' i = m i := by
  cases h with
  | load => exact ⟨hp.2 _, fun _ _ => rfl⟩
  | @store addr l _ _ _ =>
      refine ⟨hp.2, fun i hi => ?_⟩
      by_cases h1 : i < addr
      · exact Mem.store_of_lt h1
      by_cases h2 : addr + l.length ≤ i
      · exact Mem.store_of_le h2
      · have := hp.1 (i - addr) (by omega)
        rw [Nat.add_sub_cancel' (by omega)] at this
        exact absurd this hi
  | send => exact ⟨hp.2 _, fun _ _ => rfl⟩

/-- What a turn may leave of a program. -/
inductive Rest : Prog β δ α → Prog β δ α → Prop
  | load (addr n : ℕ) (k : List β → Prog β δ α) (l : List β) : Rest (k l) (load addr n k)
  | store (addr : ℕ) (l : List β) (k : Prog β δ α) : Rest k (store addr l k)
  | send (addr n : ℕ) (dst : δ) (k : Bool → Prog β δ α) (b : Bool) : Rest (k b) (send addr n dst k)

theorem wellFounded_rest : WellFounded (Rest : Prog β δ α → Prog β δ α → Prop) := by
  refine ⟨fun p => ?_⟩
  induction p with
  | done a => exact ⟨_, fun q h => nomatch h⟩
  | load addr n k ih => exact ⟨_, fun q h => by cases h; exact ih _⟩
  | store addr l k ih => exact ⟨_, fun q h => by cases h; exact ih⟩
  | send addr n dst k ih => exact ⟨_, fun q h => by cases h; exact ih _⟩

theorem Turn.rest (h : Turn ok (p, m, s) (q, m', s')) : Rest q p := by
  cases h with
  | load => exact .load ..
  | store => exact .store ..
  | send => exact .send ..

/-- A program without a next turn is done. -/
theorem exists_done (h : ∀ c, ¬ Turn ok (p, m, s) c) : ∃ a, p = done a := by
  cases p with
  | done a => exact ⟨a, rfl⟩
  | load addr n k => exact absurd .load (h _)
  | store addr l k => exact absurd .store (h _)
  | send addr n dst k => exact absurd .send (h _)

end Prog

/-- Two programs on one memory. -/
structure Par (β δ α γ : Type) where
  left : Prog β δ α
  right : Prog β δ γ
  mem : Mem β
  sent : Sent β δ
  sent' : Sent β δ

namespace Par

variable {β δ α γ : Type}

/-- Either program takes a turn. -/
inductive Step (ok ok' : ℕ → δ → Bool) : Par β δ α γ → Par β δ α γ → Prop
  | left {c : Par β δ α γ} {p : Prog β δ α} {m : Mem β} {s : Sent β δ}
      (h : Prog.Turn ok (c.left, c.mem, c.sent) (p, m, s)) :
      Step ok ok' c { c with left := p, mem := m, sent := s }
  | right {c : Par β δ α γ} {p : Prog β δ γ} {m : Mem β} {s : Sent β δ}
      (h : Prog.Turn ok' (c.right, c.mem, c.sent') (p, m, s)) :
      Step ok ok' c { c with right := p, mem := m, sent' := s }

variable {ok ok' : ℕ → δ → Bool} {F G : ℕ → Prop} {c c' : Par β δ α γ}

/-- The programs use disjoint parts of the memory. -/
structure Apart (c : Par β δ α γ) (F G : ℕ → Prop) : Prop where
  left : c.left.Within F
  right : c.right.Within G
  disjoint : ∀ i, F i → ¬ G i

/-- A turn of one program changes nothing for the other one. -/
theorem Step.apart (h : Step ok ok' c c') (A : c.Apart F G) : c'.Apart F G ∧
    ((c'.left.run ok c'.mem c'.sent).1 = (c.left.run ok c.mem c.sent).1 ∧
      (c'.left.run ok c'.mem c'.sent).2.2 = (c.left.run ok c.mem c.sent).2.2) ∧
    (c'.right.run ok' c'.mem c'.sent').1 = (c.right.run ok' c.mem c.sent').1 ∧
      (c'.right.run ok' c'.mem c'.sent').2.2 = (c.right.run ok' c.mem c.sent').2.2 := by
  cases h with
  | left h =>
      obtain ⟨hw, hm⟩ := h.within A.left
      refine ⟨⟨hw, A.right, A.disjoint⟩, ?_, ?_⟩
      · rw [h.run_eq]
        exact ⟨rfl, rfl⟩
      · exact A.right.run_congr ok' (fun i hi => hm i fun hF => A.disjoint i hF hi) _
  | right h =>
      obtain ⟨hw, hm⟩ := h.within A.right
      refine ⟨⟨A.left, hw, A.disjoint⟩, ?_, ?_⟩
      · exact A.left.run_congr ok (fun i hi => hm i (A.disjoint i hi)) _
      · rw [h.run_eq]
        exact ⟨rfl, rfl⟩

/-- When both programs are done, whatever turns they took, each of them returned and handed over what
it does on its own. -/
theorem eq_run (A : c.Apart F G) (hrun : Relation.ReflTransGen (Step ok ok') c c') {a : α} {b : γ}
    (ha : c'.left = .done a) (hb : c'.right = .done b) :
    ((c.left.run ok c.mem c.sent).1 = a ∧ (c.left.run ok c.mem c.sent).2.2 = c'.sent) ∧
      (c.right.run ok' c.mem c.sent').1 = b ∧
      (c.right.run ok' c.mem c.sent').2.2 = c'.sent' := by
  induction hrun using Relation.ReflTransGen.head_induction_on with
  | refl =>
      rw [ha, hb]
      exact ⟨⟨rfl, rfl⟩, rfl, rfl⟩
  | head h _ ih =>
      obtain ⟨A', ⟨h1, h2⟩, h3, h4⟩ := h.apart A
      obtain ⟨⟨e1, e2⟩, e3, e4⟩ := ih A'
      exact ⟨⟨h1.symm.trans e1, h2.symm.trans e2⟩, h3.symm.trans e3, h4.symm.trans e4⟩

/-- Whatever turns the programs take, they end. -/
theorem wellFounded_step (ok ok' : ℕ → δ → Bool) :
    WellFounded fun c' c : Par β δ α γ => Step ok ok' c c' := by
  have hwf := (@Prog.wellFounded_rest β δ α).prod_gameAdd (@Prog.wellFounded_rest β δ γ)
  refine Subrelation.wf (fun {c' c} h => ?_)
    (InvImage.wf (fun c : Par β δ α γ => (c.left, c.right)) hwf)
  cases h with
  | left h => exact Prod.GameAdd.fst h.rest
  | right h => exact Prod.GameAdd.snd h.rest

/-- When no turn is left, both programs are done. -/
theorem exists_done (h : ∀ c', ¬ Step ok ok' c c') :
    (∃ a, c.left = .done a) ∧ ∃ b, c.right = .done b :=
  ⟨Prog.exists_done fun _ ht => h _ (.left ht), Prog.exists_done fun _ ht => h _ (.right ht)⟩

end Par

end MEADcast
