import MEADcast.Sender.Grouping

/-!
# The discovery thread (`discover.c`)

`toutHandler` closes a discovery phase.  `Op` lists what changes the tree while the
program runs, and `Run` is the execution of a sequence of them.
-/

namespace MEADcast

/-- `tout_handler`, once the expired timer is read: reduce the tree, group the
receivers, publish the group and reset the tree. -/
def toutHandler (args : Args) (fuel : ℕ) (s : Sender) : Option (Sender × Int) := do
  let (h, ht) ← match s.root with
    | none => some (s.heap, s.ht)
    | some r => reduceTree args fuel (s.heap, s.ht) r
  let (h, mg, grp) ← greedyGrouping args fuel h s.mg s.root
  match grp, s.root with
  | some grp, some r => do
    let h ← recResetTree r fuel h r
    some ({ s with heap := h, ht := ht, txg := some grp, mg := mg }, 0)
  | _, _ => some ({ s with heap := h, ht := ht, mg := mg }, -1)

/-- What the discovery thread reacts to, a receiver joining, and the transmit thread
publishing the first group. -/
inductive Op where
  | join (addr : In6Addr) (port : BitVec 16)
  | initTxg
  | rsp (rsa paddr : In6Addr) (hops : ℕ)
  | tout
  deriving DecidableEq, Repr

/-- One operation, with a bound on the iterations of its loops. -/
def step (args : Args) (fuel : ℕ) (s : Sender) : Op → Option (Sender × Int)
  | .join addr port => s.join addr port
  | .initTxg => s.initTxg
  | .rsp rsa paddr hops => s.updateTopo fuel rsa paddr hops
  | .tout => toutHandler args fuel s

/-- The operation completes with the given state and return value. -/
def Completes (args : Args) (s : Sender) (op : Op) (s' : Sender) (ret : Int) : Prop :=
  ∃ fuel, step args fuel s op = some (s', ret)

/-- `Run args s ops s'`: the operations complete one after the other. -/
inductive Run (args : Args) : Sender → List Op → Sender → Prop
  | nil (s : Sender) : Run args s [] s
  | cons {s s' t : Sender} {op : Op} {ops : List Op} (ret : Int)
      (head : Completes args s op s' ret) (tail : Run args s' ops t) : Run args s (op :: ops) t

/-- Execute operations with a common bound on the iterations of each loop. -/
def exec (args : Args) (fuel : ℕ) (s : Sender) : List Op → Option Sender
  | [] => some s
  | op :: ops => do
    let (s, _) ← step args fuel s op
    exec args fuel s ops

/-- Each operation meets `ok` in the state it is applied to. -/
def MeetsAlong (args : Args) (s : Sender) (ops : List Op) (ok : Sender → Op → Prop) : Prop :=
  ∀ pre t op post, ops = pre ++ op :: post → Run args s pre t → ok t op

section Runs

variable {args : Args} {s s' t : Sender} {op : Op} {ops : List Op}

theorem Run.of_exec {fuel : ℕ} (h : exec args fuel s ops = some t) : Run args s ops t := by
  induction ops generalizing s with
  | nil =>
      obtain rfl := Option.some.inj h
      exact .nil s
  | cons op ops ih =>
      simp only [exec, Option.bind_eq_bind, Option.bind_eq_some_iff] at h
      obtain ⟨⟨s₁, ret⟩, h₁, h₂⟩ := h
      exact .cons ret ⟨fuel, h₁⟩ (ih h₂)

theorem Run.append {ops' : List Op} (h : Run args s ops s') (h' : Run args s' ops' t) :
    Run args s (ops ++ ops') t := by
  induction h with
  | nil => exact h'
  | cons ret head _ ih => exact .cons ret head (ih h')

theorem Run.of_append {ops' : List Op} (h : Run args s (ops ++ ops') t) :
    ∃ s', Run args s ops s' ∧ Run args s' ops' t := by
  induction ops generalizing s with
  | nil => exact ⟨s, .nil s, h⟩
  | cons op ops ih =>
      cases h with
      | cons ret head tail =>
          obtain ⟨s', h₁, h₂⟩ := ih tail
          exact ⟨s', .cons ret head h₁, h₂⟩

theorem Run.single {ret : Int} (h : Completes args s op t ret) : Run args s [op] t :=
  .cons ret h (.nil t)

theorem MeetsAlong.tail {ok : Sender → Op → Prop} {ret : Int}
    (h : MeetsAlong args s (op :: ops) ok) (hc : Completes args s op s' ret) :
    MeetsAlong args s' ops ok := fun pre t op' post e hr =>
  h (op :: pre) t op' post (by rw [e]; rfl) (.cons ret hc hr)

theorem MeetsAlong.mono {ok ok' : Sender → Op → Prop} (h : MeetsAlong args s ops ok)
    (hi : ∀ t op, ok t op → ok' t op) : MeetsAlong args s ops ok' := fun pre t op post e hr =>
  hi t op (h pre t op post e hr)

theorem MeetsAlong.nil {ok : Sender → Op → Prop} : MeetsAlong args s [] ok := by
  intro pre t op post e
  simp at e

theorem MeetsAlong.cons {ok : Sender → Op → Prop} (h : ok s op)
    (ht : ∀ s' ret, Completes args s op s' ret → MeetsAlong args s' ops ok) :
    MeetsAlong args s (op :: ops) ok := by
  intro pre t op' post e hr
  cases hr with
  | nil =>
      obtain ⟨rfl, -⟩ := List.cons.inj e
      exact h
  | cons ret head tail =>
      obtain ⟨rfl, e'⟩ := List.cons.inj e
      exact ht _ ret head _ t op' post e' tail

/-- An invariant of the steps that meet `ok` holds at the end of a run of such steps. -/
theorem Run.invariant (P : Sender → Prop) (ok : Sender → Op → Prop)
    (hstep : ∀ t t' op ret, P t → ok t op → Completes args t op t' ret → P t')
    (h : Run args s ops s') (hok : MeetsAlong args s ops ok) (h₀ : P s) : P s' := by
  induction h with
  | nil => exact h₀
  | @cons s s₁ t op ops ret head tail ih =>
      have h₁ : P s₁ := hstep _ _ _ _ h₀ (hok [] _ _ _ rfl (.nil _)) head
      exact ih (hok.tail head) h₁

end Runs

end MEADcast
