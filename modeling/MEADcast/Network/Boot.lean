import MEADcast.Network.System
import MEADcast.Sender.Arguments

/-!
# From the command line to the running system (`main.c`)

`main` parses the command line, creates the group, lets the receivers join in the order of the
command line, and starts the threads; the first one publishes the receivers.

## Main definitions

* `boot` — what `main` does before anything is sent.
* `Arguments.Accepted.args` — the settings of the grouping.

## Main results

* `safe_of_command_line` — after every command line `main` has either left, or the system runs as it
  should, or it has followed a pointer that the parser never set.
-/

namespace MEADcast

/-- The settings of the grouping, with what the parser has checked. -/
def Arguments.Accepted.args {zero : ℕ → Bool} {a : Arguments} (A : a.Accepted zero) : Args where
  max_addrs := a.max_addrs.toNat
  ok_addrs := a.ok_addrs.toNat
  min_leafs := a.min_leafs.toNat
  min_routers := a.min_routers.toNat
  split_nodes := a.split_nodes
  merge_range := a.merge_range.toNat
  two_le_max_addrs := A.max_addrs.1
  one_le_min_leafs := A.min_leafs.1
  one_le_min_routers := A.min_routers.1

/-- The receivers join, up to the first one that cannot. -/
def Sender.joinAll (s : Sender) (port : BitVec 16) : Paddr → Option (Sender × Int)
  | .null => some (s, 0)
  | .wild => none
  | .node addr l => (s.join addr port).bind fun (s, ret) =>
      if ret < 0 then some (s, -1) else s.joinAll port l

/-- `main` between `init_args` and the threads, with the `init_txg` of the first one. -/
def boot (a : Arguments) : Option (Sender × Int) :=
  (Sender.initial.initGroup a.baddr).bind fun (s, ret) =>
    if ret < 0 then some (s, -1)
    else (s.joinAll a.pport a.paddr).bind fun (s, ret) =>
      if ret < 0 then some (s, -1) else s.initTxg

namespace Sender

section Joins

variable {s s' : Sender} {root : NodeId} {addr x : In6Addr} {a : Addr}

theorem Joined.sa_eq (J : s.Joined s' root a) :
    s'.heap.sa = Function.update s.heap.sa s.heap.next (some a.sin6_addr) := by
  funext y
  rw [Heap.sa, J.tag_eq]
  by_cases hy : y = s.heap.next
  · rw [hy, Function.update_self, Function.update_self]
    rfl
  · rw [Function.update_of_ne hy, Function.update_of_ne hy]
    rfl

theorem Inv.ht_eq_none_iff (I : s.Inv root) : s.ht x = none ↔ ∀ n, s.heap.sa n ≠ some x := by
  rw [← not_iff_not, ← ne_eq, Option.ne_none_iff_exists']
  push Not
  constructor
  · rintro ⟨v, hv⟩
    obtain ⟨n, -, hn⟩ := (I.tracks x v).mp hv
    exact ⟨n, hn⟩
  · rintro ⟨n, hn⟩
    exact ⟨_, I.tracks.get hn⟩

/-- Who has joined cannot join again. -/
theorem Joined.ht_eq_none_iff (I : s.Inv root) (J : s.Joined s' root a) :
    s'.ht x = none ↔ x ≠ a.sin6_addr ∧ s.ht x = none := by
  rw [J.inv.ht_eq_none_iff, I.ht_eq_none_iff, J.sa_eq]
  have hnext : s.heap.sa s.heap.next = none := Heap.sa_eq_none.mpr (I.wf.fresh _ le_rfl)
  constructor
  · intro h
    refine ⟨fun hx => h s.heap.next ?_, fun n hn => h n ?_⟩
    · rw [Function.update_self, hx]
    · rwa [Function.update_of_ne (by rintro rfl; exact nomatch hnext.symm.trans hn)]
  · rintro ⟨hx, h⟩ n hn
    by_cases hy : n = s.heap.next
    · rw [hy, Function.update_self] at hn
      exact hx (Option.some.inj hn).symm
    · rw [Function.update_of_ne hy] at hn
      exact h n hn

/-- All receivers can join when they are different from each other and from what is in the table, and
then what stands behind them is next. -/
theorem Resting.joinAll (port : BitVec 16) (n : Paddr) (l : List In6Addr) (Z : s.Resting root addr) :
    (l.Nodup ∧ (∀ x ∈ l, s.ht x = none) ∧ ∃ s' : Sender, s.joinAll port (.ofList n l) = s'.joinAll port n ∧
        s'.Resting root addr ∧ s'.members = l.reverse.map (⟨·, port⟩) ++ s.members) ∨
      (¬ (l.Nodup ∧ ∀ x ∈ l, s.ht x = none) ∧ ∃ s', s.joinAll port (.ofList n l) = some (s', -1)) := by
  induction l generalizing s with
  | nil => exact .inl ⟨List.nodup_nil, fun _ hx => absurd hx List.not_mem_nil, s, rfl, Z, rfl⟩
  | cons x l ih =>
      rcases join_spec Z.inv x port with ⟨ht, h⟩ | ⟨ht, s₁, h, J⟩
      · refine .inr ⟨fun hl => ht (hl.2 x List.mem_cons_self), s, ?_⟩
        rw [Paddr.ofList, List.foldr_cons, Sender.joinAll, h]
        rfl
      · have heq : s.joinAll port (.ofList n (x :: l)) = s₁.joinAll port (.ofList n l) := by
          rw [Paddr.ofList, List.foldr_cons, Sender.joinAll, h]
          rfl
        have hht : (∀ y ∈ l, s₁.ht y = none) ↔ x ∉ l ∧ ∀ y ∈ l, s.ht y = none := by
          simp only [J.ht_eq_none_iff Z.inv, forall_and, ne_eq]
          refine and_congr_left fun _ => ⟨fun hy hx => hy x hx rfl, fun hx y hy he => hx (he ▸ hy)⟩
        have hall : (l.Nodup ∧ ∀ y ∈ l, s₁.ht y = none) ↔
            ((x :: l).Nodup ∧ ∀ y ∈ x :: l, s.ht y = none) := by
          rw [hht, List.nodup_cons, List.forall_mem_cons]
          tauto
        rw [heq]
        rcases ih (Z.joined J) with ⟨hl, hfree, s', hs', Z', hm⟩ | ⟨hno, hs'⟩
        · obtain ⟨hl', hfree'⟩ := hall.mp ⟨hl, hfree⟩
          refine .inl ⟨hl', hfree', s', hs', Z', ?_⟩
          rw [hm, J.members_eq Z.inv, List.reverse_cons, List.map_append, List.append_assoc]
          rfl
        · exact .inr ⟨fun h => hno (hall.mpr h), hs'⟩

end Joins

end Sender

section Boot

variable {zero : ℕ → Bool} {a : Arguments} {l : List In6Addr} {n : Paddr}

/-- `boot` leaves when two addresses are equal.  Otherwise it comes to the end of the list, and if this
is a null pointer, the receivers have joined in the order of the command line. -/
theorem boot_spec (hl : l ≠ []) (ha : a.paddr = .ofList n l) :
    (¬ (a.baddr :: l).Nodup ∧ ∃ s, boot a = some (s, -1)) ∨
    ((a.baddr :: l).Nodup ∧ (n = .wild → boot a = none) ∧ (n = .null → ∃ s, boot a = some (s, 0) ∧
      s.Resting 0 a.baddr ∧ s.members = l.reverse.map (⟨·, a.pport⟩) ∧ s.txg = some s.unicastGroup)) := by
  obtain ⟨s₀, h₀, I, hsa, -, hrcvr, htag⟩ := Sender.initGroup_initial a.baddr
  have Z := Sender.resting_init h₀
  have hboot : boot a = (s₀.joinAll a.pport (.ofList n l)).bind fun r =>
      if r.2 < 0 then some (r.1, -1) else r.1.initTxg := by
    rw [boot, h₀, ha]
    rfl
  have hfree : ∀ x, s₀.ht x = none ↔ x ≠ a.baddr := by
    intro x
    rw [I.ht_eq_none_iff]
    constructor
    · rintro h rfl
      exact h 0 hsa
    · intro hx n hn
      have htn : s₀.heap.tag n ≠ none := by
        rintro hnone
        rw [Heap.sa, hnone] at hn
        cases hn
      rw [htag n htn, hsa] at hn
      exact hx (Option.some.inj hn).symm
  have hnodup : (l.Nodup ∧ ∀ x ∈ l, s₀.ht x = none) ↔ (a.baddr :: l).Nodup := by
    rw [List.nodup_cons, and_comm]
    refine and_congr_left fun _ => ⟨fun h hm => (hfree _).mp (h _ hm) rfl, fun h x hx => ?_⟩
    exact (hfree x).mpr fun he => h (he ▸ hx)
  rcases Z.joinAll a.pport n l with ⟨hd, hf, s, hs, Z', hm⟩ | ⟨hno, s, hs⟩
  · rw [hs] at hboot
    refine .inr ⟨hnodup.mp ⟨hd, hf⟩, ?_, ?_⟩
    · rintro rfl
      exact hboot
    · rintro rfl
      rcases Sender.initTxg_spec Z'.inv with ⟨hnil, -⟩ | ⟨-, h⟩
      · -- somebody has joined
        rw [Sender.members, hnil] at hm
        have hlen := congrArg List.length hm
        simp only [List.map_nil, List.length_nil, List.length_append, List.length_map,
          List.length_reverse] at hlen
        exact absurd (List.length_eq_zero_iff.mp (by omega)) hl
      · refine ⟨_, hboot.trans h, ⟨Z'.inv.publish _, Z'.root_sa, Z'.root_hops, Z'.par_eq⟩, ?_, rfl⟩
        have h0 : s₀.members = [] := by
          rw [Sender.members, hrcvr]
          rfl
        exact hm.trans (by rw [h0, List.append_nil])
  · rw [hs] at hboot
    exact .inl ⟨fun h => hno (hnodup.mpr h), s, hboot⟩

/-- Nothing was sent yet when the threads start. -/
theorem started_of_boot {s : Sender} (Z : s.Resting 0 a.baddr)
    (hm : s.members = l.reverse.map (⟨·, a.pport⟩)) (htxg : s.txg = some s.unicastGroup)
    (T : RouterTree a.baddr l.reverse) : System.Started ⟨s, .start, 0, []⟩ 0 T where
  resting := Z
  peers_eq := by
    rw [← Z.inv.peers_eq, hm, List.map_map]
    exact List.map_id _
  txg_eq := htxg
  dcv_eq := rfl
  read_eq := rfl
  data_eq := rfl

/-- Whatever the command line is, as long as it is accepted: when two of the addresses are equal,
`main` leaves with an error.  Otherwise, when there is one receiver, or the memory of the last one
happens to read as zero, the group consists of the receivers with their port, the first group that is
published serves all of them by unicast, and the system that runs with the settings of the command line
satisfies its invariant in every state it reaches.  When it does not, `main` follows a pointer that
nobody has set. -/
theorem safe_of_command_line {opts : List (OptKey × String)} {peers : List String}
    (h : initArgs zero opts peers = .ok a) :
    ∃ texts port l, peers = texts ++ [port] ∧ texts.mapM inet_pton = some l ∧ l ≠ [] ∧
      ((¬ (a.baddr :: l).Nodup ∧ ∃ s, boot a = some (s, -1)) ∨
      ((a.baddr :: l).Nodup ∧ 2 ≤ l.length ∧ zero (l.length - 1) = false ∧ boot a = none) ∨
      ((a.baddr :: l).Nodup ∧ (2 ≤ l.length → zero (l.length - 1)) ∧ ∃ s, boot a = some (s, 0) ∧
        s.members = l.reverse.map (⟨·, a.pport⟩) ∧
        s.txg = some ⟨[], l.length, s.members⟩ ∧
        ∀ (T : RouterTree a.baddr l.reverse) (P : Paths) (net : In6Addr → Net) (st : System),
          T.Charted P → T.Equipped net →
          Relation.ReflTransGen (System.Step (accepted_of_initArgs h).args T P net)
            ⟨s, .start, 0, []⟩ st → st.Safe 0 T P net)) := by
  obtain ⟨texts, port, l, hpeers, htexts, hl, ha⟩ := paddr_of_initArgs h
  refine ⟨texts, port, l, hpeers, htexts, hl, ?_⟩
  rcases boot_spec hl ha with hno | ⟨hnodup, hwild, hnull⟩
  · exact .inl hno
  · by_cases hlast : 2 ≤ l.length ∧ zero (l.length - 1) = false
    · refine .inr (.inl ⟨hnodup, hlast.1, hlast.2, hwild (if_neg ?_)⟩)
      rintro (h1 | hz)
      · omega
      · cases hz.symm.trans hlast.2
    · have hend : 2 ≤ l.length → zero (l.length - 1) := fun h2 =>
        Bool.eq_true_of_not_eq_false fun hf => hlast ⟨h2, hf⟩
      have htail : l.length ≤ 1 ∨ zero (l.length - 1) = true := by
        by_cases h1 : l.length ≤ 1
        · exact .inl h1
        · exact .inr (hend (by omega))
      obtain ⟨s, hs, Z, hm, htxg⟩ := hnull (if_pos htail)
      refine .inr (.inr ⟨hnodup, hend, s, hs, hm, ?_, fun T P net st hP N hrun => ?_⟩)
      · have hlen : s.rcvr.length = l.length := by
          have := congrArg List.length hm
          simpa only [Sender.members, List.length_map, List.length_reverse] using this
        rw [htxg, Sender.unicastGroup, ← Sender.members, hlen]
      · exact (started_of_boot Z hm htxg T).safe_of_run hP N hrun

end Boot

/-- A command line with two receivers, and memory that was zero. -/
def Arguments.fork : Arguments :=
  { setDefaultArgs with
    bifname := some "eth0", baddr := 1, pport := 7000, paddr := .ofList .null [2, 3], ok_addrs := 8 }

theorem initArgs_fork : initArgs (fun _ => true) [(.bifname, "eth0"), (.baddr, "::1")]
    ["::2", "::3", "7000"] = .ok .fork := by
  rfl

/-- The theorem for these receivers. -/
theorem safe_of_fork_line : ∃ s, boot .fork = some (s, 0) ∧ s.members = [⟨3, 7000⟩, ⟨2, 7000⟩] ∧
    ∀ st, Relation.ReflTransGen (System.Step (accepted_of_initArgs initArgs_fork).args forkTree .fork
      forkNet) ⟨s, .start, 0, []⟩ st → st.Safe 0 forkTree .fork forkNet := by
  obtain ⟨texts, port, l, hpeers, htexts, -, hcases⟩ := safe_of_command_line initArgs_fork
  obtain ⟨rfl, rfl⟩ : texts = ["::2", "::3"] ∧ port = "7000" := by
    have hp : ["::2", "::3"] ++ ["7000"] = texts ++ [port] := hpeers
    exact (List.append_inj' hp rfl).imp Eq.symm fun h => (List.singleton_inj.mp h).symm
  obtain rfl : [2, 3] = l := Option.some.inj htexts
  rcases hcases with ⟨hno, -⟩ | ⟨-, -, hz, -⟩ | ⟨-, -, s, hs, hm, -, h⟩
  · exact absurd (by decide) hno
  · cases hz
  · exact ⟨s, hs, hm, fun st => h forkTree .fork forkNet st forkTree_charted forkNet_equipped⟩

end MEADcast
