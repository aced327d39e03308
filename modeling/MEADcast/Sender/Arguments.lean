import MEADcast.Lib.Atoi
import MEADcast.Lib.Inet
import MEADcast.Lib.TimerFd
import MEADcast.Sender.Node

/-!
# The command line (`argp.c`)

`argp_parse` hands the options to `parse_opt` in their order, then the other arguments, of which the
last one is the port of the receivers, and at last the end of the command line.  A message means that
the program ends with it.

`_parse_peer` never sets the pointer of a new list element, except for the first one.  Whether the
element can be followed depends on the memory that `malloc` returns, which is a parameter here.

## Main definitions

* `Arguments`, `setDefaultArgs` — what the program knows of its command line.
* `Paddr` — the list of receivers, which may end in a pointer that nobody has set.
* `parseOpt`, `initArgs` — the parser.
* `Arguments.Accepted` — the arguments that the rest of the program is written for.

## Main results

* `initArgs_iff` — these are exactly the arguments that come out of the parser.
-/

namespace MEADcast

/-- `IFNAMSIZ` and the text at the end of every message. -/
abbrev ifnamsiz : ℕ := 16
def helpInfo : String := "See --help for more information."

/-- A list of `struct paddr`.  It ends with a null pointer, or with whatever was in the memory. -/
inductive Paddr
  | null
  | wild
  | node (v : In6Addr) (n : Paddr)
  deriving DecidableEq, Repr

/-- How the program ends in the parser: with a message, or it follows a pointer that nobody has set, and
everything may happen. -/
inductive Exit
  | message (text : String)
  | undefined

/-- `struct arguments`, except what only the threads use to wait for each other. -/
@[ext]
structure Arguments where
  tifname : Option String
  bifname : Option String
  taddr : In6Addr
  baddr : In6Addr
  bport : BitVec 16
  pport : BitVec 16
  paddr : Paddr
  dcvr_int : Itimerspec
  dcvr_tout : Itimerspec
  dcvr_wait : Bool
  max_addrs : BitVec 64
  ok_addrs : BitVec 64
  min_leafs : BitVec 64
  min_routers : BitVec 64
  split_nodes : Bool
  merge_range : BitVec 64
  print_tree : Bool
  print_txg : Bool
  deriving DecidableEq, Repr

/-- `set_default_args`. -/
def setDefaultArgs : Arguments where
  tifname := some "tun1"
  bifname := none
  taddr := 0xfd150000000000000000000000000001
  baddr := 0
  bport := 9999
  pport := 0
  paddr := .null
  dcvr_int := ⟨⟨5, 0⟩, ⟨5, 0⟩⟩
  dcvr_tout := ⟨⟨2, 0⟩, ⟨0, 0⟩⟩
  dcvr_wait := false
  max_addrs := 10
  ok_addrs := 0
  min_leafs := 2
  min_routers := 1
  split_nodes := false
  merge_range := 0
  print_tree := false
  print_txg := false

/-- The options. -/
inductive OptKey
  | tifname | bifname | taddr | baddr | bport
  | dcvrInt | dcvrTout | dcvrDelay | dcvrWait
  | maxAddrs | okAddrs | minLeafs | minRouters | splitNodes | mergeRange
  | printTree | printTxg
  deriving DecidableEq, Repr

/-- The keys that `parse_opt` is called with: options, `ARGP_KEY_ARG` and `ARGP_KEY_END`. -/
inductive ArgpKey
  | opt (key : OptKey)
  | arg
  | fin
  deriving DecidableEq, Repr

/-- `struct argp_state`: the number of words, the next one, and how many of the arguments so far were
no options. -/
structure ArgpState where
  argc : ℕ
  next : ℕ
  arg_num : ℕ

/-- `_parse_if`. -/
def parseIf (arg info : String) : Except Exit String :=
  if ifnamsiz < arg.utf8ByteSize then
    throw <| .message s!"Max {info} ifname length is {ifnamsiz}. {helpInfo}"
  else return arg

/-- `_parse_addr`. -/
def parseAddr (arg info : String) : Except Exit In6Addr :=
  match inet_pton arg with
  | none => throw <| .message s!"Invalid {info} address. {helpInfo}"
  | some addr => return addr

/-- `_parse_port`: the check comes after the conversion to 16 bits. -/
def parsePort (arg info : String) : Except Exit (BitVec 16) :=
  let port := BitVec.ofInt 16 (atoi arg)
  if 0 < port.toNat then return port
  else throw <| .message s!"Invalid {info} port: {arg}. {helpInfo}"

/-- `_parse_int` on the lower half of a `size_t`. -/
def parseInt (v : BitVec 64) (arg info : String) (min : ℤ) : Except Exit (BitVec 64) :=
  if min ≤ atoi arg then return v.extractLsb' 32 32 ++ BitVec.ofInt 32 (atoi arg)
  else throw <| .message s!"Invalid value for {info}: {arg}. {arg} must be at least {min}. {helpInfo}"

/-- The loop of `_parse_peer` that goes to the end of the list, and the new element behind it. -/
def Paddr.link : Paddr → Paddr → Except Exit Paddr
  | null, new => return new
  | wild, _ => throw .undefined
  | node v n, new => return node v (← n.link new)

/-- `_parse_peer`; `zero` tells whether the pointer in the new element reads as a null pointer when
nobody has set it. -/
def parsePeer (zero : Bool) (head : Paddr) (arg : String) (arg_num : ℕ) : Except Exit Paddr :=
  match inet_pton arg with
  | none => throw <| .message s!"Invalid peer address at index {arg_num}: {arg}. {helpInfo}"
  | some new =>
      if head = .null then return .node new .null
      else head.link (.node new (if zero then .null else .wild))

/-- `null_check`. -/
def nullCheck (arg : Paddr) (info : String) : Except Exit Unit :=
  if arg ≠ .null then return () else throw <| .message s!"{info} is required. {helpInfo}"

/-- `empty_check`. -/
def emptyCheck (arg : Option String) (info : String) : Except Exit Unit :=
  if arg.any fun arg => arg.utf8ByteSize ≤ ifnamsiz then return ()
  else throw <| .message s!"{info} is required. {helpInfo}"

/-- The seconds of a time. -/
def Timespec.setSec (t : Timespec) (sec : ℤ) : Timespec := { t with tv_sec := sec }

/-- `parse_opt`; the memory for the peer at index `i` reads as zero if `zero i` holds. -/
def parseOpt (zero : ℕ → Bool) (state : ArgpState) (key : ArgpKey) (arg : String)
    (a : Arguments) : Except Exit Arguments :=
  match key with
  | .opt .tifname => return { a with tifname := some (← parseIf arg "TUN") }
  | .opt .bifname => return { a with bifname := some (← parseIf arg "bind") }
  | .opt .taddr => return { a with taddr := ← parseAddr arg "tun" }
  | .opt .baddr => return { a with baddr := ← parseAddr arg "bind" }
  | .opt .bport => return { a with bport := ← parsePort arg "bind" }
  | .opt .dcvrInt => return { a with
      dcvr_int := { a.dcvr_int with it_interval := a.dcvr_int.it_interval.setSec (atoi arg) } }
  | .opt .dcvrTout => return { a with
      dcvr_tout := { a.dcvr_tout with it_interval := a.dcvr_tout.it_interval.setSec (atoi arg) } }
  | .opt .dcvrDelay => return { a with
      dcvr_int := { a.dcvr_int with it_value := a.dcvr_int.it_value.setSec (atoi arg) } }
  | .opt .dcvrWait => return { a with dcvr_int := { a.dcvr_int with it_value := ⟨0, 1⟩ }, dcvr_wait := true }
  | .opt .maxAddrs => return { a with max_addrs := ← parseInt a.max_addrs arg "MAX_ADDRS" 2 }
  | .opt .okAddrs => return { a with ok_addrs := ← parseInt a.ok_addrs arg "OK_ADDRS" 2 }
  | .opt .minLeafs => return { a with min_leafs := ← parseInt a.min_leafs arg "MIN_LEAFS" 1 }
  | .opt .minRouters => return { a with min_routers := ← parseInt a.min_routers arg "MIN_ROUTERS" 1 }
  | .opt .splitNodes => return { a with split_nodes := true }
  | .opt .mergeRange => return { a with merge_range := ← parseInt a.merge_range arg "MERGE_RANGE" 0 }
  | .opt .printTree => return { a with print_tree := true }
  | .opt .printTxg => return { a with print_txg := true }
  | .arg =>
      if state.argc ≠ state.next then
        return { a with paddr := ← parsePeer (zero state.arg_num) a.paddr arg state.arg_num }
      else return { a with pport := ← parsePort arg "peer" }
  | .fin => do
      emptyCheck a.tifname "TUN interface"
      emptyCheck a.bifname "Bind interface"
      nullCheck a.paddr "At least one destination"
      -- `.8 * max_addrs`, cut off
      return { a with
        ok_addrs := if a.ok_addrs = 0 then BitVec.ofNat 64 (4 * a.max_addrs.toNat / 5) else a.ok_addrs }

/-- The options, in their order. -/
def parseOpts (zero : ℕ → Bool) (argc : ℕ) :
    List (OptKey × String) → Arguments → Except Exit Arguments
  | [], a => return a
  | (key, arg) :: opts, a => do
      let a ← parseOpt zero ⟨argc, 1, 0⟩ (.opt key) arg a
      parseOpts zero argc opts a

/-- The arguments that are no options, `i` of which are done; they stand at the end. -/
def parsePeers (zero : ℕ → Bool) (argc : ℕ) :
    ℕ → List String → Arguments → Except Exit Arguments
  | _, [], a => return a
  | i, arg :: peers, a => do
      let a ← parseOpt zero ⟨argc, argc - peers.length, i⟩ .arg arg a
      parsePeers zero argc (i + 1) peers a

/-- `init_args`. -/
def initArgs (zero : ℕ → Bool) (opts : List (OptKey × String))
    (peers : List String) : Except Exit Arguments := do
  let argc := 1 + opts.length + peers.length
  let a ← parseOpts zero argc opts setDefaultArgs
  let a ← parsePeers zero argc 0 peers a
  parseOpt zero ⟨argc, argc, peers.length⟩ .fin "" a

/-- The pointer behind `n` receivers: null if there is at most one, else what `malloc` left there. -/
def Paddr.tail (zero : ℕ → Bool) (n : ℕ) : Paddr := if n ≤ 1 ∨ zero (n - 1) then .null else .wild

/-- The receivers of a list, and what it ends with. -/
def Paddr.ofList (n : Paddr) (l : List In6Addr) : Paddr := l.foldr .node n

/-- The receivers that can be followed. -/
def Paddr.toList : Paddr → List In6Addr
  | null | wild => []
  | node v n => v :: n.toList

/-- To add a receiver the elements before the last one must have been followed, from the second one on. -/
def Followed (zero : ℕ → Bool) (l : List In6Addr) : Prop := ∀ i, 1 ≤ i → i + 1 < l.length → zero i

/-- The values of `size_t` that `_parse_int` writes. -/
def IsSize (v : BitVec 64) (min : ℕ) : Prop := min ≤ v.toNat ∧ v.toNat < 2 ^ 31

/-- What holds of the defaults already, and is kept by every option. -/
structure Arguments.Checked (a : Arguments) : Prop where
  tifname : ∃ name, a.tifname = some name ∧ name.utf8ByteSize ≤ ifnamsiz
  bport : a.bport ≠ 0
  dcvr_int : IsInt a.dcvr_int.it_interval.tv_sec ∧ a.dcvr_int.it_interval.tv_nsec = 0
  dcvr_tout : IsInt a.dcvr_tout.it_interval.tv_sec ∧ a.dcvr_tout.it_interval.tv_nsec = 0 ∧
    a.dcvr_tout.it_value = ⟨0, 0⟩
  delay : IsInt a.dcvr_int.it_value.tv_sec ∧
    a.dcvr_int.it_value.tv_nsec = if a.dcvr_wait then 1 else 0
  max_addrs : IsSize a.max_addrs 2
  min_leafs : IsSize a.min_leafs 1
  min_routers : IsSize a.min_routers 1
  merge_range : IsSize a.merge_range 0

/-- There are receivers, interfaces and ports, groups have space for a router and a receiver, and
what is pruned is not nothing. -/
structure Arguments.Accepted (zero : ℕ → Bool) (a : Arguments) : Prop extends a.Checked where
  bifname : ∃ name, a.bifname = some name ∧ name.utf8ByteSize ≤ ifnamsiz
  pport : a.pport ≠ 0
  paddr : ∃ l, l ≠ [] ∧ Followed zero l ∧ a.paddr = .ofList (.tail zero l.length) l
  ok_addrs : IsSize a.ok_addrs 2 ∨ a.ok_addrs = BitVec.ofNat 64 (4 * a.max_addrs.toNat / 5)

/-! ## The checks -/

section Checks

variable {arg info name : String} {addr : In6Addr}
  {port : BitVec 16} {v r : BitVec 64} {min : ℤ} {head peers : Paddr} {n : ℕ} {zero : Bool}

theorem bind_eq_ok {ε α β : Type} {x : Except ε α} {f : α → Except ε β} {b : β} :
    (x >>= f) = .ok b ↔ ∃ a, x = .ok a ∧ f a = .ok b := by
  cases x with
  | error e => exact ⟨fun h => (nomatch h), fun ⟨_, h, _⟩ => (nomatch h)⟩
  | ok a => exact ⟨fun h => ⟨a, rfl, h⟩, fun ⟨_, h, h'⟩ => Except.ok.inj h ▸ h'⟩

theorem ite_eq_ok {ε α : Type} {p : Prop} [Decidable p] {a b : α} {e : ε} :
    (if p then (pure a : Except ε α) else throw e) = .ok b ↔ p ∧ a = b := by
  split
  · next h => exact ⟨fun hb => ⟨h, Except.ok.inj hb⟩, fun hb => congrArg _ hb.2⟩
  · next h => exact ⟨fun hb => (nomatch hb), fun hb => absurd hb.1 h⟩

theorem parseIf_eq_ok : parseIf arg info = .ok name ↔ arg.utf8ByteSize ≤ ifnamsiz ∧ arg = name := by
  rw [parseIf, ← not_lt, ← ite_eq_ok, ite_not]

theorem parseAddr_eq_ok : parseAddr arg info = .ok addr ↔ inet_pton arg = some addr := by
  rw [parseAddr]
  split
  · next h => exact ⟨fun hb => (nomatch hb), fun hb => (nomatch h.symm.trans hb)⟩
  · next a h => exact ⟨fun hb => h.trans (congrArg some (Except.ok.inj hb)),
      fun hb => congrArg Except.ok (Option.some.inj (h.symm.trans hb))⟩

theorem parsePort_eq_ok :
    parsePort arg info = .ok port ↔ BitVec.ofInt 16 (atoi arg) = port ∧ port ≠ 0 := by
  rw [parsePort, ite_eq_ok]
  constructor
  · rintro ⟨h, rfl⟩
    refine ⟨rfl, fun h0 => ?_⟩
    rw [h0] at h
    exact absurd h (by decide)
  · rintro ⟨rfl, h⟩
    refine ⟨Nat.pos_of_ne_zero fun h0 => h (BitVec.eq_of_toNat_eq h0), rfl⟩

theorem parseInt_eq_ok : parseInt v arg info min = .ok r ↔
    min ≤ atoi arg ∧ v.extractLsb' 32 32 ++ BitVec.ofInt 32 (atoi arg) = r := ite_eq_ok

theorem Paddr.link_null (l : List In6Addr) (new : Paddr) :
    (ofList .null l).link new = .ok (ofList new l) := by
  induction l with
  | nil => rfl
  | cons v l ih => exact (congrArg (fun r => r >>= fun n => pure (node v n)) ih).trans rfl

theorem Paddr.link_wild (l : List In6Addr) (new : Paddr) :
    (ofList .wild l).link new = .error .undefined := by
  induction l with
  | nil => rfl
  | cons v l ih => exact (congrArg (fun r => r >>= fun n => pure (node v n)) ih).trans rfl

theorem Paddr.ofList_append (n : Paddr) (l : List In6Addr) (v : In6Addr) :
    ofList n (l ++ [v]) = ofList (node v n) l := by
  rw [ofList, List.foldr_append]
  rfl

theorem Paddr.ofList_ne_null {n : Paddr} {l : List In6Addr} (hl : l ≠ []) : ofList n l ≠ .null := by
  cases l with
  | nil => exact absurd rfl hl
  | cons v l => exact Paddr.noConfusion

theorem Paddr.toList_tail (zero : ℕ → Bool) (n : ℕ) : (tail zero n).toList = [] := by
  rw [tail]
  split <;> rfl

theorem Paddr.toList_ofList {n : Paddr} {l : List In6Addr} (hn : n.toList = []) :
    (ofList n l).toList = l := by
  induction l with
  | nil => exact hn
  | cons v l ih => exact congrArg _ ih

/-- A new receiver, after those of `l`. -/
theorem parsePeer_eq_ok {l : List In6Addr} {zero : ℕ → Bool} :
    parsePeer (zero l.length) (.ofList (.tail zero l.length) l) arg n = .ok peers ↔
      ∃ new, inet_pton arg = some new ∧ (2 ≤ l.length → zero (l.length - 1)) ∧
        peers = .ofList (.tail zero (l.length + 1)) (l ++ [new]) := by
  rw [parsePeer]
  cases ha : inet_pton arg with
  | none => exact ⟨fun h => (nomatch h), fun ⟨_, h, _⟩ => (nomatch h)⟩
  | some new =>
      rcases List.eq_nil_or_concat' l with rfl | ⟨l', v, rfl⟩
      · exact ⟨fun h => ⟨new, rfl, by simp, (Except.ok.inj h).symm⟩,
          fun ⟨v, hv, _, h⟩ => by rw [h, Option.some.inj hv]; rfl⟩
      · set l := l' ++ [v] with hl
        have hlen : 1 ≤ l.length := by simp [hl]
        have hne : Paddr.ofList (.tail zero l.length) l ≠ .null :=
          Paddr.ofList_ne_null (List.concat_ne_nil v l')
        have hnew : (if zero l.length then Paddr.null else .wild) = .tail zero (l.length + 1) := by
          simp only [Paddr.tail, Nat.add_sub_cancel]
          cases hz : zero l.length with
          | true => simp
          | false =>
              have h1 : ¬ l.length + 1 ≤ 1 := by omega
              simp [h1]
        simp only [if_neg hne, hnew]
        by_cases hfollow : 2 ≤ l.length → zero (l.length - 1)
        · have htail : Paddr.tail zero l.length = .null := if_pos (by
            by_cases h1 : l.length ≤ 1
            · exact Or.inl h1
            · exact Or.inr (hfollow (by omega)))
          rw [htail, Paddr.link_null, ← Paddr.ofList_append]
          exact ⟨fun h => ⟨new, rfl, hfollow, (Except.ok.inj h).symm⟩,
            fun ⟨v, hv, _, h⟩ => by rw [h, Option.some.inj hv]⟩
        · have htail : Paddr.tail zero l.length = .wild := if_neg fun h => hfollow fun h2 =>
            h.resolve_left (by omega)
          rw [htail, Paddr.link_wild]
          exact ⟨fun h => (nomatch h), fun ⟨_, _, h, _⟩ => absurd h hfollow⟩

theorem nullCheck_eq_ok {u : Unit} : nullCheck head info = .ok u ↔ head ≠ .null :=
  ite_eq_ok.trans (and_iff_left rfl)

theorem emptyCheck_eq_ok {arg : Option String} {u : Unit} : emptyCheck arg info = .ok u ↔
    ∃ name, arg = some name ∧ name.utf8ByteSize ≤ ifnamsiz := by
  rw [emptyCheck, ite_eq_ok, and_iff_left rfl]
  cases arg <;> simp

/-- A number that is not negative and was no longer than 32 bits before. -/
theorem toNat_parseInt {m : ℕ} (hv : v.toNat < 2 ^ 31) (hm : (m : ℤ) ≤ atoi arg) :
    ((v.extractLsb' 32 32 ++ BitVec.ofInt 32 (atoi arg) : BitVec 64)).toNat = (atoi arg).toNat := by
  obtain ⟨-, hlt⟩ := atoi_range arg
  norm_num at hlt
  rw [BitVec.toNat_append, BitVec.extractLsb'_toNat, BitVec.toNat_ofInt,
    Nat.shiftRight_eq_div_pow, Nat.div_eq_of_lt (by omega), Nat.zero_mod, Nat.zero_shiftLeft,
    Nat.zero_or]
  norm_num
  omega

theorem isSize_parseInt {m : ℕ} (hv : v.toNat < 2 ^ 31) (h : parseInt v arg info m = .ok r) :
    IsSize r m := by
  obtain ⟨hm, rfl⟩ := parseInt_eq_ok.mp h
  obtain ⟨-, hlt⟩ := atoi_range arg
  norm_num at hlt
  rw [IsSize, toNat_parseInt hv hm]
  norm_num
  omega

end Checks

/-! ## What comes out of the parser -/

/-- While the options are parsed, the interface and the size that a packet may be finished at are
either still open or checked, and the receivers are not there yet. -/
structure Arguments.Pending (a : Arguments) : Prop extends a.Checked where
  bifname : ∀ name, a.bifname = some name → name.utf8ByteSize ≤ ifnamsiz
  ok_addrs : a.ok_addrs = 0 ∨ IsSize a.ok_addrs 2

section Sound

variable {state : ArgpState} {key : OptKey} {arg : String} {a b : Arguments} {argc i : ℕ} {zero : ℕ → Bool}

theorem pending_setDefaultArgs : setDefaultArgs.Pending where
  tifname := ⟨_, rfl, by decide⟩
  bport := by decide
  dcvr_int := ⟨⟨by decide, by decide⟩, rfl⟩
  dcvr_tout := ⟨⟨by decide, by decide⟩, rfl, rfl⟩
  delay := ⟨⟨by decide, by decide⟩, rfl⟩
  max_addrs := ⟨by decide, by decide⟩
  min_leafs := ⟨by decide, by decide⟩
  min_routers := ⟨by decide, by decide⟩
  merge_range := ⟨by decide, by decide⟩
  bifname := fun _ h => nomatch h
  ok_addrs := .inl rfl

/-- An option writes what it has checked, and leaves the receivers alone. -/
theorem Arguments.Pending.opt (A : a.Pending) (h : parseOpt zero state (.opt key) arg a = .ok b) :
    b.Pending ∧ b.paddr = a.paddr := by
  cases key with
  | tifname =>
      obtain ⟨name, hn, h⟩ := bind_eq_ok.mp h
      obtain rfl := Except.ok.inj h
      obtain ⟨hlen, rfl⟩ := parseIf_eq_ok.mp hn
      exact ⟨{ A with tifname := ⟨_, rfl, hlen⟩ }, rfl⟩
  | bifname =>
      obtain ⟨name, hn, h⟩ := bind_eq_ok.mp h
      obtain rfl := Except.ok.inj h
      obtain ⟨hlen, rfl⟩ := parseIf_eq_ok.mp hn
      exact ⟨{ A with bifname := fun _ hs => Option.some.inj hs ▸ hlen }, rfl⟩
  | taddr =>
      obtain ⟨addr, -, h⟩ := bind_eq_ok.mp h
      obtain rfl := Except.ok.inj h
      exact ⟨{ A with }, rfl⟩
  | baddr =>
      obtain ⟨addr, -, h⟩ := bind_eq_ok.mp h
      obtain rfl := Except.ok.inj h
      exact ⟨{ A with }, rfl⟩
  | bport =>
      obtain ⟨port, hp, h⟩ := bind_eq_ok.mp h
      obtain rfl := Except.ok.inj h
      exact ⟨{ A with bport := (parsePort_eq_ok.mp hp).2 }, rfl⟩
  | dcvrInt =>
      obtain rfl := Except.ok.inj h
      exact ⟨{ A with dcvr_int := ⟨atoi_range arg, A.dcvr_int.2⟩ }, rfl⟩
  | dcvrTout =>
      obtain rfl := Except.ok.inj h
      exact ⟨{ A with dcvr_tout := ⟨atoi_range arg, A.dcvr_tout.2⟩ }, rfl⟩
  | dcvrDelay =>
      obtain rfl := Except.ok.inj h
      exact ⟨{ A with delay := ⟨atoi_range arg, A.delay.2⟩ }, rfl⟩
  | dcvrWait =>
      obtain rfl := Except.ok.inj h
      exact ⟨{ A with delay := ⟨isInt_zero, rfl⟩ }, rfl⟩
  | maxAddrs =>
      obtain ⟨v, hv, h⟩ := bind_eq_ok.mp h
      obtain rfl := Except.ok.inj h
      exact ⟨{ A with max_addrs := isSize_parseInt (m := 2) A.max_addrs.2 hv }, rfl⟩
  | okAddrs =>
      obtain ⟨v, hv, h⟩ := bind_eq_ok.mp h
      obtain rfl := Except.ok.inj h
      have hold : a.ok_addrs.toNat < 2 ^ 31 := by
        rcases A.ok_addrs with h0 | h2
        · rw [h0]
          decide
        · exact h2.2
      exact ⟨{ A with ok_addrs := .inr (isSize_parseInt (m := 2) hold hv) }, rfl⟩
  | minLeafs =>
      obtain ⟨v, hv, h⟩ := bind_eq_ok.mp h
      obtain rfl := Except.ok.inj h
      exact ⟨{ A with min_leafs := isSize_parseInt (m := 1) A.min_leafs.2 hv }, rfl⟩
  | minRouters =>
      obtain ⟨v, hv, h⟩ := bind_eq_ok.mp h
      obtain rfl := Except.ok.inj h
      exact ⟨{ A with min_routers := isSize_parseInt (m := 1) A.min_routers.2 hv }, rfl⟩
  | mergeRange =>
      obtain ⟨v, hv, h⟩ := bind_eq_ok.mp h
      obtain rfl := Except.ok.inj h
      exact ⟨{ A with merge_range := isSize_parseInt (m := 0) A.merge_range.2 hv }, rfl⟩
  | splitNodes | printTree | printTxg =>
      obtain rfl := Except.ok.inj h
      exact ⟨{ A with }, rfl⟩

theorem Arguments.Pending.opts {opts : List (OptKey × String)} (A : a.Pending)
    (h : parseOpts zero argc opts a = .ok b) : b.Pending ∧ b.paddr = a.paddr := by
  induction opts generalizing a with
  | nil => exact Except.ok.inj h ▸ ⟨A, rfl⟩
  | cons o opts ih =>
      obtain ⟨c, hc, h⟩ := bind_eq_ok.mp h
      obtain ⟨C, hp⟩ := A.opt hc
      obtain ⟨B, hp'⟩ := ih C h
      exact ⟨B, hp'.trans hp⟩

theorem followed_nil (zero : ℕ → Bool) : Followed zero [] := by
  intro i _ hi
  rw [List.length_nil] at hi
  omega

theorem followed_append {done : List In6Addr} {new : In6Addr} : Followed zero (done ++ [new]) ↔
    Followed zero done ∧ (2 ≤ done.length → zero (done.length - 1)) := by
  simp only [Followed, List.length_append, List.length_singleton]
  constructor
  · exact fun h => ⟨fun i h1 hi => h i h1 (by omega), fun h2 => h _ (by omega) (by omega)⟩
  · rintro ⟨h, hlast⟩ i h1 hi
    by_cases hd : i + 1 < done.length
    · exact h i h1 hd
    · obtain rfl : i = done.length - 1 := by omega
      exact hlast (by omega)

theorem Followed.left {done addrs : List In6Addr} (h : Followed zero (done ++ addrs)) :
    Followed zero done := fun i h1 hi => h i h1 (by rw [List.length_append]; omega)

/-- The last one of the arguments that are no options is the port; the others are added to those that
are done. -/
theorem parsePeers_eq_ok {l : List String} {port : String} {done : List In6Addr} (hargc : 0 < argc)
    (ha : a.paddr = .ofList (.tail zero done.length) done) (hd : Followed zero done) :
    parsePeers zero argc done.length (l ++ [port]) a = .ok b ↔
      ∃ addrs p, l.mapM inet_pton = some addrs ∧ parsePort port "peer" = .ok p ∧
        Followed zero (done ++ addrs) ∧
        b = { a with
          paddr := .ofList (.tail zero (done ++ addrs).length) (done ++ addrs), pport := p } := by
  induction l generalizing a done with
  | nil =>
      rw [List.nil_append, parsePeers, bind_eq_ok]
      simp only [parseOpt, List.length_nil, Nat.sub_zero, ne_eq, not_true, if_false]
      constructor
      · rintro ⟨c, hc, hb⟩
        obtain ⟨p, hp, hc⟩ := bind_eq_ok.mp hc
        obtain rfl := Except.ok.inj hc
        refine ⟨[], p, rfl, hp, ?_, ?_⟩
        · rwa [List.append_nil]
        · rw [List.append_nil, ← ha]
          exact (Except.ok.inj hb).symm
      · rintro ⟨addrs, p, h, hp, -, rfl⟩
        obtain rfl : [] = addrs := Option.some.inj h
        rw [List.append_nil, ← ha]
        exact ⟨_, bind_eq_ok.mpr ⟨p, hp, rfl⟩, rfl⟩
  | cons arg l ih =>
      have hnext : argc ≠ argc - (l ++ [port]).length := by
        rw [List.length_append, List.length_singleton]
        omega
      -- the next receiver, and those after it
      have hstep : ∀ {new : In6Addr} {c : Arguments}, Followed zero (done ++ [new]) →
          c = { a with paddr := .ofList (.tail zero (done.length + 1)) (done ++ [new]) } →
          (parsePeers zero argc (done.length + 1) (l ++ [port]) c = .ok b ↔
            ∃ addrs p, l.mapM inet_pton = some addrs ∧ parsePort port "peer" = .ok p ∧
              Followed zero (done ++ new :: addrs) ∧ b = { a with
                paddr := .ofList (.tail zero (done ++ new :: addrs).length) (done ++ new :: addrs)
                pport := p }) := by
        rintro new c hnew rfl
        have hlen : done.length + 1 = (done ++ [new]).length := by simp
        rw [hlen, ih rfl hnew]
        simp only [List.append_assoc, List.singleton_append]
      rw [List.cons_append, parsePeers, bind_eq_ok]
      simp only [parseOpt, hnext, ne_eq, not_false_eq_true, if_true, ha]
      constructor
      · rintro ⟨c, hc, hb⟩
        obtain ⟨peers, hpeers, hc⟩ := bind_eq_ok.mp hc
        obtain ⟨new, hnew, hfollow, rfl⟩ := parsePeer_eq_ok.mp hpeers
        obtain ⟨addrs, p, h, hp, hF, rfl⟩ :=
          (hstep (followed_append.mpr ⟨hd, hfollow⟩) (Except.ok.inj hc).symm).mp hb
        refine ⟨new :: addrs, p, ?_, hp, hF, rfl⟩
        rw [List.mapM_cons, hnew, h]
        rfl
      · rintro ⟨addrs, p, h, hp, hF, rfl⟩
        rw [List.mapM_cons, Option.bind_eq_bind, Option.bind_eq_some_iff] at h
        obtain ⟨new, hnew, h⟩ := h
        obtain ⟨addrs', h', he⟩ := Option.bind_eq_some_iff.mp h
        obtain rfl := Option.some.inj he
        have hF' : Followed zero (done ++ [new]) := by
          rw [← List.singleton_append, ← List.append_assoc] at hF
          exact hF.left
        exact ⟨_, bind_eq_ok.mpr ⟨_, parsePeer_eq_ok.mpr ⟨new, hnew, (followed_append.mp hF').2, rfl⟩, rfl⟩,
          (hstep hF' rfl).mpr ⟨addrs', p, h', hp, hF, rfl⟩⟩

theorem fin_eq_ok : parseOpt zero state .fin arg a = .ok b ↔
    (∃ name, a.tifname = some name ∧ name.utf8ByteSize ≤ ifnamsiz) ∧
    (∃ name, a.bifname = some name ∧ name.utf8ByteSize ≤ ifnamsiz) ∧ a.paddr ≠ .null ∧
    b = { a with ok_addrs :=
      if a.ok_addrs = 0 then BitVec.ofNat 64 (4 * a.max_addrs.toNat / 5) else a.ok_addrs } := by
  simp only [parseOpt, bind_eq_ok, emptyCheck_eq_ok, nullCheck_eq_ok]
  constructor
  · rintro ⟨-, htun, -, hbind, -, hpeer, h⟩
    exact ⟨htun, hbind, hpeer, (Except.ok.inj h).symm⟩
  · rintro ⟨htun, hbind, hpeer, rfl⟩
    exact ⟨(), htun, (), hbind, (), hpeer, rfl⟩

theorem Arguments.Pending.accepted {l : List In6Addr} (A : a.Pending) (hport : a.pport ≠ 0)
    (hl : Followed zero l) (ha : a.paddr = .ofList (.tail zero l.length) l)
    (h : parseOpt zero state .fin arg a = .ok b) : b.Accepted zero := by
  obtain ⟨-, hbind, hpeer, rfl⟩ := fin_eq_ok.mp h
  have hne : l ≠ [] := by
    rintro rfl
    exact hpeer ha
  refine { A with bifname := hbind, pport := hport, paddr := ⟨l, hne, hl, ha⟩, ok_addrs := ?_ }
  split
  · exact .inr rfl
  · next h0 => exact .inl (A.ok_addrs.resolve_left h0)

theorem accepted_of_initArgs {opts : List (OptKey × String)} {peers : List String}
    (h : initArgs zero opts peers = .ok b) : b.Accepted zero := by
  obtain ⟨c, hc, h⟩ := bind_eq_ok.mp h
  obtain ⟨d, hd, h⟩ := bind_eq_ok.mp h
  obtain ⟨C, hnone⟩ := pending_setDefaultArgs.opts hc
  rcases List.eq_nil_or_concat' peers with rfl | ⟨texts, port, rfl⟩
  · -- without any of them there are no receivers
    obtain rfl := Except.ok.inj hd
    exact absurd hnone (fin_eq_ok.mp h).2.2.1
  · obtain ⟨l, p, -, hp, hl, rfl⟩ := (parsePeers_eq_ok (by omega) hnone (followed_nil zero)).mp hd
    have D : Arguments.Pending { c with
        paddr := .ofList (.tail zero l.length) l, pport := p } := { C with }
    exact D.accepted (parsePort_eq_ok.mp hp).2 hl rfl h

/-- The receivers are those of the command line, in their order. -/
theorem paddr_of_initArgs {opts : List (OptKey × String)} {peers : List String}
    (h : initArgs zero opts peers = .ok b) : ∃ texts port l, peers = texts ++ [port] ∧
      texts.mapM inet_pton = some l ∧ l ≠ [] ∧ b.paddr = .ofList (.tail zero l.length) l := by
  obtain ⟨c, hc, h⟩ := bind_eq_ok.mp h
  obtain ⟨d, hd, h⟩ := bind_eq_ok.mp h
  obtain ⟨-, hnone⟩ := pending_setDefaultArgs.opts hc
  obtain ⟨-, -, hpeer, rfl⟩ := fin_eq_ok.mp h
  rcases List.eq_nil_or_concat' peers with rfl | ⟨texts, port, rfl⟩
  · obtain rfl := Except.ok.inj hd
    exact absurd hnone hpeer
  · obtain ⟨l, p, htexts, -, -, rfl⟩ := (parsePeers_eq_ok (by omega) hnone (followed_nil zero)).mp hd
    refine ⟨texts, port, l, rfl, htexts, ?_, rfl⟩
    rintro rfl
    exact hpeer rfl

end Sound

/-! ## What comes in -/

/-- An option that has no argument. -/
def flag (p : Bool) (key : OptKey) : List (OptKey × String) := if p then [(key, "")] else []

/-- Options that set everything. -/
def Arguments.toOpts (a : Arguments) : List (OptKey × String) :=
  [(.tifname, a.tifname.getD ""), (.bifname, a.bifname.getD ""), (.taddr, inetText a.taddr),
    (.baddr, inetText a.baddr), (.bport, toString (a.bport.toNat : ℤ))] ++
  (flag a.dcvr_wait .dcvrWait ++
  ([(.dcvrInt, toString a.dcvr_int.it_interval.tv_sec),
    (.dcvrTout, toString a.dcvr_tout.it_interval.tv_sec),
    (.dcvrDelay, toString a.dcvr_int.it_value.tv_sec)] ++
  ([(.maxAddrs, toString (a.max_addrs.toNat : ℤ)), (.minLeafs, toString (a.min_leafs.toNat : ℤ)),
    (.minRouters, toString (a.min_routers.toNat : ℤ)),
    (.mergeRange, toString (a.merge_range.toNat : ℤ))] ++
  ((if 2 ≤ a.ok_addrs.toNat then [(.okAddrs, toString (a.ok_addrs.toNat : ℤ))] else []) ++
  (flag a.split_nodes .splitNodes ++
  (flag a.print_tree .printTree ++ flag a.print_txg .printTxg))))))

/-- The receivers, and their port. -/
def Arguments.toPeers (a : Arguments) : List String :=
  a.paddr.toList.map inetText ++ [toString (a.pport.toNat : ℤ)]

section Complete

variable {key : OptKey} {arg : String} {a b c : Arguments} {argc : ℕ} {opts : List (OptKey × String)}
  {zero : ℕ → Bool}

theorem parsePort_toString {port : BitVec 16} (info : String) (h : port ≠ 0) :
    parsePort (toString (port.toNat : ℤ)) info = .ok port := by
  have hint : IsInt port.toNat := by
    have := port.isLt
    exact ⟨by norm_num, by norm_num; omega⟩
  rw [parsePort_eq_ok, atoi_toString hint, BitVec.ofInt_natCast, BitVec.ofNat_toNat,
    BitVec.setWidth_eq]
  exact ⟨rfl, h⟩

theorem parseInt_toString {v r : BitVec 64} {m : ℕ} (info : String) (hv : v.toNat < 2 ^ 31)
    (h : IsSize r m) : parseInt v (toString (r.toNat : ℤ)) info m = .ok r := by
  obtain ⟨hm, hlt⟩ := h
  have hint : IsInt r.toNat := ⟨by norm_num, by norm_num at hlt ⊢; omega⟩
  have hat : atoi (toString (r.toNat : ℤ)) = r.toNat := atoi_toString hint
  refine parseInt_eq_ok.mpr ⟨by rw [hat]; exact_mod_cast hm, BitVec.eq_of_toNat_eq ?_⟩
  rw [toNat_parseInt (m := m) hv (by rw [hat]; exact_mod_cast hm), hat, Int.toNat_natCast]

theorem parseOpts_cons (h : parseOpt zero ⟨argc, 1, 0⟩ (.opt key) arg a = .ok b) :
    parseOpts zero argc ((key, arg) :: opts) a = parseOpts zero argc opts b := by
  rw [parseOpts, h]
  rfl

theorem parseOpts_flag {p : Bool} (h : parseOpt zero ⟨argc, 1, 0⟩ (.opt key) "" a = .ok b) :
    parseOpts zero argc (flag p key ++ opts) a = parseOpts zero argc opts (if p then b else a) := by
  cases p with
  | false => rfl
  | true => exact parseOpts_cons h

/-- An option whose argument is checked. -/
theorem bind_ok {ε α β : Type} {x : Except ε α} {f : α → Except ε β} {v : α} (h : x = .ok v) :
    (x >>= f) = f v := by
  rw [h]
  rfl

theorem parseOpts_addresses {tun bind : String} {taddr baddr : In6Addr} {bport : BitVec 16}
    (htun : tun.utf8ByteSize ≤ ifnamsiz) (hbind : bind.utf8ByteSize ≤ ifnamsiz) (hport : bport ≠ 0) :
    parseOpts zero argc ((.tifname, tun) :: (.bifname, bind) :: (.taddr, inetText taddr) ::
      (.baddr, inetText baddr) :: (.bport, toString (bport.toNat : ℤ)) :: opts) a =
    parseOpts zero argc opts { a with
      tifname := some tun, bifname := some bind, taddr := taddr, baddr := baddr, bport := bport } := by
  refine (parseOpts_cons (bind_ok (parseIf_eq_ok.mpr ⟨htun, rfl⟩))).trans ?_
  refine (parseOpts_cons (bind_ok (parseIf_eq_ok.mpr ⟨hbind, rfl⟩))).trans ?_
  refine (parseOpts_cons (bind_ok (parseAddr_eq_ok.mpr (inet_pton_inetText taddr)))).trans ?_
  refine (parseOpts_cons (bind_ok (parseAddr_eq_ok.mpr (inet_pton_inetText baddr)))).trans ?_
  exact parseOpts_cons (bind_ok (parsePort_toString _ hport))

theorem parseOpts_times {int tout delay : ℤ} {wait : Bool} (hint : IsInt int) (htout : IsInt tout)
    (hdelay : IsInt delay) (hnsec : a.dcvr_int.it_value.tv_nsec = 0) (hwait : a.dcvr_wait = false) :
    parseOpts zero argc (flag wait .dcvrWait ++ ((.dcvrInt, toString int) :: (.dcvrTout, toString tout) ::
      (.dcvrDelay, toString delay) :: opts)) a =
    parseOpts zero argc opts { a with
      dcvr_int := ⟨a.dcvr_int.it_interval.setSec int, ⟨delay, if wait then 1 else 0⟩⟩
      dcvr_tout := { a.dcvr_tout with it_interval := a.dcvr_tout.it_interval.setSec tout }
      dcvr_wait := wait } := by
  refine (parseOpts_flag rfl).trans ?_
  refine (parseOpts_cons rfl).trans ((parseOpts_cons rfl).trans ((parseOpts_cons rfl).trans ?_))
  rw [atoi_toString hint, atoi_toString htout, atoi_toString hdelay]
  cases wait with
  | false =>
      cases a
      cases hwait
      rw [show (if false = true then 1 else 0 : ℤ) = _ from hnsec.symm]
      rfl
  | true => rfl

theorem parseOpts_sizes {max leafs routers merge : BitVec 64} (hmax : IsSize max 2)
    (hleafs : IsSize leafs 1) (hrouters : IsSize routers 1) (hmerge : IsSize merge 0)
    (A : a.Checked) :
    parseOpts zero argc ((.maxAddrs, toString (max.toNat : ℤ)) :: (.minLeafs, toString (leafs.toNat : ℤ)) ::
      (.minRouters, toString (routers.toNat : ℤ)) :: (.mergeRange, toString (merge.toNat : ℤ)) :: opts) a =
    parseOpts zero argc opts { a with
      max_addrs := max, min_leafs := leafs, min_routers := routers, merge_range := merge } := by
  refine (parseOpts_cons (bind_ok (parseInt_toString _ A.max_addrs.2 hmax))).trans ?_
  refine (parseOpts_cons (bind_ok (parseInt_toString _ A.min_leafs.2 hleafs))).trans ?_
  refine (parseOpts_cons (bind_ok (parseInt_toString _ A.min_routers.2 hrouters))).trans ?_
  exact parseOpts_cons (bind_ok (parseInt_toString _ A.merge_range.2 hmerge))

theorem parseOpts_okAddrs {ok : BitVec 64} (hok : ok.toNat < 2 ^ 31) (h0 : a.ok_addrs = 0) :
    parseOpts zero argc ((if 2 ≤ ok.toNat then [(.okAddrs, toString (ok.toNat : ℤ))] else []) ++ opts) a =
    parseOpts zero argc opts { a with ok_addrs := if 2 ≤ ok.toNat then ok else 0 } := by
  split
  · next h2 =>
      have hold : a.ok_addrs.toNat < 2 ^ 31 := by
        rw [h0]
        decide
      exact parseOpts_cons (bind_ok (parseInt_toString _ hold ⟨h2, hok⟩))
  · rw [← h0]
    rfl

theorem parseOpts_flags {split tree txg : Bool} (hsplit : a.split_nodes = false)
    (htree : a.print_tree = false) (htxg : a.print_txg = false) :
    parseOpts zero argc (flag split .splitNodes ++ (flag tree .printTree ++ flag txg .printTxg)) a =
    .ok { a with split_nodes := split, print_tree := tree, print_txg := txg } := by
  rw [← List.append_nil (flag txg _)]
  refine (parseOpts_flag rfl).trans ((parseOpts_flag rfl).trans ((parseOpts_flag rfl).trans ?_))
  cases a
  cases hsplit
  cases htree
  cases htxg
  cases split <;> cases tree <;> cases txg <;> rfl

theorem ok_addrs_lt (A : a.Accepted zero) : a.ok_addrs.toNat < 2 ^ 31 := by
  rcases A.ok_addrs with h | h
  · exact h.2
  · have := A.max_addrs.2
    norm_num at this
    have hlt : 4 * a.max_addrs.toNat / 5 < 2 ^ 31 := by
      norm_num
      omega
    rw [h, BitVec.toNat_ofNat, Nat.mod_eq_of_lt (hlt.trans (by decide))]
    exact hlt

theorem Timespec.eq_mk {t : Timespec} {nsec : ℤ} (h : t.tv_nsec = nsec) : t = ⟨t.tv_sec, nsec⟩ := by
  rw [← h]

theorem Arguments.Checked.times (A : a.Checked) :
    a.dcvr_int = ⟨⟨a.dcvr_int.it_interval.tv_sec, 0⟩,
      ⟨a.dcvr_int.it_value.tv_sec, if a.dcvr_wait then 1 else 0⟩⟩ ∧
    a.dcvr_tout = ⟨⟨a.dcvr_tout.it_interval.tv_sec, 0⟩, ⟨0, 0⟩⟩ := by
  constructor
  · exact congrArg₂ Itimerspec.mk (Timespec.eq_mk A.dcvr_int.2) (Timespec.eq_mk A.delay.2)
  · exact congrArg₂ Itimerspec.mk (Timespec.eq_mk A.dcvr_tout.2.1) A.dcvr_tout.2.2

theorem parseOpts_toOpts (A : a.Accepted zero) : parseOpts zero argc a.toOpts setDefaultArgs =
    .ok { a with pport := 0, paddr := .null, ok_addrs := if 2 ≤ a.ok_addrs.toNat then a.ok_addrs else 0 } := by
  obtain ⟨tun, htun, htlen⟩ := A.tifname
  obtain ⟨bind, hbind, hblen⟩ := A.bifname
  rw [Arguments.toOpts, htun, hbind]
  refine (parseOpts_addresses htlen hblen A.bport).trans ?_
  refine (parseOpts_times A.dcvr_int.1 A.dcvr_tout.1 A.delay.1 rfl rfl).trans ?_
  refine (parseOpts_sizes A.max_addrs A.min_leafs A.min_routers A.merge_range ?_).trans ?_
  · exact { A.toChecked with
      tifname := ⟨_, rfl, htlen⟩
      dcvr_int := ⟨A.dcvr_int.1, rfl⟩
      dcvr_tout := ⟨A.dcvr_tout.1, rfl, rfl⟩
      delay := ⟨A.delay.1, rfl⟩
      max_addrs := pending_setDefaultArgs.max_addrs
      min_leafs := pending_setDefaultArgs.min_leafs
      min_routers := pending_setDefaultArgs.min_routers
      merge_range := pending_setDefaultArgs.merge_range }
  refine (parseOpts_okAddrs (ok_addrs_lt A) rfl).trans ?_
  refine (parseOpts_flags rfl rfl rfl).trans ?_
  exact congrArg Except.ok (Arguments.ext rfl rfl rfl rfl rfl rfl rfl A.times.1.symm
    A.times.2.symm rfl rfl rfl rfl rfl rfl rfl rfl rfl)

theorem mapM_inetText (l : List In6Addr) : (l.map inetText).mapM inet_pton = some l := by
  induction l with
  | nil => rfl
  | cons x l ih =>
      rw [List.map_cons, List.mapM_cons, inet_pton_inetText, ih]
      rfl

/-- The command line that sets everything to these arguments. -/
theorem initArgs_toOpts (A : a.Accepted zero) : initArgs zero a.toOpts a.toPeers = .ok a := by
  obtain ⟨l, hne, hl, ha⟩ := A.paddr
  have hpeers : a.toPeers = l.map inetText ++ [toString (a.pport.toNat : ℤ)] := by
    rw [Arguments.toPeers, ha, Paddr.toList_ofList (Paddr.toList_tail zero _)]
  have hpaddr : a.paddr ≠ .null := by
    rw [ha]
    exact Paddr.ofList_ne_null hne
  refine (bind_ok (parseOpts_toOpts A)).trans ?_
  rw [hpeers]
  refine (bind_ok ((parsePeers_eq_ok (by omega) rfl (followed_nil zero)).mpr
    ⟨l, a.pport, mapM_inetText _, parsePort_toString _ A.pport, hl, rfl⟩)).trans ?_
  rw [List.nil_append, ← ha]
  refine fin_eq_ok.mpr ⟨A.tifname, A.bifname, hpaddr, ?_⟩
  have hok : a.ok_addrs = if (if 2 ≤ a.ok_addrs.toNat then a.ok_addrs else 0) = 0 then
      BitVec.ofNat 64 (4 * a.max_addrs.toNat / 5)
      else if 2 ≤ a.ok_addrs.toNat then a.ok_addrs else 0 := by
    by_cases h2 : 2 ≤ a.ok_addrs.toNat
    · have h0 : a.ok_addrs ≠ 0 := by
        rintro h0
        rw [h0] at h2
        exact absurd h2 (by decide)
      rw [if_pos h2, if_neg h0]
    · rw [if_neg h2, if_pos rfl]
      exact A.ok_addrs.resolve_left fun h => h2 h.1
  rw [← hok]

end Complete

/-- What comes out of the parser, on any command line, are the arguments that are accepted. -/
theorem initArgs_iff (zero : ℕ → Bool) (a : Arguments) :
    (∃ opts peers, initArgs zero opts peers = .ok a) ↔ a.Accepted zero := by
  constructor
  · rintro ⟨opts, peers, h⟩
    exact accepted_of_initArgs h
  · exact fun A => ⟨a.toOpts, a.toPeers, initArgs_toOpts A⟩

end MEADcast
