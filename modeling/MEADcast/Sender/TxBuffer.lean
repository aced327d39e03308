import MEADcast.Lib.Memory
import MEADcast.Sender.Buffers
import MEADcast.Sender.Delivery
import MEADcast.Wire

/-!
# The buffer of the sender

Both threads of the sender work in `txbuf`: the discovery thread writes its requests to the front of
it, and the transmit thread reads packets into the part behind the space for the longest header,
rewrites them there and copies headers in front of them.  Here they do so octet by octet.

## Main definitions

* `TxBuf.sendDcvr`, `TxBuf.txUni`, `TxBuf.txMdc`, `TxBuf.tx` — the functions of `tx.c` as programs on
  this memory.
* `Skb.wire` — the octets that the kernel is handed for a packet.

## Main results

* `TxBuf.run_sendDcvr`, `TxBuf.run_tx` — they send the octets of the packets of `sendDcvr` and `tx`.
* `TxBuf.within_txLoop`, `TxBuf.within_dcvrLoop` — the parts of the buffer that the threads use.
-/

namespace MEADcast

/-- The sockets: the one of the interface and that for routing headers. -/
inductive SockFd
  | ip6
  | mdc
  deriving DecidableEq, Repr

/-- Programs of the sender. -/
abbrev TxProg (α : Type) : Type := Prog (BitVec 8) (SockFd × In6Addr) α

namespace TxBuf

/-! ## Discovery requests -/

/-- `set_rt_hdr`. -/
def setRtHdr (nh len type segleft : BitVec 8) : TxProg Unit := do
  Prog.write 0 [nh]
  Prog.write 1 [len]
  Prog.write 2 [type]
  Prog.write 3 [segleft]

/-- `set_dcvr_hdr` at the front of the buffer. -/
def setDcvrHdr : TxProg ℕ := do
  Prog.write 4 (octets32 0x101)
  Prog.write 8 (octets32 0)
  Prog.write 12 (octets32 0)
  let mdc_len := getMdcHdrSize 1
  let rt_len := BitVec.ofNat 8 (mdc_len / 8 - 1)
  setRtHdr ipprotoNone rt_len ipv6Meadcast 0
  return mdc_len

/-- The loop of `send_dcvr`. -/
def sendDcvrLoop (len : ℕ) : List Addr → TxProg Int
  | [] => return 0
  | i :: rcvr => do
      Prog.write 16 (octets i.sin6_addr)
      let sent ← Prog.handOver 0 len (.mdc, i.sin6_addr)
      if sent then sendDcvrLoop len rcvr else return -1

/-- `send_dcvr`. -/
def sendDcvr (rcvr : List Addr) : TxProg Int := do
  let len ← setDcvrHdr
  sendDcvrLoop len rcvr

/-! ## Data -/

/-- `set_data_hdr` in the memory that `calloc` returned: from 0 on, and all of it zero. -/
def setDataHdr (addrs : List In6Addr) (len : ℕ) (bm : BitVec 32) : TxProg ℕ := do
  let mdc_len := getMdcHdrSize len
  let rt_len := BitVec.ofNat 8 (mdc_len / 8 - 1)
  setRtHdr ipprotoUdp rt_len ipv6Meadcast 0
  Prog.write 4 [BitVec.ofNat 8 len]
  Prog.write 8 (octets32 bm)
  Prog.write 12 (octets32 bm)
  Prog.write 16 ((addrs.take len).flatMap octets)
  return mdc_len

variable (b : TxBuf)

/-- The checksum of the datagram at `l3pl`, in place; `src` and `dst` are the octets of the
addresses. -/
def setCheck (fuel : ℕ) (src dst : List (BitVec 8)) : TxProg (Option Unit) := do
  Prog.write (b.l3pl + 6) [0, 0]
  let len ← Prog.read (b.l3pl + 4) 2
  let buf ← Prog.read b.l3pl (ofOctets16 len).toNat
  match netChecksumTcpudp fuel (ofOctets16 len) 0 17 src dst buf with
  | none => return none
  | some check => do
      Prog.write (b.l3pl + 6) (octets16 check)
      return some ()

/-- The correction of the layer-4 header in `tx_uni`, which is that of UDP. -/
def correctL4 (fuel : ℕ) (port : BitVec 16) (nexthdr : List (BitVec 8)) : TxProg (Option Unit) :=
  if nexthdr = [ipprotoUdp] then do
    Prog.write (b.l3pl + 2) (octets16 port)
    let src ← Prog.read (b.ip + 8) 16
    let dst ← Prog.read (b.ip + 24) 16
    b.setCheck fuel src dst
  else return some ()

/-- The loop of `tx_uni`. -/
def txUniLoop (fuel len : ℕ) : List Addr → TxProg (Option Int)
  | [] => return some 0
  | addr :: uni => do
      Prog.write (b.ip + 24) (octets addr.sin6_addr)
      let nexthdr ← Prog.read (b.ip + 6) 1
      match ← b.correctL4 fuel addr.port nexthdr with
      | none => return none
      | some () => do
          let sent ← Prog.handOver b.ip len (.ip6, addr.sin6_addr)
          if sent then txUniLoop fuel len uni else return some (-1)

/-- `tx_uni`. -/
def txUni (fuel : ℕ) (grp : TxGroup) (len : ℕ) : TxProg (Option Int) :=
  b.txUniLoop fuel len (grp.uni.take grp.nuni)

/-- The loop of `tx_mdc`; `bia` is the address of the interface. -/
def txMdcLoop (fuel : ℕ) (bia : In6Addr) (plen : ℕ) : List MdcHdr → TxProg (Option Int)
  | [] => return some 0
  | hdr :: mdc =>
      if hdr.dsts.toNat < 2 then txMdcLoop fuel bia plen mdc
      else
        match hdr.addr[1]? with
        | none => return none
        | some dst => do
            let hlen := getMdcHdrSize hdr.dsts.toNat
            Prog.write (b.l3pl - hlen) (hdr.octets.take hlen)
            match ← b.setCheck fuel (octets bia) (octets dst) with
            | none => return none
            | some () => do
                let sent ← Prog.handOver (b.l3pl - hlen) (hlen + plen) (.mdc, dst)
                if sent then txMdcLoop fuel bia plen mdc else return some (-1)

/-- `tx_mdc`. -/
def txMdc (fuel : ℕ) (bia : In6Addr) (grp : TxGroup) (plen : ℕ) : TxProg (Option Int) :=
  b.txMdcLoop fuel bia plen grp.mdc

/-- `tx` after `n` octets were read. -/
def tx (fuel : ℕ) (bia : In6Addr) (grp : TxGroup) (n : ℕ) : TxProg Unit := do
  let iplen := sizeDiff n tunPiSize
  let _ ← b.txUni fuel grp iplen
  let _ ← b.txMdc fuel bia grp (sizeDiff iplen ipv6HdrSize)

/-- `ETH_P_IPV6` as it stands in front of a packet. -/
def ethPIpv6 : List (BitVec 8) := [0x86, 0xdd]

/-- One round of `_tx_loop`: the device hands over `input`, and `grp` is the current group. -/
def txRound (fuel : ℕ) (bia : In6Addr) (input : List (BitVec 8)) (grp : TxGroup) : TxProg Unit := do
  Prog.write b.buf (input.take b.buflen)
  let proto ← Prog.read (b.buf + 2) 2
  if proto = ethPIpv6 then b.tx fuel bia grp (min input.length b.buflen) else return ()

/-- `_tx_loop`, with what the device hands over in each round and the group at that time. -/
def txLoop (fuel : ℕ) (bia : In6Addr) : List (List (BitVec 8) × TxGroup) → TxProg Unit
  | [] => return ()
  | (input, grp) :: rounds => do
      b.txRound fuel bia input grp
      txLoop fuel bia rounds

/-- The requests of the discovery thread, with the receivers in each phase. -/
def dcvrLoop : List (List Addr) → TxProg Unit
  | [] => return ()
  | rcvr :: phases => do
      let _ ← sendDcvr rcvr
      dcvrLoop phases

end TxBuf

/-! ## The parts of the buffer -/

namespace TxBuf

variable {b : TxBuf} {F : ℕ → Prop}

theorem within_sendDcvr (rcvr : List Addr) : (sendDcvr rcvr).Within fun i => i < 32 := by
  have hloop : ∀ rcvr, (sendDcvrLoop 32 rcvr).Within fun i => i < 32 := by
    intro rcvr
    induction rcvr with
    | nil => exact Prog.within_pure _
    | cons a rcvr ih =>
        refine .bind (Prog.within_write fun i hi => ?_) fun _ =>
          .bind (Prog.within_handOver fun i hi => ?_) fun sent => ?_
        · rw [length_octets] at hi
          omega
        · omega
        · split
          · exact ih
          · exact Prog.within_pure _
  have hwrite : ∀ a n, a + n ≤ 32 → ∀ i < n, a + i < 32 := fun a n h i hi => by omega
  exact ⟨hwrite 4 4 (by decide), hwrite 8 4 (by decide), hwrite 12 4 (by decide),
    hwrite 0 1 (by decide), hwrite 1 1 (by decide), hwrite 2 1 (by decide),
    hwrite 3 1 (by decide), hloop rcvr⟩

theorem within_setCheck (hF : ∀ i, b.l3pl ≤ i → F i) (fuel : ℕ) (src dst : List (BitVec 8)) :
    (b.setCheck fuel src dst).Within F := by
  have hat : ∀ k i, F (b.l3pl + k + i) := fun k i => hF _ (by omega)
  refine .bind (Prog.within_write fun i _ => hat 6 i) fun _ =>
    .bind (Prog.within_read fun i _ => hat 4 i) fun len =>
    .bind (Prog.within_read fun i _ => hat 0 i) fun buf => ?_
  split
  · exact Prog.within_pure _
  · exact .bind (Prog.within_write fun i _ => hat 6 i) fun _ => Prog.within_pure _

theorem within_txUniLoop (hF : ∀ i, b.ip ≤ i → F i) (fuel len : ℕ) (uni : List Addr) :
    (b.txUniLoop fuel len uni).Within F := by
  have hl3 : ∀ i, b.l3pl ≤ i → F i := fun i hi => hF i ((Nat.le_add_right _ _).trans hi)
  have hat : ∀ k i, F (b.ip + k + i) := fun k i => hF _ (by omega)
  induction uni with
  | nil => exact Prog.within_pure _
  | cons addr uni ih =>
      refine .bind (Prog.within_write fun i _ => hat 24 i) fun _ =>
        .bind (Prog.within_read fun i _ => hat 6 i) fun nexthdr => .bind ?_ fun done => ?_
      · rw [correctL4]
        split
        · exact .bind (Prog.within_write fun i _ => hl3 _ (by omega)) fun _ =>
            .bind (Prog.within_read fun i _ => hat 8 i) fun src =>
            .bind (Prog.within_read fun i _ => hat 24 i) fun dst => within_setCheck hl3 fuel src dst
        · exact Prog.within_pure _
      · split
        · exact Prog.within_pure _
        · refine .bind (Prog.within_handOver fun i _ => hat 0 i) fun sent => ?_
          split
          · exact ih
          · exact Prog.within_pure _

theorem within_txMdcLoop (fuel : ℕ) (bia : In6Addr) (plen : ℕ) (mdc : List MdcHdr)
    (hF : ∀ i, b.ip + ipv6HdrSize - b.buf ≤ i → F i)
    (hmdc : ∀ hdr ∈ mdc, getMdcHdrSize hdr.dsts.toNat ≤ b.buf) :
    (b.txMdcLoop fuel bia plen mdc).Within F := by
  have hl3 : ∀ i, b.l3pl ≤ i → F i := fun i hi => hF i ((Nat.sub_le _ _).trans hi)
  induction mdc with
  | nil => exact Prog.within_pure _
  | cons hdr mdc ih =>
      have hih := ih fun h hm => hmdc h (List.mem_cons_of_mem _ hm)
      have hle := hmdc hdr List.mem_cons_self
      have hat : ∀ i, F (b.l3pl - getMdcHdrSize hdr.dsts.toNat + i) := fun i => hF _ (by
        rw [l3pl]
        omega)
      rw [txMdcLoop]
      split
      · exact hih
      split
      · exact Prog.within_pure _
      · refine .bind (Prog.within_write fun i _ => hat i) fun _ =>
          .bind (within_setCheck hl3 _ _ _) fun done => ?_
        split
        · exact Prog.within_pure _
        · refine .bind (Prog.within_handOver fun i _ => hat i) fun sent => ?_
          split
          · exact hih
          · exact Prog.within_pure _

theorem within_txRound (fuel : ℕ) (bia : In6Addr) (input : List (BitVec 8)) (grp : TxGroup)
    (hbuf : 32 ≤ b.buf) (hmdc : ∀ hdr ∈ grp.mdc, getMdcHdrSize hdr.dsts.toNat ≤ b.buf) :
    (b.txRound fuel bia input grp).Within fun i => 32 ≤ i := by
  refine .bind (Prog.within_write fun i _ => by omega) fun _ =>
    .bind (Prog.within_read fun i _ => by omega) fun proto => ?_
  split
  · refine .bind (within_txUniLoop (fun i hi => ?_) _ _ _) fun _ =>
      .bind (within_txMdcLoop _ _ _ _ (fun i hi => ?_) hmdc) fun _ => Prog.within_pure _
    · rw [ip] at hi
      omega
    · rw [ip, show ipv6HdrSize = 40 from rfl, show tunPiSize = 4 from rfl] at hi
      omega
  · exact Prog.within_pure _

end TxBuf

/-! ## What the octets mean -/

/-- The octets that the kernel is handed for a packet, and to which socket: all of it for the socket
of the interface, and what is behind the IPv6 header for the other one. -/
def Skb.wire (vtf : List (BitVec 8)) (skb : Skb) : (SockFd × In6Addr) × List (BitVec 8) :=
  match skb.md with
  | none => ((.ip6, skb.dst), skb.ip.octets vtf ++ skb.udp.bytes)
  | some hdr => ((.mdc, skb.dst), (hdr.octets ++ skb.udp.bytes).take skb.ip.payload_len.toNat)

namespace Sock

/-- The sockets after `c` calls of `sendto`. -/
def after (sk : Sock) (c : ℕ) : Sock := { sk with sendError := fun n a => sk.sendError (c + n) a }

theorem after_zero (sk : Sock) : sk.after 0 = sk := by
  simp only [after, Nat.zero_add]

/-- Which calls of `sendto` succeed. -/
def ok (sk : Sock) (n : ℕ) (d : SockFd × In6Addr) : Bool := !sk.sendError n d.2

/-- What was sent after `s`. -/
def plus (vtf : List (BitVec 8)) (s : Sent (BitVec 8) (SockFd × In6Addr)) (w : Wire) :
    Sent (BitVec 8) (SockFd × In6Addr) :=
  ⟨s.calls + w.calls, s.sent ++ w.sent.map (Skb.wire vtf)⟩

@[simp] theorem plus_start (vtf : List (BitVec 8)) (s : Sent (BitVec 8) (SockFd × In6Addr)) :
    plus vtf s .start = s := by
  simp [plus, Wire.start]

theorem sendto_cases (sk : Sock) (w : Wire) (skb : Skb) :
    (sk.sendto w skb).1 = -1 ∨ (sk.sendto w skb).1 = 1 := by
  rw [sendto]
  split
  · exact Or.inl rfl
  · exact Or.inr rfl

/-- The same call of `sendto` in both models. -/
theorem call_plus (sk : Sock) (vtf : List (BitVec 8)) (s : Sent (BitVec 8) (SockFd × In6Addr))
    (w : Wire) {skb : Skb} {fd : SockFd} {l : List (BitVec 8)}
    (h : skb.wire vtf = ((fd, skb.dst), l)) :
    Sent.call sk.ok (plus vtf s w) (fd, skb.dst) l =
      (decide (¬ ((sk.after s.calls).sendto w skb).1 < 1),
        plus vtf s ((sk.after s.calls).sendto w skb).2) := by
  have hok : sk.ok (s.calls + w.calls) (fd, skb.dst) =
      !(sk.after s.calls).sendError w.calls skb.dst := rfl
  rw [Sent.call, show (plus vtf s w).calls = s.calls + w.calls from rfl, hok, sendto]
  cases he : (sk.after s.calls).sendError w.calls skb.dst with
  | true => simp [plus, Nat.add_assoc]
  | false => simp [plus, Nat.add_assoc, h]

end Sock

namespace TxBuf

variable {m : Mem (BitVec 8)} {s : Sent (BitVec 8) (SockFd × In6Addr)} {sk : Sock} {hdr : MdcHdr}
  {vtf : List (BitVec 8)}

/-! ### Discovery requests -/

/-- `set_dcvr_hdr` writes the octets in front of the address. -/
theorem run_setDcvrHdr (ok : ℕ → SockFd × In6Addr → Bool) (txbuf : MdcHdr) (m : Mem (BitVec 8))
    (s : Sent (BitVec 8) (SockFd × In6Addr)) : ∃ m', setDcvrHdr.run ok m s = (32, m', s) ∧
      m'.load 0 16 = (MEADcast.setDcvrHdr txbuf).1.octets.take 16 := by
  refine ⟨((((((m.store 4 (octets32 0x101)).store 8 (octets32 0)).store 12 (octets32 0)).store 0
    [ipprotoNone]).store 1 [3]).store 2 [ipv6Meadcast]).store 3 [0], rfl, ?_⟩
  have hflags : (MEADcast.setDcvrHdr txbuf).1.flags = 0x101 := txbuf.flags_setFlags 0x101
  rw [MdcHdr.octets, hflags]
  rfl

/-- The address behind them. -/
theorem load_store_addr {a : In6Addr} (hm : m.load 0 16 = hdr.octets.take 16) :
    (m.store 16 (octets a)).load 0 32 = ({ hdr with addr := [a] } : MdcHdr).octets := by
  have hnew := m.load_store 16 (octets a)
  rw [length_octets] at hnew
  have hold : (m.store 16 (octets a)).load 0 16 = hdr.octets.take 16 :=
    (Mem.load_store_of_disjoint (Or.inr (le_refl 16))).trans hm
  rw [(m.store 16 (octets a)).load_add 0 16 16, hold, hnew, hdr.octets_addr [a], List.flatMap_singleton]

/-- The loop of `send_dcvr` sends the octets of the header at the front of the buffer. -/
theorem run_sendDcvrLoop (sk : Sock) (s : Sent (BitVec 8) (SockFd × In6Addr)) (rcvr : List Addr) :
    ∀ (m : Mem (BitVec 8)) (hdr : MdcHdr) (w : Wire), m.load 0 16 = hdr.octets.take 16 →
      ∃ m', (sendDcvrLoop 32 rcvr).run sk.ok m (Sock.plus [] s w) =
        ((MEADcast.sendDcvrLoop (sk.after s.calls) 32 rcvr hdr w).1, m',
          Sock.plus [] s (MEADcast.sendDcvrLoop (sk.after s.calls) 32 rcvr hdr w).2) := by
  induction rcvr with
  | nil => exact fun m hdr w _ => ⟨m, rfl⟩
  | cons a rcvr ih =>
      intro m hdr w hm
      set hdr' : MdcHdr := { hdr with addr := [a.sin6_addr] } with hhdr'
      have hoct : (m.store 16 (octets a.sin6_addr)).load 0 32 = hdr'.octets := load_store_addr hm
      have hwire : Skb.wire [] ((sk.after s.calls).mdcPacket a.sin6_addr hdr' 32 0 .empty) =
          ((.mdc, a.sin6_addr), hdr'.octets) := by
        have hlen : hdr'.octets.length = 32 := hdr'.length_octets
        simp only [Skb.wire, Sock.mdcPacket]
        rw [List.take_append_of_le_length (by rw [hlen]; decide),
          List.take_of_length_le (by rw [hlen]; decide)]
      have hcall := sk.call_plus [] s w hwire
      have hrun : (sendDcvrLoop 32 (a :: rcvr)).run sk.ok m (Sock.plus [] s w) =
          (if (Sent.call sk.ok (Sock.plus [] s w) (.mdc, a.sin6_addr) hdr'.octets).1 then
            sendDcvrLoop 32 rcvr else pure (-1)).run sk.ok (m.store 16 (octets a.sin6_addr))
              (Sent.call sk.ok (Sock.plus [] s w) (.mdc, a.sin6_addr) hdr'.octets).2 := by
        rw [← hoct]
        rfl
      rw [Sock.mdcPacket_dst] at hcall
      rw [hrun, hcall, MEADcast.sendDcvrLoop, ← hhdr']
      have hcases := (sk.after s.calls).sendto_cases w
        ((sk.after s.calls).mdcPacket a.sin6_addr hdr' 32 0 Udp.empty)
      generalize (sk.after s.calls).sendto w
        ((sk.after s.calls).mdcPacket a.sin6_addr hdr' 32 0 Udp.empty) = r at hcases ⊢
      obtain ⟨ret, w'⟩ := r
      rcases hcases with rfl | rfl
      · exact ⟨_, rfl⟩
      · refine ih _ hdr' w' ?_
        rw [hhdr', MdcHdr.octets_addr, List.take_left' ?_]
        · exact (Mem.load_store_of_disjoint (Or.inr (le_refl 16))).trans hm
        · rw [← hm, Mem.length_load]

/-- `send_dcvr` sends the octets of its packets, whatever was in the buffer. -/
theorem run_sendDcvr (sk : Sock) (txbuf : MdcHdr) (rcvr : List Addr) (m : Mem (BitVec 8))
    (s : Sent (BitVec 8) (SockFd × In6Addr)) : ∃ m', (sendDcvr rcvr).run sk.ok m s =
      ((MEADcast.sendDcvr (sk.after s.calls) txbuf rcvr .start).1, m',
        Sock.plus [] s (MEADcast.sendDcvr (sk.after s.calls) txbuf rcvr .start).2) := by
  obtain ⟨m₁, h₁, hfront⟩ := run_setDcvrHdr sk.ok txbuf m s
  obtain ⟨m', h⟩ := run_sendDcvrLoop sk s rcvr m₁ (MEADcast.setDcvrHdr txbuf).1 .start hfront
  rw [Sock.plus_start] at h
  refine ⟨m', ?_⟩
  rw [sendDcvr, Prog.run_bind, h₁]
  exact h

/-! ### Datagrams -/

variable {b : TxBuf} {ip : Ipv6Hdr} {u u' : Udp} {src dst : In6Addr} {fuel : ℕ}

/-- The checksum covers as many octets as the length field says. -/
theorem netChecksumTcpudp_take (fuel : ℕ) (len : BitVec 16) (src dst buf : List (BitVec 8)) :
    netChecksumTcpudp fuel len 0 17 src dst (buf.take len.toNat) =
      netChecksumTcpudp fuel len 0 17 src dst buf := by
  have h : netChecksumAdd (len.toNat + (0 : BitVec 16).toNat) (buf.take len.toNat) =
      netChecksumAdd (len.toNat + (0 : BitVec 16).toNat) buf := by
    rw [netChecksumAdd, netChecksumAdd, show (0 : BitVec 16).toNat = 0 from rfl, Nat.add_zero,
      List.take_take, Nat.min_self]
  rw [netChecksumTcpudp, netChecksumTcpudp, tcpudpSum, tcpudpSum, h]

/-- A field of the datagram at `l3pl` is written. -/
theorem load_field {v : Udp} (hu : m.load b.l3pl u.size = u.bytes) {k : ℕ} {l : List (BitVec 8)}
    (hk : k + l.length ≤ 8) (hv : u.bytes.take k ++ l ++ u.bytes.drop (k + l.length) = v.bytes) :
    (m.store (b.l3pl + k) l).load b.l3pl u.size = v.bytes := by
  rw [Mem.load_store_inside (by rw [Udp.size]; omega), hu, hv]

/-- The checksum is written in place. -/
theorem run_setCheck (hu : m.load b.l3pl u.size = u.bytes) (hlen : u.len.toNat ≤ u.size)
    (h : u.setCheck fuel src dst = some u') (ok : ℕ → SockFd × In6Addr → Bool)
    (s : Sent (BitVec 8) (SockFd × In6Addr)) : ∃ m',
      (b.setCheck fuel (octets src) (octets dst)).run ok m s = (some (), m', s) ∧
      m'.load b.l3pl u.size = u'.bytes ∧ ∀ i < b.l3pl, m' i = m i := by
  simp only [Udp.setCheck, Option.bind_eq_bind, Option.bind_eq_some_iff] at h
  obtain ⟨c, hc, h⟩ := h
  obtain rfl := Option.some.inj h
  have hzero : ([0, 0] : List (BitVec 8)) = octets16 0 := by decide
  have h1 : (m.store (b.l3pl + 6) [0, 0]).load b.l3pl u.size = ({ u with check := 0 } : Udp).bytes := by
    rw [hzero]
    exact load_field (v := { u with check := 0 }) (l := octets16 0) hu (by decide) rfl
  have hword : (m.store (b.l3pl + 6) [0, 0]).load (b.l3pl + 4) 2 = octets16 u.len := by
    rw [← Mem.take_drop_load (n := u.size) (by rw [Udp.size]; omega), h1]
    rfl
  have hbuf : (m.store (b.l3pl + 6) [0, 0]).load b.l3pl u.len.toNat =
      ({ u with check := 0 } : Udp).bytes.take u.len.toNat := by
    rw [← h1, Mem.take_load hlen]
  have h2 : ((m.store (b.l3pl + 6) [0, 0]).store (b.l3pl + 6) (octets16 c)).load b.l3pl u.size =
      ({ u with check := c } : Udp).bytes :=
    load_field (u := { u with check := 0 }) h1 (by rw [length_octets16]) rfl
  refine ⟨(m.store (b.l3pl + 6) [0, 0]).store (b.l3pl + 6) (octets16 c), ?_, h2, fun i hi => ?_⟩
  · have hrun : netChecksumTcpudp fuel (ofOctets16 (octets16 u.len)) 0 17 (octets src) (octets dst)
        (({ u with check := 0 } : Udp).bytes.take u.len.toNat) = some c := by
      rw [ofOctets16_octets16, netChecksumTcpudp_take]
      exact hc
    simp only [setCheck, Prog.run_bind, Prog.run_write, Prog.run_read, hword, ofOctets16_octets16,
      hbuf]
    rw [ofOctets16_octets16] at hrun
    simp only [hrun, Prog.run_bind, Prog.run_write, Prog.run_pure]
  · rw [Mem.store_of_lt (by omega), Mem.store_of_lt (by omega)]

/-- The checksum changes neither the length of a datagram nor its length field. -/
theorem setCheck_size (h : u.setCheck fuel src dst = some u') :
    u'.size = u.size ∧ u'.len = u.len := by
  simp only [Udp.setCheck, Option.bind_eq_bind, Option.bind_eq_some_iff] at h
  obtain ⟨c, -, h⟩ := h
  obtain rfl := Option.some.inj h
  exact ⟨rfl, rfl⟩

/-- The datagram stands behind the IPv6 header. -/
theorem l3pl_eq (b : TxBuf) : b.l3pl = b.ip + 40 := rfl

/-- The layer-4 header is corrected in place. -/
theorem run_correctL4 (hvtf : vtf.length = 4) (hip : m.load b.ip 40 = ip.octets vtf)
    (hu : m.load b.l3pl u.size = u.bytes) (hlen : u.len.toNat ≤ u.size) {port : BitVec 16}
    (h : (if ip.nexthdr = ipprotoUdp then
      ({ u with dest := port } : Udp).setCheck fuel ip.saddr ip.daddr else some u) = some u')
    (ok : ℕ → SockFd × In6Addr → Bool) (s : Sent (BitVec 8) (SockFd × In6Addr)) : ∃ m',
      (b.correctL4 fuel port [ip.nexthdr]).run ok m s = (some (), m', s) ∧
      m'.load b.l3pl u.size = u'.bytes ∧ (∀ i < b.l3pl, m' i = m i) ∧
      u'.size = u.size ∧ u'.len = u.len := by
  rw [correctL4]
  by_cases hnh : ip.nexthdr = ipprotoUdp
  · rw [if_pos hnh] at h
    have h1 : (m.store (b.l3pl + 2) (octets16 port)).load b.l3pl u.size =
        ({ u with dest := port } : Udp).bytes :=
      load_field hu (by rw [length_octets16]; decide) rfl
    have hip1 : (m.store (b.l3pl + 2) (octets16 port)).load b.ip 40 = ip.octets vtf := by
      rw [← hip]
      exact Mem.load_store_of_disjoint (Or.inr (by rw [l3pl_eq]; omega))
    have hsrc : (m.store (b.l3pl + 2) (octets16 port)).load (b.ip + 8) 16 = octets ip.saddr := by
      rw [← Mem.take_drop_load (n := 40) (by decide), hip1, ip.octets_saddr hvtf]
    have hdst : (m.store (b.l3pl + 2) (octets16 port)).load (b.ip + 24) 16 = octets ip.daddr := by
      rw [← Mem.take_drop_load (n := 40) (by decide), hip1, ip.octets_daddr hvtf]
    obtain ⟨hsize, hl⟩ := setCheck_size h
    obtain ⟨m', hrun, hm', hlow⟩ := run_setCheck (u := { u with dest := port }) h1 hlen h ok s
    refine ⟨m', ?_, hm', fun i hi => (hlow i hi).trans (Mem.store_of_lt (by omega)), hsize, hl⟩
    rw [if_pos (by rw [hnh])]
    simp only [Prog.run_bind, Prog.run_write, Prog.run_read, hsrc, hdst]
    exact hrun
  · rw [if_neg hnh] at h
    obtain rfl := Option.some.inj h
    rw [if_neg (by simpa using hnh)]
    exact ⟨m, rfl, hu, fun _ _ => rfl, rfl, rfl⟩

/-- One round of the loop of `tx_uni` on packets. -/
theorem txUniLoop_cons (sk : Sock) (a : Addr) (uni : List Addr) (ip : Ipv6Hdr) (u : Udp) (w : Wire) :
    MEADcast.txUniLoop sk fuel (a :: uni) ip u w =
      (if ip.nexthdr = ipprotoUdp then
        ({ u with dest := a.port } : Udp).setCheck fuel ip.saddr a.sin6_addr else some u).bind
      fun u' => if (sk.sendto w ⟨{ ip with daddr := a.sin6_addr }, none, u', a.sin6_addr⟩).1 < 1 then
          some ((sk.sendto w ⟨{ ip with daddr := a.sin6_addr }, none, u', a.sin6_addr⟩).1,
            { ip with daddr := a.sin6_addr }, u',
            (sk.sendto w ⟨{ ip with daddr := a.sin6_addr }, none, u', a.sin6_addr⟩).2)
        else MEADcast.txUniLoop sk fuel uni { ip with daddr := a.sin6_addr } u'
          (sk.sendto w ⟨{ ip with daddr := a.sin6_addr }, none, u', a.sin6_addr⟩).2 := by
  rw [MEADcast.txUniLoop]
  split <;> rfl

/-- The loop of `tx_uni` sends the octets of its packets. -/
theorem run_txUniLoop (sk : Sock) (hvtf : vtf.length = 4) (s : Sent (BitVec 8) (SockFd × In6Addr))
    (uni : List Addr) : ∀ (m : Mem (BitVec 8)) (ip : Ipv6Hdr) (u : Udp) (w : Wire) {ret : Int}
      {ip' : Ipv6Hdr} {u' : Udp} {w' : Wire}, m.load b.ip 40 = ip.octets vtf →
      m.load b.l3pl u.size = u.bytes → u.len.toNat ≤ u.size →
      MEADcast.txUniLoop (sk.after s.calls) fuel uni ip u w = some (ret, ip', u', w') → ∃ m',
        (b.txUniLoop fuel (40 + u.size) uni).run sk.ok m (Sock.plus vtf s w) =
          (some ret, m', Sock.plus vtf s w') ∧
        m'.load b.l3pl u'.size = u'.bytes ∧ u'.size = u.size ∧ u'.len = u.len := by
  induction uni with
  | nil =>
      intro m ip u w ret ip' u' w' _ hu _ h
      obtain ⟨rfl, rfl, rfl, rfl⟩ : 0 = ret ∧ ip = ip' ∧ u = u' ∧ w = w' := by
        simpa [MEADcast.txUniLoop] using h
      exact ⟨m, rfl, hu, rfl, rfl⟩
  | cons a uni ih =>
      intro m ip u w ret ip' u' w' hip hu hlen h
      rw [txUniLoop_cons] at h
      obtain ⟨u₁, hu₁, h⟩ := Option.bind_eq_some_iff.mp h
      set ip₁ : Ipv6Hdr := { ip with daddr := a.sin6_addr } with hip₁
      have hip1 : (m.store (b.ip + 24) (octets a.sin6_addr)).load b.ip 40 = ip₁.octets vtf := by
        rw [Mem.load_store_inside (by rw [length_octets]), hip, length_octets]
        exact ip.octets_setDaddr hvtf a.sin6_addr
      have hu1 : (m.store (b.ip + 24) (octets a.sin6_addr)).load b.l3pl u.size = u.bytes := by
        rw [← hu]
        exact Mem.load_store_of_disjoint (Or.inl (by rw [length_octets, l3pl_eq]))
      have hnh : (m.store (b.ip + 24) (octets a.sin6_addr)).load (b.ip + 6) 1 = [ip₁.nexthdr] := by
        rw [← Mem.take_drop_load (n := 40) (by decide), hip1, ip₁.octets_nexthdr hvtf]
      obtain ⟨m₁, hcorr, hm₁, hlow, hsize, hl⟩ :=
        run_correctL4 hvtf hip1 hu1 hlen hu₁ sk.ok (Sock.plus vtf s w)
      have hip2 : m₁.load b.ip 40 = ip₁.octets vtf := by
        rw [← hip1]
        exact Mem.load_congr fun i hi => hlow _ (by rw [l3pl_eq]; omega)
      have hall : m₁.load b.ip (40 + u.size) = ip₁.octets vtf ++ u₁.bytes := by
        rw [Mem.load_add, hip2, ← l3pl_eq, hm₁]
      have hwire : Skb.wire vtf ⟨ip₁, none, u₁, a.sin6_addr⟩ =
          ((.ip6, a.sin6_addr), ip₁.octets vtf ++ u₁.bytes) := rfl
      have hcall := sk.call_plus vtf s w hwire
      have hrun : (b.txUniLoop fuel (40 + u.size) (a :: uni)).run sk.ok m (Sock.plus vtf s w) =
          (if (Sent.call sk.ok (Sock.plus vtf s w) (.ip6, a.sin6_addr) (ip₁.octets vtf ++ u₁.bytes)).1
            then b.txUniLoop fuel (40 + u.size) uni else pure (some (-1))).run sk.ok m₁
              (Sent.call sk.ok (Sock.plus vtf s w) (.ip6, a.sin6_addr)
                (ip₁.octets vtf ++ u₁.bytes)).2 := by
        rw [txUniLoop]
        simp only [Prog.run_bind, Prog.run_write, Prog.run_read, hnh, hcorr, Prog.run_handOver, hall]
      dsimp only at hcall
      rw [hrun, hcall]
      have hcases := (sk.after s.calls).sendto_cases w ⟨ip₁, none, u₁, a.sin6_addr⟩
      generalize (sk.after s.calls).sendto w ⟨ip₁, none, u₁, a.sin6_addr⟩ = r at hcases h ⊢
      obtain ⟨ret₁, w₁⟩ := r
      rcases hcases with rfl | rfl
      · obtain ⟨rfl, rfl, rfl, rfl⟩ : -1 = ret ∧ ip₁ = ip' ∧ u₁ = u' ∧ w₁ = w' := by
          simpa using h
        exact ⟨m₁, rfl, hsize ▸ hm₁, hsize, hl⟩
      · obtain ⟨m', h1, h2, h3, h4⟩ := ih m₁ ip₁ u₁ w₁ hip2 (hsize ▸ hm₁) (by rw [hsize, hl]; exact hlen)
          (by simpa using h)
        rw [hsize] at h1
        exact ⟨m', h1, h2, h3.trans hsize, h4.trans hl⟩

/-- One round of the loop of `tx_mdc` on packets. -/
theorem txMdcLoop_cons (sk : Sock) (plen : ℕ) (hdr : MdcHdr) (mdc : List MdcHdr) (u : Udp) (w : Wire)
    (h : ¬ hdr.dsts.toNat < 2) : MEADcast.txMdcLoop sk fuel plen (hdr :: mdc) u w =
      hdr.addr[1]?.bind fun dst => (u.setCheck fuel sk.bia dst).bind fun u' =>
        if (sk.sendto w (sk.mdcPacket dst hdr (getMdcHdrSize hdr.dsts.toNat) plen u')).1 < 1 then
          some ((sk.sendto w (sk.mdcPacket dst hdr (getMdcHdrSize hdr.dsts.toNat) plen u')).1, u',
            (sk.sendto w (sk.mdcPacket dst hdr (getMdcHdrSize hdr.dsts.toNat) plen u')).2)
        else MEADcast.txMdcLoop sk fuel plen mdc u'
          (sk.sendto w (sk.mdcPacket dst hdr (getMdcHdrSize hdr.dsts.toNat) plen u')).2 := by
  rw [MEADcast.txMdcLoop, if_neg h]
  rfl

/-- There is space for a header in front of a datagram of `n` octets, and its address list and the
length of the packet have the lengths that the header and the kernel give them. -/
structure Room (b : TxBuf) (n : ℕ) (hdr : MdcHdr) : Prop where
  addr : hdr.addr.length = hdr.dsts.toNat
  front : getMdcHdrSize hdr.dsts.toNat ≤ b.buf
  payload : getMdcHdrSize hdr.dsts.toNat + n < 65536

theorem Room.length_octets {n : ℕ} (R : b.Room n hdr) :
    hdr.octets.length = getMdcHdrSize hdr.dsts.toNat := by
  rw [hdr.length_octets, R.addr, getMdcHdrSize_eq]

/-- A packet of the MEADcast socket is handed over as a whole. -/
theorem Room.wire (R : b.Room u.size hdr) (vtf : List (BitVec 8)) (sk : Sock) (dst : In6Addr) :
    (sk.mdcPacket dst hdr (getMdcHdrSize hdr.dsts.toNat) u.size u).wire vtf =
      ((.mdc, dst), hdr.octets ++ u.bytes) := by
  have hlen : (BitVec.ofNat 16 (getMdcHdrSize hdr.dsts.toNat + u.size)).toNat =
      (hdr.octets ++ u.bytes).length := by
    rw [BitVec.toNat_ofNat, Nat.mod_eq_of_lt R.payload, List.length_append, R.length_octets,
      u.length_bytes]
  rw [Skb.wire, Sock.mdcPacket]
  dsimp only
  rw [hlen, List.take_length]

/-- The loop of `tx_mdc` sends the octets of its packets. -/
theorem run_txMdcLoop (sk : Sock) (vtf : List (BitVec 8)) (s : Sent (BitVec 8) (SockFd × In6Addr))
    (mdc : List MdcHdr) : ∀ (m : Mem (BitVec 8)) (u : Udp) (w : Wire) {ret : Int} {u' : Udp}
      {w' : Wire}, m.load b.l3pl u.size = u.bytes → u.len.toNat ≤ u.size →
      (∀ hdr ∈ mdc, b.Room u.size hdr) →
      MEADcast.txMdcLoop (sk.after s.calls) fuel u.size mdc u w = some (ret, u', w') → ∃ m',
        (b.txMdcLoop fuel sk.bia u.size mdc).run sk.ok m (Sock.plus vtf s w) =
          (some ret, m', Sock.plus vtf s w') := by
  induction mdc with
  | nil =>
      intro m u w ret u' w' _ _ _ h
      obtain ⟨rfl, rfl, rfl⟩ : 0 = ret ∧ u = u' ∧ w = w' := by
        simpa [MEADcast.txMdcLoop] using h
      exact ⟨m, rfl⟩
  | cons hdr mdc ih =>
      intro m u w ret u' w' hu hlen hroom h
      have R := hroom hdr List.mem_cons_self
      have hroom' : ∀ h ∈ mdc, b.Room u.size h := fun h hm => hroom h (List.mem_cons_of_mem _ hm)
      by_cases h2 : hdr.dsts.toNat < 2
      · rw [MEADcast.txMdcLoop, if_pos h2] at h
        rw [txMdcLoop, if_pos h2]
        exact ih m u w hu hlen hroom' h
      · rw [txMdcLoop_cons _ _ _ _ _ _ h2] at h
        obtain ⟨dst, hdst, h⟩ := Option.bind_eq_some_iff.mp h
        obtain ⟨u₁, hu₁, h⟩ := Option.bind_eq_some_iff.mp h
        replace hu₁ : u.setCheck fuel sk.bia dst = some u₁ := hu₁
        obtain ⟨hsize, hl⟩ := setCheck_size hu₁
        have hoct := R.length_octets
        have hfront := R.front
        have hl3 : getMdcHdrSize hdr.dsts.toNat ≤ b.l3pl := by
          rw [l3pl, ip]
          omega
        have hu1 : (m.store (b.l3pl - getMdcHdrSize hdr.dsts.toNat) hdr.octets).load b.l3pl u.size =
            u.bytes := by
          rw [← hu]
          exact Mem.load_store_of_disjoint (Or.inl (by rw [hoct]; omega))
        obtain ⟨m₁, hcheck, hm₁, hlow⟩ := run_setCheck hu1 hlen hu₁ sk.ok (Sock.plus vtf s w)
        have hhdr : m₁.load (b.l3pl - getMdcHdrSize hdr.dsts.toNat) (getMdcHdrSize hdr.dsts.toNat) =
            hdr.octets := by
          rw [Mem.load_congr fun i hi => hlow _ (by omega), ← hoct, Mem.load_store]
        have hall : m₁.load (b.l3pl - getMdcHdrSize hdr.dsts.toNat)
            (getMdcHdrSize hdr.dsts.toNat + u.size) = hdr.octets ++ u₁.bytes := by
          rw [Mem.load_add, hhdr, Nat.sub_add_cancel hl3, hm₁]
        have R₁ : b.Room u₁.size hdr := hsize ▸ R
        have hcall := sk.call_plus vtf s w (R₁.wire vtf (sk.after s.calls) dst)
        rw [Sock.mdcPacket_dst, hsize] at hcall
        have hrun : (b.txMdcLoop fuel sk.bia u.size (hdr :: mdc)).run sk.ok m (Sock.plus vtf s w) =
            (if (Sent.call sk.ok (Sock.plus vtf s w) (.mdc, dst) (hdr.octets ++ u₁.bytes)).1
              then b.txMdcLoop fuel sk.bia u.size mdc else pure (some (-1))).run sk.ok m₁
                (Sent.call sk.ok (Sock.plus vtf s w) (.mdc, dst) (hdr.octets ++ u₁.bytes)).2 := by
          have hwhole : hdr.octets.take (getMdcHdrSize hdr.dsts.toNat) = hdr.octets := by
            rw [← hoct, List.take_length]
          rw [txMdcLoop, if_neg h2, hdst]
          simp only [Prog.run_bind, Prog.run_write, hwhole, hcheck, Prog.run_handOver, hall]
        rw [hrun, hcall]
        have hcases := (sk.after s.calls).sendto_cases w ((sk.after s.calls).mdcPacket dst hdr
          (getMdcHdrSize hdr.dsts.toNat) u.size u₁)
        generalize (sk.after s.calls).sendto w ((sk.after s.calls).mdcPacket dst hdr
          (getMdcHdrSize hdr.dsts.toNat) u.size u₁) = r at hcases h ⊢
        obtain ⟨ret₁, w₁⟩ := r
        rcases hcases with rfl | rfl
        · obtain ⟨rfl, rfl, rfl⟩ : -1 = ret ∧ u₁ = u' ∧ w₁ = w' := by simpa using h
          exact ⟨m₁, rfl⟩
        · have hih := ih m₁ u₁ w₁ (hsize ▸ hm₁) (by rw [hsize, hl]; exact hlen)
            (by rw [hsize]; exact hroom') (by rw [hsize]; simpa using h)
          rw [hsize] at hih
          exact hih

end TxBuf

/-! ### Packets -/

/-- A packet as the device hands it over. -/
structure TunPacket where
  flags : List (BitVec 8)
  vtf : List (BitVec 8)
  ip : Ipv6Hdr
  udp : Udp

/-- What the device hands over: packets, and what is no IPv6. -/
inductive TunInput
  | packet (f : TunPacket)
  | other (l : List (BitVec 8))

namespace TunInput

def octets : TunInput → List (BitVec 8)
  | packet f => f.flags ++ TxBuf.ethPIpv6 ++ (f.ip.octets f.vtf ++ f.udp.bytes)
  | other l => l

/-- Packets are UDP, have all their octets and fit. -/
def Valid (args : Args) (mtu : ℕ) : TunInput → Prop
  | packet f => f.flags.length = 2 ∧ f.vtf.length = 4 ∧ f.ip.nexthdr = ipprotoUdp ∧
      f.udp.len.toNat ≤ f.udp.size ∧
      tunPiSize + ipv6HdrSize + f.udp.size + getMdcHdrSize args.max_addrs ≤ mtu
  | other l => 4 ≤ l.length ∧ (l.drop 2).take 2 ≠ TxBuf.ethPIpv6

end TunInput

/-- A header in front of a datagram: with at most `max_addrs` addresses, and with their length. -/
structure MdcHdr.Sized (hdr : MdcHdr) (args : Args) : Prop where
  wf : hdr.WellFormed
  split : hdr.Splittable args
  nxt_eq : hdr.nxt = ipprotoUdp
  len_eq : hdr.rthdrLen = getMdcHdrSize hdr.dsts.toNat

def TxGroup.Sized (args : Args) (grp : TxGroup) : Prop := ∀ hdr ∈ grp.mdc, hdr.Sized args

namespace Sock

/-- What is sent for these packets one after another. -/
def txAll (sk : Sock) (fuel : ℕ) (s : Sent (BitVec 8) (SockFd × In6Addr)) :
    List (TunInput × TxGroup) → Option (Sent (BitVec 8) (SockFd × In6Addr))
  | [] => some s
  | (.other _, _) :: rounds => sk.txAll fuel s rounds
  | (.packet f, grp) :: rounds => do
      let w ← tx (sk.after s.calls) fuel grp f.ip f.udp
      sk.txAll fuel (plus f.vtf s w) rounds

/-- What is sent for the requests of these phases. -/
def dcvrAll (sk : Sock) (txbuf : MdcHdr) (s : Sent (BitVec 8) (SockFd × In6Addr)) :
    List (List Addr) → Sent (BitVec 8) (SockFd × In6Addr)
  | [] => s
  | rcvr :: phases =>
      sk.dcvrAll txbuf (plus [] s (sendDcvr (sk.after s.calls) txbuf rcvr .start).2) phases

end Sock

namespace TxBuf

variable {m : Mem (BitVec 8)} {s s' : Sent (BitVec 8) (SockFd × In6Addr)} {sk : Sock} {fuel : ℕ}
  {b : TxBuf} {args : Args} {mtu : ℕ} {grp : TxGroup}

/-- A round of `_tx_loop` sends the octets of the packets that `tx` makes. -/
theorem run_txRound {f : TunPacket} {w : Wire} (hflags : f.flags.length = 2) (hvtf : f.vtf.length = 4)
    (hlen : f.udp.len.toNat ≤ f.udp.size) (hfit : 44 + f.udp.size ≤ b.buflen)
    (h64 : 44 + f.udp.size < 2 ^ 64) (hroom : ∀ hdr ∈ grp.mdc, b.Room f.udp.size hdr)
    (h : MEADcast.tx (sk.after s.calls) fuel grp f.ip f.udp = some w) :
    ∃ m', (b.txRound fuel sk.bia (TunInput.packet f).octets grp).run sk.ok m s =
      ((), m', Sock.plus f.vtf s w) := by
  set input := (TunInput.packet f).octets with hinput
  have hioct : (f.ip.octets f.vtf).length = 40 := Ipv6Hdr.length_octets hvtf f.ip
  have hlenin : input.length = 44 + f.udp.size := by
    rw [hinput, TunInput.octets, List.length_append, List.length_append, List.length_append, hflags,
      hioct, f.udp.length_bytes, ethPIpv6, List.length_cons, List.length_singleton]
    omega
  have hwhole : input.take b.buflen = input := List.take_of_length_le (by omega)
  have hload : (m.store b.buf input).load b.buf (44 + f.udp.size) = input := by
    rw [← hlenin, Mem.load_store]
  have hfront : (f.flags ++ ethPIpv6).length = 4 := by
    rw [List.length_append, hflags]
    rfl
  have hdrop : input.drop 4 = f.ip.octets f.vtf ++ f.udp.bytes := List.drop_left' hfront
  have hproto : (m.store b.buf input).load (b.buf + 2) 2 = ethPIpv6 := by
    rw [← Mem.take_drop_load (n := 44 + f.udp.size) (by omega), hload, hinput, TunInput.octets,
      List.append_assoc, List.drop_left' hflags]
    rfl
  have hip : (m.store b.buf input).load b.ip 40 = f.ip.octets f.vtf := by
    rw [ip, ← Mem.take_drop_load (n := 44 + f.udp.size) (by rw [tunPiSize]; omega), hload, hdrop,
      List.take_left' hioct]
  have hudp : (m.store b.buf input).load b.l3pl f.udp.size = f.udp.bytes := by
    rw [l3pl, ip, Nat.add_assoc, ← Mem.take_drop_load (n := 44 + f.udp.size) (by
      rw [tunPiSize, ipv6HdrSize, Nat.add_comm]), hload, ← List.drop_drop, hdrop, List.drop_left' hioct,
      ← f.udp.length_bytes, List.take_length]
  rw [MEADcast.tx] at h
  simp only [Option.bind_eq_bind, Option.bind_eq_some_iff] at h
  obtain ⟨⟨ret, ip', u', w'⟩, huni, ⟨ret', u'', w''⟩, hmdc, h⟩ := h
  obtain rfl := Option.some.inj h
  obtain ⟨m₁, hrun₁, hm₁, hsize, hl⟩ := run_txUniLoop sk hvtf s _ _ _ _ _ hip hudp hlen huni
  obtain ⟨m₂, hrun₂⟩ := run_txMdcLoop sk f.vtf s grp.mdc m₁ u' w' hm₁
    (by rw [hsize, hl]; exact hlen) (by rw [hsize]; exact hroom) hmdc
  rw [Sock.plus_start] at hrun₁
  rw [hsize] at hrun₂
  have hip4 : sizeDiff (44 + f.udp.size) tunPiSize = 40 + f.udp.size := by
    rw [sizeDiff_of_le h64 (by rw [tunPiSize]; omega), tunPiSize]
    omega
  have hplen : sizeDiff (40 + f.udp.size) ipv6HdrSize = f.udp.size := by
    rw [sizeDiff_of_le (by omega) (by rw [ipv6HdrSize]; omega), ipv6HdrSize]
    omega
  refine ⟨m₂, ?_⟩
  rw [txRound]
  simp only [Prog.run_bind, Prog.run_write, Prog.run_read, hwhole, hproto, if_true, tx, hlenin,
    Nat.min_eq_left hfit, hip4, hplen, txUni, hrun₁, txMdc, hrun₂, Prog.run_pure]

/-- The part of the buffer for packets is behind the discovery request. -/
theorem le_buf (args : Args) (mtu : ℕ) : 32 ≤ (initTx args mtu).buf := by
  have hmax := args.two_le_max_addrs
  have hbuf : (initTx args mtu).buf = getMdcHdrSize args.max_addrs := rfl
  rw [hbuf, getMdcHdrSize_eq]
  omega

theorem buflen_eq (hm : mtu ≤ 2 ^ 16) (h : getMdcHdrSize args.max_addrs ≤ mtu) :
    (initTx args mtu).buflen = mtu - getMdcHdrSize args.max_addrs :=
  sizeDiff_of_le (by omega) h

/-- There is space for the headers of a group in front of the datagram. -/
theorem front_le {hdr : MdcHdr} (S : hdr.Splittable args) :
    getMdcHdrSize hdr.dsts.toNat ≤ (initTx args mtu).buf := by
  have hle := S.le_max
  have hbuf : (initTx args mtu).buf = getMdcHdrSize args.max_addrs := rfl
  rw [hbuf, getMdcHdrSize_eq, getMdcHdrSize_eq]
  omega

theorem room_of_le {n : ℕ} (hm : mtu ≤ 2 ^ 16) {hdr : MdcHdr}
    (h : tunPiSize + ipv6HdrSize + n + getMdcHdrSize args.max_addrs ≤ mtu) (W : hdr.WellFormed)
    (S : hdr.Splittable args) : (initTx args mtu).Room n hdr := by
  have hfront := @front_le args mtu hdr S
  have hbuf : (initTx args mtu).buf = getMdcHdrSize args.max_addrs := rfl
  rw [tunPiSize, ipv6HdrSize] at h
  exact ⟨W.length_eq, hfront, by omega⟩

theorem within_txLoop {fuel : ℕ} {bia : In6Addr} (hbuf : 32 ≤ b.buf)
    (rounds : List (List (BitVec 8) × TxGroup))
    (h : ∀ r ∈ rounds, ∀ hdr ∈ r.2.mdc, getMdcHdrSize hdr.dsts.toNat ≤ b.buf) :
    (b.txLoop fuel bia rounds).Within fun i => 32 ≤ i := by
  induction rounds with
  | nil => exact Prog.within_pure _
  | cons r rounds ih =>
      exact .bind (within_txRound fuel bia r.1 r.2 hbuf (h r List.mem_cons_self)) fun _ =>
        ih fun r hr => h r (List.mem_cons_of_mem _ hr)

theorem within_dcvrLoop (phases : List (List Addr)) : (dcvrLoop phases).Within fun i => i < 32 := by
  induction phases with
  | nil => exact Prog.within_pure _
  | cons rcvr phases ih => exact .bind (within_sendDcvr rcvr) fun _ => ih

/-- The discovery thread sends the octets of its requests. -/
theorem run_dcvrLoop (sk : Sock) (txbuf : MdcHdr) (phases : List (List Addr)) :
    ∀ (m : Mem (BitVec 8)) (s : Sent (BitVec 8) (SockFd × In6Addr)), ∃ m',
      (dcvrLoop phases).run sk.ok m s = ((), m', sk.dcvrAll txbuf s phases) := by
  induction phases with
  | nil => exact fun m s => ⟨m, rfl⟩
  | cons rcvr phases ih =>
      intro m s
      obtain ⟨m₁, h₁⟩ := run_sendDcvr sk txbuf rcvr m s
      obtain ⟨m', h'⟩ := ih m₁ (Sock.plus [] s (MEADcast.sendDcvr (sk.after s.calls) txbuf rcvr .start).2)
      refine ⟨m', ?_⟩
      rw [dcvrLoop, Prog.run_bind, h₁]
      exact h'

/-- A round with something else than a packet sends nothing. -/
theorem run_txRound_other {l : List (BitVec 8)} (bia : In6Addr) (hl : 4 ≤ l.length)
    (hne : (l.drop 2).take 2 ≠ ethPIpv6) (hbuf : 4 ≤ b.buflen) (ok : ℕ → SockFd × In6Addr → Bool) :
    ∃ m', (b.txRound fuel bia l grp).run ok m s = ((), m', s) := by
  have hload : (m.store b.buf (l.take b.buflen)).load (b.buf + 2) 2 = (l.drop 2).take 2 := by
    have hlen : 4 ≤ (l.take b.buflen).length := by
      rw [List.length_take]
      omega
    rw [← Mem.take_drop_load hlen, Mem.load_store, List.drop_take, List.take_take,
      Nat.min_eq_left (by omega)]
  refine ⟨m.store b.buf (l.take b.buflen), ?_⟩
  rw [txRound]
  simp only [Prog.run_bind, Prog.run_write, Prog.run_read, hload, if_neg hne, Prog.run_pure]

/-- The same of what the device hands over: the packet fits in the buffer, and so do the headers of the
group in front of it. -/
theorem run_txRound_packet {f : TunPacket} {w : Wire} (hvalid : (TunInput.packet f).Valid args mtu)
    (G : grp.Sized args) (hm : mtu ≤ 2 ^ 16)
    (hw : MEADcast.tx (sk.after s.calls) fuel grp f.ip f.udp = some w) :
    ∃ m', ((initTx args mtu).txRound fuel sk.bia (TunInput.packet f).octets grp).run sk.ok m s =
      ((), m', Sock.plus f.vtf s w) := by
  obtain ⟨hflags, hvtf, -, hlen, hfit⟩ := hvalid
  have hroom : ∀ hdr ∈ grp.mdc, (initTx args mtu).Room f.udp.size hdr :=
    fun hdr hhdr => room_of_le hm hfit (G hdr hhdr).wf (G hdr hhdr).split
  rw [tunPiSize, ipv6HdrSize] at hfit
  have hbuflen := buflen_eq hm (show getMdcHdrSize args.max_addrs ≤ mtu by omega)
  exact run_txRound hflags hvtf hlen (by omega) (by omega) hroom hw

/-- The transmit thread sends the octets of its packets. -/
theorem run_txLoop (sk : Sock) (hf : 3 ≤ fuel) (hm : mtu ≤ 2 ^ 16)
    (h4 : tunPiSize + getMdcHdrSize args.max_addrs ≤ mtu) (rounds : List (TunInput × TxGroup)) :
    ∀ (m : Mem (BitVec 8)) (s : Sent (BitVec 8) (SockFd × In6Addr)),
      (∀ r ∈ rounds, r.1.Valid args mtu ∧ r.2.Sized args) →
      ∃ s' m', sk.txAll fuel s rounds = some s' ∧
        ((initTx args mtu).txLoop fuel sk.bia (rounds.map fun r => (r.1.octets, r.2))).run sk.ok m s =
          ((), m', s') := by
  rw [tunPiSize] at h4
  have hbuflen := buflen_eq hm (show getMdcHdrSize args.max_addrs ≤ mtu by omega)
  induction rounds with
  | nil => exact fun m s _ => ⟨s, m, rfl, rfl⟩
  | cons r rounds ih =>
      intro m s h
      have hrounds : ∀ r ∈ rounds, r.1.Valid args mtu ∧ r.2.Sized args :=
        fun r hr => h r (List.mem_cons_of_mem _ hr)
      obtain ⟨hV, G⟩ := h r List.mem_cons_self
      obtain ⟨input, grp⟩ := r
      cases input with
      | other l =>
          obtain ⟨hl, hne⟩ := hV
          obtain ⟨m₁, h₁⟩ := run_txRound_other (b := initTx args mtu) (m := m) (s := s) sk.bia hl hne
            (by omega) sk.ok
          obtain ⟨s', m', hs', h'⟩ := ih m₁ s hrounds
          refine ⟨s', m', hs', ?_⟩
          rw [List.map_cons, txLoop, Prog.run_bind]
          dsimp only [TunInput.octets]
          rw [h₁]
          exact h'
      | packet f =>
          obtain ⟨w, -, -, hw, -⟩ := @tx_spec (sk.after s.calls) fuel grp f.ip hf hV.2.2.1
            (fun hd hhd => (G hd hhd).wf) f.udp
          obtain ⟨m₁, h₁⟩ := @run_txRound_packet m s sk fuel args mtu grp f w hV G hm hw
          obtain ⟨s', m', hs', h'⟩ := ih m₁ (Sock.plus f.vtf s w) hrounds
          refine ⟨s', m', ?_, ?_⟩
          · rw [Sock.txAll, hw]
            exact hs'
          · rw [List.map_cons, txLoop, Prog.run_bind, h₁]
            exact h'

end TxBuf

end MEADcast
