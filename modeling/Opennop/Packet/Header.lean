import Opennop.Lib.Bytes

/-!
# IPv4 and TCP header fields

The fields of `struct iphdr` and `struct tcphdr` that the optimizer reads and writes, as offsets
into the packet's bytes. Bit fields and the unconverted 16- and 32-bit loads (ports, addresses) are
those of a little-endian host; `tot_len` and `seq` go through `ntohs` and `ntohl` in the source and
are given here in host order.
-/

namespace Opennop

/-- `IPPROTO_TCP` -/
def ipprotoTcp : UInt8 := 6

namespace Mem

/-! ## `struct iphdr` -/

/-- `iph->ihl` -/
def ihl (p : Mem) : Nat := (p 0).toNat % 16

/-- `ntohs(iph->tot_len)` -/
def totLen (p : Mem) : Nat := p.be16 2

/-- `iph->tot_len = htons(v)` -/
def setTotLen (p : Mem) (v : Nat) : Mem := p.setBe16 2 v

/-- `iph->protocol` -/
def protocol (p : Mem) : UInt8 := p 9

/-- `iph->saddr` -/
def saddr (p : Mem) : Nat := p.le32 12

/-- `iph->daddr` -/
def daddr (p : Mem) : Nat := p.le32 16

/-! ## `struct tcphdr` -/

/-- Offset of `tcph = ((u_int32_t *)ippacket) + iph->ihl`. -/
def tcpOff (p : Mem) : Nat := 4 * p.ihl

/-- `tcph->source` -/
def source (p : Mem) : Nat := p.le16 p.tcpOff

/-- `tcph->dest` -/
def dest (p : Mem) : Nat := p.le16 (p.tcpOff + 2)

/-- `ntohl(tcph->seq)` -/
def seq (p : Mem) : Nat := p.be32 (p.tcpOff + 4)

/-- `tcph->seq = htonl(v)` -/
def setSeq (p : Mem) (v : Nat) : Mem := p.setBe32 (p.tcpOff + 4) v

/-- `tcph->doff` -/
def doff (p : Mem) : Nat := (p (p.tcpOff + 12)).toNat / 16

/-- `tcph->doff = v`, a store to the upper four bits of its byte. -/
def setDoff (p : Mem) (v : Nat) : Mem :=
  p.set (p.tcpOff + 12) (UInt8.ofNat ((p (p.tcpOff + 12)).toNat % 16 + v % 16 * 16))

/-- The byte of the flags `fin`, `syn`, `rst`, `psh`, `ack`, `urg`. -/
def flags (p : Mem) : Nat := (p (p.tcpOff + 13)).toNat

/-- `tcph->fin == 1` -/
def fin (p : Mem) : Bool := p.flags % 2 == 1

/-- `tcph->syn == 1` -/
def syn (p : Mem) : Bool := p.flags / 2 % 2 == 1

/-- `tcph->rst == 1` -/
def rst (p : Mem) : Bool := p.flags / 4 % 2 == 1

/-- `tcph->ack == 1` -/
def ack (p : Mem) : Bool := p.flags / 16 % 2 == 1

/-! ## The parts of a segment -/

/-- Offset of `opt = (__u8 *)tcph + sizeof(struct tcphdr)`. -/
def optOff (p : Mem) : Nat := p.tcpOff + 20

/-- `tcph->doff*4 - sizeof(struct tcphdr)`, computed in `size_t`. -/
def areaLen (p : Mem) : Nat := (4 * p.doff + 18446744073709551616 - 20) % 18446744073709551616

/-- Offset of the TCP data, `(__u8 *)tcph + tcph->doff * 4`. -/
def dataOff (p : Mem) : Nat := p.tcpOff + 4 * p.doff

/-- `(__u16)(ntohs(iph->tot_len) - iph->ihl * 4) - tcph->doff * 4`, stored in a `__u16`. -/
def dataLen (p : Mem) : Nat := (((p.totLen : Int) - 4 * p.ihl - 4 * p.doff) % 65536).toNat

end Mem

end Opennop
