import Mathlib.Algebra.Group.Nat.Defs
import Opennop.Lib.Exec
import Opennop.Packet.Header

/-!
# TCP options (`opennopd/tcpoptions.c`)

The functions of the source, on the bytes of the packet. Pointers into the packet are offsets from
its start, a null pointer is `none`, and a function that changes the packet returns it with its own
result.

The kernel queues no packet whose IP header is shorter than five words, so no write below changes
the byte that says where the TCP header starts. A TCP header length below five words is possible;
the length of the option area then wraps around.

Every scan of the option area is the loop `for (i = 0; i < n; i += optlen(opt, i))` with an 8-bit
index. An ending scan visits no index twice, so 257 passes decide it; the scans that remove NOPs
change the area at most forty times, and between two changes visit no index twice.
-/

namespace Opennop

open Mem

/-- `TCPOPT_EOL` -/
def tcpoptEol : UInt8 := 0

/-- `TCPOPT_NOP` -/
def tcpoptNop : UInt8 := 1

/-- `NOD`, the option number used by Network Optimizer Detection. -/
def nod : UInt8 := 33

/-- The vendor ID `ONOP`. -/
def onop : List UInt8 := [79, 78, 79, 80]

/-! ## Scanning -/

/-- `optlen(opt, offset)` -/
def optlen (p : Mem) (opt offset : Nat) : Nat :=
  if p (opt + offset) ≤ tcpoptNop ∨ p (opt + offset + 1) = 0 then 1
  else (p (opt + offset + 1)).toNat

/-- One pass of a scan that leaves at the first index where `hit` holds. -/
def scanPass (p : Mem) (opt n : Nat) (hit : Nat → Bool) (i : Nat) : Exec (Pass Nat (Option Nat)) :=
  if i < n then
    if hit i then .ok (.done (some i)) else .ok (.again ((i + optlen p opt i) % 256))
  else .ok (.done none)

/-- The scan for the first index where `hit` holds, `none` when it gets past the area. -/
def scan (p : Mem) (opt n : Nat) (hit : Nat → Bool) : Exec (Option Nat) :=
  loop (scanPass p opt n hit) 257 0

/-- `get_tcpopt` -/
def getTcpopt (p : Mem) (tcpoptionnum : UInt8) : Exec (Option Nat) := do
  let i ← scan p p.optOff p.areaLen fun i => p (p.optOff + i) == tcpoptionnum
  return i.map (p.optOff + ·)

/-! ## Removing NOPs -/

/-- Close the gap at index `i`: the rest of the area moves one byte down, a zero enters at its
end. -/
def removeByte (p : Mem) (opt n i : Nat) : Mem :=
  (p.move (opt + i) (opt + i + 1) (n - i - 1)).set (opt + n - 1) 0

/-- One pass of `while (opt[i] == TCPOPT_NOP)`. -/
def nopPass (opt n i : Nat) (p : Mem) : Exec (Pass Mem Mem) :=
  if p (opt + i) = tcpoptNop then .ok (.again (removeByte p opt n i)) else .ok (.done p)

/-- The loop `while (opt[i] == TCPOPT_NOP)`: each pass brings a zero into the area, so the area from
`i` on is used up after as many passes as it has bytes. -/
def dropNops (opt n i : Nat) (p : Mem) : Exec Mem := loop (nopPass opt n i) (n + 1) p

/-- Passes of the scans that remove NOPs. -/
def nopFuel : Nat := 257 * 41

/-- One pass of the loop of `remove_tcpopt_nop`. -/
def removeNopPass (opt n : Nat) : Mem × Nat → Exec (Pass (Mem × Nat) Mem)
  | (p, i) =>
    if i < n then do
      let p ← dropNops opt n i p
      return .again (p, (i + optlen p opt i) % 256)
    else .ok (.done p)

/-- `remove_tcpopt_nop` -/
def removeTcpoptNop (p : Mem) : Exec Mem :=
  if p.doff > 5 then loop (removeNopPass p.optOff p.areaLen) nopFuel (p, 0) else .ok p

/-- `get_tcpopt_freespace` -/
def getTcpoptFreespace (p : Mem) : Exec (Mem × Nat) := do
  let p ← removeTcpoptNop p
  if p.doff > 5 then
    match ← scan p p.optOff p.areaLen fun i => p (p.optOff + i) == tcpoptEol with
    | some i => return (p, (p.areaLen - i) % 256)
    | none => return (p, 0)
  else return (p, 0)

/-! ## Making room -/

/-- The number of 32-bit words that hold `spaceneeded` bytes, as both callers compute it. -/
def dwords (spaceneeded : Nat) : Nat :=
  if spaceneeded % 4 ≠ 0 then spaceneeded / 4 + 1 else spaceneeded / 4

/-- `get_tcpopt_addoff_needed` -/
def getTcpoptAddoffNeeded (p : Mem) (bytestoadd : Nat) : Exec (Mem × Nat) := do
  let (p, optspace) ← getTcpoptFreespace p
  if optspace < bytestoadd then return (p, dwords (bytestoadd - optspace)) else return (p, 0)

/-- The loop `for (i = 0; i < addoff*4; i++)` that zeroes the bytes from the data offset on. The
data offset is read anew for every byte. -/
def zeroGap (p : Mem) (addoff : Nat) : Mem :=
  (List.range (4 * addoff)).foldl (fun p i => p.set (p.dataOff + i) 0) p

/-- The part `add_tcpopt_addoff` and `__set_tcp_option` share: the TCP data moves back by `addoff`
words and the room between is zeroed. A total length below the header lengths makes the length of
the `memmove` negative. -/
def openGap (p : Mem) (addoff : Nat) : Exec Mem :=
  if p.totLen < 4 * p.ihl + 4 * p.doff then .error .segv
  else .ok (zeroGap (p.move (p.dataOff + 4 * addoff) p.dataOff
    (p.totLen - 4 * p.ihl - 4 * p.doff)) addoff)

/-- `add_tcpopt_addoff` -/
def addTcpoptAddoff (p : Mem) (addoff : Nat) : Exec (Mem × Int) :=
  if addoff = 0 then .ok (p, -1)
  else if p.doff + addoff ≤ 15 then do
    let p ← openGap p addoff
    let p := p.setDoff (p.doff + addoff)
    return (p.setTotLen (p.totLen + 4 * addoff), 0)
  else .ok (p, -1)

/-- `add_tcpopt_bytes` -/
def addTcpoptBytes (p : Mem) (bytes : Nat) : Exec (Mem × Int) := do
  let (p, addoff) ← getTcpoptAddoffNeeded p bytes
  addTcpoptAddoff p addoff

/-- `shift_tcpopt_space` -/
def shiftTcpoptSpace (p : Mem) (location bytes : Nat) : Exec (Mem × Nat) := do
  match ← getTcpopt p tcpoptEol with
  | some optend =>
    let bytestotcpoptend := (((optend : Int) - location) % 256).toNat
    let p := p.move (location + bytes) location bytestotcpoptend
    let p := p.fill location bytes 0
    let p := p.set location 65
    return (p.set (location + bytes - 1) 90, bytes)
  | none => return (p, 0)

/-- `set_tcpopt` -/
def setTcpopt (p : Mem) (tcpoptionnum tcpoptionlen : UInt8) : Exec (Mem × Option Nat) := do
  match ← getTcpopt p tcpoptionnum with
  | some opt => return (p, some opt)
  | none =>
    let (p, addoff) ← getTcpoptAddoffNeeded p 2
    let (p, _) ← addTcpoptAddoff p addoff
    match ← getTcpopt p tcpoptEol with
    | some opt => return ((p.set opt tcpoptionnum).set (opt + 1) tcpoptionlen, some opt)
    | none => return (p, none)

/-! ## NOD headers -/

/-- `nodh->tot_len` -/
def nodTotLen (p : Mem) (nodh : Nat) : Nat := (p nodh).toNat

/-- `nodh->idlen`, the lower three bits of its byte. -/
def nodIdlen (p : Mem) (nodh : Nat) : Nat := (p (nodh + 1)).toNat % 8

/-- `nodh->hdr_len`, the upper five bits of its byte. -/
def nodHdrLen (p : Mem) (nodh : Nat) : Nat := (p (nodh + 1)).toNat / 8

/-- `nodh->idlen = v` -/
def setNodIdlen (p : Mem) (nodh v : Nat) : Mem :=
  p.set (nodh + 1) (UInt8.ofNat (nodHdrLen p nodh * 8 + v % 8))

/-- `nodh->hdr_len = v` -/
def setNodHdrLen (p : Mem) (nodh v : Nat) : Mem :=
  p.set (nodh + 1) (UInt8.ofNat (v % 32 * 8 + nodIdlen p nodh))

/-- `check_nod_header` -/
def checkNodHeader (p : Mem) (nodh : Nat) (id : List UInt8) : Bool :=
  p.read (nodh + 2) id.length == id

/-- `get_nod_next_header`. The end test compares the addresses of the two parameters on the stack:
`gap` is `(__u8*)&nod - (__u8*)&nodh`. The step is by `tot_len` elements of the three-byte
`struct nodhdr`. -/
def getNodNextHeader (gap : Int) (p : Mem) (nod nodh : Nat) : Option Nat :=
  if gap + (p (nod + 1)).toNat < nodTotLen p nodh then some (nodh + 3 * nodTotLen p nodh) else none

/-- One pass of the walk over the headers of a NOD option. -/
def nodPass (gap : Int) (p : Mem) (nod : Nat) (id : List UInt8) :
    Option Nat → Exec (Pass (Option Nat) (Option Nat))
  | none => .ok (.done none)
  | some nodh =>
    if nodIdlen p nodh = id.length ∧ checkNodHeader p nodh id then .ok (.done (some nodh))
    else .ok (.again (getNodNextHeader gap p nod nodh))

/-- Passes of the walk: one that takes more steps stays at a header of length zero or has left the
memory of the packet. -/
def nodFuel : Nat := 65536

/-- `get_nod_header` -/
def getNodHeader (gap : Int) (p : Mem) (id : List UInt8) : Exec (Option Nat) := do
  match ← getTcpopt p nod with
  | some nod =>
    if (p (nod + 1)).toNat > 2 then loop (nodPass gap p nod id) nodFuel (some (nod + 2))
    else return none
  | none => return none

/-- The part of `set_nod_header` that fills the new space after the headers of the option at `nod`;
the header is at `nod + nod[1]`. -/
def fillNodHeader (p : Mem) (nod headerlen : Nat) (id : List UInt8) : Mem :=
  let nodh := nod + (p (nod + 1)).toNat
  let p := p.set (nod + 1) (UInt8.ofNat ((p (nod + 1)).toNat + headerlen))
  let p := p.set nodh (UInt8.ofNat headerlen)
  let p := setNodIdlen p nodh id.length
  let p := setNodHdrLen p nodh headerlen
  p.write (nodh + 2) id

/-- `set_nod_header` -/
def setNodHeader (gap : Int) (p : Mem) (id : List UInt8) : Exec (Mem × Option Nat) := do
  let (p, nod) ← setTcpopt p nod 2
  match ← getNodHeader gap p id with
  | some nodh =>
    -- the second lookup only decides whether a message is logged
    let _ ← getNodHeader gap p id
    return (p, some nodh)
  | none =>
    let headerlen := (2 + id.length) % 256
    let (p, _) ← addTcpoptBytes p headerlen
    match nod with
    | none => .error .segv
    | some nod =>
      let (p, _) ← shiftTcpoptSpace p (nod + (p (nod + 1)).toNat) headerlen
      let nodh := nod + (p (nod + 1)).toNat
      let p := fillNodHeader p nod headerlen id
      let _ ← getNodHeader gap p id
      return (p, some nodh)

/-- `struct hdrdata` -/
structure HdrData where
  /-- `data_len` -/
  dataLen : Nat
  /-- `data` -/
  data : Option Nat
  deriving DecidableEq, Repr

/-- `get_nod_header_data` -/
def getNodHeaderData (gap : Int) (p : Mem) (id : List UInt8) : Exec HdrData := do
  match ← getNodHeader gap p id with
  | some nodh =>
    if nodHdrLen p nodh > nodIdlen p nodh + 2 then
      return ⟨nodHdrLen p nodh - (nodIdlen p nodh + 2), some (nodh + nodIdlen p nodh + 2)⟩
    else return ⟨0, none⟩
  | none => return ⟨0, none⟩

/-- The part of `set_nod_header_data` that fills the new space after the header at `nodh`. -/
def fillNodHeaderData (p : Mem) (nod nodh : Nat) (headerData : List UInt8) : Mem :=
  let p := p.set (nod + 1) (UInt8.ofNat ((p (nod + 1)).toNat + headerData.length))
  let p := p.set nodh (UInt8.ofNat (nodTotLen p nodh + headerData.length))
  let p := setNodHdrLen p nodh (nodHdrLen p nodh + headerData.length)
  p.write (nodh + nodIdlen p nodh + 2) headerData

/-- `set_nod_header_data` -/
def setNodHeaderData (gap : Int) (p : Mem) (id headerData : List UInt8) : Exec Mem := do
  let (p, nodh) ← setNodHeader gap p id
  let nod ← getTcpopt p nod
  match nodh, nod with
  | some nodh, some nod =>
    if nodHdrLen p nodh = nodIdlen p nodh + 2 then
      let (p, error) ← addTcpoptBytes p headerData.length
      if error = 0 then
        let (p, free) ← getTcpoptFreespace p
        if free ≥ headerData.length then
          let (p, _) ← shiftTcpoptSpace p (nodh + nodHdrLen p nodh) headerData.length
          return fillNodHeaderData p nod nodh headerData
        else return p
      else return p
    else return p
  | _, _ => return p

/-! ## Reading and writing an option -/

/-- `opt[..] << 8 * count` in `int`: the byte is promoted to a 32-bit signed integer, and the shift
count is taken modulo 32 as the processor does. -/
def shiftByte (b : UInt8) (count : Nat) : Int :=
  let v := b.toNat * 2 ^ (8 * count % 32) % 4294967296
  if v < 2147483648 then v else v - 4294967296

/-- The loop `while (count > 0)` of `__get_tcp_option`, which adds up the data bytes of the option
at `opt + i` from `bytefield` on. -/
def sumBytes (p : Mem) (opt i : Nat) : (count bytefield : Nat) → (tcpoptdata : Int) → Int
  | 0, _, tcpoptdata => tcpoptdata
  | count + 1, bytefield, tcpoptdata =>
    sumBytes p opt i count ((bytefield + 1) % 256)
      ((tcpoptdata + shiftByte (p (opt + i + bytefield)) count) % 18446744073709551616)

/-- `__get_tcp_option` -/
def getTcpOption (p : Mem) (tcpoptnum : UInt8) : Exec Nat := do
  let opt := p.optOff
  match ← scan p opt p.areaLen fun i =>
      p (opt + i) == tcpoptnum && decide (i + (p (opt + i + 1)).toNat ≤ 4 * p.doff) with
  | some i =>
    let tcpoptlen := (p (opt + i + 1)).toNat
    if tcpoptlen = 2 then return 1
    else return (sumBytes p opt i ((tcpoptlen + 254) % 256) 2 0).toNat
  | none => return 0

/-- The bytes `data >> 8 * (count - 1), …, data >> 0`. The shift count is taken modulo 64 as the
processor does. -/
def dataBytes (count data : Nat) : List UInt8 :=
  (List.range count).map fun j => UInt8.ofNat (data / 2 ^ (8 * (count - 1 - j) % 64))

/-- The loop `while (count > 0)` of `__set_tcp_option`, which writes the data bytes of the option at
`opt` from `bytefield` on. -/
def putBytes (opt tcpoptdata : Nat) : (count bytefield : Nat) → Mem → Mem
  | 0, _, p => p
  | count + 1, bytefield, p =>
    putBytes opt tcpoptdata count ((bytefield + 1) % 256)
      (p.set (opt + bytefield) (UInt8.ofNat (tcpoptdata / 2 ^ (8 * count % 64))))

/-- One pass of the loop of `__set_tcp_option` that removes NOPs and finds the free space. -/
def squeezePass (opt n : Nat) : Mem × Nat → Exec (Pass (Mem × Nat) (Mem × Nat))
  | (p, i) =>
    if i < n then do
      let p ← dropNops opt n i p
      if p (opt + i) = tcpoptEol then return .done (p, (n - i) % 256)
      else return .again (p, (i + optlen p opt i) % 256)
    else .ok (.done (p, 0))

/-- The free space of `__set_tcp_option`, with the area squeezed. -/
def squeeze (p : Mem) : Exec (Mem × Nat) :=
  if p.doff > 5 then loop (squeezePass p.optOff p.areaLen) nopFuel (p, 0) else .ok (p, 0)

/-- `if (addoff != 0)` around the moving of the data. -/
def openGapIf (p : Mem) (addoff : Nat) : Exec Mem :=
  if addoff ≠ 0 then openGap p addoff else .ok p

/-- The part of `__set_tcp_option` that moves `n` bytes of options back and writes the new option in
front of them. -/
def putFirst (p : Mem) (n : Nat) (tcpoptnum : UInt8) (tcpoptlen tcpoptdata : Nat) : Mem :=
  let opt := p.optOff
  let p := p.move (opt + tcpoptlen) opt n
  let p := p.set opt tcpoptnum
  let p := p.set (opt + 1) (UInt8.ofNat tcpoptlen)
  putBytes opt tcpoptdata ((tcpoptlen + 254) % 256) 2 p

/-- The part of `__set_tcp_option` that inserts an option at the front of the area. Below five words
of TCP header the length of the second `memmove` wraps around. -/
def insertTcpOption (p : Mem) (tcpoptnum : UInt8) (tcpoptlen tcpoptdata : Nat) :
    Exec (Mem × Int) := do
  let (p, optspace) ← squeeze p
  let addoff := if optspace < tcpoptlen then dwords ((tcpoptlen - optspace) % 256) else 0
  if p.doff + addoff ≤ 15 then
    let p ← openGapIf p addoff
    if p.doff < 5 then .error .segv
    else
      let p := putFirst p (p.areaLen - optspace) tcpoptnum tcpoptlen tcpoptdata
      let p := if addoff ≠ 0 then p.setDoff (p.doff + addoff) else p
      return (p.setTotLen (p.totLen + 4 * addoff), 0)
  else return (p, -1)

/-- `__set_tcp_option` -/
def setTcpOption (p : Mem) (tcpoptnum : UInt8) (tcpoptlen tcpoptdata : Nat) :
    Exec (Mem × Int) := do
  let opt := p.optOff
  let found ←
    if p.doff > 5 then
      scan p opt p.areaLen fun i =>
        p (opt + i) == tcpoptnum && decide (i + tcpoptlen ≤ 4 * p.doff) &&
          (p (opt + i + 1)).toNat == tcpoptlen
    else pure none
  match found with
  | some i =>
    return (putBytes (opt + i) tcpoptdata ((tcpoptlen + 254) % 256) 2 p, 0)
  | none => insertTcpOption p tcpoptnum tcpoptlen tcpoptdata

end Opennop
