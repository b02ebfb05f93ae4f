import Opennop.Packet.TcpOptions

/-!
# Compression of the TCP data (`opennopd/compression.c`)

`Qlz` stands for QuickLZ (`lib/quicklz.c`), of which `Quicklz.Blocks` gives the instance that is
linked. The state blocks it needs are zeroed before each call, so that a call depends on its input
only, and `lzbuffer` only carries the result from the call to the packet.
-/

namespace Opennop

open Mem

/-- The QuickLZ library: the bytes `qlz_compress` stores for an input, and the bytes
`qlz_decompress` stores for what it finds from its source pointer on. -/
structure Qlz where
  compress : List UInt8 → List UInt8
  decompress : Mem → List UInt8

/-- The TCP option that flags compressed data. -/
def compressed : UInt8 := 31

def Mem.payload (p : Mem) : List UInt8 := p.read p.dataOff (p.totLen - 4 * p.ihl - 4 * p.doff)

/-- Bytes of `qlz_compress((char *) tcpdata, …, oldsize, …)`. -/
def qlzCompress (q : Qlz) (p : Mem) : List UInt8 := q.compress (p.read p.dataOff p.dataLen)

/-- Put `data`, whose length goes through a `__u16`, in the place of the TCP data and fix the packet
length. -/
def replaceData (p : Mem) (data : List UInt8) : Mem :=
  let oldsize := p.dataLen
  let newsize := data.length % 65536
  let p := p.write p.dataOff (data.take newsize)
  p.setTotLen (((p.totLen : Int) + newsize - oldsize) % 65536).toNat

/-- `tcp_compress`. The flags say whether the two buffers are not `NULL`, `compression` is the
global switch. -/
def tcpCompress (q : Qlz) (compression lzbuffer stateCompress : Bool) (p : Mem) :
    Exec (Mem × Nat) :=
  if stateCompress ∧ compression then
    if p.protocol = ipprotoTcp then
      if p.dataLen > 0 then
        if lzbuffer then
          if (qlzCompress q p).length % 65536 < p.dataLen then do
            let (p, _) ← setTcpOption (replaceData p (qlzCompress q p)) compressed 3 1
            return (p.setSeq (p.seq + 8000), 1)
          else .ok (p, 1)
        else .ok (p, 0)
      else .ok (p, 1)
    else .ok (p, 1)
  else .ok (p, 1)

/-- `tcp_decompress` -/
def tcpDecompress (q : Qlz) (lzbuffer stateDecompress : Bool) (p : Mem) : Exec (Mem × Nat) :=
  if stateDecompress then
    if p.protocol = ipprotoTcp then
      if p.dataLen > 0 ∧ lzbuffer then do
        let data := q.decompress fun k => p (p.dataOff + k)
        let (p, _) ← setTcpOption (replaceData p data) compressed 3 0
        return (p.setSeq (p.seq + 4294959296), 1)
      else .ok (p, 0)
    else .ok (p, 0)
  else .ok (p, 0)

end Opennop
