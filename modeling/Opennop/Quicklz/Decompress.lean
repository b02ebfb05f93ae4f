import Mathlib.Logic.Function.Basic
import Opennop.Quicklz.Compress

/-!
# QuickLZ: the decompressor (`lib/quicklz.c`)

The table holds pointers into the destination, null for the entries of a zeroed table that have not
been written. Without `QLZ_MEMORY_SAFE` nothing is checked: a block that no compressor has made can
send the copy through a null pointer. It can also make the loop go on for as long as the memory
behind it holds empty matches, so that the number of passes is an argument of the model.
-/

namespace Opennop

namespace Quicklz

open Mem

/-- `state->hash` of the decompressor. -/
abbrev DecompressTable := Nat → Option Nat

/-- `update_hash` -/
def updateHash (b : Build) (buf : Mem) (hash : DecompressTable) (s : Nat) : DecompressTable :=
  Function.update hash (hashat b buf s) (some s)

/-- The loop of `update_hash_upto`. -/
def updateHashSteps (b : Build) (buf : Mem) : Nat → Int → DecompressTable → Int × DecompressTable
  | 0, lh, hash => (lh, hash)
  | n + 1, lh, hash => updateHashSteps b buf n (lh + 1) (updateHash b buf hash (lh + 1).toNat)

/-- `update_hash_upto`: `*lh` and the table. -/
def updateHashUpto (b : Build) (buf : Mem) (hash : DecompressTable) (lh max : Int) :
    Int × DecompressTable :=
  updateHashSteps b buf (max - lh).toNat lh hash

/-- `bitlut` -/
def bitlut : List Nat := [4, 0, 1, 0, 2, 0, 1, 0, 3, 0, 1, 0, 2, 0, 1, 0]

/-- The variables of `qlz_decompress_core`, the destination and the table. -/
structure Decompressing where
  src : Nat
  dst : Nat
  cwordVal : Nat
  lastHashed : Int
  buf : Mem
  hash : DecompressTable

namespace Decompressing

/-- Load the next control word when the last one is used up. -/
def reload (b : Build) (m : Mem) (s : Decompressing) : Decompressing :=
  if s.cwordVal = 1 then { s with cwordVal := fastRead b m s.src cwordLen, src := s.src + cwordLen }
  else s

/-- The length of a match, and the length of its token. -/
def matchlen (m : Mem) (src fetch : Nat) : Nat × Nat :=
  if fetch &&& 0xf ≠ 0 then ((fetch &&& 0xf) + 2, 2) else ((m (src + 2)).toNat, 3)

def copy (b : Build) (m : Mem) (s : Decompressing) : Exec Decompressing := do
  let fetch := fastRead b m s.src 4
  let hash := (fetch >>> 4) &&& 0xfff
  let offset2 := s.hash hash
  let l := matchlen m s.src fetch
  let buf ← memcpyUp b s.buf s.dst offset2 l.1
  let dst := s.dst + l.1
  let u := updateHashUpto b buf s.hash s.lastHashed (dst - l.1)
  return { src := s.src + l.2, dst := dst, cwordVal := s.cwordVal >>> 1, lastHashed := dst - 1,
           buf := buf, hash := u.2 }

def literals (b : Build) (m : Mem) (s : Decompressing) : Decompressing :=
  let n := bitlut.getD (s.cwordVal &&& 0xf) 0
  let buf := s.buf.write s.dst (m.read s.src 4)
  let dst := s.dst + n
  let u := updateHashUpto b buf s.hash s.lastHashed (dst - 3)
  { src := s.src + n, dst := dst, cwordVal := s.cwordVal >>> n, lastHashed := u.1, buf := buf,
    hash := u.2 }

def tailPass (m : Mem) (size : Nat) (s : Decompressing) : Exec (Pass Decompressing Decompressing) :=
  if (s.dst : Int) ≤ lastByte size then
    let s := if s.cwordVal = 1 then { s with src := s.src + cwordLen, cwordVal := 1 <<< 31 } else s
    .ok (.again { s with
      buf := s.buf.set s.dst (m s.src)
      dst := s.dst + 1
      src := s.src + 1
      cwordVal := s.cwordVal >>> 1 })
  else .ok (.done s)

def tail (b : Build) (m : Mem) (size : Nat) (s : Decompressing) : Exec Decompressing := do
  let s ← loop (tailPass m size) (size + 1) s
  let u := updateHashUpto b s.buf s.hash s.lastHashed (lastByte size - 3)
  return { s with lastHashed := u.1, hash := u.2 }

def pass (b : Build) (m : Mem) (size : Nat) (s : Decompressing) :
    Exec (Pass Decompressing Decompressing) :=
  let s := s.reload b m
  if s.cwordVal &&& 1 = 1 then do
    let s ← s.copy b m
    return .again s
  else if (s.dst : Int) < lastMatchstart size then .ok (.again (s.literals b m))
  else do
    let s ← s.tail b m size
    return .done s

end Decompressing

/-- `qlz_decompress_core`, in at most `passes` passes: the destination and the table; what it
returns is `size`. -/
def qlzDecompressCore (b : Build) (passes : Nat) (m buf : Mem) (size : Nat)
    (hash : DecompressTable) :
    Exec (Nat × Mem × DecompressTable) := do
  let start : Decompressing :=
    { src := qlzSizeHeader m, dst := 0, cwordVal := 1, lastHashed := -1, buf := buf, hash := hash }
  let s ← loop (Decompressing.pass b m size) passes start
  return (size, s.buf, s.hash)

/-- `qlz_decompress`: the length of the data, the destination and the table, which
`reset_table_decompress` leaves alone at this level. -/
def qlzDecompress (b : Build) (passes : Nat) (m buf : Mem) (hash : DecompressTable) :
    Exec (Nat × Mem × DecompressTable) :=
  let dsiz := qlzSizeDecompressed b m
  if m 0 &&& 1 = 1 then qlzDecompressCore b passes m buf dsiz hash
  else .ok (dsiz, buf.write 0 (m.read (qlzSizeHeader m) dsiz), hash)

end Quicklz

end Opennop
