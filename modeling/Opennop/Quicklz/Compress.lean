import Mathlib.Logic.Function.Basic
import Opennop.Quicklz.Basic

/-!
# QuickLZ: the compressor (`lib/quicklz.c`)

Pointers into the input and into the destination are offsets from the start of the two buffers,
which do not overlap. Places before the start of a buffer are compared as well, hence the integers.
The conversion of an offset to `unsigned int` in the table changes nothing: longer inputs are
refused.
-/

namespace Opennop

namespace Quicklz

open Mem

/-- `last_byte` -/
def lastByte (size : Nat) : Int := size - 1

/-- `last_matchstart` -/
def lastMatchstart (size : Nat) : Int := lastByte size - unconditionalMatchlen - uncompressedEnd

/-- `qlz_hash_compress` -/
structure HashCompress where
  cache : Nat
  offset : Nat

/-- `state->hash` of the compressor; the indices are hashes, below `QLZ_HASH_VALUES`. -/
abbrev CompressTable := Nat → HashCompress

/-- `reset_table_compress` -/
def resetTableCompress (hash : CompressTable) : CompressTable :=
  fun i => { hash i with offset := 0 }

/-- The variables of `qlz_compress_core`, the destination and the table. -/
structure Compressing where
  src : Nat
  dst : Nat
  cwordPtr : Nat
  cwordVal : Nat
  fetch : Nat
  lits : Nat
  buf : Mem
  hash : CompressTable

/-- The loop that makes a match longer. It ends by itself: `remaining` is at most 255. -/
def extend (source : Mem) (o oldSrc remaining : Nat) : Nat → Nat → Nat
  | 0, src => src
  | n + 1, src =>
    if source (o + (src - oldSrc)) = source src ∧ src - oldSrc < remaining then
      extend source o oldSrc remaining n (src + 1)
    else src

/-- The end of a match of at least four bytes. -/
def matchEnd (source : Mem) (size o oldSrc : Nat) : Nat :=
  let src := oldSrc + 4
  if source (o + (src - oldSrc)) = source src then
    let src := src + 1
    if source (o + (src - oldSrc)) = source src then
      let q : Int := lastByte size - uncompressedEnd - (src - 5) + 1
      let remaining := if q > 255 then 255 else q.toNat
      extend source o oldSrc remaining 255 (src + 1)
    else src
  else src

namespace Compressing

/-- Store the control word and reserve the place of the next one. -/
def flush (b : Build) (s : Compressing) : Compressing :=
  { s with
    buf := fastWrite b s.buf ((s.cwordVal >>> 1) ||| (1 <<< 31)) s.cwordPtr cwordLen
    cwordPtr := s.dst
    dst := s.dst + cwordLen
    cwordVal := 1 <<< 31 }

/-- `*dst = *src`, with its flag. -/
def literal (source : Mem) (s : Compressing) : Compressing :=
  { s with
    buf := s.buf.set s.dst (source s.src)
    src := s.src + 1
    dst := s.dst + 1
    cwordVal := s.cwordVal >>> 1 }

/-- The comparison of the three bytes with those of the entry. -/
def sameThree (b : Build) (cached : Nat) : Bool :=
  match b with
  | .x86 => cached &&& 0xffffff == 0
  | .portable => cached == 0

def fourthDiffers (b : Build) (source : Mem) (cached o src : Nat) : Bool :=
  match b with
  | .x86 => cached != 0
  | .portable => source (o + 3) != source (src + 3)

/-- The next word to look up, after a literal. -/
def nextFetch (b : Build) (source : Mem) (fetch src : Nat) : Nat :=
  match b with
  | .x86 => fastRead b source src 3
  | .portable => (fetch >>> 8 &&& 0xffff) ||| ((source (src + 2)).toNat <<< 16)

/-- Store a match that ends before `src`. -/
def store (b : Build) (hash src : Nat) (s : Compressing) : Compressing :=
  let matchlen := src - s.src
  if matchlen < 18 then
    { s with
      src := src, buf := fastWrite b s.buf ((matchlen - 2) ||| hash) s.dst 2, dst := s.dst + 2 }
  else
    { s with
      src := src, buf := fastWrite b s.buf ((matchlen <<< 16) ||| hash) s.dst 3, dst := s.dst + 3 }

/-- A match or a literal: the pass of the first loop behind the control word. -/
def token (b : Build) (source : Mem) (size : Nat) (s : Compressing) : Compressing :=
  let hash := hashFunc s.fetch
  let cached := s.fetch ^^^ (s.hash hash).cache
  let o := (s.hash hash).offset
  let s := { s with hash := Function.update s.hash hash ⟨s.fetch, s.src⟩ }
  if sameThree b cached ∧ o ≠ 0 ∧ ((s.src : Int) - o > minoffset ∨
      (s.src = o + 1 ∧ s.lits ≥ 3 ∧ s.src > 3 ∧ same source (s.src - 3) 6)) then
    let hash := hash <<< 4
    let s := { s with cwordVal := (s.cwordVal >>> 1) ||| (1 <<< 31) }
    let s :=
      if fourthDiffers b source cached o s.src then
        { s with
          buf := fastWrite b s.buf ((3 - 2) ||| hash) s.dst 2, src := s.src + 3, dst := s.dst + 2 }
      else s.store b hash (matchEnd source size o s.src)
    { s with fetch := fastRead b source s.src 3, lits := 0 }
  else
    let s := literal source { s with lits := s.lits + 1 }
    { s with fetch := nextFetch b source s.fetch s.src }

/-- The test for input that does not get smaller. -/
def ratioTooLow (size destination : Nat) (s : Compressing) : Bool :=
  s.src > size >>> 1 && s.dst - destination > s.src - (s.src >>> 5)

/-- A pass of the first loop; it leaves with `false` when the function returns 0. -/
def pass (b : Build) (source : Mem) (size destination : Nat) (s : Compressing) :
    Exec (Pass Compressing (Compressing × Bool)) :=
  if (s.src : Int) ≤ lastMatchstart size then
    if s.cwordVal &&& 1 = 1 then
      if s.ratioTooLow size destination then .ok (.done (s, false))
      else .ok (.again ({ s.flush b with fetch := fastRead b source s.src 3 }.token b source size))
    else .ok (.again (s.token b source size))
  else .ok (.done (s, true))

/-- A pass of the loop over the last bytes. Its `fetch` hides the variable of the function. -/
def tailPass (b : Build) (source : Mem) (size : Nat) (s : Compressing) :
    Exec (Pass Compressing Compressing) :=
  if (s.src : Int) ≤ lastByte size then
    let s := if s.cwordVal &&& 1 = 1 then s.flush b else s
    let s :=
      if (s.src : Int) ≤ lastByte size - 3 then
        let fetch := fastRead b source s.src 3
        { s with hash := Function.update s.hash (hashFunc fetch) ⟨fetch, s.src⟩ }
      else s
    .ok (.again (s.literal source))
  else .ok (.done s)

end Compressing

/-- `while((cword_val & 1) != 1) cword_val = (cword_val >> 1)`; the mark is one of 32 bits. -/
def shiftOut : Nat → Nat → Nat
  | 0, w => w
  | n + 1, w => if w &&& 1 ≠ 1 then shiftOut n (w >>> 1) else w

/-- `qlz_compress_core`: what it returns, the destination and the table. -/
def qlzCompressCore (b : Build) (source buf : Mem) (destination size : Nat) (hash : CompressTable) :
    Exec (Nat × Mem × CompressTable) := do
  let start : Compressing :=
    { src := 0
      dst := destination + cwordLen
      cwordPtr := destination
      cwordVal := 1 <<< 31
      fetch := if 0 ≤ lastMatchstart size then fastRead b source 0 3 else 0
      lits := 0
      buf := buf
      hash := hash }
  let r ← loop (Compressing.pass b source size destination) (size + 1) start
  if r.2 then
    let s ← loop (Compressing.tailPass b source size) (size + 1) r.1
    let buf := fastWrite b s.buf ((shiftOut 32 s.cwordVal >>> 1) ||| (1 <<< 31)) s.cwordPtr cwordLen
    return (if s.dst - destination < 9 then 9 else s.dst - destination, buf, s.hash)
  else return (0, r.1.buf, r.1.hash)

/-- The sizes and the first two flags of the header. -/
def writeSizes (b : Build) (buf : Mem) (base r size : Nat) (compressed : UInt8) : Mem :=
  if base = 3 then
    ((buf.set 0 (0 ||| compressed)).set 1 (UInt8.ofNat r)).set 2 (UInt8.ofNat size)
  else fastWrite b (fastWrite b (buf.set 0 (2 ||| compressed)) r 1 4) size 5 4

def writeHeader (b : Build) (buf : Mem) (base r size : Nat) (compressed : UInt8) : Mem :=
  let buf := writeSizes b buf base r size compressed
  let buf := buf.set 0 (buf 0 ||| (compressionLevel <<< 2))
  let buf := buf.set 0 (buf 0 ||| ((1 : UInt8) <<< 6))
  -- the bits of `QLZ_STREAMING_BUFFER`
  buf.set 0 (buf 0 ||| ((0 : UInt8) <<< 4))

/-- `qlz_compress`: the length of the block, the destination and the table. -/
def qlzCompress (b : Build) (source buf : Mem) (size : Nat) (hash : CompressTable) :
    Exec (Nat × Mem × CompressTable) :=
  if size = 0 ∨ size > 0xffffffff - 400 then .ok (0, buf, hash)
  else do
    let base := if size < 216 then 3 else 9
    let c ← qlzCompressCore b source buf base size (resetTableCompress hash)
    let r := base + c.1
    if r = base then
      let buf := c.2.1.write base (source.read 0 size)
      return (size + base, writeHeader b buf base (size + base) size 0, c.2.2)
    else
      return (r, writeHeader b c.2.1 base r size 1, c.2.2)

end Quicklz

end Opennop
