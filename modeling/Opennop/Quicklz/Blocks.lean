import Opennop.Node.Bounds
import Opennop.Packet.RoundTrip
import Opennop.Quicklz.Decoder
import Opennop.Quicklz.Loops

/-!
# Blocks: `qlz_decompress` undoes `qlz_compress`

A block is a header with the two sizes and then the tokens, or the input itself where tokens would
not have been shorter. `Packs` says what of a block matters to the decompressor; it does not depend
on the build that made it, nor on what follows the block in memory.

QuickLZ as the repository has it is then an instance of the library that the packets are rewritten
with, and has the two properties that are assumed of it there.
-/

namespace Opennop

namespace Quicklz

open Mem Spelling

/-! ## The header -/

/-- The first byte: the level and the flags. -/
def tag (base : Nat) (compressed : UInt8) : UInt8 :=
  (if base = 3 then 0 else 2) ||| compressed ||| 4 ||| 64

def header (base r size : Nat) (compressed : UInt8) : List UInt8 :=
  tag base compressed ::
    if base = 3 then [UInt8.ofNat r, UInt8.ofNat size] else leBytes 4 r ++ leBytes 4 size

/-- The base that `qlz_compress` takes. -/
def baseOf (size : Nat) : Nat := if size < 216 then 3 else 9

theorem length_header (size r : Nat) (c : UInt8) :
    (header (baseOf size) r size c).length = baseOf size := by
  unfold header baseOf
  split <;> simp

theorem tag_eq (base : Nat) (c v : UInt8) (hv : v = (if base = 3 then 0 else 2) ||| c) :
    ((v ||| (compressionLevel <<< 2)) ||| ((1 : UInt8) <<< 6)) ||| ((0 : UInt8) <<< 4) =
    tag base c := by
  subst hv
  unfold tag
  rw [show ((0 : UInt8) <<< 4) = 0 from rfl, UInt8.or_zero]
  rfl

theorem writeHeader_zero (b : Build) (buf : Mem) (base r size : Nat) (c : UInt8) :
    writeHeader b buf base r size c 0 = tag base c := by
  have hfirst : writeSizes b buf base r size c 0 = (if base = 3 then 0 else 2) ||| c := by
    unfold writeSizes
    by_cases hb : base = 3
    · rw [if_pos hb, if_pos hb, set_ne _ _ (by decide), set_ne _ _ (by decide), set_self]
    · rw [if_neg hb, if_neg hb, fastWrite_out _ _ _ _ (by decide),
        fastWrite_out _ _ _ _ (by decide), set_self]
  rw [← tag_eq base c _ hfirst]
  unfold writeHeader
  simp only [set_self]

theorem writeHeader_pos (b : Build) (buf : Mem) (base r size : Nat) (c : UInt8) {i : Nat}
    (hi : 0 < i) :
    writeHeader b buf base r size c i = writeSizes b buf base r size c i := by
  have hne : i ≠ 0 := by omega
  unfold writeHeader
  rw [set_ne _ _ hne, set_ne _ _ hne, set_ne _ _ hne]

theorem writeHeader_out (b : Build) (buf : Mem) (r size : Nat) (c : UInt8) {i : Nat}
    (hi : baseOf size ≤ i) : writeHeader b buf (baseOf size) r size c i = buf i := by
  have hpos : 0 < i := by
    unfold baseOf at hi
    split at hi <;> omega
  rw [writeHeader_pos _ _ _ _ _ _ hpos, writeSizes]
  by_cases hs : size < 216
  · rw [baseOf, if_pos hs] at hi ⊢
    rw [if_pos rfl, set_ne _ _ (by omega), set_ne _ _ (by omega), set_ne _ _ (by omega)]
  · rw [baseOf, if_neg hs] at hi ⊢
    rw [if_neg (by decide), fastWrite_out _ _ _ _ (by omega), fastWrite_out _ _ _ _ (by omega),
      set_ne _ _ (by omega)]

theorem writeHeader_holds (b : Build) (buf : Mem) (base r size : Nat) (c : UInt8) :
    (writeHeader b buf base r size c).Holds 0 (header base r size c) := by
  rw [header, holds_cons]
  refine ⟨writeHeader_zero b buf base r size c, ?_⟩
  have hsizes : (writeSizes b buf base r size c).Holds 1
      (if base = 3 then [UInt8.ofNat r, UInt8.ofNat size] else leBytes 4 r ++ leBytes 4 size) := by
    unfold writeSizes
    by_cases hb : base = 3
    · rw [if_pos hb, if_pos hb, holds_cons, holds_cons]
      exact ⟨by rw [set_ne _ _ (by decide), set_self], set_self _ _ _, holds_nil _ _⟩
    · rw [if_neg hb, if_neg hb, holds_append, length_leBytes]
      constructor
      · refine (fastWrite_holds b (buf.set 0 (2 ||| c)) r 1 (n := 4) (by decide) (by decide)).congr
          fun i h₁ h₂ => ?_
        rw [length_leBytes] at h₂
        exact fastWrite_out _ _ _ _ (.inl (by omega))
      · exact fastWrite_holds b _ size 5 (n := 4) (by decide) (by decide)
  exact hsizes.congr fun i hi _ => writeHeader_pos b buf base r size c (by omega)

/-! ## Reading the header -/

section Header

variable {b : Build} {m : Mem} {r size : Nat} {c : UInt8}

theorem sizeLen_of_header (hc : c = 0 ∨ c = 1) (h : m.Holds 0 (header (baseOf size) r size c)) :
    sizeLen m = if size < 216 then 1 else 4 := by
  have h0 := (holds_cons.1 h).1
  unfold sizeLen
  rw [h0]
  unfold baseOf
  by_cases hs : size < 216
  · rw [if_pos hs, if_pos hs]
    rcases hc with rfl | rfl <;> rfl
  · rw [if_neg hs, if_neg hs]
    rcases hc with rfl | rfl <;> rfl

theorem qlzSizeHeader_of_header (hc : c = 0 ∨ c = 1)
    (h : m.Holds 0 (header (baseOf size) r size c)) :
    qlzSizeHeader m = baseOf size := by
  unfold qlzSizeHeader baseOf
  rw [sizeLen_of_header hc h]
  split <;> rfl

theorem compressed_of_header (hc : c = 0 ∨ c = 1) (h : m.Holds 0 (header (baseOf size) r size c)) :
    m 0 &&& 1 = c := by
  have h0 := (holds_cons.1 h).1
  rw [h0]
  unfold baseOf
  by_cases hs : size < 216
  · rw [if_pos hs]
    rcases hc with rfl | rfl <;> rfl
  · rw [if_neg hs]
    rcases hc with rfl | rfl <;> rfl

theorem qlzSizeDecompressed_of_header (hc : c = 0 ∨ c = 1) (hsize : size < 4294967296)
    (h : m.Holds 0 (header (baseOf size) r size c)) : qlzSizeDecompressed b m = size := by
  have hlen := sizeLen_of_header hc h
  have hrest := (holds_cons.1 h).2
  unfold qlzSizeDecompressed
  dsimp only
  unfold baseOf at hrest
  by_cases hs : size < 216
  · rw [if_pos hs] at hlen hrest
    rw [if_pos rfl] at hrest
    have hbyte : m 2 = UInt8.ofNat size := (holds_cons.1 (holds_cons.1 hrest).2).1
    have hread : fastRead b m (1 + 1) 1 % 256 = size := by
      have hm : (m 2).toNat = size := by
        rw [hbyte, UInt8.toNat_ofNat']
        omega
      have := (m 2).toNat_lt
      cases b with
      | x86 =>
        change m.le32 2 % 256 = size
        unfold le32 le16
        omega
      | portable =>
        change (m 2).toNat % 256 = size
        omega
    rw [hlen]
    rw [show (0xffffffff >>> ((4 - 1) * 8) : Nat) = 2 ^ 8 - 1 from rfl,
      Nat.and_two_pow_sub_one_eq_mod]
    exact hread
  · rw [if_neg hs] at hlen hrest
    rw [if_neg (by decide), holds_append, length_leBytes] at hrest
    rw [hlen, fastRead_four, le32_of_leBytes hrest.2,
      show (0xffffffff >>> ((4 - 4) * 8) : Nat) = 2 ^ 32 - 1 from rfl,
        Nat.and_two_pow_sub_one_eq_mod]
    omega

end Header

/-! ## Blocks -/

/-- The memory starts with a block for the first `size` bytes of `x`. -/
def Packs (x : Mem) (size : Nat) (m : Mem) : Prop :=
  ∃ r, (m.Holds 0 (header (baseOf size) r size 0) ∧ m.Holds (baseOf size) (x.read 0 size)) ∨
    (m.Holds 0 (header (baseOf size) r size 1) ∧
      ∃ ts, Spells x size start ts ∧ m.Holds (baseOf size) (encode 0 ts))

/-- **A block is decompressed**, by either build, into any memory and with any table, and nothing
behind the data is touched. -/
theorem Packs.qlzDecompress {x m : Mem} {size passes : Nat} (h : Packs x size m) (b : Build)
    (hsize : 0 < size) (hmax : size < 4294967296) (hp : size < passes) (buf : Mem)
    (hash : DecompressTable) :
    ∃ buf' hash', qlzDecompress b passes m buf hash = .ok (size, buf', hash') ∧
      (∀ i < size, buf' i = x i) ∧ ∀ i, size ≤ i → buf' i = buf i := by
  unfold Quicklz.qlzDecompress
  dsimp only
  obtain ⟨r, ⟨hheader, hdata⟩ | ⟨hheader, ts, hs, hts⟩⟩ := h
  · rw [qlzSizeDecompressed_of_header (.inl rfl) hmax hheader,
      compressed_of_header (.inl rfl) hheader, if_neg (by decide),
        qlzSizeHeader_of_header (.inl rfl) hheader]
    refine ⟨_, hash, rfl, ?_, ?_⟩
    · intro i hi
      have hbyte := of_read hdata (j := i) (by rw [length_read]; exact hi)
      rw [getElem_read, Nat.zero_add] at hbyte
      rw [write_in _ (by omega) (by rw [length_read]; omega), getElem_read, Nat.sub_zero, hbyte]
    · intro i hi
      exact write_out _ (.inr (by rw [length_read]; omega))
  · rw [qlzSizeDecompressed_of_header (.inr rfl) hmax hheader,
      compressed_of_header (.inr rfl) hheader, if_pos rfl]
    rw [← qlzSizeHeader_of_header (.inr rfl) hheader] at hts
    exact qlzDecompressCore_spells b hash hs hts hsize hp

theorem Packs.of_holds {x z m : Mem} {size r : Nat} (hlen : baseOf size ≤ r)
    (h : ∃ r', (z.Holds 0 (header (baseOf size) r' size 0) ∧ z.Holds (baseOf size) (x.read 0 size) ∧
        baseOf size + size ≤ r) ∨
      (z.Holds 0 (header (baseOf size) r' size 1) ∧ ∃ ts, Spells x size start ts ∧
        z.Holds (baseOf size) (encode 0 ts) ∧ baseOf size + (encode 0 ts).length ≤ r))
    (hm : m.Holds 0 (z.read 0 r)) : Packs x size m := by
  have hsame : ∀ i < r, m i = z i := by
    intro i hi
    have := of_read hm (j := i) (by rw [length_read]; exact hi)
    rwa [getElem_read, Nat.zero_add] at this
  have hcopy : ∀ {o l}, z.Holds o l → o + l.length ≤ r → m.Holds o l := by
    intro o l hl hle
    exact hl.congr fun i _ hi => hsame i (by omega)
  obtain ⟨r', ⟨h₁, h₂, h₃⟩ | ⟨h₁, ts, hs, h₂, h₃⟩⟩ := h
  · refine ⟨r', .inl ⟨hcopy h₁ ?_, hcopy h₂ ?_⟩⟩
    · rw [length_header]
      omega
    · rw [length_read]
      omega
  · refine ⟨r', .inr ⟨hcopy h₁ ?_, ts, hs, hcopy h₂ h₃⟩⟩
    rw [length_header]
    omega

/-- **`qlz_compress` makes a block** and stays within 400 bytes more than the input. -/
theorem qlzCompress_packs (b : Build) (x buf : Mem) {size : Nat} (hsize : 0 < size)
    (hmax : size ≤ 0xffffffff - 400) (hash : CompressTable) :
    ∃ r z hash', qlzCompress b x buf size hash = .ok (r, z, hash') ∧ r ≤ size + 400 ∧
      (∀ i, size + 400 ≤ i → z i = buf i) ∧ ∀ m : Mem, m.Holds 0 (z.read 0 r) → Packs x size m := by
  have hbase : 3 ≤ baseOf size ∧ baseOf size ≤ 9 := by
    unfold baseOf
    split <;> omega
  have hreset : ∀ h, (resetTableCompress hash h).offset = 0 := fun _ => rfl
  obtain ⟨r, z, hash', hcore, hstores, hrest⟩ :=
    qlzCompressCore_stores b x buf (baseOf size) hsize hreset
  unfold qlzCompress
  rw [if_neg (by omega)]
  dsimp only
  rw [← baseOf, hcore, ok_bind]
  dsimp only
  rcases hstores with rfl | ⟨h9, hle, ts, hs, hts, hlen⟩
  · rw [if_pos (Nat.add_zero _)]
    refine ⟨_, _, _, rfl, by omega, ?_, fun m hm => ?_⟩
    · intro i hi
      rw [writeHeader_out _ _ _ _ _ (by omega), write_out _ (.inr (by rw [length_read]; omega)),
        hrest i (by omega)]
    · refine Packs.of_holds (by omega) ⟨_, .inl ⟨writeHeader_holds b _ _ _ _ _, ?_, by omega⟩⟩ hm
      exact (holds_write z (baseOf size) (x.read 0 size)).congr fun i hi _ =>
        writeHeader_out _ _ _ _ _ hi
  · rw [if_neg (by omega)]
    refine ⟨_, _, _, rfl, by omega, ?_, fun m hm => ?_⟩
    · intro i hi
      rw [writeHeader_out _ _ _ _ _ (by omega), hrest i (by omega)]
    · refine Packs.of_holds (by omega)
        ⟨_, .inr ⟨writeHeader_holds b _ _ _ _ _, ts, hs, ?_, by omega⟩⟩ hm
      exact hts.congr fun i hi _ => writeHeader_out _ _ _ _ _ hi

/-- **The round trip.** Whatever is compressed on one build is decompressed on any other, wherever
the block is read from, into whatever memory and with whatever table is left from earlier calls. -/
theorem qlzDecompress_qlzCompress (b b' : Build) (x buf : Mem) (size : Nat) (hsize : 0 < size)
    (hmax : size ≤ 0xffffffff - 400) (hash : CompressTable) :
    ∃ r z hash', qlzCompress b x buf size hash = .ok (r, z, hash') ∧
      ∀ m : Mem, m.Holds 0 (z.read 0 r) → ∀ out table passes, size < passes →
        ∃ out' table', qlzDecompress b' passes m out table = .ok (size, out', table') ∧
          out'.read 0 size = x.read 0 size ∧ ∀ i, size ≤ i → out' i = out i := by
  obtain ⟨r, z, hash', hz, -, -, hpacks⟩ := qlzCompress_packs b x buf hsize hmax hash
  refine ⟨r, z, hash', hz, fun m hm out table passes hp => ?_⟩
  obtain ⟨out', table', hout, hsame, hrest⟩ :=
    (hpacks m hm).qlzDecompress b' hsize (by omega) hp out table
  refine ⟨out', table', hout, read_congr fun i _ hi => hsame i (by omega), hrest⟩

/-- The round trip of 40 equal bytes, from one build to the other. -/
theorem qlzDecompress_qlzCompress_run :
    ∃ r z hash', qlzCompress .x86 (fun _ => 5) (fun _ => 0) 40 (fun _ => ⟨0, 0⟩) =
      .ok (r, z, hash') ∧ ∀ m : Mem, m.Holds 0 (z.read 0 r) → ∀ out table passes, 40 < passes →
        ∃ out' table', qlzDecompress .portable passes m out table = .ok (40, out', table') ∧
          out'.read 0 40 = Mem.read (fun _ => 5) 0 40 ∧ ∀ i, 40 ≤ i → out' i = out i :=
  qlzDecompress_qlzCompress .x86 .portable _ _ 40 (by decide) (by decide) _

/-! ## The library of the packets -/

/-- `qlz_compress` of the build `b` and `qlz_decompress` of the build `b'`, with the states zeroed.
A block that was not compressed by QuickLZ may have no outcome; it is not told from an empty one. -/
def quicklz (b b' : Build) : Qlz where
  compress l :=
    match qlzCompress b (ofList l) (fun _ => 0) l.length (fun _ => ⟨0, 0⟩) with
    | .ok r => r.2.1.read 0 r.1
    | .error _ => []
  decompress m :=
    match qlzDecompress b' (qlzSizeDecompressed b' m + 1) m (fun _ => 0) (fun _ => none) with
    | .ok r => r.2.1.read 0 r.1
    | .error _ => []

theorem read_ofList (l : List UInt8) : (ofList l).read 0 l.length = l := by
  apply read_eq
  intro j hj
  rw [Nat.zero_add, ofList, List.getD_eq_getElem?_getD, List.getElem?_eq_getElem hj]
  rfl

theorem quicklz_packs (b b' : Build) {l : List UInt8} (hl : l ≠ [])
    (hmax : l.length ≤ 0xffffffff - 400) :
    ((quicklz b b').compress l).length ≤ l.length + 400 ∧
      ∀ m : Mem, m.Holds 0 ((quicklz b b').compress l) → Packs (ofList l) l.length m := by
  obtain ⟨r, z, hash', hz, hr, -, hpacks⟩ := qlzCompress_packs b (ofList l) (fun _ => 0)
    (List.length_pos_iff.2 hl) hmax fun _ => ⟨0, 0⟩
  have hcompress : (quicklz b b').compress l = z.read 0 r := by
    unfold quicklz
    dsimp only
    rw [hz]
  rw [hcompress, length_read]
  exact ⟨hr, hpacks⟩

/-- **QuickLZ is what the rewriting of packets assumes**: on every pair of builds it gives the data
back, and it never makes them more than 400 bytes longer. -/
theorem quicklz_inverts (b b' : Build) : (quicklz b b').Inverts ∧ (quicklz b b').Bounded := by
  refine ⟨⟨?_, ?_⟩, ?_⟩
  · intro l hl hlen m hm
    have hpacks := (quicklz_packs b b' hl (by omega)).2 m hm
    have hsize : qlzSizeDecompressed b' m = l.length := by
      obtain ⟨r, h | h⟩ := hpacks
      · exact qlzSizeDecompressed_of_header (.inl rfl) (by omega) h.1
      · exact qlzSizeDecompressed_of_header (.inr rfl) (by omega) h.1
    obtain ⟨out, table, hout, hsame, -⟩ :=
      hpacks.qlzDecompress b' (List.length_pos_iff.2 hl) (by omega)
      (Nat.lt_succ_self _) (fun _ => 0) fun _ => none
    have hdecompress : (quicklz b b').decompress m = out.read 0 l.length := by
      unfold quicklz
      dsimp only
      rw [hsize, hout]
    have hread : out.read 0 l.length = (ofList l).read 0 l.length :=
      read_congr fun i _ hi => hsame i (by omega)
    rw [hdecompress, hread, read_ofList]
  · intro l hl hlen
    exact (quicklz_packs b b' hl (by omega)).1
  · intro l
    by_cases hl : l ≠ [] ∧ l.length ≤ 0xffffffff - 400
    · exact (quicklz_packs b b' hl.1 hl.2).1
    · have hzero : l.length = 0 ∨ l.length > 0xffffffff - 400 := by
        by_cases h0 : l = []
        · exact .inl (by rw [h0]; rfl)
        · exact .inr (Nat.lt_of_not_le fun h => hl ⟨h0, h⟩)
      have hnil : (quicklz b b').compress l = [] := by
        unfold quicklz qlzCompress
        dsimp only
        rw [if_pos hzero]
        rfl
      rw [hnil]
      exact Nat.zero_le _

end Quicklz

def evenSegment : Mem :=
  Mem.ofList ([0x45, 0, 0, 100, 0, 0, 0, 0, 64, 6, 0, 0, 10, 0, 0, 1, 10, 0, 0, 2,
    0x30, 0x39, 0, 80, 0, 0, 0, 1, 0, 0, 0, 0, 0x50, 16, 0xff, 0xff, 0, 0, 0, 0] ++
      List.replicate 60 7)

theorem wellFormed_evenSegment : WellFormed evenSegment [] := by decide

/-- QuickLZ makes 18 bytes of them. -/
theorem compress_evenSegment :
    ((Quicklz.quicklz .x86 .x86).compress evenSegment.payload).length = 18 := by
  decide +kernel

theorem tcpDecompress_tcpCompress_evenSegment : ∃ p₁ v p₂,
    tcpCompress (Quicklz.quicklz .x86 .x86) true true true evenSegment = .ok (p₁, 1) ∧
      getTcpOption p₁ compressed = .ok v ∧ v ≠ 0 ∧
      tcpDecompress (Quicklz.quicklz .x86 .x86) true true p₁ = .ok (p₂, 1) ∧
      Restored evenSegment p₂ [] := by
  have hwf := wellFormed_evenSegment
  refine tcpDecompress_tcpCompress _ (Quicklz.quicklz_inverts .x86 .x86).1 evenSegment [] hwf rfl
    (by decide) (by decide) (by simp) true true true (by decide +kernel)
    ((flag_returns_zero_iff (hwf.shows _ rfl) (by decide) ?_).2 (.inr (by decide)))
  decide +kernel

end Opennop
