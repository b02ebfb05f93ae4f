import Opennop.Quicklz.Blocks

/-!
# A block depends on its payload only

Two runs of `qlz_compress` are followed side by side: on different builds, with sources that agree
on the payload and differ behind it, into different buffers and with different tables left from
earlier calls. Both write the same tokens, since what a pass chooses depends on the bytes of the
payload and on the places in the table alone. `Twins` is the invariant of the two first loops.

Blocks of less than five bytes are padded to nine with whatever the destination holds.
-/

namespace Opennop

namespace Quicklz

open Mem Spelling

/-! ## What is read of the source -/

section Reading

variable {x x' : Mem} {size o old : Nat}

theorem same_congr {k : Nat} :
    ∀ {n : Nat}, (∀ i ≤ n, x (k + i) = x' (k + i)) → same x k n = same x' k n := by
  intro n
  induction n with
  | zero =>
    intro _
    rfl
  | succ n ih =>
    intro h
    have h0 := h 0 (by omega)
    rw [Nat.add_zero] at h0
    rw [same, same, h (n + 1) (by omega), h0, ih fun i hi => h i (by omega)]

/-- The loop over a match looks at no byte behind the longest match. -/
theorem extend_congr (hx : ∀ i < size, x i = x' i) (ho : o ≤ old) {remaining : Nat}
    (hrem : old + remaining < size) :
    ∀ {n src : Nat}, old ≤ src → src ≤ old + remaining →
      extend x o old remaining n src = extend x' o old remaining n src := by
  intro n
  induction n with
  | zero =>
    intro src _ _
    rfl
  | succ n ih =>
    intro src hold hsrc
    rw [extend, extend, hx (o + (src - old)) (by omega), hx src (by omega)]
    by_cases h : x' (o + (src - old)) = x' src ∧ src - old < remaining
    · rw [if_pos h, if_pos h]
      exact ih (by omega) (by omega)
    · rw [if_neg h, if_neg h]

theorem matchEnd_congr (hx : ∀ i < size, x i = x' i) (ho : o ≤ old) (hold : old + 11 ≤ size) :
    matchEnd x size o old = matchEnd x' size o old := by
  unfold matchEnd lastByte uncompressedEnd
  dsimp only
  rw [hx (o + (old + 4 - old)) (by omega), hx (old + 4) (by omega),
    hx (o + (old + 4 + 1 - old)) (by omega), hx (old + 4 + 1) (by omega)]
  generalize hq : ((size : Int) - 1 - (4 : Nat) - ((old + 4 + 1 : Nat) - 5) + 1) = q
  have hrem : 6 ≤ (if q > 255 then 255 else q.toNat) ∧
      old + (if q > 255 then 255 else q.toNat) < size := by
    split <;> omega
  rw [extend_congr hx ho hrem.2 (by omega) (by omega)]

theorem foundLen_congr (hx : ∀ i < size, x i = x' i) (ho : o ≤ old) (hold : old + 11 ≤ size) :
    foundLen x size o old = foundLen x' size o old := by
  unfold foundLen
  rw [hx (o + 3) (by omega), hx (old + 3) (by omega), matchEnd_congr hx ho hold]

theorem keyAt_of_agree (hx : ∀ i < size, x i = x' i) {k : Nat} (hk : k + 3 ≤ size) :
    keyAt x k = keyAt x' k :=
  keyAt_congr fun i hi => hx (k + i) (by omega)

end Reading

/-! ## The first loops -/

theorem Searches.offset_lt {b : Build} {x : Mem} {size : Nat} {σ : Spelling} {s : Compressing}
    (h : Searches b x size σ s) {k : Nat} (hk : (s.hash k).offset ≠ 0) :
    (s.hash k).offset < σ.pos := by
  have hlatest : Latest (keyAt x) σ.starts (σ.pos - 1) k (s.hash k).offset := by
    apply h.table
    rw [places, if_neg hk]
  exact σ.below _ hlatest.mem

/-- Two first loops, between two passes. -/
structure Twins (b b' : Build) (x x' buf₀ buf₀' : Mem) (size destination : Nat)
    (full cur : List Token) (σ : Spelling) (s s' : Compressing) : Prop where
  left : Running b x buf₀ size destination full cur σ s
  right : Running b' x' buf₀' size destination full cur σ s'
  offset : ∀ k, (s.hash k).offset = (s'.hash k).offset

section Loops

variable {b b' : Build} {x x' buf₀ buf₀' : Mem} {size destination : Nat} {full cur : List Token}
  {σ : Spelling} {s s' : Compressing}

theorem Encodes.dst_eq (h : Encodes x buf₀ size destination full cur σ s)
    (h' : Encodes x' buf₀' size destination full cur σ s') : s.dst = s'.dst := by
  rw [h.dst, h'.dst, h.ptr, h'.ptr]

theorem Encodes.ratioTooLow_eq (h : Encodes x buf₀ size destination full cur σ s)
    (h' : Encodes x' buf₀' size destination full cur σ s') :
    s.ratioTooLow size destination = s'.ratioTooLow size destination := by
  unfold Compressing.ratioTooLow
  rw [h.src, h'.src, h.dst_eq h']

theorem Twins.found_iff (h : Twins b b' x x' buf₀ buf₀' size destination full cur σ s s')
    (hx : ∀ i < size, x i = x' i) (hfar : σ.pos + 11 ≤ size) : Found x σ s ↔ Found x' σ s' := by
  have hlits : s.lits = s'.lits := by
    have := h.left.search.lits
    have := h.right.search.lits
    omega
  have hkey : keyAt x σ.pos = keyAt x' σ.pos := keyAt_of_agree hx (by omega)
  have hpos : x.le24 σ.pos = x'.le24 σ.pos := le24_congr fun i hi => hx _ (by omega)
  unfold Found
  rw [hkey, h.offset, hpos, hlits]
  apply and_congr_right
  intro h0
  have hlt := h.right.search.offset_lt h0
  rw [show x.le24 (s'.hash (keyAt x' σ.pos)).offset = x'.le24 (s'.hash (keyAt x' σ.pos)).offset from
    le24_congr fun i hi => hx _ (by omega)]
  apply and_congr_right
  intro _
  apply or_congr_right
  apply and_congr_right
  intro _
  apply and_congr_right
  intro _
  apply and_congr_right
  intro h3
  rw [same_congr fun i hi => hx _ (by omega)]

/-- **Both choose the same token.** -/
theorem Twins.token_eq (h : Twins b b' x x' buf₀ buf₀' size destination full cur σ s s')
    (hx : ∀ i < size, x i = x' i) (hfar : σ.pos + 11 ≤ size) {t t' : Token}
    (ht : Chooses x size σ s t)
    (ht' : Chooses x' size σ s' t') : t = t' := by
  have hiff := h.found_iff hx hfar
  have hkey : keyAt x σ.pos = keyAt x' σ.pos := keyAt_of_agree hx (by omega)
  cases t with
  | lit c =>
    cases t' with
    | lit c' => rw [ht.2, ht'.2, hx σ.pos (by omega)]
    | copy t' => exact absurd (hiff.2 ht'.1) ht.1
  | copy t =>
    cases t' with
    | lit c' => exact absurd (hiff.1 ht.1) ht'.1
    | copy t' =>
      obtain ⟨hash, len, _, _, _⟩ := t
      obtain ⟨hash', len', _, _, _⟩ := t'
      obtain ⟨hfound, hhash, hlen⟩ := ht'
      obtain ⟨-, hhash₁, hlen₁⟩ := ht
      dsimp only at hhash hhash₁ hlen hlen₁
      have hlt := h.right.search.offset_lt hfound.1
      rw [hkey, h.offset, foundLen_congr hx (by omega) hfar, ← hlen] at hlen₁
      rw [hkey, ← hhash] at hhash₁
      subst hhash₁ hlen₁
      rfl

theorem offset_entered (h : ∀ k, (s.hash k).offset = (s'.hash k).offset)
    (hkey : keyAt x σ.pos = keyAt x' σ.pos) (k : Nat) :
    (entered b x σ s k).offset = (entered b' x' σ s' k).offset := by
  unfold entered
  rw [hkey]
  by_cases hk : k = keyAt x' σ.pos
  · rw [hk, Function.update_self, Function.update_self]
  · rw [Function.update_of_ne hk, Function.update_of_ne hk]
    exact h k

def LeftAlike (x x' buf₀ buf₀' : Mem) (size destination : Nat) (r r' : Compressing × Bool) : Prop :=
  r.2 = r'.2 ∧ (r.2 = true → ∃ full cur σ, Finishing x buf₀ size destination full cur σ r.1 ∧
    Finishing x' buf₀' size destination full cur σ r'.1 ∧ (cur = [] → full = []))

theorem Twins.pass (h : Twins b b' x x' buf₀ buf₀' size destination full cur σ s s')
    (hx : ∀ i < size, x i = x' i) (hne : cur = [] → full = []) :
    (∃ t t', Compressing.pass b x size destination s = .ok (.again t) ∧
      Compressing.pass b' x' size destination s' = .ok (.again t') ∧
      (∃ full cur σ, Twins b b' x x' buf₀ buf₀' size destination full cur σ t t' ∧
        (cur = [] → full = [])) ∧
      size - t.src < size - s.src) ∨
    ∃ r r', Compressing.pass b x size destination s = .ok (.done r) ∧
      Compressing.pass b' x' size destination s' = .ok (.done r') ∧
      LeftAlike x x' buf₀ buf₀' size destination r r' := by
  have hratio := h.left.out.ratioTooLow_eq h.right.out
  by_cases hfar : (σ.pos : Int) ≤ lastMatchstart size
  · by_cases hlow : cur.length = 31 ∧ s.ratioTooLow size destination = true
    · right
      exact ⟨(s, false), (s', false), h.left.pass_low hfar hlow.1 hlow.2,
        h.right.pass_low hfar hlow.1 (hratio ▸ hlow.2), rfl, fun hgo =>
          absurd hgo Bool.false_ne_true⟩
    · left
      have hhigh : cur.length = 31 → s.ratioTooLow size destination = false :=
        fun hfull => eq_false_of_ne_true fun hlow' => hlow ⟨hfull, hlow'⟩
      have hpos : σ.pos + 11 ≤ size := by
        unfold lastMatchstart lastByte unconditionalMatchlen uncompressedEnd at hfar
        omega
      obtain ⟨t, s₁, hpass, hchosen, hhash, h₁, hlt⟩ := h.left.pass_token hfar hhigh
      obtain ⟨t', s₁', hpass', hchosen', hhash', h₁', -⟩ := h.right.pass_token hfar (hratio ▸ hhigh)
      obtain rfl := h.token_eq hx hpos hchosen hchosen'
      refine ⟨s₁, s₁', hpass, hpass',
        ⟨_, _, _, ⟨h₁, h₁', ?_⟩, fun hnil => absurd hnil (curAfter_ne_nil cur t)⟩, hlt⟩
      rw [hhash, hhash']
      exact offset_entered h.offset (keyAt_of_agree hx (by omega))
  · right
    refine ⟨(s, true), (s', true), h.left.pass_far hfar, h.right.pass_far hfar, rfl, fun _ => ?_⟩
    exact ⟨full, cur, σ, h.left.out.finishing h.left.pos_le (by omega) h.left.ptr_le,
      h.right.out.finishing h.right.pos_le (by omega) h.right.ptr_le, hne⟩

/-! ## The second loops -/

def FinishedAlike (x x' buf₀ buf₀' : Mem) (size destination : Nat) (s s' : Compressing) : Prop :=
  ∃ full cur σ, Finishing x buf₀ size destination full cur σ s ∧
    Finishing x' buf₀' size destination full cur σ s' ∧ σ.pos = size ∧ (cur = [] → full = [])

theorem finishing_together (b b' : Build) (hx : ∀ i < size, x i = x' i)
    (h : Finishing x buf₀ size destination full cur σ s)
    (h' : Finishing x' buf₀' size destination full cur σ s') (hne : cur = [] → full = []) :
    ∃ t t', loop (Compressing.tailPass b x size) (size + 1) s = .ok t ∧
      loop (Compressing.tailPass b' x' size) (size + 1) s' = .ok t' ∧
      FinishedAlike x x' buf₀ buf₀' size destination t t' := by
  apply loop_together (I := fun s s' => ∃ full cur σ,
    Finishing x buf₀ size destination full cur σ s ∧
    Finishing x' buf₀' size destination full cur σ s' ∧ (cur = [] → full = []))
      (fun s => size - s.src) _
    ⟨full, cur, σ, h, h', hne⟩ (by omega)
  rintro s s' ⟨full, cur, σ, h, h', hne⟩
  have hsrc := h.out.src
  by_cases hpos : σ.pos < size
  · left
    obtain ⟨t, hpass, ht⟩ := h.tailPass (b := b) hpos
    obtain ⟨t', hpass', ht'⟩ := h'.tailPass (b := b') hpos
    rw [← hx σ.pos hpos] at ht'
    refine ⟨t, t', hpass, hpass',
      ⟨_, _, _, ht, ht', fun hnil => absurd hnil (curAfter_ne_nil cur _)⟩, ?_⟩
    have hsrc' := ht.out.src
    change t.src = σ.pos + 1 at hsrc'
    omega
  · right
    exact ⟨s, s', h.tailPass_end hpos, h'.tailPass_end hpos, full, cur, σ, h, h',
      Nat.le_antisymm h.pos_le (by omega), hne⟩

end Loops

/-! ## The length of a block -/

theorem length_flatMap_le_encode : ∀ (ts : List Token) (k : Nat),
    (ts.flatMap Token.bytes).length ≤ (encode k ts).length := by
  intro ts
  induction ts with
  | nil => exact fun k => Nat.zero_le _
  | cons t ts ih =>
    have hsucc : ∀ k, ((t :: ts).flatMap Token.bytes).length ≤
        (encode (k + 1) (t :: ts)).length := by
      intro k
      have := ih k
      rw [encode_succ_cons, List.flatMap_cons, List.length_append, List.length_append]
      omega
    intro k
    cases k with
    | zero =>
      rw [encode_zero_cons, List.length_append]
      exact (hsucc 30).trans (Nat.le_add_left _ _)
    | succ k => exact hsucc k

/-- The last four bytes are literals. -/
theorem Spelling.Spells.length_ge {x : Mem} {size : Nat} :
    ∀ {ts : List Token} {σ : Spelling}, Spells x size σ ts →
    min 4 (size - σ.pos) ≤ (ts.flatMap Token.bytes).length := by
  intro ts
  induction ts with
  | nil =>
    intro σ h
    have hend := h.ends
    change σ.pos = size at hend
    omega
  | cons t ts ih =>
    intro σ h
    obtain ⟨ht, hts⟩ := spells_cons.1 h
    have hrest := ih hts
    rw [pos_next] at hrest
    rw [List.flatMap_cons, List.length_append]
    cases t with
    | lit c =>
      change min 4 (size - (σ.pos + 1)) ≤ _ at hrest
      change _ ≤ 1 + _
      omega
    | copy t =>
      have hfits := ht.2.1
      unfold uncompressedEnd at hfits
      change min 4 (size - (σ.pos + t.len)) ≤ _ at hrest
      omega

/-- The first byte is a literal as well, and the tokens stand behind a control word. -/
theorem Spelling.Spells.nine_le {x : Mem} {size : Nat} {ts : List Token}
    (h : Spells x size start ts) (hsize : 5 ≤ size) : 9 ≤ (encode 0 ts).length := by
  cases ts with
  | nil =>
    have hend := h.ends
    change 0 = size at hend
    omega
  | cons t ts =>
    obtain ⟨ht, hts⟩ := spells_cons.1 h
    cases t with
    | copy t =>
      obtain ⟨-, -, -, o, hlatest, -⟩ := ht
      exact absurd hlatest.mem (Set.notMem_empty o)
    | lit c =>
      have hge := hts.length_ge
      have hle := length_flatMap_le_encode (.lit c :: ts) 31
      change min 4 (size - (0 + 1)) ≤ _ at hge
      rw [List.flatMap_cons, List.length_append] at hle
      change 1 + _ ≤ _ at hle
      rw [encode_zero_cons, List.length_append, length_leBytes]
      omega

/-! ## The blocks -/

section Blocks

variable {x x' : Mem} {size : Nat}

theorem qlzCompressCore_alike (b b' : Build) (buf buf' : Mem) (destination : Nat)
    (hx : ∀ i < size, x i = x' i) (hsize : 5 ≤ size) (hash hash' : CompressTable)
    (hhash : ∀ k, (hash k).offset = 0) (hhash' : ∀ k, (hash' k).offset = 0) :
    ∃ r z z' table table', qlzCompressCore b x buf destination size hash = .ok (r, z, table) ∧
      qlzCompressCore b' x' buf' destination size hash' = .ok (r, z', table') ∧
      z.read destination r = z'.read destination r := by
  have hstart := running_start b x buf size destination hhash
  have hstart' := running_start b' x' buf' size destination hhash'
  obtain ⟨⟨s, go⟩, ⟨s', go'⟩, hloop, hloop', hgo, hleft⟩ := loop_together
    (I := fun s s' => ∃ full cur σ, Twins b b' x x' buf buf' size destination full cur σ s s' ∧
      (cur = [] → full = []))
    (fun s => size - s.src) (fun s s' ⟨full, cur, σ, h, hne⟩ => h.pass hx hne)
    ⟨[], [], start, ⟨hstart, hstart', fun k => (hhash k).trans (hhash' k).symm⟩, fun _ => rfl⟩
    (show size - 0 < size + 1 by omega)
  obtain rfl : go = go' := hgo
  unfold qlzCompressCore
  dsimp only
  rw [hloop, hloop', ok_bind, ok_bind]
  cases go with
  | false => exact ⟨0, s.buf, s'.buf, s.hash, s'.hash, rfl, rfl, rfl⟩
  | true =>
    obtain ⟨full, cur, σ, h, h', hne⟩ := hleft rfl
    obtain ⟨t, t', htail, htail', full, cur, σ, ht, ht', hend, hne⟩ :=
      finishing_together b b' hx h h' hne
    obtain ⟨hstored, hlen⟩ := ht.close (b := b) hend hne (by omega)
    obtain ⟨hstored', hlen'⟩ := ht'.close (b := b') hend hne (by omega)
    have hspells : Spells x size start (full ++ cur) := ⟨ht.out.along, by rw [ht.out.reach, hend]⟩
    have hnine := hspells.nine_le hsize
    dsimp only at htail htail'
    rw [if_pos rfl, if_pos rfl, htail, htail', ok_bind, ok_bind, if_neg (by omega),
      if_neg (by omega), ht'.out.dst_eq ht.out]
    refine ⟨_, _, _, _, _, rfl, rfl, ?_⟩
    rw [show t.dst - destination = (encode 0 (full ++ cur)).length by omega]
    exact hstored.trans hstored'.symm

theorem writeHeader_alike (b b' : Build) {z z' : Mem} {c : UInt8} {l : Nat}
    (h : z.read (baseOf size) l = z'.read (baseOf size) l) :
    (writeHeader b z (baseOf size) (baseOf size + l) size c).read 0 (baseOf size + l) =
      (writeHeader b' z' (baseOf size) (baseOf size + l) size c).read 0 (baseOf size + l) := by
  have hheader := writeHeader_holds b z (baseOf size) (baseOf size + l) size c
  have hheader' := writeHeader_holds b' z' (baseOf size) (baseOf size + l) size c
  unfold Holds at hheader hheader'
  rw [length_header] at hheader hheader'
  rw [read_add, read_add, hheader, hheader', Nat.zero_add]
  congr 1
  rw [read_congr fun i hi _ => writeHeader_out b z (baseOf size + l) size c hi,
    read_congr fun i hi _ => writeHeader_out b' z' (baseOf size + l) size c hi, h]

theorem qlzCompress_alike (b b' : Build) (hx : ∀ i < size, x i = x' i) (hsize : 5 ≤ size)
    (hmax : size ≤ 0xffffffff - 400) (buf buf' : Mem) (hash hash' : CompressTable) :
    ∃ r z z' table table', qlzCompress b x buf size hash = .ok (r, z, table) ∧
      qlzCompress b' x' buf' size hash' = .ok (r, z', table') ∧ z.read 0 r = z'.read 0 r := by
  obtain ⟨r, z, z', table, table', hcore, hcore', hsame⟩ :=
    qlzCompressCore_alike b b' buf buf' (baseOf size)
    hx hsize (resetTableCompress hash) (resetTableCompress hash') (fun _ => rfl) fun _ => rfl
  have hread : x.read 0 size = x'.read 0 size := read_congr fun i _ hi => hx i (by omega)
  have hvalid : ¬ (size = 0 ∨ size > 0xffffffff - 400) := by omega
  unfold qlzCompress
  rw [if_neg hvalid, if_neg hvalid]
  dsimp only
  rw [← baseOf, hcore, hcore', ok_bind, ok_bind]
  dsimp only
  by_cases h0 : r = 0
  · rw [if_pos (by omega), if_pos (by omega), hread, Nat.add_comm size]
    refine ⟨_, _, _, _, _, rfl, rfl, writeHeader_alike b b' ?_⟩
    have hstored := read_write z (baseOf size) (x'.read 0 size)
    have hstored' := read_write z' (baseOf size) (x'.read 0 size)
    rw [length_read] at hstored hstored'
    exact hstored.trans hstored'.symm
  · rw [if_neg (by omega), if_neg (by omega)]
    exact ⟨_, _, _, _, _, rfl, rfl, writeHeader_alike b b' hsame⟩

/-- **The block is a function of the payload**: nothing behind it is read, and neither the build nor
the buffer and the table that earlier calls have left make a difference. Nothing is written behind
the 400 bytes more that the destination has to have. -/
theorem qlzCompress_payload (b b' : Build) (hx : ∀ i < size, x i = x' i) (hsize : 5 ≤ size)
    (hmax : size ≤ 0xffffffff - 400) (buf buf' : Mem) (hash hash' : CompressTable) :
    ∃ r z z' table table', qlzCompress b x buf size hash = .ok (r, z, table) ∧
      qlzCompress b' x' buf' size hash' = .ok (r, z', table') ∧ z.read 0 r = z'.read 0 r ∧
      r ≤ size + 400 ∧ ∀ i, size + 400 ≤ i → z i = buf i ∧ z' i = buf' i := by
  obtain ⟨r, z, z', table, table', hz, hz', hsame⟩ :=
    qlzCompress_alike b b' hx hsize hmax buf buf' hash hash'
  obtain ⟨r₁, z₁, table₁, hz₁, hle, hrest, -⟩ := qlzCompress_packs b x buf (by omega) hmax hash
  obtain ⟨r₂, z₂, table₂, hz₂, -, hrest', -⟩ := qlzCompress_packs b' x' buf' (by omega) hmax hash'
  cases hz.symm.trans hz₁
  cases hz'.symm.trans hz₂
  exact ⟨r, z, z', table, table', hz, hz', hsame, hle, fun i hi => ⟨hrest i hi, hrest' i hi⟩⟩

/-- 40 equal bytes, with other bytes behind them. -/
theorem qlzCompress_payload_run :
    ∃ r z z' table table',
      qlzCompress .x86 (fun _ => 5) (fun _ => 0) 40 (fun _ => ⟨0, 0⟩) = .ok (r, z, table) ∧
      qlzCompress .portable (fun i => if i < 40 then 5 else 9) (fun _ => 1) 40 (fun _ => ⟨7, 3⟩) =
        .ok (r, z', table') ∧ z.read 0 r = z'.read 0 r ∧
      r ≤ 440 ∧ ∀ i, 440 ≤ i → z i = 0 ∧ z' i = 1 :=
  qlzCompress_payload .x86 .portable (fun _ hi => (if_pos hi).symm) (by decide) (by decide) _ _ _ _

end Blocks

end Quicklz

end Opennop
