import Opennop.Quicklz.Tokens

/-!
# The decompressor reads the tokens back

The loop of `qlz_decompress_core` is followed over the tokens that are left. Between two passes the
destination agrees with the input up to the position, the control word holds the flags of the rest
of the group, and the table finds the last place up to `Spelling.hashed`.
-/

namespace Opennop

namespace Quicklz

open Mem Spelling

/-! ## Bits of a token -/

theorem value_cases (t : Match) :
    (t.len < 18 ∧ t.width = 2 ∧ t.value = t.len - 2 + 16 * t.hash) ∨
      (18 ≤ t.len ∧ t.width = 3 ∧ t.value = 16 * t.hash + 65536 * t.len) := by
  have hlt := t.hash_lt
  have h3 := t.three_le
  unfold hashValues at hlt
  unfold Match.width Match.value
  by_cases h : t.len < 18
  · left
    rw [if_pos h, if_pos h,
      or_shiftLeft t.hash (show t.len - 2 < 1 <<< 4 by rw [Nat.shiftLeft_eq]; omega),
      Nat.shiftLeft_eq]
    exact ⟨h, rfl, by omega⟩
  · right
    have hsmall : t.hash <<< 4 < 1 <<< 16 := by
      rw [Nat.shiftLeft_eq, Nat.shiftLeft_eq]
      omega
    rw [if_neg h, if_neg h, Nat.or_comm, or_shiftLeft t.len hsmall, Nat.shiftLeft_eq,
      Nat.shiftLeft_eq]
    exact ⟨by omega, rfl, by omega⟩

theorem matchlen_copy {m : Mem} {src : Nat} {t : Match} (h : m.Holds src (Token.copy t).bytes) :
    Decompressing.matchlen m src (m.le32 src) = (t.len, t.width) ∧
      (m.le32 src >>> 4) &&& 0xfff = t.hash := by
  have hlt := t.hash_lt
  have h3 := t.three_le
  have h255 := t.len_le
  unfold hashValues at hlt
  have hlow : m.le32 src % 16777216 = m.le24 src := le32_mod m src
  rw [Token.bytes] at h
  unfold Decompressing.matchlen
  rw [and_fifteen, and_twelve_bits, Nat.shiftRight_eq_div_pow]
  rcases value_cases t with ⟨hlen, hwidth, hvalue⟩ | ⟨hlen, hwidth, hvalue⟩
  · rw [hwidth, hvalue] at h
    have h16 : m.le24 src % 65536 = t.len - 2 + 16 * t.hash := by
      have := le16_of_leBytes h
      unfold le24
      omega
    have hnib : m.le32 src % 16 = t.len - 2 := by omega
    rw [if_pos (by omega), hnib, show t.len - 2 + 2 = t.len by omega, hwidth]
    exact ⟨rfl, by omega⟩
  · rw [hwidth, hvalue] at h
    have h24 : m.le24 src = 16 * t.hash + 65536 * t.len := by
      rw [le24_of_leBytes h]
      omega
    have hbyte : (m (src + 2)).toNat = t.len := by
      have := le16_lt m src
      unfold le24 at h24
      omega
    rw [if_neg (by omega), hbyte, hwidth]
    exact ⟨rfl, by omega⟩

/-! ## The table -/

theorem updateHashSteps_entered {b : Build} {buf x : Mem} {S : Set Nat} {n : Nat} {l top : Int}
    {hash : DecompressTable} (hl : -1 ≤ l) (h : Entered (keyAt x) S l hash)
    (hn : n ≠ 0 → l + n ≤ top)
    (hS : ∀ r : Nat, l < r → (r : Int) ≤ top → r ∈ S)
    (hbuf : ∀ i : Nat, (i : Int) < top + 3 → buf i = x i) :
    (updateHashSteps b buf n l hash).1 = l + n ∧
      Entered (keyAt x) S (l + n) (updateHashSteps b buf n l hash).2 := by
  induction n generalizing l hash with
  | zero =>
    rw [updateHashSteps, Int.natCast_zero, Int.add_zero]
    exact ⟨rfl, h⟩
  | succ n ih =>
    have htop := hn (Nat.succ_ne_zero n)
    have hplace : ((l + 1).toNat : Int) = l + 1 := by omega
    have hkey : hashat b buf (l + 1).toNat = keyAt x (l + 1).toNat := by
      rw [hashat_eq]
      apply keyAt_congr
      intro i hi
      exact hbuf _ (by omega)
    rw [updateHashSteps, updateHash, hkey, show l + ((n + 1 : Nat) : Int) = l + 1 + n by omega]
    apply ih (by omega) (h.enter (hS _ (by omega) (by omega)) hplace) (by omega)
    intro r hr hrn
    exact hS r (by omega) hrn

theorem updateHashUpto_entered {b : Build} {buf x : Mem} {S : Set Nat} {l top : Int}
    {hash : DecompressTable} (hl : -1 ≤ l) (h : Entered (keyAt x) S l hash)
    (hS : ∀ r : Nat, l < r → (r : Int) ≤ top → r ∈ S)
    (hbuf : ∀ i : Nat, (i : Int) < top + 3 → buf i = x i) :
    (updateHashUpto b buf hash l top).1 = max l top ∧
      Entered (keyAt x) S (max l top) (updateHashUpto b buf hash l top).2 := by
  rw [← show l + ((top - l).toNat : Int) = max l top by omega]
  exact updateHashSteps_entered hl h (by omega) hS hbuf

/-! ## Between two passes -/

/-- The decompressor has spelled the input up to `σ`; the tokens `ts` are left, `k` of them at most
in the open group. -/
structure Decodes (x m buf₀ : Mem) (size k : Nat) (ts : List Token) (σ : Spelling)
    (s : Decompressing) :
    Prop where
  spells : Spells x size σ ts
  stream : m.Holds s.src (encode k ts)
  word : s.cwordVal = flagWord k (ts.map Token.isCopy)
  dst : s.dst = σ.pos
  agrees : ∀ i < σ.pos, s.buf i = x i
  rest : ∀ i, size ≤ i → s.buf i = buf₀ i
  hashed : s.lastHashed = σ.hashed
  table : Entered (keyAt x) σ.starts σ.hashed s.hash

section Passes

variable {b : Build} {x m buf₀ : Mem} {size k : Nat} {ts : List Token} {σ : Spelling}
  {s : Decompressing}

theorem hashed_ge (σ : Spelling) : -1 ≤ σ.hashed := by
  unfold Spelling.hashed
  omega

theorem hashed_matched (σ : Spelling) (t : Match) :
    (σ.matched t).hashed = ((σ.pos + t.len : Nat) : Int) - 1 := by
  unfold Spelling.hashed matched
  dsimp only
  omega

theorem Decodes.reload (h : Decodes x m buf₀ size k ts σ s) (hpos : σ.pos < size) :
    ∃ k', Decodes x m buf₀ size (k' + 1) ts σ (s.reload b m) := by
  unfold Decompressing.reload
  obtain ⟨t, ts, rfl⟩ := List.exists_cons_of_ne_nil (h.spells.ne_nil hpos)
  cases k with
  | zero =>
    have hstream := h.stream
    rw [encode_zero_cons] at hstream
    obtain ⟨hword, hrest⟩ := holds_append.1 hstream
    rw [length_leBytes] at hrest
    have hlt := flagWord_lt 31 ((t :: ts).map Token.isCopy)
    refine ⟨30, ?_⟩
    rw [if_pos (by rw [h.word]; rfl)]
    refine { h with stream := hrest, word := ?_ }
    rw [show fastRead b m s.src cwordLen = m.le32 s.src from fastRead_four b m s.src,
      le32_of_leBytes hword]
    apply Nat.mod_eq_of_lt
    rw [Nat.shiftLeft_eq] at hlt
    omega
  | succ k =>
    refine ⟨k, ?_⟩
    rw [if_neg (by rw [h.word, flagWord_eq_one]; omega)]
    exact h

theorem Decodes.copy {t : Match} (h : Decodes x m buf₀ size (k + 1) (.copy t :: ts) σ s) :
    ∃ s', s.copy b m = .ok s' ∧ Decodes x m buf₀ size k ts (σ.matched t) s' := by
  obtain ⟨⟨-, hfits, -, o, hlatest, ho, hsame⟩, hspells⟩ := spells_cons.1 h.spells
  have hstream := h.stream
  rw [encode_succ_cons] at hstream
  obtain ⟨htoken, hrest⟩ := holds_append.1 hstream
  obtain ⟨hlen, hhash⟩ := matchlen_copy htoken
  rw [Token.length_bytes_copy] at hrest
  have hthree := t.three_le
  unfold uncompressedEnd at hfits
  obtain ⟨buf', hcopy, hagrees, hout⟩ := memcpyUp_agrees b (m := s.buf) (n := t.len) (by omega) ho
    h.agrees hsame
  have hold : Entered (keyAt x) (insert σ.pos σ.starts) σ.hashed s.hash := by
    apply h.table.congr
    intro r hr
    have := σ.hashed_lt
    rw [Set.mem_insert_iff]
    exact or_iff_right (by omega)
  have hstart : ∀ r : Nat, σ.hashed < r → (r : Int) ≤ σ.pos → r ∈ insert σ.pos σ.starts := by
    intro r hr hrp
    apply recent_insert (n := σ.pos + 1) (Nat.le_refl _) r _ (by omega)
    unfold Spelling.hashed at hr
    omega
  have hmax : max σ.hashed (σ.pos : Int) = σ.pos := by
    have := σ.hashed_lt
    omega
  obtain ⟨-, htable⟩ := updateHashUpto_entered (b := b) (hashed_ge σ) hold hstart
    fun i hi => hagrees i (by omega)
  rw [hmax] at htable
  have hback : ((σ.pos + t.len : Nat) : Int) - (t.len : Int) = σ.pos := by omega
  refine ⟨⟨s.src + t.width, σ.pos + t.len, s.cwordVal >>> 1, ((σ.pos + t.len : Nat) : Int) - 1,
    buf', (updateHashUpto b buf' s.hash σ.hashed σ.pos).2⟩, ?_, ?_⟩
  · unfold Decompressing.copy
    dsimp only
    rw [fastRead_four, hhash, hlen, h.table _ _ hlatest, h.dst, hcopy, ok_bind, h.hashed, hback]
    rfl
  · refine ⟨hspells, hrest, ?_, rfl, hagrees, ?_, ?_, ?_⟩
    · rw [h.word, Nat.shiftRight_eq_div_pow]
      simp only [List.map_cons, Token.isCopy_copy, flagWord, Bool.toNat_true]
      omega
    · intro i hi
      exact (hout i (by omega)).trans (h.rest i hi)
    · exact (hashed_matched σ t).symm
    · rw [hashed_matched]
      apply htable.raise (by omega)
      intro r hr
      have := below_insert (Nat.lt_succ_self _) r hr
      omega

/-! ## Literals -/

/-- What is left behind `n` literals. -/
structure Peeled (x m : Mem) (size src k w n : Nat) (σ : Spelling) (ts' : List Token)
    (σ' : Spelling) :
    Prop where
  spells : Spells x size σ' ts'
  stream : m.Holds (src + n) (encode (k - n) ts')
  word : w / 1 <<< n = flagWord (k - n) (ts'.map Token.isCopy)
  pos : σ'.pos = σ.pos + n
  last : σ'.last = σ.last
  starts : ∀ r, r ∈ σ'.starts ↔ r ∈ σ.starts ∨ (σ.pos ≤ r ∧ r < σ.pos + n)
  bytes : ∀ i < n, m (src + i) = x (σ.pos + i)

/-- Flags that are zero belong to literals, as long as there is something left to spell. -/
theorem exists_peeled {n src : Nat} (hs : Spells x size σ ts) (hm : m.Holds src (encode k ts))
    (hn : n ≤ k) (hz : flagWord k (ts.map Token.isCopy) % 1 <<< n = 0) (hpos : σ.pos + n ≤ size) :
    ∃ ts' σ', Peeled x m size src k (flagWord k (ts.map Token.isCopy)) n σ ts' σ' := by
  induction n generalizing k ts σ src with
  | zero =>
    refine ⟨ts, σ, hs, hm, by simp, rfl, rfl, ?_, ?_⟩
    · intro r
      constructor
      · exact .inl
      · rintro (hr | hr)
        · exact hr
        · omega
    · intro i hi
      omega
  | succ n ih =>
    obtain ⟨k, rfl⟩ : ∃ j, k = j + 1 := ⟨k - 1, by omega⟩
    obtain ⟨t, ts, rfl⟩ := List.exists_cons_of_ne_nil (hs.ne_nil (by omega))
    rw [List.map_cons, flagWord, Nat.shiftLeft_succ] at hz
    have hpow : 0 < 1 <<< n := by
      rw [Nat.shiftLeft_eq, Nat.one_mul]
      exact Nat.two_pow_pos n
    obtain ⟨hlow, hhigh⟩ : t.isCopy.toNat = 0 ∧ flagWord k (ts.map Token.isCopy) % 1 <<< n = 0 := by
      have hle := Bool.toNat_le t.isCopy
      have hdvd := Nat.dvd_of_mod_eq_zero hz
      have heven : t.isCopy.toNat = 0 := by
        obtain ⟨c, hc⟩ := Nat.dvd_trans (Nat.dvd_mul_right 2 _) hdvd
        omega
      rw [heven, Nat.zero_add] at hdvd
      exact ⟨heven, Nat.mod_eq_zero_of_dvd (Nat.dvd_of_mul_dvd_mul_left (by omega) hdvd)⟩
    obtain ⟨c, rfl⟩ : ∃ c, t = .lit c := by
      cases t with
      | lit c => exact ⟨c, rfl⟩
      | copy t => cases hlow
    obtain ⟨⟨-, hc⟩, hs'⟩ := spells_cons.1 hs
    rw [encode_succ_cons] at hm
    obtain ⟨hbyte, hm'⟩ := holds_append.1 hm
    have hbyte : m src = c := (holds_cons.1 hbyte).1
    obtain ⟨ts', σ', hp⟩ := ih hs' hm' (by omega) hhigh (by change σ.pos + 1 + n ≤ size; omega)
    have hkn : k + 1 - (n + 1) = k - n := by omega
    refine ⟨ts', σ', hp.spells, ?_, ?_, ?_, hp.last, ?_, ?_⟩
    · rw [hkn, show src + (n + 1) = src + 1 + n by omega]
      exact hp.stream
    · rw [hkn, ← hp.word, List.map_cons, flagWord, hlow, Nat.zero_add, Nat.shiftLeft_succ,
        Nat.mul_div_mul_left _ _ (by omega)]
    · rw [hp.pos]
      change σ.pos + 1 + n = σ.pos + (n + 1)
      omega
    · intro r
      rw [hp.starts]
      change r ∈ insert σ.pos σ.starts ∨ (σ.pos + 1 ≤ r ∧ r < σ.pos + 1 + n) ↔ _
      rw [Set.mem_insert_iff]
      constructor
      · rintro ((rfl | hr) | hr)
        · exact .inr (by omega)
        · exact .inl hr
        · exact .inr (by omega)
      · rintro (hr | hr)
        · exact .inl (.inr hr)
        · by_cases hrp : r = σ.pos
          · exact .inl (.inl hrp)
          · exact .inr (by omega)
    · intro i hi
      cases i with
      | zero => exact hbyte.trans hc
      | succ i =>
        have := hp.bytes i (by omega)
        rw [show src + (i + 1) =
          src + 1 + i by omega, show σ.pos + (i + 1) = σ.pos + 1 + i by omega]
        exact this

theorem bitlut_spec {w : Nat} (h : w % 2 = 0) :
    1 ≤ bitlut.getD (w &&& 0xf) 0 ∧ bitlut.getD (w &&& 0xf) 0 ≤ 4 ∧
      w % 1 <<< bitlut.getD (w &&& 0xf) 0 = 0 := by
  rw [and_fifteen]
  obtain hv | hv | hv | hv | hv | hv | hv | hv : w % 16 = 0 ∨ w % 16 = 2 ∨ w % 16 = 4 ∨ w % 16 = 6 ∨
      w % 16 = 8 ∨ w % 16 = 10 ∨ w % 16 = 12 ∨ w % 16 = 14 := by omega
  all_goals
    rw [hv]
    simp only [bitlut, List.getD_cons_succ, List.getD_cons_zero, Nat.shiftLeft_eq, Nat.one_mul]
  all_goals omega

theorem zeros_le {bs : List Bool} {n : Nat} (h : flagWord k bs % 1 <<< n = 0) : n ≤ k := by
  have hlt := flagWord_lt k bs
  have hpos := flagWord_pos k bs
  have hle := Nat.le_of_dvd hpos (Nat.dvd_of_mod_eq_zero h)
  rw [Nat.shiftLeft_eq, Nat.one_mul] at hle
  rw [Nat.shiftLeft_eq, Nat.mul_comm, ← Nat.pow_succ] at hlt
  exact Nat.lt_succ_iff.1 ((Nat.pow_lt_pow_iff_right (by omega)).1 (Nat.lt_of_le_of_lt hle hlt))

theorem Decodes.literals (h : Decodes x m buf₀ size k ts σ s) (heven : s.cwordVal % 2 = 0)
    (hfar : (s.dst : Int) < lastMatchstart size) :
    ∃ k' ts' σ', Decodes x m buf₀ size k' ts' σ' (s.literals b m) ∧ σ.pos < σ'.pos ∧
      σ'.pos < size := by
  obtain ⟨hone, hfour, hzero⟩ := bitlut_spec heven
  unfold lastMatchstart lastByte unconditionalMatchlen uncompressedEnd at hfar
  rw [h.dst] at hfar
  unfold Decompressing.literals
  dsimp only
  generalize bitlut.getD (s.cwordVal &&& 0xf) 0 = n at hone hfour hzero
  rw [h.word] at hzero
  rw [h.dst, h.hashed]
  obtain ⟨ts', σ', hp⟩ := exists_peeled h.spells h.stream (zeros_le hzero) hzero (by omega)
  have hagrees : ∀ i < σ'.pos, s.buf.write σ.pos (m.read s.src 4) i = x i := by
    intro i hi
    rw [hp.pos] at hi
    by_cases hd : i < σ.pos
    · rw [write_out _ (.inl hd), h.agrees i hd]
    · rw [write_in _ (by omega) (by rw [length_read]; omega), getElem_read,
        hp.bytes _ (by omega)]
      congr 1
      omega
  have hstarts : ∀ r : Nat, (r : Int) ≤ σ.hashed → (r ∈ σ'.starts ↔ r ∈ σ.starts) := by
    intro r hr
    have := σ.hashed_lt
    rw [hp.starts]
    exact or_iff_left (by omega)
  have hnew : ∀ r : Nat, σ.hashed < r → (r : Int) ≤ ((σ.pos + n : Nat) : Int) - 3 →
      r ∈ σ'.starts := by
    intro r hr hrn
    unfold Spelling.hashed at hr
    apply σ'.recent r
    · rw [hp.last]
      omega
    · rw [hp.pos]
      omega
  have hmax : max σ.hashed (((σ.pos + n : Nat) : Int) - 3) = σ'.hashed := by
    unfold Spelling.hashed
    rw [hp.last, hp.pos]
    omega
  obtain ⟨hto, htable⟩ := updateHashUpto_entered (b := b) (hashed_ge σ) (h.table.congr hstarts) hnew
    fun i hi => hagrees i (by rw [hp.pos]; omega)
  rw [hmax] at hto htable
  refine ⟨k - n, ts', σ', ⟨hp.spells, hp.stream, ?_, hp.pos.symm, hagrees, ?_, hto, htable⟩, ?_, ?_⟩
  · rw [← hp.word, ← h.word, Nat.shiftRight_eq_div_pow, Nat.shiftLeft_eq, Nat.one_mul]
  · intro i hi
    exact (write_out _ (.inr (by rw [length_read]; omega))).trans (h.rest i hi)
  · rw [hp.pos]
    omega
  · rw [hp.pos]
    omega

/-! ## The last bytes -/

theorem isCopy_of_spells (h : Spells x size σ ts) (hfar : lastMatchstart size < σ.pos) :
    ∀ t ∈ ts, t.isCopy = false := by
  induction ts generalizing σ with
  | nil =>
    intro t ht
    cases ht
  | cons t ts ih =>
    obtain ⟨ht, hs⟩ := spells_cons.1 h
    cases t with
    | copy t => exact absurd ht.1 (by omega)
    | lit c =>
      have hnext : lastMatchstart size < (σ.literal.pos : Int) := by
        change lastMatchstart size < ((σ.pos + 1 : Nat) : Int)
        omega
      intro t ht
      rcases List.mem_cons.1 ht with rfl | ht
      · rfl
      · exact ih hs hnext t ht

/-- Only literals are left. -/
structure Ending (x m buf₀ : Mem) (size k : Nat) (ts : List Token) (σ : Spelling)
    (s : Decompressing) :
    Prop where
  spells : Spells x size σ ts
  lits : ∀ t ∈ ts, t.isCopy = false
  stream : m.Holds s.src (encode k ts)
  word : s.cwordVal = 1 <<< k
  dst : s.dst = σ.pos
  agrees : ∀ i < σ.pos, s.buf i = x i
  rest : ∀ i, size ≤ i → s.buf i = buf₀ i

theorem Decodes.ending (h : Decodes x m buf₀ size k ts σ s) (hlits : ∀ t ∈ ts, t.isCopy = false) :
    Ending x m buf₀ size k ts σ s := by
  refine ⟨h.spells, hlits, h.stream, ?_, h.dst, h.agrees, h.rest⟩
  rw [h.word]
  apply flagWord_of_false
  intro f hf
  obtain ⟨t, ht, rfl⟩ := List.mem_map.1 hf
  exact hlits t ht

theorem Ending.tailPass (h : Ending x m buf₀ size k ts σ s) (hpos : σ.pos < size) :
    ∃ s' k' ts' σ', Decompressing.tailPass m size s = .ok (.again s') ∧
      Ending x m buf₀ size k' ts' σ' s' ∧ s'.dst = s.dst + 1 := by
  obtain ⟨t, ts, rfl⟩ := List.exists_cons_of_ne_nil (h.spells.ne_nil hpos)
  obtain ⟨c, rfl⟩ : ∃ c, t = .lit c := by
    cases t with
    | lit c => exact ⟨c, rfl⟩
    | copy t => cases h.lits _ List.mem_cons_self
  obtain ⟨⟨-, hc⟩, hs⟩ := spells_cons.1 h.spells
  -- skipping a control word opens the group that it belongs to
  obtain ⟨s₁, k₁, hreload, hstream, hword, hsame⟩ : ∃ s₁ k₁,
      (if s.cwordVal = 1 then { s with src := s.src + cwordLen, cwordVal := 1 <<< 31 } else s) =
        s₁ ∧ m.Holds s₁.src (encode (k₁ + 1) (.lit c :: ts)) ∧ s₁.cwordVal = 1 <<< (k₁ + 1) ∧
        s₁.dst = s.dst ∧ s₁.buf = s.buf := by
    have hstream := h.stream
    cases k with
    | zero =>
      rw [encode_zero_cons] at hstream
      have hrest := (holds_append.1 hstream).2
      rw [length_leBytes] at hrest
      exact ⟨_, 30, if_pos h.word, hrest, rfl, rfl, rfl⟩
    | succ k =>
      have hone : s.cwordVal ≠ 1 := by
        rw [h.word, Nat.shiftLeft_succ]
        omega
      exact ⟨s, k, if_neg hone, hstream, h.word, rfl, rfl⟩
  rw [encode_succ_cons] at hstream
  obtain ⟨hbyte, hstream⟩ := holds_append.1 hstream
  have hbyte : m s₁.src = c := (holds_cons.1 hbyte).1
  refine ⟨{ s₁ with buf := s₁.buf.set s₁.dst (m s₁.src), dst := s₁.dst + 1, src := s₁.src + 1,
                    cwordVal := s₁.cwordVal >>> 1 },
    k₁, ts, σ.literal, ?_, ⟨hs, ?_, hstream, ?_, ?_, ?_, ?_⟩, ?_⟩
  · unfold Decompressing.tailPass
    rw [if_pos (by rw [h.dst]; unfold lastByte; omega)]
    dsimp only
    rw [hreload]
  · intro t ht
    exact h.lits t (List.mem_cons_of_mem _ ht)
  · dsimp only
    rw [hword, Nat.shiftLeft_succ, Nat.shiftRight_eq_div_pow]
    omega
  · exact congrArg (· + 1) (hsame.1.trans h.dst)
  · intro i hi
    change i < σ.pos + 1 at hi
    dsimp only
    rw [hsame.1, hsame.2, h.dst, hbyte, hc]
    by_cases hip : i = σ.pos
    · rw [hip, set_self]
    · rw [set_ne _ _ hip, h.agrees i (by omega)]
  · intro i hi
    dsimp only
    rw [hsame.1, hsame.2, h.dst, set_ne _ _ (by omega), h.rest i hi]
  · exact congrArg (· + 1) hsame.1

/-- The input, and nothing behind it. -/
def Decoded (x buf₀ : Mem) (size : Nat) (s : Decompressing) : Prop :=
  (∀ i < size, s.buf i = x i) ∧ ∀ i, size ≤ i → s.buf i = buf₀ i

theorem Ending.tail (h : Ending x m buf₀ size k ts σ s) :
    ∃ s', s.tail b m size = .ok s' ∧ Decoded x buf₀ size s' := by
  have hpass : ∀ s, (∃ k ts σ, Ending x m buf₀ size k ts σ s) →
      (∃ s', Decompressing.tailPass m size s = .ok (.again s') ∧
        (∃ k ts σ, Ending x m buf₀ size k ts σ s') ∧ size - s'.dst < size - s.dst) ∨
      ∃ s', Decompressing.tailPass m size s = .ok (.done s') ∧ Decoded x buf₀ size s' := by
    rintro s ⟨k, ts, σ, h⟩
    by_cases hpos : σ.pos < size
    · obtain ⟨s', k', ts', σ', hpass, h', hdst⟩ := h.tailPass hpos
      refine .inl ⟨s', hpass, ⟨k', ts', σ', h'⟩, ?_⟩
      have := h.dst
      omega
    · refine .inr ⟨s, ?_, ?_, h.rest⟩
      · unfold Decompressing.tailPass lastByte
        rw [if_neg (by rw [h.dst]; omega)]
      · intro i hi
        exact h.agrees i (by omega)
  obtain ⟨s₁, hloop, hdec⟩ :=
    loop_total (fun s : Decompressing => size - s.dst) hpass (s := s) (n := size + 1)
    ⟨k, ts, σ, h⟩ (by omega)
  have hrun : s.tail b m size = .ok
      { s₁ with
        lastHashed := (updateHashUpto b s₁.buf s₁.hash s₁.lastHashed (lastByte size - 3)).1
        hash := (updateHashUpto b s₁.buf s₁.hash s₁.lastHashed (lastByte size - 3)).2 } := by
    unfold Decompressing.tail
    rw [hloop]
    rfl
  exact ⟨_, hrun, hdec⟩

/-! ## The loop -/

theorem Decodes.pass (h : Decodes x m buf₀ size k ts σ s) (hpos : σ.pos < size) :
    (∃ s', Decompressing.pass b m size s = .ok (.again s') ∧
      (∃ k' ts' σ', Decodes x m buf₀ size k' ts' σ' s' ∧ σ'.pos < size) ∧ s.dst < s'.dst) ∨
    ∃ s', Decompressing.pass b m size s = .ok (.done s') ∧ Decoded x buf₀ size s' := by
  obtain ⟨k, h'⟩ := h.reload (b := b) hpos
  have hdst : (s.reload b m).dst = s.dst := h'.dst.trans h.dst.symm
  unfold Decompressing.pass
  dsimp only
  generalize s.reload b m = s at h' hdst
  obtain ⟨t, ts, rfl⟩ := List.exists_cons_of_ne_nil (h.spells.ne_nil hpos)
  have hbit : s.cwordVal % 2 = t.isCopy.toNat := by
    have := Bool.toNat_le t.isCopy
    rw [h'.word, List.map_cons, flagWord]
    omega
  rw [Nat.and_one_is_mod, hbit]
  cases t with
  | copy t =>
    left
    obtain ⟨s', hcopy, hdec⟩ := h'.copy (b := b)
    have hallow := (spells_cons.1 h.spells).1
    have hthree := t.three_le
    have hfits := hallow.2.1
    refine ⟨s', ?_, ⟨k, ts, σ.matched t, hdec, ?_⟩, ?_⟩
    · rw [Token.isCopy_copy, Bool.toNat_true, if_pos rfl, hcopy, ok_bind]
      rfl
    · change σ.pos + t.len < size
      unfold uncompressedEnd at hfits
      omega
    · rw [hdec.dst, ← hdst, h'.dst]
      change σ.pos < σ.pos + t.len
      omega
  | lit c =>
    rw [Token.isCopy_lit, Bool.toNat_false] at hbit ⊢
    rw [if_neg (by decide)]
    by_cases hfar : (s.dst : Int) < lastMatchstart size
    · left
      obtain ⟨k', ts', σ', hdec, hlt, hsize⟩ := h'.literals (b := b) hbit hfar
      refine ⟨_, by rw [if_pos hfar], ⟨k', ts', σ', hdec, hsize⟩, ?_⟩
      rw [hdec.dst, ← hdst, h'.dst]
      exact hlt
    · right
      have hlits : ∀ t ∈ Token.lit c :: ts, t.isCopy = false := by
        intro t ht
        rcases List.mem_cons.1 ht with rfl | ht
        · rfl
        · refine isCopy_of_spells (spells_cons.1 h.spells).2 ?_ t ht
          rw [h'.dst] at hfar
          change lastMatchstart size < ((σ.pos + 1 : Nat) : Int)
          omega
      obtain ⟨s', htail, hdec⟩ := (h'.ending hlits).tail (b := b)
      refine ⟨s', ?_, hdec⟩
      rw [if_neg hfar, htail, ok_bind]
      rfl

end Passes

/-- **The decompressor reads tokens back.** Where the tokens of an input are stored behind the
header, it returns, has written the input, and has touched nothing behind it. -/
theorem qlzDecompressCore_spells (b : Build) {x m buf : Mem} {size passes : Nat} {ts : List Token}
    (hash : DecompressTable) (hs : Spells x size start ts)
    (hm : m.Holds (qlzSizeHeader m) (encode 0 ts))
    (hsize : 0 < size) (hp : size < passes) :
    ∃ buf' hash', qlzDecompressCore b passes m buf size hash = .ok (size, buf', hash') ∧
      (∀ i < size, buf' i = x i) ∧ ∀ i, size ≤ i → buf' i = buf i := by
  have hstart : Decodes x m buf size 0 ts start ⟨qlzSizeHeader m, 0, 1, -1, buf, hash⟩ := by
    refine ⟨hs, hm, rfl, rfl, ?_, fun _ _ => rfl, rfl, Entered.of_neg (by decide)⟩
    intro i hi
    exact absurd hi (Nat.not_lt_zero i)
  have hpass : ∀ s, (∃ k ts σ, Decodes x m buf size k ts σ s ∧ σ.pos < size) →
      (∃ s', Decompressing.pass b m size s = .ok (.again s') ∧
        (∃ k ts σ, Decodes x m buf size k ts σ s' ∧ σ.pos < size) ∧ size - s'.dst < size - s.dst) ∨
      ∃ s', Decompressing.pass b m size s = .ok (.done s') ∧ Decoded x buf size s' := by
    rintro s ⟨k, ts, σ, h, hpos⟩
    rcases h.pass (b := b) hpos with ⟨s', hpass, h', hlt⟩ | hdone
    · refine .inl ⟨s', hpass, h', ?_⟩
      have := h.dst
      omega
    · exact .inr hdone
  obtain ⟨s, hloop, hdec⟩ := loop_total (fun s : Decompressing => size - s.dst) hpass
    ⟨0, ts, start, hstart, hsize⟩ (show size - 0 < passes by omega)
  refine ⟨s.buf, s.hash, ?_, hdec.1, hdec.2⟩
  unfold qlzDecompressCore
  dsimp only
  rw [hloop]
  rfl

end Quicklz

end Opennop
