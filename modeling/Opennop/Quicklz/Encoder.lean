import Mathlib.Data.Nat.Bitwise
import Opennop.Quicklz.Tokens

/-!
# The compressor writes tokens

The two loops of `qlz_compress_core` are followed with the tokens they have written: the full groups
are stored, the tokens of the open group follow the place that is kept for their control word, and
their flags are in `cword_val`. In the first loop the table names, for every hash, the last place
with this hash at which a token begins.
-/

namespace Opennop

namespace Quicklz

open Mem Spelling

/-! ## Lengths of matches -/

theorem extend_spec {source : Mem} {o old remaining : Nat} :
    ∀ {n src : Nat}, old ≤ src → src - old ≤ remaining →
      (∀ i < src - old, source (o + i) = source (old + i)) →
      src ≤ extend source o old remaining n src ∧
        extend source o old remaining n src - old ≤ remaining ∧
        ∀ i < extend source o old remaining n src - old, source (o + i) = source (old + i) := by
  intro n
  induction n with
  | zero =>
    intro src _ hle hsame
    exact ⟨Nat.le_refl src, hle, hsame⟩
  | succ n ih =>
    intro src hold hle hsame
    rw [extend]
    by_cases h : source (o + (src - old)) = source src ∧ src - old < remaining
    · rw [if_pos h]
      have hnext : ∀ i < src + 1 - old, source (o + i) = source (old + i) := by
        intro i hi
        by_cases hlast : i = src - old
        · rw [hlast, h.1]
          congr 1
          omega
        · exact hsame i (by omega)
      obtain ⟨h₁, h₂, h₃⟩ := @ih (src + 1) (by omega) (by omega) hnext
      exact ⟨by omega, h₂, h₃⟩
    · rw [if_neg h]
      exact ⟨Nat.le_refl src, hle, hsame⟩

theorem same_succ {source : Mem} {o old n : Nat} (h : ∀ i < n, source (o + i) = source (old + i))
    (hn : source (o + n) = source (old + n)) : ∀ i < n + 1, source (o + i) = source (old + i) := by
  intro i hi
  by_cases hlast : i = n
  · rw [hlast, hn]
  · exact h i (by omega)

/-- A match ends before the last four bytes and is no longer than a token can say. -/
theorem matchEnd_spec {source : Mem} {size o old : Nat} (hold : old + 11 ≤ size)
    (h : ∀ i < 4, source (o + i) = source (old + i)) :
    old + 4 ≤ matchEnd source size o old ∧ matchEnd source size o old + 4 ≤ size ∧
      matchEnd source size o old ≤ old + 255 ∧
      ∀ i < matchEnd source size o old - old, source (o + i) = source (old + i) := by
  unfold matchEnd lastByte uncompressedEnd
  dsimp only
  rw [show old + 4 - old = 4 by omega, show old + 4 + 1 - old = 5 by omega]
  by_cases h4 : source (o + 4) = source (old + 4)
  · rw [if_pos h4]
    by_cases h5 : source (o + 5) = source (old + 4 + 1)
    · rw [if_pos h5]
      have hsame := same_succ (same_succ h h4) h5
      generalize hq : ((size : Int) - 1 - (4 : Nat) - ((old + 4 + 1 : Nat) - 5) + 1) = q
      have hrem : ∃ r, (if q > 255 then 255 else q.toNat) = r ∧ 6 ≤ r ∧ r ≤ 255 ∧
          old + r + 4 ≤ size := by
        split
        · exact ⟨255, rfl, by omega, by omega, by omega⟩
        · exact ⟨q.toNat, rfl, by omega, by omega, by omega⟩
      obtain ⟨r, hr, hr6, hr255, hrsize⟩ := hrem
      rw [hr]
      have hsix : ∀ i < old + 4 + 1 + 1 - old, source (o + i) = source (old + i) := by
        rw [show old + 4 + 1 + 1 - old = 6 by omega]
        exact hsame
      obtain ⟨h₁, h₂, h₃⟩ := @extend_spec source o old r 255 _ (by omega) (by omega) hsix
      exact ⟨by omega, by omega, by omega, h₃⟩
    · rw [if_neg h5]
      refine ⟨by omega, by omega, by omega, ?_⟩
      rw [show old + 4 + 1 - old = 5 by omega]
      exact same_succ h h4
  · rw [if_neg h4]
    refine ⟨by omega, by omega, by omega, ?_⟩
    rw [show old + 4 - old = 4 by omega]
    exact h

theorem same_eq {m : Mem} {src : Nat} :
    ∀ {n : Nat}, same m src n = true → ∀ i ≤ n, m (src + i) = m src := by
  intro n
  induction n with
  | zero =>
    intro _ i hi
    rw [Nat.le_zero.1 hi, Nat.add_zero]
  | succ n ih =>
    intro h i hi
    rw [same] at h
    by_cases hn : m (src + (n + 1)) = m src
    · rw [if_pos hn] at h
      by_cases hlast : i = n + 1
      · rw [hlast, hn]
      · exact ih h i (by omega)
    · rw [if_neg hn] at h
      cases h

/-! ## Comparisons with an entry -/

namespace Compressing

theorem sameThree_iff {b : Build} {x : Mem} {o src : Nat} :
    sameThree b (fastRead b x src 3 ^^^ fastRead b x o 3) = true ↔ x.le24 o = x.le24 src := by
  cases b with
  | portable =>
    rw [sameThree, beq_iff_eq, Nat.xor_eq_zero_iff]
    exact eq_comm
  | x86 =>
    have hand : ∀ v : Nat, v &&& 0xffffff = v % 16777216 :=
      fun v => Nat.and_two_pow_sub_one_eq_mod v 24
    have hxor : (fastRead .x86 x src 3 ^^^ fastRead .x86 x o 3) % 16777216 =
        (x.le24 src) ^^^ (x.le24 o) := by
      rw [← fastRead_three .x86 x src, ← fastRead_three .x86 x o]
      exact Nat.xor_mod_two_pow (n := 24)
    rw [sameThree, beq_iff_eq, hand, hxor, Nat.xor_eq_zero_iff]
    exact eq_comm

theorem fourthDiffers_iff {b : Build} {x : Mem} {o src : Nat} (h : x.le24 o = x.le24 src) :
    fourthDiffers b x (fastRead b x src 3 ^^^ fastRead b x o 3) o src = true ↔
      x (o + 3) ≠ x (src + 3) := by
  cases b with
  | portable => rw [fourthDiffers, bne_iff_ne]
  | x86 =>
    have hread : ∀ k, fastRead .x86 x k 3 = x.le32 k := fun _ => rfl
    rw [fourthDiffers, bne_iff_ne, Ne, Nat.xor_eq_zero_iff, hread, hread, le32_eq, le32_eq, h]
    apply not_congr
    constructor
    · intro he
      apply UInt8.toNat_inj.1
      omega
    · intro he
      rw [he]

theorem nextFetch_eq {b : Build} {x : Mem} {fetch src : Nat} (h : fetch = fastRead b x src 3) :
    nextFetch b x fetch (src + 1) = fastRead b x (src + 1) 3 := by
  cases b with
  | x86 => rfl
  | portable =>
    have hlow : fetch >>> 8 &&& 0xffff = x.le16 (src + 1) := by
      have h' : fetch = x.le24 src := h
      have h₀ := (x src).toNat_lt
      have h₁ := (x (src + 1)).toNat_lt
      have h₂ := (x (src + 2)).toNat_lt
      rw [show fetch >>> 8 &&& 0xffff =
        fetch >>> 8 % 65536 from Nat.and_two_pow_sub_one_eq_mod _ 16, Nat.shiftRight_eq_div_pow, h']
      unfold le24 le16
      rw [show src + 1 + 1 = src + 2 from rfl]
      omega
    have hlt : x.le16 (src + 1) < 1 <<< 16 := le16_lt x (src + 1)
    change (fetch >>> 8 &&& 0xffff) ||| ((x (src + 1 + 2)).toNat <<< 16) = x.le24 (src + 1)
    rw [hlow, or_shiftLeft _ hlt, Nat.shiftLeft_eq]
    rfl

end Compressing

/-! ## Control words -/

theorem shiftOut_openWord {n j : Nat} {bs : List Bool} (h : j < n) :
    shiftOut n (openWord j bs) = openWord 0 bs := by
  induction n generalizing j with
  | zero => omega
  | succ n ih =>
    rw [shiftOut, Nat.and_one_is_mod]
    cases j with
    | zero => rw [if_neg (not_not.2 (openWord_odd.2 rfl))]
    | succ j =>
      have hshift := openWord_shift j 1 bs
      rw [if_pos (fun hodd => Nat.succ_ne_zero j (openWord_odd.1 hodd)), Nat.shiftRight_eq_div_pow,
        ← ih (j := j) (by omega), ← hshift]
      rfl

/-- `(cword_val >> 1) | (1U << 31)` -/
theorem marked_eq {w : Nat} (h : w < 2 <<< 31) : (w >>> 1) ||| (1 <<< 31) = w / 2 + 1 <<< 31 := by
  rw [Nat.shiftRight_eq_div_pow]
  apply or_shiftLeft 1
  rw [Nat.shiftLeft_eq] at h ⊢
  omega

/-! ## The output -/

/-- The tokens `full` are stored in full groups and the tokens `cur` are in the open one; together
they lead to `σ`. -/
structure Encodes (x buf₀ : Mem) (size destination : Nat) (full cur : List Token) (σ : Spelling)
    (s : Compressing) : Prop where
  along : Trace.Along next (Allows x size) start (full ++ cur)
  reach : Trace.run next start (full ++ cur) = σ
  groups : full.length % 31 = 0
  room : cur.length ≤ 31
  src : s.src = σ.pos
  stored : s.buf.Holds destination (encode 0 full)
  ptr : s.cwordPtr = destination + (encode 0 full).length
  group : s.buf.Holds (s.cwordPtr + 4) (cur.flatMap Token.bytes)
  dst : s.dst = s.cwordPtr + 4 + (cur.flatMap Token.bytes).length
  word : s.cwordVal = openWord (31 - cur.length) (cur.map Token.isCopy)
  rest : ∀ i, i < destination ∨ s.dst + 4 ≤ i → s.buf i = buf₀ i

section Output

variable {b : Build} {x buf₀ : Mem} {size destination : Nat} {full cur : List Token} {σ : Spelling}
  {s s' : Compressing}

theorem Encodes.cwordVal_lt (h : Encodes x buf₀ size destination full cur σ s) :
    s.cwordVal < 2 <<< 31 := by
  have hlt := openWord_lt (31 - cur.length) (cur.map Token.isCopy)
  have hroom := h.room
  rw [List.length_map, Nat.sub_add_cancel hroom] at hlt
  rw [h.word]
  exact hlt

/-- The mark has come down exactly when the group is full. -/
theorem Encodes.full_iff (h : Encodes x buf₀ size destination full cur σ s) :
    s.cwordVal &&& 1 = 1 ↔ cur.length = 31 := by
  have hroom := h.room
  rw [Nat.and_one_is_mod, h.word, openWord_odd]
  omega

theorem Encodes.emit (h : Encodes x buf₀ size destination full cur σ s) (hroom : cur.length < 31)
    {t : Token} (ht : Allows x size σ t) (hsrc : s'.src = s.src + t.span)
    (hold : ∀ i < s.dst, s'.buf i = s.buf i) (hnew : s'.buf.Holds s.dst t.bytes)
    (hrest : ∀ i, s.dst + 4 ≤ i → s'.buf i = s.buf i) (hptr : s'.cwordPtr = s.cwordPtr)
    (hdst : s'.dst = s.dst + t.bytes.length)
    (hword : s'.cwordVal = s.cwordVal / 2 + t.isCopy.toNat <<< 31) :
    Encodes x buf₀ size destination full (cur ++ [t]) (σ.next t) s' := by
  have hptr' := h.ptr
  have hdst' := h.dst
  have hflat : (cur ++ [t]).flatMap Token.bytes = cur.flatMap Token.bytes ++ t.bytes := by simp
  have hlen : (cur ++ [t]).length = cur.length + 1 := by simp
  refine ⟨?_, ?_, h.groups, ?_, ?_, ?_, ?_, ?_, ?_, ?_, ?_⟩
  · rw [← List.append_assoc, Trace.along_append, h.reach]
    exact ⟨h.along, ht, trivial⟩
  · rw [← List.append_assoc, Trace.run_append, h.reach]
    rfl
  · omega
  · rw [hsrc, h.src, pos_next]
  · exact h.stored.congr fun i _ hi => hold i (by omega)
  · rw [hptr, h.ptr]
  · rw [hflat, holds_append, hptr]
    refine ⟨h.group.congr fun i _ hi => hold i (by omega), ?_⟩
    rw [← h.dst]
    exact hnew
  · rw [hdst, hptr, hflat, List.length_append, h.dst]
    omega
  · rw [hword, hlen, List.map_append, List.map_singleton, openWord_append, List.length_map, h.word,
      show 31 - (cur.length + 1) + 1 = 31 - cur.length by omega,
      show 31 - cur.length + cur.length = 31 by omega]
  · intro i hi
    rcases hi with hi | hi
    · rw [hold i (by omega), h.rest i (.inl hi)]
    · rw [hrest i (by omega), h.rest i (.inr (by omega))]

theorem Encodes.close (h : Encodes x buf₀ size destination full cur σ s) (hne : cur ≠ []) :
    (fastWrite b s.buf (flagWord 31 (cur.map Token.isCopy)) s.cwordPtr cwordLen).Holds destination
        (encode 0 (full ++ cur)) ∧
      s.dst = destination + (encode 0 (full ++ cur)).length := by
  have hptr := h.ptr
  have hdst := h.dst
  obtain ⟨n, hn⟩ : ∃ n, full.length = n * 31 := ⟨full.length / 31, by have := h.groups; omega⟩
  have hencode : encode 0 (full ++ cur) =
      encode 0 full ++
        (leBytes 4 (flagWord 31 (cur.map Token.isCopy)) ++ cur.flatMap Token.bytes) := by
    unfold encode
    rw [grouped_append (by decide) (k := 0) (n := n) (by omega), grouped_group hne h.room]
  constructor
  · rw [hencode, holds_append, holds_append, length_leBytes, ← h.ptr]
    refine ⟨?_, fastWrite_holds b s.buf _ s.cwordPtr (n := 4) (by decide) (by decide), ?_⟩
    · exact h.stored.congr fun i _ hi => fastWrite_out _ _ _ _ (.inl (by omega))
    · exact h.group.congr fun i hi _ => fastWrite_out _ _ _ _ (.inr hi)
  · rw [hencode, List.length_append, List.length_append, length_leBytes]
    omega

theorem Encodes.flush (h : Encodes x buf₀ size destination full cur σ s) (hfull : cur.length = 31) :
    Encodes x buf₀ size destination (full ++ cur) [] σ (s.flush b) := by
  have hptr := h.ptr
  have hdst := h.dst
  have hne : cur ≠ [] := by
    rintro rfl
    cases hfull
  have hword : (s.cwordVal >>> 1) ||| (1 <<< 31) = flagWord 31 (cur.map Token.isCopy) := by
    rw [marked_eq h.cwordVal_lt, h.word, hfull,
      flagWord_of_openWord (by rw [List.length_map]; omega)]
  obtain ⟨hstored, hlen⟩ := h.close (b := b) hne
  rw [← hword] at hstored
  refine ⟨?_, ?_, ?_, Nat.zero_le _, h.src, hstored, hlen, holds_nil _ _, rfl, rfl, ?_⟩
  · rw [List.append_nil]
    exact h.along
  · rw [List.append_nil]
    exact h.reach
  · rw [List.length_append, hfull]
    have := h.groups
    omega
  · intro i hi
    change i < destination ∨ s.dst + 4 + 4 ≤ i at hi
    exact (fastWrite_out b s.buf _ 4 (by omega)).trans (h.rest i (by omega))

theorem Encodes.literal (h : Encodes x buf₀ size destination full cur σ s) (hroom : cur.length < 31)
    (hpos : σ.pos < size) :
    Encodes x buf₀ size destination full (cur ++ [.lit (x σ.pos)]) σ.literal (s.literal x) := by
  refine h.emit hroom (t := .lit (x σ.pos)) ⟨hpos, rfl⟩ rfl ?_ ?_ ?_ rfl rfl ?_
  · intro i hi
    exact set_ne _ _ (by omega)
  · rw [← h.src]
    exact holds_cons.2 ⟨set_self _ _ _, holds_nil _ _⟩
  · intro i hi
    exact set_ne _ _ (by omega)
  · rw [Token.isCopy_lit, Bool.toNat_false, Nat.zero_shiftLeft, Nat.add_zero]
    exact Nat.shiftRight_eq_div_pow s.cwordVal 1

end Output

/-! ## The search -/

/-- The places in the table; 0 stands for none. -/
def places (hash : CompressTable) (h : Nat) : Option Nat :=
  if (hash h).offset = 0 then none else some (hash h).offset

/-- The variables of the first loop that find matches. -/
structure Searches (b : Build) (x : Mem) (size : Nat) (σ : Spelling) (s : Compressing) : Prop where
  lits : s.lits + σ.last = σ.pos
  fetch : (σ.pos : Int) ≤ lastMatchstart size → s.fetch = fastRead b x σ.pos 3
  table : Recorded (keyAt x) σ.starts (σ.pos - 1) (places s.hash)
  cache : ∀ h, (s.hash h).offset ≠ 0 → (s.hash h).cache = fastRead b x (s.hash h).offset 3

section Search

variable {b : Build} {x buf₀ : Mem} {size destination : Nat} {full cur : List Token} {σ : Spelling}
  {s s' : Compressing}

theorem starts_le (σ : Spelling) : ∀ r ∈ σ.starts, (r : Int) ≤ σ.pos - 1 := by
  intro r hr
  have := σ.below r hr
  omega

theorem Searches.enter (h : Searches b x size σ s) {n : Nat} (hn : σ.pos < n)
    (hhash : s'.hash = Function.update s.hash (keyAt x σ.pos) ⟨fastRead b x σ.pos 3, σ.pos⟩) :
    Recorded (keyAt x) (insert σ.pos σ.starts) (n - 1) (places s'.hash) ∧
      ∀ h, (s'.hash h).offset ≠ 0 → (s'.hash h).cache = fastRead b x (s'.hash h).offset 3 := by
  constructor
  · have hstep := h.table.enter (starts_le σ) (n := σ.pos) (by omega)
    refine (hstep.raise (by omega) ?_).mono ?_
    · intro r hr
      have := below_insert (Nat.lt_succ_self _) r hr
      omega
    · intro k q hq
      rw [places, hhash] at hq
      by_cases hk : k = keyAt x σ.pos
      · subst hk
        rw [Function.update_self] at hq ⊢
        by_cases h0 : σ.pos = 0
        · rw [if_pos h0] at hq
          cases hq
        · rwa [if_neg h0] at hq
      · rw [Function.update_of_ne hk] at hq ⊢
        exact hq
  · intro k hk
    rw [hhash] at hk ⊢
    by_cases hkey : k = keyAt x σ.pos
    · rw [hkey, Function.update_self]
    · rw [Function.update_of_ne hkey] at hk ⊢
      exact h.cache k hk

/-- In a run of one byte a match with the byte before is a match with any byte before. -/
theorem run_agrees {p len : Nat} (hp : 3 ≤ p) (hrun : ∀ i ≤ 6, x (p - 3 + i) = x (p - 3))
    (hmatch : ∀ i < len, x (p - 1 + i) = x (p + i)) : ∀ i < len, x (p + i) = x (p - 3 + i) := by
  have hconst : ∀ j ≤ len, x (p - 1 + j) = x (p - 3) := by
    intro j
    induction j with
    | zero =>
      intro _
      rw [← hrun 2 (by omega)]
      congr 1
      omega
    | succ j ih =>
      intro hj
      rw [← ih (by omega), hmatch j (by omega)]
      congr 1
      omega
  intro i hi
  rw [← hmatch i hi, hconst i (by omega)]
  by_cases h6 : i ≤ 6
  · exact (hrun i h6).symm
  · rw [show p - 3 + i = p - 1 + (i - 2) by omega, hconst (i - 2) (by omega)]

/-- What the compressor takes for a match is one for the decompressor. -/
theorem Searches.allows (h : Searches b x size σ s) {t : Match}
    (hfar : (σ.pos : Int) ≤ lastMatchstart size)
    (hfits : σ.pos + t.len + uncompressedEnd ≤ size) (hhash : keyAt x σ.pos = t.hash)
    (ho : (s.hash t.hash).offset ≠ 0)
    (hwhere : (σ.pos : Int) - (s.hash t.hash).offset > minoffset ∨
    (σ.pos = (s.hash t.hash).offset + 1 ∧ s.lits ≥ 3 ∧ σ.pos > 3 ∧ same x (σ.pos - 3) 6))
    (hsame : ∀ i < t.len, x ((s.hash t.hash).offset + i) = x (σ.pos + i)) :
    Allows x size σ (.copy t) := by
  have hlatest : Latest (keyAt x) σ.starts (σ.pos - 1) t.hash (s.hash t.hash).offset := by
    apply h.table
    rw [places, if_neg ho]
  have hlits := h.lits
  refine ⟨hfar, hfits, hhash, ?_⟩
  rcases hwhere with hbehind | ⟨hbefore, hthree, -, hrun⟩
  · unfold minoffset at hbehind
    refine ⟨_, hlatest.lower ?_ ?_, by omega, fun i hi => (hsame i hi).symm⟩
    · have := σ.hashed_lt
      omega
    · unfold Spelling.hashed
      omega
  · have hrun := same_eq hrun
    rw [show (s.hash t.hash).offset = σ.pos - 1 by omega] at hsame
    refine ⟨σ.pos - 3, ?_, by omega, run_agrees (by omega) hrun hsame⟩
    have hkey : keyAt x (σ.pos - 3) = t.hash := by
      rw [← hhash]
      apply keyAt_congr
      intro i hi
      rw [hrun i (by omega), ← hrun (3 + i) (by omega)]
      congr 1
      omega
    rw [← hkey]
    apply latest_of_mem (σ.recent _ (by omega) (by omega))
    unfold Spelling.hashed
    omega

theorem width_pos (t : Match) : 1 ≤ t.width ∧ t.width ≤ 4 := by
  unfold Match.width
  split <;> omega

theorem Encodes.copied (h : Encodes x buf₀ size destination full cur σ s) (hroom : cur.length < 31)
    {t : Match} (ht : Allows x size σ (.copy t)) (hsrc : s'.src = s.src + t.len)
    (hdst : s'.dst = s.dst + t.width) (hptr : s'.cwordPtr = s.cwordPtr)
    (hword : s'.cwordVal = (s.cwordVal >>> 1) ||| (1 <<< 31))
    (hbuf : s'.buf = fastWrite b s.buf t.value s.dst t.width) :
    Encodes x buf₀ size destination full (cur ++ [.copy t]) (σ.matched t) s' := by
  obtain ⟨hone, hfour⟩ := width_pos t
  refine h.emit hroom (t := .copy t) ht hsrc ?_ ?_ ?_ hptr ?_ ?_
  · intro i hi
    rw [hbuf, fastWrite_out _ _ _ _ (.inl hi)]
  · rw [hbuf]
    exact fastWrite_holds b s.buf t.value s.dst hone hfour
  · intro i hi
    rw [hbuf, fastWrite_out _ _ _ _ (.inr hi)]
  · rw [hdst, Token.length_bytes_copy]
  · rw [hword, marked_eq h.cwordVal_lt]
    rfl

def foundLen (x : Mem) (size o p : Nat) : Nat :=
  if x (o + 3) ≠ x (p + 3) then 3 else matchEnd x size o p - p

theorem foundLen_spec {o p : Nat} (hp : p + 11 ≤ size) (h : ∀ i < 3, x (o + i) = x (p + i)) :
    3 ≤ foundLen x size o p ∧ foundLen x size o p ≤ 255 ∧ p + foundLen x size o p + 4 ≤ size ∧
      ∀ i < foundLen x size o p, x (o + i) = x (p + i) := by
  unfold foundLen
  by_cases h3 : x (o + 3) = x (p + 3)
  · rw [if_neg (not_not.2 h3)]
    obtain ⟨h₁, h₂, h₃, h₄⟩ := matchEnd_spec hp (same_succ h h3)
    exact ⟨by omega, by omega, by omega, h₄⟩
  · rw [if_pos h3]
    exact ⟨by omega, by omega, by omega, h⟩

/-- The condition under which the compressor stores a match. -/
def Found (x : Mem) (σ : Spelling) (s : Compressing) : Prop :=
  (s.hash (keyAt x σ.pos)).offset ≠ 0 ∧ x.le24 (s.hash (keyAt x σ.pos)).offset = x.le24 σ.pos ∧
    ((σ.pos : Int) - (s.hash (keyAt x σ.pos)).offset > minoffset ∨
      (σ.pos = (s.hash (keyAt x σ.pos)).offset + 1 ∧ s.lits ≥ 3 ∧ σ.pos > 3 ∧ same x (σ.pos - 3) 6))

/-- The table with the entry of the position. -/
def entered (b : Build) (x : Mem) (σ : Spelling) (s : Compressing) : CompressTable :=
  Function.update s.hash (keyAt x σ.pos) ⟨fastRead b x σ.pos 3, σ.pos⟩

theorem Searches.found_iff (h : Searches b x size σ s) :
    (Compressing.sameThree b (fastRead b x σ.pos 3 ^^^ (s.hash (keyAt x σ.pos)).cache) = true ∧
      (s.hash (keyAt x σ.pos)).offset ≠ 0 ∧
      ((σ.pos : Int) - (s.hash (keyAt x σ.pos)).offset > minoffset ∨
        (σ.pos = (s.hash (keyAt x σ.pos)).offset + 1 ∧ s.lits ≥ 3 ∧ σ.pos > 3 ∧
          same x (σ.pos - 3) 6))) ↔ Found x σ s := by
  unfold Found
  constructor
  · rintro ⟨hsame, h0, hwhere⟩
    rw [h.cache _ h0, Compressing.sameThree_iff] at hsame
    exact ⟨h0, hsame, hwhere⟩
  · rintro ⟨h0, hsame, hwhere⟩
    rw [h.cache _ h0, Compressing.sameThree_iff]
    exact ⟨hsame, h0, hwhere⟩

theorem token_found (h : Searches b x size σ s) (hsrc : s.src = σ.pos)
    (hfetch : s.fetch = fastRead b x σ.pos 3) (hfound : Found x σ s) {t : Match}
    (hhash : t.hash = keyAt x σ.pos)
    (hlen : t.len = foundLen x size (s.hash (keyAt x σ.pos)).offset σ.pos) :
    s.token b x size =
      { s with
        src := s.src + t.len
        dst := s.dst + t.width
        cwordVal := (s.cwordVal >>> 1) ||| (1 <<< 31)
        buf := fastWrite b s.buf t.value s.dst t.width
        hash := entered b x σ s
        fetch := fastRead b x (s.src + t.len) 3
        lits := 0 } := by
  obtain ⟨h0, hsame, -⟩ := id hfound
  unfold Compressing.token
  rw [hfetch, hashFunc_fastRead, hsrc]
  dsimp only
  rw [if_pos (h.found_iff.2 hfound)]
  rw [h.cache _ h0, ← entered]
  unfold foundLen at hlen
  unfold Match.width Match.value
  by_cases h3 : x ((s.hash (keyAt x σ.pos)).offset + 3) = x (σ.pos + 3)
  · rw [if_neg (not_not.2 h3)] at hlen
    rw [if_neg fun hd => (Compressing.fourthDiffers_iff hsame).1 hd h3]
    unfold Compressing.store
    dsimp only
    have hend : matchEnd x size (s.hash (keyAt x σ.pos)).offset σ.pos = σ.pos + t.len := by
      have := t.three_le
      omega
    rw [← hlen, hend, hhash]
    by_cases h18 : t.len < 18
    · rw [if_pos h18, if_pos h18, if_pos h18]
    · rw [if_neg h18, if_neg h18, if_neg h18]
  · rw [if_pos h3] at hlen
    rw [if_pos ((Compressing.fourthDiffers_iff hsame).2 h3)]
    dsimp only
    rw [hlen, hhash]
    rfl

theorem token_literal (h : Searches b x size σ s) (hsrc : s.src = σ.pos)
    (hfetch : s.fetch = fastRead b x σ.pos 3) (hfound : ¬ Found x σ s) :
    s.token b x size =
      { s.literal x with
        hash := entered b x σ s
        fetch := fastRead b x (s.src + 1) 3
        lits := s.lits + 1 } := by
  unfold Compressing.token
  rw [hfetch, hashFunc_fastRead, hsrc]
  dsimp only
  rw [if_neg fun hc => hfound (h.found_iff.1 hc), ← entered]
  unfold Compressing.literal
  dsimp only
  rw [Compressing.nextFetch_eq rfl, hsrc]

/-- The token that the first loop writes. -/
def Chooses (x : Mem) (size : Nat) (σ : Spelling) (s : Compressing) : Token → Prop
  | .lit c => ¬ Found x σ s ∧ c = x σ.pos
  | .copy t => Found x σ s ∧ t.hash = keyAt x σ.pos ∧
      t.len = foundLen x size (s.hash (keyAt x σ.pos)).offset σ.pos

/-- **One pass of the first loop writes one token** and enters its place. -/
theorem token_step (ho : Encodes x buf₀ size destination full cur σ s) (hs : Searches b x size σ s)
    (hroom : cur.length < 31) (hfar : (σ.pos : Int) ≤ lastMatchstart size) :
    ∃ t, Chooses x size σ s t ∧ (s.token b x size).hash = entered b x σ s ∧
      Encodes x buf₀ size destination full (cur ++ [t]) (σ.next t) (s.token b x size) ∧
      Searches b x size (σ.next t) (s.token b x size) := by
  have hsrc := ho.src
  have hfetch := hs.fetch hfar
  have hp : σ.pos + 11 ≤ size := by
    unfold lastMatchstart lastByte unconditionalMatchlen uncompressedEnd at hfar
    omega
  by_cases hfound : Found x σ s
  · obtain ⟨h0, hsame, hwhere⟩ := id hfound
    obtain ⟨h3, h255, hfits, hlen⟩ := foundLen_spec hp (eq_of_le24 hsame)
    let t : Match := ⟨keyAt x σ.pos, _, keyAt_lt x σ.pos, h3, h255⟩
    have hallows : Allows x size σ (.copy t) := hs.allows hfar hfits rfl h0 hwhere hlen
    have htoken := token_found hs hsrc hfetch hfound (t := t) rfl rfl
    have hhash : (s.token b x size).hash = entered b x σ s := by rw [htoken]
    have hlen3 := t.three_le
    obtain ⟨htable, hcache⟩ := hs.enter (n := σ.pos + t.len) (by omega) hhash
    refine ⟨.copy t, ⟨hfound, rfl, rfl⟩, hhash, ?_, ?_, ?_, ?_, hcache⟩
    · exact ho.copied hroom hallows (by rw [htoken]) (by rw [htoken]) (by rw [htoken])
        (by rw [htoken]) (by rw [htoken])
    · rw [htoken]
      exact Nat.zero_add _
    · intro _
      rw [htoken]
      dsimp only
      rw [hsrc]
      rfl
    · exact htable
  · have htoken := token_literal hs hsrc hfetch hfound
    have hlits := hs.lits
    have hhash : (s.token b x size).hash = entered b x σ s := by rw [htoken]
    obtain ⟨htable, hcache⟩ := hs.enter (n := σ.pos + 1) (by omega) hhash
    have hlit := ho.literal hroom (by omega)
    refine ⟨.lit (x σ.pos), ⟨hfound, rfl⟩, hhash, ?_, ?_, ?_, ?_, hcache⟩
    · rw [htoken]
      exact { hlit with }
    · rw [htoken]
      change s.lits + 1 + σ.last = σ.pos + 1
      omega
    · intro _
      rw [htoken]
      dsimp only
      rw [hsrc]
      rfl
    · exact htable

end Search

end Quicklz

end Opennop
