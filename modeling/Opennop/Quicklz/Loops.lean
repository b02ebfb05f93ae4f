import Opennop.Quicklz.Encoder

/-!
# The compressor, from the first byte to the last

The first loop writes tokens for as long as a match could still begin, the second one writes
literals. A token is no longer than what it stands for, but a control word comes on top of every 31
of them. The test for a low ratio keeps this small: whenever a control word is begun, what is
written so far is no longer than the whole input.
-/

namespace Opennop

namespace Quicklz

open Mem Spelling

/-! ## Lengths -/

theorem pos_run (σ : Spelling) (ts : List Token) :
    (Trace.run next σ ts).pos = σ.pos + (ts.map Token.span).sum := by
  induction ts generalizing σ with
  | nil => rfl
  | cons t ts ih =>
    rw [Trace.run_cons, ih, pos_next, List.map_cons, List.sum_cons]
    omega

theorem length_flatMap_le_span (ts : List Token) :
    (ts.flatMap Token.bytes).length ≤ (ts.map Token.span).sum := by
  induction ts with
  | nil => exact Nat.le_refl 0
  | cons t ts ih =>
    have := t.length_bytes_le
    rw [List.flatMap_cons, List.length_append, List.map_cons, List.sum_cons]
    omega

theorem length_flatMap_le_three (ts : List Token) :
    (ts.flatMap Token.bytes).length ≤ 3 * ts.length := by
  induction ts with
  | nil => exact Nat.le_refl 0
  | cons t ts ih =>
    have := t.length_bytes_le_three
    rw [List.flatMap_cons, List.length_append, List.length_cons]
    omega

theorem length_le_span (ts : List Token) : ts.length ≤ (ts.map Token.span).sum := by
  induction ts with
  | nil => exact Nat.le_refl 0
  | cons t ts ih =>
    have : 1 ≤ t.span := by
      cases t with
      | lit c => exact Nat.le_refl 1
      | copy t => exact Nat.le_trans (by decide) t.three_le
    rw [List.length_cons, List.map_cons, List.sum_cons]
    omega

/-- Full groups are at most twice as long as what they stand for. -/
theorem length_encode_le {ts : List Token} (h : ts.length % 31 = 0) :
    (encode 0 ts).length ≤ 2 * (ts.map Token.span).sum := by
  have hlen : ts.length = 0 + ts.length / 31 * 31 := by omega
  have hbytes := length_flatMap_le_span ts
  have hspan := length_le_span ts
  unfold encode
  rw [length_grouped (by decide) (length_leBytes 4) hlen]
  omega

theorem pos_le_of_allows {x : Mem} {size : Nat} {σ : Spelling} {t : Token} (h : Allows x size σ t) :
    σ.pos < (σ.next t).pos ∧ (σ.next t).pos ≤ size := by
  rw [pos_next]
  cases t with
  | lit c =>
    have := h.1
    change σ.pos < σ.pos + 1 ∧ σ.pos + 1 ≤ size
    omega
  | copy t =>
    have hfits := h.2.1
    have := t.three_le
    unfold uncompressedEnd at hfits
    change σ.pos < σ.pos + t.len ∧ σ.pos + t.len ≤ size
    omega

section Loops

variable {b : Build} {x buf₀ : Mem} {size destination : Nat} {full cur : List Token} {σ : Spelling}
  {s : Compressing}

theorem Encodes.last_allowed {t : Token}
    (h : Encodes x buf₀ size destination full (cur ++ [t]) (σ.next t) s)
    (hσ : Trace.run next start (full ++ cur) = σ) : Allows x size σ t := by
  have halong := h.along
  rw [← List.append_assoc, Trace.along_append, hσ] at halong
  exact halong.2.1

theorem Encodes.dst_le (h : Encodes x buf₀ size destination full cur σ s) :
    s.dst ≤ s.cwordPtr + 97 := by
  have hdst := h.dst
  have hroom := h.room
  have := length_flatMap_le_three cur
  omega

theorem Encodes.dst_le_of_full (h : Encodes x buf₀ size destination full cur σ s)
    (hfull : cur.length = 31) : s.dst ≤ destination + 2 * σ.pos := by
  have hgroups := h.groups
  have hlen := (h.close (b := .portable) (by rintro rfl; cases hfull)).2
  have hle : (encode 0 (full ++ cur)).length ≤ _ :=
    length_encode_le (by rw [List.length_append]; omega)
  have hpos := pos_run start (full ++ cur)
  rw [h.reach] at hpos
  change σ.pos = 0 + _ at hpos
  omega

def fullAfter (full cur : List Token) : List Token :=
  if cur.length = 31 then full ++ cur else full

def curAfter (cur : List Token) (t : Token) : List Token :=
  if cur.length = 31 then [t] else cur ++ [t]

theorem curAfter_ne_nil (cur : List Token) (t : Token) : curAfter cur t ≠ [] := by
  unfold curAfter
  split <;> simp

/-! ## The first loop -/

/-- Between two passes of the first loop. -/
structure Running (b : Build) (x buf₀ : Mem) (size destination : Nat) (full cur : List Token)
    (σ : Spelling) (s : Compressing) : Prop where
  out : Encodes x buf₀ size destination full cur σ s
  search : Searches b x size σ s
  pos_le : σ.pos ≤ size
  ptr_le : s.cwordPtr ≤ destination + size

/-- What the first loop leaves: tokens up to the place where no match can begin any more, or an
input that is not worth it. -/
def Left (x buf₀ : Mem) (size destination : Nat) (r : Compressing × Bool) : Prop :=
  if r.2 then
    ∃ full cur σ, Encodes x buf₀ size destination full cur σ r.1 ∧ σ.pos ≤ size ∧
      lastMatchstart size < σ.pos ∧ r.1.cwordPtr ≤ destination + size ∧ (cur = [] → full = [])
  else r.1.dst ≤ destination + size + 97 ∧
    ∀ i, i < destination ∨ r.1.dst + 4 ≤ i → r.1.buf i = buf₀ i

theorem Running.token (h : Running b x buf₀ size destination full cur σ s) (hroom : cur.length < 31)
    (hfar : (σ.pos : Int) ≤ lastMatchstart size) :
    ∃ t, Chooses x size σ s t ∧ (s.token b x size).hash = entered b x σ s ∧
      Running b x buf₀ size destination full (cur ++ [t]) (σ.next t) (s.token b x size) := by
  obtain ⟨t, hchosen, hhash, hout, hsearch⟩ := token_step h.out h.search hroom hfar
  refine ⟨t, hchosen, hhash, hout, hsearch,
    (pos_le_of_allows (hout.last_allowed h.out.reach)).2, ?_⟩
  rw [hout.ptr, ← h.out.ptr]
  exact h.ptr_le

/-- The test for the ratio has passed: what is written is no longer than the input. -/
theorem Running.dst_le (h : Running b x buf₀ size destination full cur σ s)
    (hfull : cur.length = 31) (hratio : s.ratioTooLow size destination = false) :
    s.dst ≤ destination + size := by
  have htwice := h.out.dst_le_of_full hfull
  have hsrc := h.out.src
  have hpos := h.pos_le
  have hdst := h.out.dst
  have hptr := h.out.ptr
  unfold Compressing.ratioTooLow at hratio
  rw [Bool.and_eq_false_iff, decide_eq_false_iff_not, decide_eq_false_iff_not,
    Nat.shiftRight_eq_div_pow, Nat.shiftRight_eq_div_pow] at hratio
  omega

theorem Running.flush (h : Running b x buf₀ size destination full cur σ s) (hfull : cur.length = 31)
    (hratio : s.ratioTooLow size destination = false) :
    Running b x buf₀ size destination (full ++ cur) [] σ
      { s.flush b with fetch := fastRead b x s.src 3 } := by
  have hout := h.out.flush (b := b) hfull
  refine ⟨{ hout with }, ⟨h.search.lits, ?_, h.search.table, h.search.cache⟩, h.pos_le,
    h.dst_le hfull hratio⟩
  intro _
  change fastRead b x s.src 3 = _
  rw [h.out.src]

theorem Running.pass_low (h : Running b x buf₀ size destination full cur σ s)
    (hfar : (σ.pos : Int) ≤ lastMatchstart size) (hfull : cur.length = 31)
    (hratio : s.ratioTooLow size destination = true) :
    Compressing.pass b x size destination s = .ok (.done (s, false)) := by
  unfold Compressing.pass
  rw [h.out.src, if_pos hfar, if_pos (h.out.full_iff.2 hfull), if_pos hratio]

theorem Running.pass_far (h : Running b x buf₀ size destination full cur σ s)
    (hfar : ¬ (σ.pos : Int) ≤ lastMatchstart size) :
    Compressing.pass b x size destination s = .ok (.done (s, true)) := by
  unfold Compressing.pass
  rw [h.out.src, if_neg hfar]

theorem Running.pass_token (h : Running b x buf₀ size destination full cur σ s)
    (hfar : (σ.pos : Int) ≤ lastMatchstart size)
    (hratio : cur.length = 31 → s.ratioTooLow size destination = false) :
    ∃ t s', Compressing.pass b x size destination s = .ok (.again s') ∧ Chooses x size σ s t ∧
      s'.hash = entered b x σ s ∧
      Running b x buf₀ size destination (fullAfter full cur) (curAfter cur t) (σ.next t) s' ∧
      size - s'.src < size - s.src := by
  have hshorter : ∀ {full cur s₁ t}, Running b x buf₀ size destination full cur σ s₁ →
      Running b x buf₀ size destination full (cur ++ [t]) (σ.next t) (s₁.token b x size) →
      size - (s₁.token b x size).src < size - σ.pos := by
    intro full cur s₁ t h₁ h₂
    have hpos := pos_le_of_allows (h₂.out.last_allowed h₁.out.reach)
    rw [h₂.out.src]
    omega
  unfold Compressing.pass fullAfter curAfter
  rw [h.out.src, if_pos hfar]
  by_cases hfull : cur.length = 31
  · have hflush := h.flush hfull (hratio hfull)
    obtain ⟨t, hchosen, hhash, ht⟩ := hflush.token (by decide) hfar
    refine ⟨t, _, ?_, hchosen, hhash, ?_, hshorter hflush ht⟩
    · rw [if_pos (h.out.full_iff.2 hfull), hratio hfull, if_neg (by decide), h.out.src]
    · rw [if_pos hfull, if_pos hfull]
      exact ht
  · have hroom := h.out.room
    obtain ⟨t, hchosen, hhash, ht⟩ := h.token (by omega) hfar
    refine ⟨t, _, ?_, hchosen, hhash, ?_, hshorter h ht⟩
    · rw [if_neg (mt h.out.full_iff.1 hfull)]
    · rw [if_neg hfull, if_neg hfull]
      exact ht

theorem Running.pass (h : Running b x buf₀ size destination full cur σ s)
    (hne : cur = [] → full = []) :
    (∃ s', Compressing.pass b x size destination s = .ok (.again s') ∧
      (∃ full' cur' σ', Running b x buf₀ size destination full' cur' σ' s' ∧
      (cur' = [] → full' = [])) ∧ size - s'.src < size - s.src) ∨
    ∃ r, Compressing.pass b x size destination s = .ok (.done r) ∧
      Left x buf₀ size destination r := by
  by_cases hfar : (σ.pos : Int) ≤ lastMatchstart size
  · by_cases hlow : cur.length = 31 ∧ s.ratioTooLow size destination = true
    · right
      refine ⟨(s, false), h.pass_low hfar hlow.1 hlow.2, ?_, h.out.rest⟩
      have := h.out.dst_le
      have := h.ptr_le
      change s.dst ≤ _
      omega
    · left
      obtain ⟨t, s', hpass, -, -, h', hlt⟩ := h.pass_token hfar
        fun hfull => eq_false_of_ne_true fun hratio => hlow ⟨hfull, hratio⟩
      exact ⟨s', hpass, ⟨_, _, _, h', fun hnil => absurd hnil (curAfter_ne_nil cur t)⟩, hlt⟩
  · right
    exact ⟨(s, true), h.pass_far hfar, full, cur, σ, h.out, h.pos_le, by omega, h.ptr_le, hne⟩

/-! ## The second loop -/

/-- Between two passes of the second loop: a literal and a control word need five bytes. -/
structure Finishing (x buf₀ : Mem) (size destination : Nat) (full cur : List Token) (σ : Spelling)
    (s : Compressing) : Prop where
  out : Encodes x buf₀ size destination full cur σ s
  pos_le : σ.pos ≤ size
  dst_le : s.dst + 5 * (size - σ.pos) ≤ destination + size + 147

theorem Encodes.withHash (h : Encodes x buf₀ size destination full cur σ s) (hash : CompressTable) :
    Encodes x buf₀ size destination full cur σ { s with hash := hash } := { h with }

theorem Finishing.tailPass (h : Finishing x buf₀ size destination full cur σ s)
    (hpos : σ.pos < size) :
    ∃ s', Compressing.tailPass b x size s = .ok (.again s') ∧
      Finishing x buf₀ size destination (fullAfter full cur) (curAfter cur (.lit (x σ.pos)))
        σ.literal s' := by
  have hle := h.dst_le
  -- the control word, if the group is full
  obtain ⟨s₁, cur', hflush, hout, hroom, hcur, hdst⟩ : ∃ s₁ cur',
      (if s.cwordVal &&& 1 = 1 then s.flush b else s) = s₁ ∧
        Encodes x buf₀ size destination (fullAfter full cur) cur' σ s₁ ∧ cur'.length < 31 ∧
        (∀ t, curAfter cur t = cur' ++ [t]) ∧ s₁.dst ≤ s.dst + 4 := by
    unfold fullAfter curAfter
    by_cases hfull : cur.length = 31
    · rw [if_pos hfull]
      refine ⟨_, [], if_pos (h.out.full_iff.2 hfull),
        h.out.flush hfull, by decide, ?_, Nat.le_refl _⟩
      intro t
      rw [if_pos hfull, List.nil_append]
    · have hroom := h.out.room
      rw [if_neg hfull]
      exact ⟨_, cur, if_neg (mt h.out.full_iff.1 hfull), h.out, by omega, fun t => if_neg hfull,
        Nat.le_add_right _ _⟩
  -- the entry of the table
  obtain ⟨s₂, hentry, hout₂, hdst₂⟩ : ∃ s₂,
      (if (s₁.src : Int) ≤ lastByte size - 3 then
        { s₁ with hash := Function.update s₁.hash (hashFunc (fastRead b x s₁.src 3))
                    ⟨fastRead b x s₁.src 3, s₁.src⟩ }
      else s₁) = s₂ ∧ Encodes x buf₀ size destination (fullAfter full cur) cur' σ s₂ ∧
        s₂.dst = s₁.dst := by
    by_cases hin : (s₁.src : Int) ≤ lastByte size - 3
    · exact ⟨_, if_pos hin, hout.withHash _, rfl⟩
    · exact ⟨_, if_neg hin, hout, rfl⟩
  rw [hcur]
  refine ⟨s₂.literal x, ?_, hout₂.literal hroom hpos, hpos, ?_⟩
  · unfold Compressing.tailPass
    rw [if_pos (by rw [h.out.src]; unfold lastByte; omega)]
    dsimp only
    rw [hflush, hentry]
  · change s₂.dst + 1 + 5 * (size - (σ.pos + 1)) ≤ _
    omega

theorem Finishing.tailPass_end (h : Finishing x buf₀ size destination full cur σ s)
    (hpos : ¬ σ.pos < size) :
    Compressing.tailPass b x size s = .ok (.done s) := by
  unfold Compressing.tailPass lastByte
  rw [if_neg (by rw [h.out.src]; omega)]

def Finished (x buf₀ : Mem) (size destination : Nat) (s : Compressing) : Prop :=
  ∃ full cur σ, Finishing x buf₀ size destination full cur σ s ∧ σ.pos = size ∧
    (cur = [] → full = [])

theorem Finishing.loop (h : Finishing x buf₀ size destination full cur σ s)
    (hne : cur = [] → full = []) :
    ∃ s', Opennop.loop (Compressing.tailPass b x size) (size + 1) s = .ok s' ∧
      Finished x buf₀ size destination s' := by
  apply loop_total (I := fun s => ∃ full cur σ, Finishing x buf₀ size destination full cur σ s ∧
    (cur = [] → full = [])) (fun s => size - s.src) _ ⟨full, cur, σ, h, hne⟩ (by omega)
  rintro s ⟨full, cur, σ, h, hne⟩
  have hsrc := h.out.src
  by_cases hpos : σ.pos < size
  · left
    obtain ⟨s', hpass, h'⟩ := h.tailPass (b := b) hpos
    refine ⟨s', hpass, ⟨_, _, σ.literal, h', fun hnil => absurd hnil (curAfter_ne_nil cur _)⟩, ?_⟩
    have hsrc' := h'.out.src
    change s'.src = σ.pos + 1 at hsrc'
    omega
  · right
    exact ⟨s, h.tailPass_end hpos, full, cur, σ, h, Nat.le_antisymm h.pos_le (by omega), hne⟩

/-! ## Around the loops -/

theorem running_start (b : Build) (x buf : Mem) (size destination : Nat) {hash : CompressTable}
    (hhash : ∀ h, (hash h).offset = 0) :
    Running b x buf size destination [] [] start
      ⟨0, destination + cwordLen, destination, 1 <<< 31,
        if 0 ≤ lastMatchstart size then fastRead b x 0 3 else 0, 0, buf, hash⟩ := by
  refine ⟨⟨trivial, rfl,
    rfl, by decide, rfl, holds_nil _ _, rfl, holds_nil _ _, rfl, rfl, fun _ _ => rfl⟩,
    ⟨rfl, ?_, ?_, ?_⟩, Nat.zero_le _, Nat.le_add_right _ _⟩
  · intro h
    exact if_pos h
  · intro h q hq
    rw [places, if_pos (hhash h)] at hq
    cases hq
  · intro h hne
    exact absurd (hhash h) hne

theorem Encodes.finishing (h : Encodes x buf₀ size destination full cur σ s) (hpos : σ.pos ≤ size)
    (hfar : lastMatchstart size < σ.pos) (hptr : s.cwordPtr ≤ destination + size) :
    Finishing x buf₀ size destination full cur σ s := by
  refine ⟨h, hpos, ?_⟩
  have := h.dst_le
  unfold lastMatchstart lastByte unconditionalMatchlen uncompressedEnd at hfar
  omega

/-- Behind the last byte the last control word is stored, and the tokens are complete. -/
theorem Finishing.close (h : Finishing x buf₀ size destination full cur σ s) (hend : σ.pos = size)
    (hne : cur = [] → full = []) (hsize : 0 < size) :
    (fastWrite b s.buf ((shiftOut 32 s.cwordVal >>> 1) ||| (1 <<< 31)) s.cwordPtr
    cwordLen).Holds destination
        (encode 0 (full ++ cur)) ∧
      s.dst = destination + (encode 0 (full ++ cur)).length := by
  have hcur : cur ≠ [] := by
    intro hnil
    have hreach := h.out.reach
    rw [hnil, hne hnil] at hreach
    rw [← hend, ← hreach] at hsize
    exact Nat.lt_irrefl 0 hsize
  have hword : (shiftOut 32 s.cwordVal >>> 1) ||| (1 <<< 31) =
      flagWord 31 (cur.map Token.isCopy) := by
    have hroom := h.out.room
    have hlt : openWord 0 (cur.map Token.isCopy) < 2 <<< 31 := by
      apply Nat.lt_of_lt_of_le (openWord_lt 0 _)
      rw [Nat.shiftLeft_eq, Nat.shiftLeft_eq, List.length_map, Nat.zero_add]
      exact Nat.mul_le_mul_left 2 (Nat.pow_le_pow_right (by decide) hroom)
    rw [h.out.word, shiftOut_openWord (by omega), marked_eq hlt,
      flagWord_of_openWord (by rw [List.length_map]; exact hroom)]
  rw [hword]
  exact h.out.close hcur

end Loops

/-! ## The whole -/

/-- What `qlz_compress_core` leaves in the destination: the tokens of the input, or nothing of
use. -/
def Stores (x buf : Mem) (size destination r : Nat) : Prop :=
  r = 0 ∨ (9 ≤ r ∧ r ≤ size + 156 ∧ ∃ ts, Spells x size start ts ∧
    buf.Holds destination (encode 0 ts) ∧ (encode 0 ts).length ≤ r)

/-- **The compressor writes tokens that spell the input**, or gives up. It stays within 151 bytes
more than the input. -/
theorem qlzCompressCore_stores (b : Build) (x buf : Mem) (destination : Nat) {size : Nat}
    (hsize : 0 < size) {hash : CompressTable} (hhash : ∀ h, (hash h).offset = 0) :
    ∃ r buf' hash', qlzCompressCore b x buf destination size hash = .ok (r, buf', hash') ∧
      Stores x buf' size destination r ∧
      ∀ i, i < destination ∨ destination + size + 151 ≤ i → buf' i = buf i := by
  have hpass : ∀ s, (∃ full cur σ, Running b x buf size destination full cur σ s ∧
    (cur = [] → full = [])) → (∃ s', Compressing.pass b x size destination s = .ok (.again s') ∧
        (∃ full cur σ, Running b x buf size destination full cur σ s' ∧ (cur = [] → full = [])) ∧
          size - s'.src < size - s.src) ∨
      ∃ r, Compressing.pass b x size destination s = .ok (.done r) ∧
        Left x buf size destination r := by
    rintro s ⟨full, cur, σ, h, hne⟩
    exact h.pass hne
  obtain ⟨⟨s, go⟩, hloop, hleft⟩ := loop_total (fun s : Compressing => size - s.src) hpass
    ⟨[], [], start, running_start b x buf size destination hhash, fun _ => rfl⟩
      (show size - 0 < size + 1 by omega)
  unfold qlzCompressCore
  dsimp only
  rw [hloop, ok_bind]
  cases go with
  | false =>
    obtain ⟨hdst, hrest⟩ := hleft
    refine ⟨0, s.buf, s.hash, rfl, .inl rfl, ?_⟩
    intro i hi
    change s.dst ≤ _ at hdst
    exact hrest i (by dsimp only; omega)
  | true =>
    obtain ⟨full, cur, σ, hout, hpos, hfar, hptr, hne⟩ := hleft
    dsimp only at hout hptr
    have hfin := hout.finishing hpos hfar hptr
    obtain ⟨s', hloop', full', cur', σ', hfin', hend, hne'⟩ := hfin.loop (b := b) hne
    obtain ⟨hstored, hlen⟩ := hfin'.close (b := b) hend hne' hsize
    have hdst := hfin'.dst_le
    have hptr' := hfin'.out.ptr
    have hdst' := hfin'.out.dst
    rw [if_pos rfl, hloop', ok_bind]
    refine ⟨_, _, _, rfl, .inr ⟨?_, ?_, full' ++ cur', ⟨hfin'.out.along, ?_⟩, hstored, ?_⟩, ?_⟩
    · split <;> omega
    · split <;> omega
    · rw [hfin'.out.reach, hend]
    · split <;> omega
    · intro i hi
      rw [fastWrite_out _ _ _ _ (by omega)]
      exact hfin'.out.rest i (by omega)

end Quicklz

end Opennop
