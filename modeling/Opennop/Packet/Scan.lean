import Opennop.Lib.Options
import Opennop.Packet.TcpOptions

/-!
# Scanning a well-formed option area

On an area that holds encoded options and then zeros, the scans of `tcpoptions.c` visit exactly the
options, one after the other, and then the zeros, one byte at a time. A scan is therefore a search
in the list of options, and the loops that remove NOPs leave the area with the list squeezed.
-/

namespace Opennop

open Mem

/-- The `n` bytes from `opt` on hold the options `os` and then zeros. -/
structure Area (p : Mem) (opt n : Nat) (os : List Opt) : Prop where
  ok : ∀ o ∈ os, o.Ok
  fits : (encode os).length ≤ n
  holds : p.Holds opt (encode os ++ List.replicate (n - (encode os).length) 0)

instance (p : Mem) (opt n : Nat) (os : List Opt) : Decidable (Area p opt n os) :=
  decidable_of_iff ((∀ o ∈ os, o.Ok) ∧ (encode os).length ≤ n ∧
      p.Holds opt (encode os ++ List.replicate (n - (encode os).length) 0))
    ⟨fun h => ⟨h.1, h.2.1, h.2.2⟩, fun h => ⟨h.ok, h.fits, h.holds⟩⟩

theorem Area.options {p : Mem} {opt n : Nat} {os : List Opt} (h : Area p opt n os) :
    p.Holds opt (encode os) := (holds_append.1 h.holds).1

theorem Area.pad {p : Mem} {opt n : Nat} {os : List Opt} (h : Area p opt n os) {i : Nat}
    (h₁ : (encode os).length ≤ i) (h₂ : i < n) : p (opt + i) = 0 := by
  have := holds_replicate.1 (holds_append.1 h.holds).2 (i - (encode os).length) (by omega)
  rwa [show opt + (encode os).length + (i - (encode os).length) = opt + i by omega] at this

theorem Area.mid {p : Mem} {opt n : Nat} {pre post : List Opt} {o : Opt}
    (h : Area p opt n (pre ++ o :: post)) : p.Holds (opt + (encode pre).length) o.encode := by
  have := h.options
  rw [encode_append, encode_cons, holds_append, holds_append] at this
  exact this.2.1

theorem Area.congr {p p' : Mem} {opt n : Nat} {os : List Opt} (h : Area p opt n os)
    (hp : ∀ i, opt ≤ i → i < opt + n → p' i = p i) : Area p' opt n os := by
  refine ⟨h.ok, h.fits, h.holds.congr fun i h₁ h₂ => hp i h₁ ?_⟩
  have := h.fits
  simp only [List.length_append, List.length_replicate] at h₂
  omega

/-! ## Steps of a scan -/

section Step

variable {p : Mem} {opt n i : Nat}

theorem optlen_encode {o : Opt} (ho : o.Ok) (h : p.Holds (opt + i) o.encode) :
    optlen p opt i = o.encode.length := by
  unfold optlen
  cases o with
  | nop =>
    have h₁ := (holds_cons.1 h).1
    rw [if_pos (.inl (by rw [h₁]; decide)), Opt.length_encode_nop]
  | opt k d =>
    obtain ⟨hk, hd⟩ := ho
    obtain ⟨h₁, h₂⟩ := holds_cons.1 h
    have hlen : (p (opt + i + 1)).toNat = d.length + 2 := by
      rw [(holds_cons.1 h₂).1, UInt8.toNat_ofNat']
      omega
    have hne : p (opt + i + 1) ≠ 0 := by
      intro h₀
      rw [h₀] at hlen
      simp at hlen
    have hgt : ¬ p (opt + i) ≤ tcpoptNop := by
      rw [h₁, UInt8.not_le]
      exact UInt8.lt_of_lt_of_le (by decide) hk
    rw [if_neg (by simp [hgt, hne]), hlen, Opt.length_encode_opt]

theorem optlen_zero (h : p (opt + i) = 0) : optlen p opt i = 1 := by
  unfold optlen
  rw [if_pos (.inl (by rw [h]; decide))]

variable {hit : Nat → Bool}

theorem scanPass_hit (hi : i < n) (h : hit i = true) :
    scanPass p opt n hit i = .ok (.done (some i)) := by
  simp [scanPass, hi, h]

theorem scanPass_miss (hi : i < n) (h : hit i = false) :
    scanPass p opt n hit i = .ok (.again ((i + optlen p opt i) % 256)) := by
  simp [scanPass, hi, h]

theorem scanPass_end (hi : n ≤ i) : scanPass p opt n hit i = .ok (.done none) := by
  simp [scanPass, Nat.not_lt.2 hi]

end Step

/-! ## Whole scans -/

section Scan

variable {p : Mem} {opt n : Nat} {hit : Nat → Bool} {h : Opt → Bool} {os : List Opt}

/-- At the start of an option, `hit` tells what `h` tells of the option. -/
def Decides (p : Mem) (opt n : Nat) (hit : Nat → Bool) (h : Opt → Bool) : Prop :=
  ∀ i o, o.Ok → p.Holds (opt + i) o.encode → i + o.encode.length ≤ n → hit i = h o

theorem scan_skip (hd : Decides p opt n hit h) (hn : n < 256) (fuel : Nat) :
    ∀ {pre : List Opt} {i : Nat}, (∀ o ∈ pre, o.Ok) → (∀ o ∈ pre, h o = false) →
      p.Holds (opt + i) (encode pre) → i + (encode pre).length ≤ n →
      loop (scanPass p opt n hit) (pre.length + fuel) i =
        loop (scanPass p opt n hit) fuel (i + (encode pre).length) := by
  intro pre
  induction pre with
  | nil => intro i _ _ _ _; simp
  | cons o pre ih =>
    intro i hok hmiss hholds hfit
    rw [encode_cons, holds_append] at hholds
    rw [encode_cons, List.length_append] at hfit
    have ho := hok o List.mem_cons_self
    have hpos := o.length_encode_pos
    have hhit : hit i = false := by
      rw [hd i o ho hholds.1 (by omega)]
      exact hmiss o List.mem_cons_self
    rw [List.length_cons, show pre.length + 1 + fuel = (pre.length + fuel) + 1 by omega,
      loop_again (scanPass_miss (by omega) hhit), optlen_encode ho hholds.1,
      Nat.mod_eq_of_lt (by omega), ih (fun o h => hok o (List.mem_cons_of_mem _ h))
      (fun o h => hmiss o (List.mem_cons_of_mem _ h)) (by rw [← Nat.add_assoc]; exact hholds.2)
      (by omega), encode_cons, List.length_append, Nat.add_assoc]

theorem scan_pad (hn : n < 256) (hz : ∀ i, p (opt + i) = 0 → hit i = false) :
    ∀ {fuel i : Nat}, (∀ j, i ≤ j → j < n → p (opt + j) = 0) → i ≤ n → n - i < fuel →
      loop (scanPass p opt n hit) fuel i = .ok none := by
  intro fuel
  induction fuel with
  | zero => intro i _ _ hf; omega
  | succ fuel ih =>
    intro i hpad hi hf
    by_cases hin : i < n
    · have h₀ := hpad i (Nat.le_refl i) hin
      rw [loop_again (scanPass_miss hin (hz i h₀)), optlen_zero h₀, Nat.mod_eq_of_lt (by omega)]
      exact ih (fun j h₁ h₂ => hpad j (by omega) h₂) (by omega) (by omega)
    · exact loop_done (scanPass_end (by omega))

theorem scan_first {pre post : List Opt} {o : Opt} (hA : Area p opt n (pre ++ o :: post))
    (hd : Decides p opt n hit h) (hn : n < 256) (hpre : ∀ o ∈ pre, h o = false) (ho : h o = true) :
    scan p opt n hit = .ok (some (encode pre).length) := by
  have hfits := hA.fits
  have hpos := o.length_encode_pos
  rw [encode_append, encode_cons, List.length_append, List.length_append] at hfits
  have hlen := length_le_encode pre
  have hok : o.Ok := hA.ok o (by simp)
  have hholds := hA.options
  rw [encode_append, holds_append] at hholds
  unfold scan
  rw [show 257 = pre.length + ((256 - pre.length) + 1) by omega,
    scan_skip hd hn _ (fun o h => hA.ok o (by simp [h])) hpre (by simpa using hholds.1)
      (by omega), Nat.zero_add]
  apply loop_done
  apply scanPass_hit (by omega)
  rw [hd _ o hok hA.mid (by omega)]
  exact ho

theorem scan_none (hA : Area p opt n os) (hd : Decides p opt n hit h) (hn : n < 256)
    (hz : ∀ i, p (opt + i) = 0 → hit i = false) (hos : ∀ o ∈ os, h o = false) :
    scan p opt n hit = .ok none := by
  have hfits := hA.fits
  have hlen := length_le_encode os
  unfold scan
  rw [show 257 = os.length + (257 - os.length) by omega,
    scan_skip hd hn _ hA.ok hos (by simpa using hA.options) (by omega), Nat.zero_add]
  exact scan_pad hn hz (fun j h₁ h₂ => hA.pad h₁ h₂) (by omega) (by omega)

theorem scan_eol (hA : Area p opt n os) (hd : Decides p opt n hit fun _ => false) (hn : n < 256)
    (hz : ∀ i, p (opt + i) = 0 → hit i = true) :
    scan p opt n hit =
      .ok (if (encode os).length < n then some (encode os).length else none) := by
  have hfits := hA.fits
  have hlen := length_le_encode os
  unfold scan
  rw [show 257 = os.length + ((256 - os.length) + 1) by omega,
    scan_skip hd hn _ hA.ok (fun _ _ => rfl) (by simpa using hA.options) (by omega), Nat.zero_add]
  split
  · next hlt => exact loop_done (scanPass_hit hlt (hz _ (hA.pad (Nat.le_refl _) hlt)))
  · next hge => exact loop_done (scanPass_end (by omega))

theorem scan_find (hA : Area p opt n os) (hd : Decides p opt n hit h) (hn : n < 256)
    (hz : ∀ i, p (opt + i) = 0 → hit i = false) :
    (os.find? h = none ∧ scan p opt n hit = .ok none) ∨
      ∃ pre o post, os = pre ++ o :: post ∧ os.find? h = some o ∧ pre.find? h = none ∧
        scan p opt n hit = .ok (some (encode pre).length) := by
  cases hf : os.find? h with
  | none =>
    refine .inl ⟨rfl, scan_none hA hd hn hz fun o ho => ?_⟩
    simpa using List.find?_eq_none.1 hf o ho
  | some o =>
    obtain ⟨ho, pre, post, rfl, hpre⟩ := List.find?_eq_some_iff_append.1 hf
    refine .inr ⟨pre, o, post, rfl, rfl, List.find?_eq_none.2 fun a ha => by simpa using hpre a ha,
      scan_first hA hd hn (fun a ha => by simpa using hpre a ha) ho⟩

end Scan

theorem decides_kind (p : Mem) (opt n : Nat) (k : UInt8) :
    Decides p opt n (fun i => p (opt + i) == k) fun o => o.kind == k := by
  intro i o _ hh _
  cases o with
  | nop => simp only [(holds_cons.1 hh).1, Opt.kind]
  | opt k' d => simp only [(holds_cons.1 hh).1, Opt.kind]

theorem decides_eol (p : Mem) (opt n : Nat) :
    Decides p opt n (fun i => p (opt + i) == tcpoptEol) fun _ => false := by
  intro i o ho hh hi
  rw [decides_kind p opt n tcpoptEol i o ho hh hi]
  cases o with
  | nop => rfl
  | opt k d =>
    have : k ≠ tcpoptEol := by
      rintro rfl
      exact absurd ho.1 (by decide)
    simpa [Opt.kind] using this

/-! ## Removing NOPs -/

theorem removeByte_outside (p : Mem) {opt n i : Nat} (hi : i < n) :
    SameOutside p (removeByte p opt n i) opt n := by
  intro k hk
  unfold removeByte
  rw [set_ne _ _ (by omega), move_out _ (by omega)]

theorem removeByte_holds {p : Mem} {opt : Nat} {a b : List UInt8} {x : UInt8}
    (h : p.Holds opt (a ++ x :: b)) :
    (removeByte p opt (a.length + b.length + 1) a.length).Holds opt (a ++ (b ++ [0])) := by
  rw [holds_append, holds_cons] at h
  obtain ⟨ha, -, hb⟩ := h
  unfold removeByte
  rw [show a.length + b.length + 1 - a.length - 1 = b.length by omega,
    show opt + (a.length + b.length + 1) - 1 = opt + a.length + b.length by omega]
  rw [holds_append, holds_append]
  refine ⟨?_, ?_, ?_⟩
  · refine ha.congr fun i h₁ h₂ => ?_
    rw [set_ne _ _ (by omega), move_out _ (by omega)]
  · refine (hb.move (Nat.le_refl _)).congr fun i h₁ h₂ => ?_
    rw [set_ne _ _ (by omega)]
  · rw [holds_cons]
    exact ⟨set_self _ _ _, rfl⟩

/-- The inner loop takes out a run of NOP bytes and fills up with zeros. -/
theorem dropNops_holds {opt n : Nat} {a : List UInt8} :
    ∀ {c : Nat} (fuel : Nat) {b : List UInt8} {p : Mem}, c ≤ fuel →
      p.Holds opt (a ++ (List.replicate c 1 ++ b)) → n = a.length + c + b.length →
      0 < c + b.length → (∀ x ∈ b.head?, x ≠ 1) →
      ∃ p', loop (nopPass opt n a.length) (fuel + 1) p = .ok p' ∧
        p'.Holds opt (a ++ (b ++ List.replicate c 0)) ∧ SameOutside p p' opt n := by
  intro c
  induction c with
  | zero =>
    intro fuel b p _ hp hn hpos hb
    cases b with
    | nil => simp at hpos
    | cons x b =>
      have hx : p (opt + a.length) = x := (holds_cons.1 (holds_append.1 hp).2).1
      refine ⟨p, loop_done ?_, by simpa using hp, .refl _ _ _⟩
      unfold nopPass tcpoptNop
      rw [hx, if_neg (hb x rfl)]
  | succ c ih =>
    intro fuel b p hfuel hp hn hpos hb
    obtain ⟨fuel, rfl⟩ : ∃ f, fuel = f + 1 := ⟨fuel - 1, by omega⟩
    rw [List.replicate_succ, List.cons_append] at hp
    have h₁ : p (opt + a.length) = 1 := (holds_cons.1 (holds_append.1 hp).2).1
    have hstep := removeByte_holds hp
    simp only [List.length_append, List.length_replicate, List.append_assoc] at hstep
    rw [show a.length + (c + b.length) + 1 = n by omega] at hstep
    obtain ⟨p', hloop, hp', hsame⟩ := ih fuel (by omega) hstep
      (by rw [List.length_append, List.length_singleton]; omega)
      (by rw [List.length_append, List.length_singleton]; omega)
      (by cases b <;> simp_all)
    refine ⟨p', ?_, ?_, (removeByte_outside p (by omega)).trans hsame⟩
    · have hpass : nopPass opt n a.length p = .ok (.again (removeByte p opt n a.length)) := by
        unfold nopPass tcpoptNop
        rw [h₁, if_pos rfl]
      rw [loop_again hpass, hloop]
    · rw [List.replicate_succ]
      simpa using hp'

theorem exists_nops (os : List Opt) : ∃ c rest, os = List.replicate c .nop ++ rest ∧
    squeezed os = squeezed rest ∧ (rest = [] ∨ ∃ k d os', rest = .opt k d :: os') := by
  induction os with
  | nil => exact ⟨0, [], rfl, rfl, .inl rfl⟩
  | cons o os ih =>
    cases o with
    | nop =>
      obtain ⟨c, rest, h, hs, hr⟩ := ih
      exact ⟨c + 1, rest, by rw [h, List.replicate_succ, List.cons_append],
        by rw [squeezed_nop, hs], hr⟩
    | opt k d => exact ⟨0, .opt k d :: os, rfl, rfl, .inr ⟨k, d, os, rfl⟩⟩

theorem encode_replicate_nop (c : Nat) : encode (List.replicate c .nop) = List.replicate c 1 := by
  induction c with
  | zero => rfl
  | succ c ih => rw [List.replicate_succ, encode_cons, ih]; rfl

/-- One pass of the outer loops: the NOPs at the index go, and what follows is an option or the
padding. -/
theorem dropNops_area {p : Mem} {opt n : Nat} {pre rest : List Opt}
    (hA : Area p opt n (pre ++ rest)) (hi : (encode pre).length < n) :
    ∃ p' rest', dropNops opt n (encode pre).length p = .ok p' ∧ Area p' opt n (pre ++ rest') ∧
      SameOutside p p' opt n ∧ squeezed rest = squeezed rest' ∧
      (rest' = [] ∨ ∃ k d os, rest' = .opt k d :: os) := by
  obtain ⟨c, rest', rfl, hs, hr⟩ := exists_nops rest
  have hfits := hA.fits
  have hholds := hA.holds
  simp only [encode_append, encode_replicate_nop, List.append_assoc, List.length_append,
    List.length_replicate] at hfits hholds
  generalize hz : n - ((encode pre).length + (c + (encode rest').length)) = z at hholds
  obtain ⟨p', hloop, hp', hsame⟩ := dropNops_holds (n := n) n (by omega) hholds
    (by simp only [List.length_append, List.length_replicate]; omega)
    (by simp only [List.length_append, List.length_replicate]; omega) (by
      intro x hx
      rcases hr with rfl | ⟨k, d, os, rfl⟩
      · cases z with
        | zero => simp at hx
        | succ z => simp [List.replicate_succ] at hx; subst hx; decide
      · have hk := (hA.ok (.opt k d) (by simp)).1
        simp only [encode_cons, Opt.encode, List.cons_append, List.head?_cons,
          Option.mem_def, Option.some.injEq] at hx
        rintro rfl
        subst hx
        exact absurd hk (by decide))
  refine ⟨p', rest', hloop, ⟨fun o ho => hA.ok o ?_, ?_, ?_⟩, hsame, hs, hr⟩
  · rcases List.mem_append.1 ho with h | h <;> simp [h]
  · simp only [encode_append, List.length_append]
    omega
  · simp only [encode_append, List.append_assoc, List.length_append]
    rw [show n - ((encode pre).length + (encode rest').length) = z + c by omega,
      List.replicate_add, ← List.append_assoc (encode rest')]
    exact hp'

/-- **The walk of both loops.** `pass` drops the NOPs at its index and goes on behind the option
that is there then; `res` is the result, from the area and its free space. From the end of the
options `pre`, which hold no NOPs any more, the walk squeezes the options `rest` that follow. -/
theorem compact_loop {α : Type} {opt n : Nat} {pass : Mem × Nat → Exec (Pass (Mem × Nat) α)}
    (res : Mem → Nat → α) (hn : n < 256)
    (hnext : ∀ p p' i, i < n → dropNops opt n i p = .ok p' → p' (opt + i) ≠ tcpoptEol →
      pass (p, i) = .ok (.again (p', (i + optlen p' opt i) % 256)))
    (hpad : ∀ fuel p p' i, i < n → dropNops opt n i p = .ok p' →
      (∀ j, i ≤ j → j < n → p' (opt + j) = 0) → n - i < fuel →
      loop pass fuel (p, i) = .ok (res p' (n - i)))
    (hend : ∀ p i, n ≤ i → pass (p, i) = .ok (.done (res p 0))) :
    ∀ {fuel : Nat} {p : Mem} (pre : List Opt) {rest : List Opt}, Area p opt n (pre ++ rest) →
      n - (encode pre).length < fuel →
      ∃ p', loop pass fuel (p, (encode pre).length) =
          .ok (res p' (n - (encode (pre ++ squeezed rest)).length)) ∧
        Area p' opt n (pre ++ squeezed rest) ∧ SameOutside p p' opt n := by
  intro fuel
  induction fuel with
  | zero => intro p pre rest _ hf; omega
  | succ fuel ih =>
    intro p pre rest hA hf
    have hfits := hA.fits
    rw [encode_append, List.length_append] at hfits
    by_cases hi : (encode pre).length < n
    · obtain ⟨p', rest', hdrop, hA', hsame, hs, rfl | ⟨k, d, os, rfl⟩⟩ := dropNops_area hA hi
      · -- nothing but padding follows
        rw [hs, squeezed_nil]
        rw [List.append_nil] at hA' ⊢
        exact ⟨p', hpad _ _ _ _ hi hdrop (fun j h₁ h₂ => hA'.pad h₁ h₂) hf, hA', hsame⟩
      · -- an option follows, which joins the part that is done
        have hfits' := hA'.fits
        simp only [encode_append, encode_cons, List.length_append] at hfits'
        have hpos := (Opt.opt k d).length_encode_pos
        have hne : p' (opt + (encode pre).length) ≠ tcpoptEol := by
          rw [(holds_cons.1 hA'.mid).1]
          rintro rfl
          exact absurd (hA'.ok (.opt tcpoptEol d) (by simp)).1 (by decide)
        have hpass : pass (p, (encode pre).length) =
            .ok (.again (p', (encode (pre ++ [.opt k d])).length)) := by
          rw [hnext _ _ _ hi hdrop hne, optlen_encode (hA'.ok _ (by simp)) hA'.mid,
            Nat.mod_eq_of_lt (by omega)]
          simp
        rw [List.append_cons] at hA'
        obtain ⟨p'', hloop, hA'', hsame'⟩ := ih _ hA' (by
          simp only [encode_append, encode_cons, encode_nil, List.length_append, List.append_nil]
          omega)
        rw [hs, squeezed_opt, List.append_cons]
        exact ⟨p'', by rw [loop_again hpass, hloop], hA'', hsame.trans hsame'⟩
    · -- the options fill the area
      have hrest : rest = [] := by
        have := length_le_encode rest
        exact List.length_eq_zero_iff.1 (by omega)
      subst hrest
      rw [squeezed_nil]
      rw [List.append_nil] at hA ⊢
      refine ⟨p, ?_, hA, .refl _ _ _⟩
      rw [Nat.sub_eq_zero_of_le (Nat.not_lt.1 hi)]
      exact loop_done (hend p _ (Nat.not_lt.1 hi))

theorem removeNop_pad {p : Mem} {opt n : Nat} (hn : n < 256) :
    ∀ {fuel i : Nat}, (∀ j, i ≤ j → j < n → p (opt + j) = 0) → i ≤ n → n - i < fuel →
      loop (removeNopPass opt n) fuel (p, i) = .ok p := by
  intro fuel
  induction fuel with
  | zero => intro i _ _ hf; omega
  | succ fuel ih =>
    intro i hzero h₂ hf
    by_cases hin : i < n
    · have h₀ := hzero i (Nat.le_refl i) hin
      have hdrop : dropNops opt n i p = .ok p := by
        apply loop_done
        unfold nopPass
        rw [h₀, if_neg (by decide)]
      have hpass : removeNopPass opt n (p, i) = .ok (.again (p, i + 1)) := by
        simp only [removeNopPass, if_pos hin, hdrop, ok_bind, optlen_zero h₀, pure_eq_ok]
        rw [Nat.mod_eq_of_lt (by omega)]
      rw [loop_again hpass]
      exact ih (fun j h₁ h₂ => hzero j (by omega) h₂) (by omega) (by omega)
    · apply loop_done
      simp only [removeNopPass, if_neg hin]

theorem removeNop_loop {opt n : Nat} (hn : n < 256) {fuel : Nat} {p : Mem} {os : List Opt}
    (hA : Area p opt n os) (hf : n < fuel) :
    ∃ p', loop (removeNopPass opt n) fuel (p, 0) = .ok p' ∧ Area p' opt n (squeezed os) ∧
      SameOutside p p' opt n := by
  refine compact_loop (fun p _ => p) hn ?_ ?_ ?_ [] hA hf
  · intro p p' i hi hdrop _
    simp only [removeNopPass, if_pos hi, hdrop, ok_bind, pure_eq_ok]
  · -- the loop goes on behind the first zero
    intro fuel p p' i hi hdrop hzero hf
    obtain ⟨fuel, rfl⟩ : ∃ f, fuel = f + 1 := ⟨fuel - 1, by omega⟩
    have hpass : removeNopPass opt n (p, i) = .ok (.again (p', i + 1)) := by
      simp only [removeNopPass, if_pos hi, hdrop, ok_bind, pure_eq_ok,
        optlen_zero (hzero i (Nat.le_refl i) hi)]
      rw [Nat.mod_eq_of_lt (by omega)]
    rw [loop_again hpass]
    exact removeNop_pad hn (fun j h₁ h₂ => hzero j (by omega) h₂) (by omega) (by omega)
  · intro p i hi
    simp only [removeNopPass, if_neg (Nat.not_lt.2 hi)]

theorem squeeze_loop {opt n : Nat} (hn : n < 256) {fuel : Nat} {p : Mem} {os : List Opt}
    (hA : Area p opt n os) (hf : n < fuel) :
    ∃ p', loop (squeezePass opt n) fuel (p, 0) = .ok (p', n - used os) ∧
      Area p' opt n (squeezed os) ∧ SameOutside p p' opt n := by
  refine compact_loop Prod.mk hn ?_ ?_ ?_ [] hA hf
  · intro p p' i hi hdrop hne
    simp only [squeezePass, if_pos hi, hdrop, ok_bind, pure_eq_ok, if_neg hne]
  · -- the loop leaves at the first zero
    intro fuel p p' i hi hdrop hzero hf
    obtain ⟨fuel, rfl⟩ : ∃ f, fuel = f + 1 := ⟨fuel - 1, by omega⟩
    apply loop_done
    simp only [squeezePass, if_pos hi, hdrop, ok_bind, pure_eq_ok, hzero i (Nat.le_refl i) hi,
      tcpoptEol, if_true]
    rw [Nat.mod_eq_of_lt (by omega)]
  · intro p i hi
    simp only [squeezePass, if_neg (Nat.not_lt.2 hi)]

theorem Area.ext_outside {p p₁ p₂ : Mem} {opt n : Nat} {os : List Opt} (h₁ : Area p₁ opt n os)
    (h₂ : Area p₂ opt n os) (hs₁ : SameOutside p p₁ opt n)
    (hs₂ : SameOutside p p₂ opt n) : p₁ = p₂ := by
  funext i
  by_cases hi : i < opt ∨ opt + n ≤ i
  · rw [hs₁ i hi, hs₂ i hi]
  · have hfits := h₁.fits
    obtain ⟨j, rfl⟩ := Nat.exists_eq_add_of_le (show opt ≤ i by omega)
    have hj : j < (encode os ++ List.replicate (n - (encode os).length) 0).length := by
      rw [List.length_append, List.length_replicate]
      omega
    rw [of_read h₁.holds hj, of_read h₂.holds hj]

end Opennop
