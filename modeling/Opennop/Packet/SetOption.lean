import Opennop.Packet.Rewrite

/-!
# Reading and writing an option by its number

`__get_tcp_option` gives the value of the first option of a kind. `__set_tcp_option` overwrites the
first option of the kind and length it is asked for, wherever it is, and otherwise squeezes the
options and puts a new one in front of them, if the largest area has the room.
-/

namespace Opennop

open Mem

variable {p : Mem} {D : Nat} {os : List Opt} {d : List UInt8}

/-! ## The value of an option -/

/-- The sum `__get_tcp_option` forms from data bytes. -/
def sumData : List UInt8 → Int → Int
  | [], acc => acc
  | b :: bs, acc => sumData bs ((acc + shiftByte b bs.length) % 18446744073709551616)

/-- The value of an option: one if it has no data. -/
def Opt.value : Opt → Nat
  | .nop => 0
  | .opt _ x => if x.length = 0 then 1 else (sumData x 0).toNat

theorem sumBytes_eq {opt i : Nat} : ∀ {x : List UInt8} {bytefield : Nat} {acc : Int},
    p.Holds (opt + i + bytefield) x → bytefield + x.length < 256 →
      sumBytes p opt i x.length bytefield acc = sumData x acc := by
  intro x
  induction x with
  | nil => intro bytefield acc _ _; rfl
  | cons b bs ih =>
    intro bytefield acc hx hlt
    obtain ⟨hb, hbs⟩ := holds_cons.1 hx
    rw [List.length_cons] at hlt
    rw [List.length_cons, sumBytes, sumData, hb, Nat.mod_eq_of_lt (by omega)]
    exact ih (by rwa [Nat.add_assoc] at hbs) (by omega)

theorem length_byte {k : UInt8} {x : List UInt8} {o : Nat} (hok : (Opt.opt k x).Ok)
    (h : p.Holds o (Opt.opt k x).encode) : (p (o + 1)).toNat = x.length + 2 := by
  rw [(holds_cons.1 (holds_cons.1 h).2).1, UInt8.toNat_ofNat']
  have := hok.2
  omega

theorem getTcpOption_shows (h : Shows p D os d) {k : UInt8} (hk : 2 ≤ k) :
    getTcpOption p k = .ok (match firstOfKind k os with
      | some o => o.value
      | none => 0) := by
  have h5 := h.five_le
  have hdec : Decides p p.optOff (4 * D - 20) (fun i => p (p.optOff + i) == k &&
      decide (i + (p (p.optOff + i + 1)).toNat ≤ 4 * D)) fun o => o.kind == k := by
    intro i o ho hh hi
    have hkd := decides_kind p p.optOff _ k i o ho hh hi
    dsimp only at hkd ⊢
    rw [hkd]
    cases o with
    | nop =>
      have : (Opt.nop.kind == k) = false := by
        simpa using Opt.kind_ne_of_isNop (o := .nop) rfl hk
      rw [this, Bool.false_and]
    | opt k' x =>
      rw [length_byte ho hh]
      rw [Opt.length_encode_opt] at hi
      rw [decide_eq_true (by omega), Bool.and_true]
  have hz : ∀ i, p (p.optOff + i) = 0 → (p (p.optOff + i) == k &&
      decide (i + (p (p.optOff + i + 1)).toNat ≤ 4 * D)) = false := by
    intro i hi
    have : (0 == k) = false := by
      refine beq_eq_false_iff_ne.2 ?_
      rintro rfl
      exact absurd hk (by decide)
    rw [hi, this, Bool.false_and]
  unfold getTcpOption
  dsimp only
  rw [h.areaLen, h.doff]
  rcases scan_find h.area hdec h.area_lt hz with ⟨hf, hs⟩ | ⟨pre, o, post, rfl, hf, -, hs⟩
  · rw [hs, ok_bind]
    unfold firstOfKind
    rw [hf]
    rfl
  · rw [hs, ok_bind]
    unfold firstOfKind
    rw [hf]
    dsimp only
    have hmid := h.area.mid
    have hok := h.area.ok o (by simp)
    have hkind : o.kind = k := by simpa using List.find?_some hf
    cases o with
    | nop => exact absurd hkind (Opt.kind_ne_of_isNop rfl hk)
    | opt k' x =>
      have hdata := (holds_cons.1 (holds_cons.1 hmid).2).2
      have hlt := hok.2
      rw [length_byte hok hmid]
      rw [Opt.value]
      by_cases hx : x.length = 0
      · rw [if_pos hx, if_pos (by omega)]
        rfl
      · rw [if_neg hx, if_neg (by omega), show (x.length + 2 + 254) % 256 = x.length by omega,
          sumBytes_eq (by rwa [Nat.add_assoc] at hdata) (by omega)]
        rfl

/-! ## Overwriting -/

/-- The first option of kind `k` and length `len`. -/
def firstOfKindLen (k : UInt8) (len : Nat) (os : List Opt) : Option Opt :=
  os.find? fun o => o.kind == k && o.encode.length == len

@[simp] theorem length_dataBytes (count v : Nat) : (dataBytes count v).length = count := by
  simp [dataBytes]

theorem dataBytes_succ (n v : Nat) :
    dataBytes (n + 1) v = UInt8.ofNat (v / 2 ^ (8 * n % 64)) :: dataBytes n v := by
  unfold dataBytes
  rw [List.range_succ_eq_map, List.map_cons, List.map_map]
  congr 1
  apply List.map_congr_left
  intro j hj
  rw [Function.comp, show n + 1 - 1 - (j + 1) = n - 1 - j by omega]

/-- Up to 254 bytes the loop that writes the data of an option does not come to its front. -/
theorem putBytes_eq_write (o v : Nat) {count j : Nat} (h : j + count ≤ 256) (p : Mem) :
    putBytes o v count j p = p.write (o + j) (dataBytes count v) := by
  induction count generalizing j p with
  | zero => exact (write_nil p (o + j)).symm
  | succ count ih =>
    rw [putBytes, dataBytes_succ, write_cons]
    cases count with
    | zero => exact (write_nil _ _).symm
    | succ count => rw [Nat.mod_eq_of_lt (by omega), ih (by omega), Nat.add_assoc]

/-- The scan of `__set_tcp_option` looks for an option of the kind and length. -/
theorem decides_kindLen (h : Shows p D os d) {k : UInt8} (hk : 2 ≤ k) (len : Nat) :
    Decides p p.optOff (4 * D - 20) (fun i => p (p.optOff + i) == k && decide (i + len ≤ 4 * D) &&
      (p (p.optOff + i + 1)).toNat == len) fun o => o.kind == k && o.encode.length == len := by
  intro i o ho hh hi
  have h5 := h.five_le
  have hkd := decides_kind p p.optOff _ k i o ho hh hi
  dsimp only at hkd ⊢
  rw [hkd]
  cases o with
  | nop =>
    have : (Opt.nop.kind == k) = false := by
      simpa using Opt.kind_ne_of_isNop (o := .nop) rfl hk
    rw [this, Bool.false_and, Bool.false_and, Bool.false_and]
  | opt k' x =>
    rw [length_byte ho hh]
    rw [Opt.length_encode_opt] at hi ⊢
    by_cases hlen : x.length + 2 = len
    · rw [decide_eq_true (by omega), Bool.and_true]
    · rw [beq_eq_false_iff_ne.2 hlen, Bool.and_false, Bool.and_false]

theorem setTcpOption_search (h : Shows p D os d) {k : UInt8} (hk : 2 ≤ k) (len v : Nat) :
    (firstOfKindLen k len os = none ∧ setTcpOption p k len v = insertTcpOption p k len v) ∨
      ∃ pre o post, os = pre ++ o :: post ∧ firstOfKindLen k len os = some o ∧
        firstOfKindLen k len pre = none ∧ setTcpOption p k len v = .ok
          (putBytes (p.optOff + (encode pre).length) v ((len + 254) % 256) 2 p, 0) := by
  have hz : ∀ i, p (p.optOff + i) = 0 → (p (p.optOff + i) == k && decide (i + len ≤ 4 * D) &&
      (p (p.optOff + i + 1)).toNat == len) = false := by
    intro i hi
    have : (0 == k) = false := by
      refine beq_eq_false_iff_ne.2 ?_
      rintro rfl
      exact absurd hk (by decide)
    rw [hi, this, Bool.false_and, Bool.false_and]
  unfold setTcpOption
  dsimp only
  rw [h.areaLen, h.doff]
  by_cases hD : D > 5
  · rw [if_pos hD]
    rcases scan_find h.area (decides_kindLen h hk len) h.area_lt hz with
      ⟨hf, hs⟩ | ⟨pre, o, post, hos, hf, hpre, hs⟩
    · refine .inl ⟨hf, ?_⟩
      rw [hs, ok_bind]
    · refine .inr ⟨pre, o, post, hos, hf, hpre, ?_⟩
      rw [hs, ok_bind]
      rfl
  · obtain rfl : D = 5 := by
      have := h.five_le
      omega
    obtain rfl := h.nil_of_five
    refine .inl ⟨rfl, ?_⟩
    rw [if_neg hD, pure_eq_ok, ok_bind]

theorem Shows.overwrite {pre post : List Opt} {k : UInt8} {x y : List UInt8}
    (h : Shows p D (pre ++ .opt k x :: post) d) (hy : y.length = x.length) :
    Shows (p.write (p.optOff + (encode pre).length + 2) y) D (pre ++ .opt k y :: post) d ∧
      SameHeader p (p.write (p.optOff + (encode pre).length + 2) y) := by
  have hfits := h.area.fits
  have hok := h.area.ok (.opt k x) (by simp)
  simp only [encode_append, encode_cons, List.length_append, Opt.length_encode_opt] at hfits
  have hlen : (encode (pre ++ .opt k y :: post)).length =
      (encode (pre ++ .opt k x :: post)).length := by
    simp only [encode_append, encode_cons, List.length_append, Opt.length_encode_opt, hy]
  have hs : SameOutside p (p.write (p.optOff + (encode pre).length + 2) y)
      (p.optOff + (encode pre).length + 2) x.length := fun i hi => write_out _ (by omega)
  refine h.rewrite ⟨?_, by rw [hlen]; exact h.area.fits, ?_⟩ (hs.mono (by omega) (by omega))
  · intro o ho
    rcases List.mem_append.1 ho with ho | ho
    · exact h.area.ok o (by simp [ho])
    · rcases List.mem_cons.1 ho with rfl | ho
      · exact ⟨hok.1, by have := hok.2; omega⟩
      · exact h.area.ok o (by simp [ho])
  · have hold := h.area.holds
    rw [hlen]
    simp only [encode_append, encode_cons, Opt.encode, List.append_assoc,
      List.cons_append, holds_append, holds_cons] at hold ⊢
    obtain ⟨h₁, h₂, h₃, -, h₄, h₅⟩ := hold
    rw [hy]
    refine ⟨hs.holds h₁ (.inl (by omega)), ?_, ?_, holds_write _ _ _, hs.holds h₄ (.inr (by omega)),
      hs.holds h₅ (.inr (by omega))⟩
    · rw [hs _ (.inl (by omega)), h₂]
    · rw [hs _ (.inl (by omega)), h₃]

/-! ## Inserting -/

theorem openGapIf_holds (h : Shows p D os d) {a : Nat}
    (ht : a = 0 ∨ 4 * p.ihl + 4 * D + d.length < 65536) :
    ∃ p', openGapIf p a = .ok p' ∧ (∀ i < p.dataOff, p' i = p i) ∧
      p'.Holds p.dataOff (List.replicate (4 * a) 0 ++ d) := by
  unfold openGapIf
  by_cases ha : a = 0
  · subst ha
    exact ⟨p, rfl, fun _ _ => rfl, by rw [h.dataOff]; exact h.data⟩
  · rw [if_pos ha]
    exact openGap_holds h (by omega) a

theorem putFirst_holds {k : UInt8} {len v z : Nat} (h₂ : 2 ≤ len) (h₂₅₆ : len < 256)
    {l rest : List UInt8} (h : p.Holds p.optOff (l ++ (List.replicate (len + z) 0 ++ rest))) :
    (putFirst p l.length k len v).Holds p.optOff
        ((Opt.opt k (dataBytes (len - 2) v)).encode ++ l ++ (List.replicate z 0 ++ rest)) ∧
      ∀ i < p.optOff, putFirst p l.length k len v i = p i := by
  rw [holds_append, List.replicate_add, List.append_assoc, holds_append] at h
  obtain ⟨hl, -, hrest⟩ := h
  rw [List.length_replicate] at hrest
  have hx := length_dataBytes (len - 2) v
  unfold putFirst
  dsimp only
  rw [show (len + 254) % 256 = len - 2 by omega, putBytes_eq_write _ _ (by omega)]
  constructor
  · rw [holds_append, holds_append, List.length_append, Opt.length_encode_opt, hx,
      Nat.sub_add_cancel h₂]
    refine ⟨⟨?_, ?_⟩, ?_⟩
    · simp only [Opt.encode, holds_cons, hx, Nat.sub_add_cancel h₂]
      refine ⟨?_, ?_, holds_write _ _ _⟩
      · rw [write_out _ (by omega), set_ne _ _ (by omega), set_self]
      · rw [write_out _ (by omega), set_self]
    · refine (hl.move (Nat.le_refl _)).congr fun i h₁ h₂ => ?_
      rw [write_out _ (by omega), set_ne _ _ (by omega), set_ne _ _ (by omega)]
    · rw [show p.optOff + (len + l.length) = p.optOff + l.length + len by omega]
      refine hrest.congr fun i h₁ h₂ => ?_
      rw [write_out _ (by omega), set_ne _ _ (by omega), set_ne _ _ (by omega),
        move_out _ (by omega)]
  · intro i hi
    rw [write_out _ (by omega), set_ne _ _ (by omega), set_ne _ _ (by omega), move_out _ (by omega)]

theorem addoff_eq {len : Nat} (free : Nat) (hlen : len < 256) :
    (if free < len then dwords ((len - free) % 256) else 0) = dwords (len - free) := by
  by_cases hlt : free < len
  · rw [if_pos hlt, Nat.mod_eq_of_lt (by omega)]
  · rw [if_neg hlt, Nat.sub_eq_zero_of_le (by omega)]
    rfl

theorem insertTcpOption_fits (h : Shows p D os d) {k : UInt8} (hk : 2 ≤ k) {len : Nat}
    (hlen : 2 ≤ len) (hfit : used os + len ≤ 40)
    (ht : used os + len ≤ 4 * D - 20 ∨ 4 * p.ihl + 4 * D + d.length < 65536) (v : Nat) :
    ∃ p', insertTcpOption p k len v = .ok (p', 0) ∧
      Shows p' (grown D (used os) len) (.opt k (dataBytes (len - 2) v) :: squeezed os) d ∧
      SameHeader p p' := by
  have h5 := h.five_le
  have hu := h.used_le
  have hD := h.doff_lt
  have hroom := room_after len h5 hu
  have hmax := (room_iff _ h5 hD hu).2 hfit
  obtain ⟨p₁, hp₁, h₁, hh₁⟩ := squeeze_shows h
  have haddoff := addoff_eq (4 * D - 20 - used os) (show len < 256 by omega)
  have hgrown : D + dwords (len - (4 * D - 20 - used os)) = grown D (used os) len := rfl
  generalize ha : dwords (len - (4 * D - 20 - used os)) = a at haddoff hgrown
  obtain ⟨p₂, hp₂, hbelow₂, hholds₂⟩ := openGapIf_holds (a := a) h₁ (by
    rw [hh₁.ihl]
    refine ht.imp (fun hfree => ?_) id
    rw [← ha, Nat.sub_eq_zero_of_le (by omega)]
    rfl)
  have hoff := h₁.dataOff_eq
  obtain ⟨hh₂, hdoff₂, htot₂⟩ := sameHeader_of_below fun i hi => hbelow₂ i (by omega)
  have hfits₁ := h₁.area.fits
  rw [length_encode_squeezed] at hfits₁
  have hz : 4 * D - 20 - used os + 4 * a = len + (4 * D - 20 - used os + 4 * a - len) := by omega
  generalize 4 * D - 20 - used os + 4 * a - len = z at hz
  -- squeezed options, all the zeros, the data
  have hraw : p₂.Holds p₂.optOff (encode (squeezed os) ++
      (List.replicate (len + z) 0 ++ d)) := by
    rw [← hz, List.replicate_add, List.append_assoc,
      ← List.append_assoc (encode (squeezed os)), hh₂.optOff, holds_append, List.length_append,
      List.length_replicate, length_encode_squeezed, Nat.add_sub_cancel' hfits₁, ← hoff]
    refine ⟨h₁.area.holds.congr fun i h₁ h₂ => hbelow₂ i ?_, hholds₂⟩
    rw [List.length_append, List.length_replicate, length_encode_squeezed] at h₂
    omega
  obtain ⟨hput, hbelow₃⟩ := putFirst_holds (k := k) (v := v) hlen (by omega) hraw
  obtain ⟨hh₃, hdoff₃, htot₃⟩ := sameHeader_of_below hbelow₃
  rw [length_encode_squeezed] at hput hbelow₃ hh₃ hdoff₃ htot₃
  have hh₁₃ := hh₁.trans (hh₂.trans hh₃)
  generalize hp₃ : putFirst p₂ (used os) k len v = p₃ at hput hbelow₃ hh₃ hdoff₃ htot₃ hh₁₃
  have hi₃ : 5 ≤ p₃.ihl := by rw [hh₁₃.ihl]; exact h.ihl
  obtain ⟨hh₄, hdoff₄, htot₄, habove₄⟩ := resize_fields hi₃ (p₃.doff + a) (p₃.totLen + 4 * a)
  have hdoff : p₃.doff = D := by rw [hdoff₃, hdoff₂, h₁.doff]
  refine ⟨(p₃.setDoff (p₃.doff + a)).setTotLen (p₃.totLen + 4 * a), ?_, ?_, hh₁₃.trans hh₄⟩
  · unfold insertTcpOption
    rw [hp₁, ok_bind]
    dsimp only
    have hset : (if a ≠ 0 then p₃.setDoff (p₃.doff + a) else p₃) = p₃.setDoff (p₃.doff + a) := by
      by_cases h0 : a = 0
      · subst h0
        exact (setDoff_self p₃).symm
      · rw [if_pos h0]
    have harea : p₂.areaLen = 4 * D - 20 := by
      rw [← h₁.areaLen]
      unfold areaLen
      rw [hdoff₂]
    rw [haddoff, if_pos (by rw [h₁.doff]; omega), hp₂, ok_bind,
      if_neg (by rw [hdoff₂, h₁.doff]; omega), harea, Nat.sub_sub_self hu, hp₃, hset,
        totLen_setDoff]
    rfl
  · refine shows_of_holds (z := z) (by rw [hh₄.ihl]; exact hi₃)
      (by rw [hdoff₄, hdoff]; omega) ?_ ?_ ?_ ?_
    · intro o ho
      rcases List.mem_cons.1 ho with rfl | ho
      · exact ⟨hk, by rw [length_dataBytes]; omega⟩
      · exact h₁.area.ok o ho
    · rw [encode_cons, List.length_append, Opt.length_encode_opt, length_dataBytes,
        length_encode_squeezed]
      omega
    · rw [hh₄.optOff, hh₃.optOff, encode_cons]
      exact hput.congr fun i h₁ h₂ => habove₄ i (by rwa [hh₃.optOff])
    · rw [hh₄.ihl, hh₁₃.ihl, htot₄, htot₃, htot₂, h₁.totLen, hh₁.ihl]
      omega

theorem insertTcpOption_full (h : Shows p D os d) (k : UInt8) {len : Nat} (hlen : len < 256)
    (hfull : 40 < used os + len) (v : Nat) :
    ∃ p', insertTcpOption p k len v = .ok (p', -1) ∧ Shows p' D (squeezed os) d ∧
      SameHeader p p' := by
  have hu := h.used_le
  have hD := h.doff_lt
  obtain ⟨p₁, hp₁, h₁, hh₁⟩ := squeeze_shows h
  refine ⟨p₁, ?_, h₁, hh₁⟩
  have hroom := (room_iff len h.five_le hD hu).not.2 (by omega)
  unfold insertTcpOption
  rw [hp₁, ok_bind]
  dsimp only
  rw [addoff_eq _ hlen, if_neg (by rw [h₁.doff]; exact hroom)]
  rfl

/-! ## `__set_tcp_option` as an operation on the options -/

/-- Overwrite the first option of kind `k` whose data has the length of `x`. -/
def overwriteFirst (k : UInt8) (x : List UInt8) : List Opt → List Opt
  | [] => []
  | o :: os => if o.kind == k && o.encode.length == x.length + 2 then .opt k x :: os
    else o :: overwriteFirst k x os

/-- The words of TCP header and the options after `__set_tcp_option` of kind `k` with data `x`. -/
def setOption (k : UInt8) (x : List UInt8) (D : Nat) (os : List Opt) : Nat × List Opt :=
  if (firstOfKindLen k (x.length + 2) os).isSome then (D, overwriteFirst k x os)
  else if used os + (x.length + 2) ≤ 40 then
    (grown D (used os) (x.length + 2), .opt k x :: squeezed os)
  else (D, squeezed os)

theorem overwriteFirst_append {k : UInt8} {x : List UInt8} {pre post : List Opt} {o : Opt}
    (hpre : firstOfKindLen k (x.length + 2) pre = none)
    (ho : (o.kind == k && o.encode.length == x.length + 2) = true) :
    overwriteFirst k x (pre ++ o :: post) = pre ++ .opt k x :: post := by
  induction pre with
  | nil => rw [List.nil_append, overwriteFirst, if_pos ho, List.nil_append]
  | cons o' pre ih =>
    have hmiss := List.find?_eq_none.1 hpre
    rw [List.cons_append, overwriteFirst, if_neg (hmiss o' (by simp)), ih, List.cons_append]
    exact List.find?_eq_none.2 fun a ha => hmiss a (List.mem_cons_of_mem _ ha)

theorem firstOfKind_setOption_ne {k k' : UInt8} (hk : 2 ≤ k') (hne : k ≠ k') (x : List UInt8)
    (D : Nat) (os : List Opt) : firstOfKind k' (setOption k x D os).2 = firstOfKind k' os := by
  have hother : ∀ os', firstOfKind k' (.opt k x :: os') = firstOfKind k' os' := fun os' =>
    List.find?_cons_of_neg (by simpa [Opt.kind] using hne)
  have hover : ∀ os', firstOfKind k' (overwriteFirst k x os') = firstOfKind k' os' := by
    intro os'
    induction os' with
    | nil => rfl
    | cons o os' ih =>
      unfold overwriteFirst
      split
      · next ho =>
        rw [Bool.and_eq_true, beq_iff_eq] at ho
        rw [hother]
        exact (List.find?_cons_of_neg (by simpa [ho.1] using hne)).symm
      · unfold firstOfKind at ih ⊢
        rw [List.find?_cons, List.find?_cons, ih]
  unfold setOption
  split
  · exact hover os
  · split
    · exact (hother _).trans (firstOfKind_squeezed os hk)
    · exact firstOfKind_squeezed os hk

theorem used_cons {k : UInt8} (hk : 2 ≤ k) {o : Opt} (ho : o.kind = k) (os : List Opt) :
    used (o :: os) = o.encode.length + used os := by
  cases o with
  | nop => exact absurd ho (Opt.kind_ne_of_isNop (o := .nop) rfl hk)
  | opt k' y =>
    unfold used
    rw [squeezed_opt, encode_cons, List.length_append]

theorem used_overwriteFirst {k : UInt8} (hk : 2 ≤ k) (x : List UInt8) (os : List Opt) :
    used (overwriteFirst k x os) = used os := by
  induction os with
  | nil => rfl
  | cons o os ih =>
    unfold overwriteFirst
    split
    · next ho =>
      rw [Bool.and_eq_true, beq_iff_eq, beq_iff_eq] at ho
      rw [used_cons hk rfl, used_cons hk ho.1, ho.2, Opt.length_encode_opt]
    · unfold used at ih ⊢
      cases o with
      | nop => exact ih
      | opt k' y =>
        rw [squeezed_opt, squeezed_opt, encode_cons, encode_cons, List.length_append,
          List.length_append, ih]

theorem used_setOption_le {k : UInt8} (hk : 2 ≤ k) (x : List UInt8) (D : Nat) (os : List Opt) :
    used (setOption k x D os).2 ≤ used os + (x.length + 2) := by
  have hsqueezed : used (squeezed os) = used os := by
    unfold used
    rw [squeezed_squeezed]
  unfold setOption
  split
  · rw [used_overwriteFirst hk]
    omega
  · split
    · rw [used_cons hk rfl, hsqueezed, Opt.length_encode_opt]
      omega
    · rw [hsqueezed]
      omega

theorem setTcpOption_shows (h : Shows p D os d) (ht : 4 * p.ihl + 4 * D + d.length < 65536)
    {k : UInt8} (hk : 2 ≤ k) {len : Nat} (h₂ : 2 ≤ len) (h₄₀ : len ≤ 40) (v : Nat) :
    ∃ p' r, setTcpOption p k len v = .ok (p', r) ∧
      Shows p' (setOption k (dataBytes (len - 2) v) D os).1
        (setOption k (dataBytes (len - 2) v) D os).2 d ∧ SameHeader p p' ∧
      (r = 0 ↔ (firstOfKindLen k len os).isSome ∨ used os + len ≤ 40) := by
  unfold setOption
  rw [length_dataBytes, Nat.sub_add_cancel h₂]
  rcases setTcpOption_search h hk len v with ⟨hf, hset⟩ | ⟨pre, o, post, rfl, hf, hpre, hset⟩
  · rw [hset, hf, Option.isSome_none, if_neg (by simp)]
    by_cases hfit : used os + len ≤ 40
    · obtain ⟨p', hp', h', hh⟩ := insertTcpOption_fits h hk h₂ hfit (.inr ht) v
      rw [if_pos hfit]
      exact ⟨p', 0, hp', h', hh, by simp [hfit]⟩
    · obtain ⟨p', hp', h', hh⟩ := insertTcpOption_full h k (show len < 256 by omega) (by omega) v
      rw [if_neg hfit]
      exact ⟨p', -1, hp', h', hh, by simp [hfit]⟩
  · have ho := List.find?_some hf
    rw [hset, hf, Option.isSome_some, if_pos rfl, show (len + 254) % 256 = len - 2 by omega,
      putBytes_eq_write _ _ (by omega)]
    have hlen : (dataBytes (len - 2) v).length + 2 = len := by rw [length_dataBytes]; omega
    rw [overwriteFirst_append (by rwa [hlen]) (by rwa [hlen])]
    cases o with
    | nop =>
      have : (Opt.nop.kind == k) = false := by
        simpa using Opt.kind_ne_of_isNop (o := .nop) rfl hk
      rw [this, Bool.false_and] at ho
      cases ho
    | opt k' x =>
      rw [Bool.and_eq_true, beq_iff_eq, beq_iff_eq, Opt.length_encode_opt] at ho
      obtain ⟨rfl, hx⟩ := ho
      obtain ⟨h', hh⟩ := h.overwrite (y := dataBytes (len - 2) v) (by rw [length_dataBytes]; omega)
      exact ⟨_, 0, rfl, h', hh, by simp⟩

end Opennop
