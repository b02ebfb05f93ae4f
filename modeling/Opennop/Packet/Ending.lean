import Opennop.Lib.Ends
import Opennop.Packet.Compressed
import Opennop.Packet.Scan

/-!
# Scans of arbitrary option areas

The index of a scan has eight bits, so a length byte can take it past 255 and back to the front of
the area. On any bytes a scan ends exactly when it never comes back to an option from which it went
around that way (`scansEnd_iff`). The scans that remove NOPs change the area under the index, but
each removal costs the area a byte that is not zero: between the last removal and the end they are
scans of one area like the others.

The numbers of passes that the functions of `Opennop.Packet.TcpOptions` give their loops are enough:
a scan that ends at all ends within them (`scan_returns_iff`, `removeNop_returns_iff`,
`squeeze_returns_iff`).
-/

namespace Opennop

open Mem Relation

/-- The option at index `i` takes the 8-bit index around. -/
def goesAround (p : Mem) (opt i : Nat) : Prop := 256 ≤ i + optlen p opt i

/-- From the option at index `i` of the area a scan gets to index `j`. -/
def follows (p : Mem) (opt n i j : Nat) : Prop := i < n ∧ j = (i + optlen p opt i) % 256

/-- A NOP at index `i` is taken out. -/
def drops (opt n i : Nat) (p p' : Mem) : Prop := p (opt + i) = tcpoptNop ∧ p' = removeByte p opt n i

/-- From the state `s`, the area and an index, a scan that removes NOPs gets to `t`: all NOPs at the
index are taken out, and then the index goes on. -/
def thins (opt n : Nat) (s t : Mem × Nat) : Prop :=
  ReflTransGen (drops opt n s.2) s.1 t.1 ∧ t.1 (opt + s.2) ≠ tcpoptNop ∧ follows t.1 opt n s.2 t.2

theorem optlen_pos (p : Mem) (opt i : Nat) : 0 < optlen p opt i := by
  unfold optlen
  split
  · exact Nat.one_pos
  · next h =>
    have hne : p (opt + i + 1) ≠ 0 := fun h₀ => h (.inr h₀)
    have : (p (opt + i + 1)).toNat ≠ 0 := fun h₀ => hne (UInt8.toNat_inj.1 h₀)
    omega

theorem follows.lt {p : Mem} {opt n i j : Nat} (h : follows p opt n i j) : j < 256 := by
  rw [h.2]
  exact Nat.mod_lt _ (by decide)

theorem follows.rises {p : Mem} {opt n i j : Nat} (h : follows p opt n i j)
    (hback : ¬ goesAround p opt i) : i < j := by
  have hpos := optlen_pos p opt i
  unfold goesAround at hback
  rw [h.2, Nat.mod_eq_of_lt (by omega)]
  omega

/-! ## Scans of one area -/

section Scan

variable {p : Mem} {opt n : Nat} {hit : Nat → Bool}

theorem again_scanPass {i j : Nat} :
    Again (scanPass p opt n hit) i j ↔ follows p opt n i j ∧ hit i = false := by
  unfold Again scanPass follows
  split
  · next hi =>
    cases hhit : hit i
    · simp [hi, eq_comm]
    · simp
  · next hi => simp [hi]

theorem scanPass_ok (i : Nat) : ∃ r, scanPass p opt n hit i = .ok r := by
  unfold scanPass
  split
  · split
    · exact ⟨_, rfl⟩
    · exact ⟨_, rfl⟩
  · exact ⟨_, rfl⟩

/-- An 8-bit index takes at most 256 values. -/
theorem bounded_follows : Bounded (follows p opt n) (goesAround p opt) id id 256 0 where
  code_lt i hi := by
    induction hi with
    | refl => decide
    | tail _ hstep _ => exact hstep.lt
  code_inj _ _ _ _ h := h
  rises _ _ _ hstep _ hback := hstep.rises hback

theorem bounded_scanPass : Bounded (Again (scanPass p opt n hit)) (goesAround p opt) id id 256 0 :=
  bounded_follows.mono fun _ _ h => (again_scanPass.1 h).1

theorem scan_ends_iff :
    Ends (scanPass p opt n hit) 0 ↔ NoReturn (Again (scanPass p opt n hit)) (goesAround p opt) 0 :=
  ends_iff_noReturn bounded_scanPass fun i _ => scanPass_ok i

theorem scan_returns_iff :
    Ends (scanPass p opt n hit) 0 ↔ ∃ r, scan p opt n hit = .ok r :=
  ⟨fun h => loop_of_noReturn bounded_scanPass (fun i _ => scanPass_ok i) h.noReturn,
    fun ⟨r, hr⟩ => ⟨257, r, hr⟩⟩

theorem scan_ends_of_follows (h : NoReturn (follows p opt n) (goesAround p opt) 0) :
    Ends (scanPass p opt n hit) 0 :=
  scan_ends_iff.2 (h.mono fun _ _ hstep => (again_scanPass.1 hstep).1)

theorem exists_unused (p : Mem) (opt : Nat) {n : Nat} (hn : n ≤ 40) :
    ∃ k, ∀ i < n, p (opt + i) ≠ k := by
  by_contra hall
  push Not at hall
  have hsub : (List.range 41).map UInt8.ofNat ⊆ p.read opt n := by
    intro k _
    obtain ⟨i, hi, hik⟩ := hall k
    exact List.mem_of_getElem? (by rw [getElem?_read p hi, hik])
  have hnodup : ((List.range 41).map UInt8.ofNat).Nodup := by decide
  have hlen := (hnodup.subperm hsub).length_le
  rw [length_read, List.length_map, List.length_range] at hlen
  omega

/-- A scan for an option number that the area does not hold is the scan that stops nowhere. -/
theorem follows_of_unused {k : UInt8} (hk : ∀ i < n, p (opt + i) ≠ k) :
    Again (scanPass p opt n fun i => p (opt + i) == k) = follows p opt n := by
  funext i j
  rw [again_scanPass, eq_iff_iff, and_iff_left_iff_imp]
  intro h
  exact beq_false_of_ne (hk i h.1)

end Scan

/-! ## Scans that remove NOPs -/

section Remove

variable {opt n : Nat}

def weight (opt n : Nat) (p : Mem) : Nat := (p.read opt n).countP (· != 0)

theorem weight_le (opt n : Nat) (p : Mem) : weight opt n p ≤ n := by
  have := List.countP_le_length (p := (· != (0 : UInt8))) (l := p.read opt n)
  rwa [length_read] at this

/-- Every removal brings a zero into the area. -/
theorem drops.weight {i : Nat} {p p' : Mem} (hi : i < n) (h : drops opt n i p p') :
    weight opt n p' + 1 = weight opt n p := by
  obtain ⟨hnop, rfl⟩ := h
  obtain ⟨m, rfl⟩ : ∃ m, n = i + (m + 1) := ⟨n - i - 1, by omega⟩
  have hread : p.read opt (i + (m + 1)) =
      p.read opt i ++ tcpoptNop :: p.read (opt + i + 1) m := by
    rw [read_add, read_succ, hnop]
  have hholds := removeByte_holds (hread ▸ holds_read p opt (i + (m + 1)))
  simp only [length_read] at hholds
  have hafter := hholds.read (n := i + (m + 1)) (by simp)
  unfold Opennop.weight
  rw [show i + (m + 1) = i + m + 1 by omega] at hafter hread ⊢
  rw [hafter, hread]
  simp [tcpoptNop]
  omega

theorem again_nopPass {i : Nat} {p p' : Mem} :
    Again (nopPass opt n i) p p' ↔ drops opt n i p p' := by
  unfold Again nopPass drops
  split
  · next h => simp [h, eq_comm]
  · next h => simp [h]

theorem dropNops_returns (opt : Nat) {i : Nat} (hi : i < n) (p : Mem) :
    ∃ p', dropNops opt n i p = .ok p' := by
  have hpass : ∀ q, True → (∃ q', nopPass opt n i q = .ok (.again q') ∧ True ∧
      weight opt n q' < weight opt n q) ∨ ∃ q', nopPass opt n i q = .ok (.done q') ∧ True := by
    intro q _
    by_cases hnop : q (opt + i) = tcpoptNop
    · have hdrop : drops opt n i q (removeByte q opt n i) := ⟨hnop, rfl⟩
      have hw := hdrop.weight hi
      exact .inl ⟨_, again_nopPass.2 hdrop, trivial, by omega⟩
    · refine .inr ⟨q, ?_, trivial⟩
      unfold nopPass
      rw [if_neg hnop]
  obtain ⟨p', hp', -⟩ :=
    loop_total (weight opt n) hpass (s := p) trivial (Nat.lt_succ_of_le (weight_le opt n p))
  exact ⟨p', hp'⟩

theorem dropNops_eq_ok {i : Nat} (hi : i < n) {p p' : Mem} :
    dropNops opt n i p = .ok p' ↔ ReflTransGen (drops opt n i) p p' ∧ p' (opt + i) ≠ tcpoptNop := by
  have hagain : Again (nopPass opt n i) = drops opt n i := by
    funext q q'
    exact propext again_nopPass
  have hdone : ∀ q r, nopPass opt n i q = .ok (.done r) ↔ r = q ∧ q (opt + i) ≠ tcpoptNop := by
    intro q r
    unfold nopPass
    split
    · next h => simp [h]
    · next h => simp [h, eq_comm]
  constructor
  · intro h
    obtain ⟨q, hq, hleft⟩ := loop_ok_iff.1 ⟨_, h⟩
    obtain ⟨rfl, hne⟩ := (hdone q p').1 hleft
    exact ⟨hagain ▸ hq, hne⟩
  · rintro ⟨hreach, hne⟩
    obtain ⟨q, hq⟩ := dropNops_returns opt hi p
    obtain ⟨fuel, hloop⟩ := loop_ok_iff.2 ⟨p', hagain.symm ▸ hreach, (hdone p' p').2 ⟨rfl, hne⟩⟩
    rw [hq, loop_unique hq hloop]

theorem reach_drops {i : Nat} (hi : i < n) {p p' : Mem} (h : ReflTransGen (drops opt n i) p p') :
    p' = p ∨ weight opt n p' < weight opt n p := by
  induction h with
  | refl => exact .inl rfl
  | tail _ hstep ih =>
    have hw := hstep.weight hi
    refine .inr ?_
    rcases ih with heq | hlt
    · rw [heq] at hw
      omega
    · omega

/-- The passes of a scan that removes NOPs leave the area as it is or make it lighter. -/
theorem reach_thins {s t : Mem × Nat} (h : ReflTransGen (thins opt n) s t) :
    t.1 = s.1 ∨ weight opt n t.1 < weight opt n s.1 := by
  induction h with
  | refl => exact .inl rfl
  | tail _ hstep ih =>
    rcases reach_drops hstep.2.2.1 hstep.1 with heq | hlt
    · rwa [heq]
    · refine .inr ?_
      rcases ih with heq | hlt'
      · rwa [heq] at hlt
      · exact hlt.trans hlt'

theorem index_thins {p : Mem} {t : Mem × Nat} (h : ReflTransGen (thins opt n) (p, 0) t) :
    t.2 < 256 := by
  induction h with
  | refl => exact Nat.zero_lt_succ 255
  | tail _ hstep _ => exact hstep.2.2.lt

/-- A pair of a weight up to forty and an 8-bit index takes at most 41 * 256 values. -/
theorem bounded_thins (hn : n ≤ 40) (p : Mem) :
    Bounded (thins opt n) (fun s => goesAround s.1 opt s.2) (fun s => weight opt n s.1 * 256 + s.2)
      Prod.snd (41 * 256) (p, 0) := by
  constructor
  · intro t ht
    have hi := index_thins ht
    have hw := weight_le opt n t.1
    omega
  · intro t u ht htu hcode
    have hi := index_thins ht
    have hj := index_thins (ht.trans htu)
    rcases reach_thins htu with heq | hlt
    · rw [heq] at hcode
      exact Prod.ext heq.symm (by omega)
    · omega
  · intro t u _ htu hut hback
    -- on the way back to `t` nothing is removed
    have hsame : u.1 = t.1 := by
      rcases reach_thins (.single htu) with heq | hlt
      · exact heq
      · rcases reach_thins hut with heq | hlt'
        · exact heq.symm
        · omega
    have hstep := htu.2.2
    rw [hsame] at hstep
    exact hstep.rises hback

theorem again_removeNopPass : Again (removeNopPass opt n) = thins opt n := by
  funext ⟨p, i⟩ ⟨p', j⟩
  rw [eq_iff_iff]
  by_cases hi : i < n
  · simp only [Again, removeNopPass, if_pos hi, bind_eq_ok]
    constructor
    · rintro ⟨q, hq, hstep⟩
      cases hstep
      obtain ⟨hdrops, hne⟩ := (dropNops_eq_ok hi).1 hq
      exact ⟨hdrops, hne, hi, rfl⟩
    · rintro ⟨hdrops, hne, -, hj⟩
      obtain rfl : j = (i + optlen p' opt i) % 256 := hj
      exact ⟨p', (dropNops_eq_ok hi).2 ⟨hdrops, hne⟩, rfl⟩
  · simp [Again, removeNopPass, thins, follows, hi]

theorem again_squeezePass {s t : Mem × Nat} (h : Again (squeezePass opt n) s t) :
    thins opt n s t := by
  obtain ⟨p, i⟩ := s
  by_cases hi : i < n
  · simp only [Again, squeezePass, if_pos hi, bind_eq_ok] at h
    obtain ⟨q, hq, hstep⟩ := h
    obtain ⟨hdrops, hne⟩ := (dropNops_eq_ok hi).1 hq
    split at hstep
    · cases hstep
    · cases hstep
      exact ⟨hdrops, hne, hi, rfl⟩
  · simp [Again, squeezePass, hi] at h

theorem removeNopPass_ok (s : Mem × Nat) : ∃ r, removeNopPass opt n s = .ok r := by
  obtain ⟨p, i⟩ := s
  by_cases hi : i < n
  · obtain ⟨p', hp'⟩ := dropNops_returns opt hi p
    exact ⟨_, by simp only [removeNopPass, if_pos hi, hp', ok_bind]; rfl⟩
  · exact ⟨.done p, by simp only [removeNopPass, if_neg hi]⟩

theorem squeezePass_ok (s : Mem × Nat) : ∃ r, squeezePass opt n s = .ok r := by
  obtain ⟨p, i⟩ := s
  by_cases hi : i < n
  · obtain ⟨p', hp'⟩ := dropNops_returns opt hi p
    simp only [squeezePass, if_pos hi, hp', ok_bind]
    split
    · exact ⟨_, rfl⟩
    · exact ⟨_, rfl⟩
  · exact ⟨.done (p, 0), by simp only [squeezePass, if_neg hi]⟩

variable {p : Mem}

theorem bounded_squeezePass (hn : n ≤ 40) (p : Mem) :
    Bounded (Again (squeezePass opt n)) (fun s => goesAround s.1 opt s.2)
      (fun s => weight opt n s.1 * 256 + s.2) Prod.snd (41 * 256) (p, 0) :=
  (bounded_thins hn p).mono fun _ _ h => again_squeezePass h

theorem removeNop_ends_iff (hn : n ≤ 40) : Ends (removeNopPass opt n) (p, 0) ↔
    NoReturn (thins opt n) (fun s => goesAround s.1 opt s.2) (p, 0) := by
  rw [← again_removeNopPass]
  exact ends_iff_noReturn (again_removeNopPass ▸ bounded_thins hn p) fun s _ => removeNopPass_ok s

theorem removeNop_returns_iff (hn : n ≤ 40) : Ends (removeNopPass opt n) (p, 0) ↔
    ∃ p', loop (removeNopPass opt n) nopFuel (p, 0) = .ok p' := by
  constructor
  · intro h
    obtain ⟨p', hp'⟩ := loop_of_noReturn (again_removeNopPass ▸ bounded_thins hn p)
      (fun s _ => removeNopPass_ok s) h.noReturn
    exact ⟨p', loop_more hp' 40⟩
  · rintro ⟨p', hp'⟩
    exact ⟨nopFuel, p', hp'⟩

theorem squeeze_returns_iff (hn : n ≤ 40) : Ends (squeezePass opt n) (p, 0) ↔
    ∃ r, loop (squeezePass opt n) nopFuel (p, 0) = .ok r := by
  constructor
  · intro h
    obtain ⟨r, hr⟩ := loop_of_noReturn (bounded_squeezePass hn p) (fun s _ => squeezePass_ok s)
      h.noReturn
    exact ⟨r, loop_more hr 40⟩
  · rintro ⟨r, hr⟩
    exact ⟨nopFuel, r, hr⟩

/-- The scan that stops at the first EOL ends if the one that does not stop there does. -/
theorem squeeze_ends_of_thins (hn : n ≤ 40)
    (h : NoReturn (thins opt n) (fun s => goesAround s.1 opt s.2) (p, 0)) :
    Ends (squeezePass opt n) (p, 0) :=
  (ends_iff_noReturn (bounded_squeezePass hn p) fun s _ => squeezePass_ok s).2
    (h.mono fun _ _ hstep => again_squeezePass hstep)

theorem removeNop_eq_ok {p' : Mem} : (∃ fuel, loop (removeNopPass opt n) fuel (p, 0) = .ok p') ↔
    ∃ i, ReflTransGen (thins opt n) (p, 0) (p', i) ∧ n ≤ i := by
  rw [loop_ok_iff, again_removeNopPass]
  constructor
  · rintro ⟨⟨q, i⟩, hreach, hdone⟩
    by_cases hi : i < n
    · simp only [removeNopPass, if_pos hi, bind_eq_ok] at hdone
      obtain ⟨q', -, hq'⟩ := hdone
      cases hq'
    · simp only [removeNopPass, if_neg hi] at hdone
      cases hdone
      exact ⟨i, hreach, Nat.le_of_not_lt hi⟩
  · rintro ⟨i, hreach, hi⟩
    exact ⟨(p', i), hreach, by simp only [removeNopPass, if_neg (Nat.not_lt.2 hi)]⟩

end Remove

/-! ## The loops of the functions -/

/-- The loops over the options of a packet end: those of `get_tcpopt`, `__get_tcp_option` and
`__set_tcp_option`, for every option number and length, the two nested loops that remove NOPs, and
the loop of `get_tcpopt_freespace` over what their removal leaves. -/
structure ScansEnd (p : Mem) : Prop where
  getTcpopt : ∀ k, Ends (scanPass p p.optOff p.areaLen fun i => p (p.optOff + i) == k) 0
  getTcpOption : ∀ k, Ends (scanPass p p.optOff p.areaLen fun i =>
    p (p.optOff + i) == k && decide (i + (p (p.optOff + i + 1)).toNat ≤ 4 * p.doff)) 0
  setTcpOption : ∀ k len, Ends (scanPass p p.optOff p.areaLen fun i =>
    p (p.optOff + i) == k && decide (i + len ≤ 4 * p.doff) &&
      (p (p.optOff + i + 1)).toNat == len) 0
  squeeze : Ends (squeezePass p.optOff p.areaLen) (p, 0)
  removeTcpoptNop : Ends (removeNopPass p.optOff p.areaLen) (p, 0)
  dropNops : ∀ q, ∀ i < p.areaLen, Ends (nopPass p.optOff p.areaLen i) q
  getTcpoptFreespace : ∀ fuel q, loop (removeNopPass p.optOff p.areaLen) fuel (p, 0) = .ok q →
    Ends (scanPass q p.optOff p.areaLen fun i => q (p.optOff + i) == tcpoptEol) 0

/-- No option takes the 8-bit index around and back to itself: not in the option area as it is, not
while NOPs are taken out of it, and not before the first EOL of what is left then. -/
structure NoWayBack (p : Mem) : Prop where
  plain : NoReturn (follows p p.optOff p.areaLen) (goesAround p p.optOff) 0
  thinning : NoReturn (thins p.optOff p.areaLen) (fun s => goesAround s.1 p.optOff s.2) (p, 0)
  thinned : ∀ q i, ReflTransGen (thins p.optOff p.areaLen) (p, 0) (q, i) → p.areaLen ≤ i →
    NoReturn (fun i j => follows q p.optOff p.areaLen i j ∧ q (p.optOff + i) ≠ tcpoptEol)
      (goesAround q p.optOff) 0

theorem areaLen_le {p : Mem} (hd : 5 ≤ p.doff) : p.areaLen ≤ 40 := by
  have := doff_lt p
  unfold areaLen
  omega

theorem again_scanPass_eol (q : Mem) (opt n : Nat) :
    Again (scanPass q opt n fun i => q (opt + i) == tcpoptEol) =
      fun i j => follows q opt n i j ∧ q (opt + i) ≠ tcpoptEol := by
  funext i j
  rw [again_scanPass]
  simp

/-- **The loops end exactly when no option leads back to itself**, on every packet with a TCP header
of at least five words. -/
theorem scansEnd_iff (p : Mem) (hd : 5 ≤ p.doff) : ScansEnd p ↔ NoWayBack p := by
  have hn := areaLen_le hd
  constructor
  · intro h
    obtain ⟨k, hk⟩ := exists_unused p p.optOff hn
    refine ⟨?_, (removeNop_ends_iff hn).1 h.removeTcpoptNop, ?_⟩
    · rw [← follows_of_unused hk]
      exact (h.getTcpopt k).noReturn
    · intro q i hq hi
      obtain ⟨fuel, hfuel⟩ := removeNop_eq_ok.2 ⟨i, hq, hi⟩
      rw [← again_scanPass_eol]
      exact (h.getTcpoptFreespace fuel q hfuel).noReturn
  · intro h
    refine ⟨fun k => scan_ends_of_follows h.plain, fun k => scan_ends_of_follows h.plain,
      fun k len => scan_ends_of_follows h.plain, squeeze_ends_of_thins hn h.thinning,
      (removeNop_ends_iff hn).2 h.thinning, ?_, ?_⟩
    · intro q i hi
      obtain ⟨q', hq'⟩ := dropNops_returns p.optOff hi q
      exact ⟨_, q', hq'⟩
    · intro fuel q hq
      obtain ⟨i, hreach, hi⟩ := removeNop_eq_ok.1 ⟨fuel, hq⟩
      have hscan := h.thinned q i hreach hi
      rw [← again_scanPass_eol] at hscan
      exact scan_ends_iff.2 hscan

/-! ## Areas without large bytes -/

/-- No byte of the area, nor the one behind it, is larger than 215. -/
def Low (opt n : Nat) (p : Mem) : Prop := ∀ i ≤ n, (p (opt + i)).toNat ≤ 215

theorem Low.removeByte {opt n i : Nat} {p : Mem} (h : Low opt n p) (hi : i < n) :
    Low opt n (removeByte p opt n i) := by
  intro j hj
  unfold Opennop.removeByte
  by_cases hlast : opt + j = opt + n - 1
  · rw [hlast, set_self]
    exact Nat.zero_le 215
  · rw [set_ne _ _ hlast]
    by_cases hin : i ≤ j ∧ j < n
    · rw [move_in _ (by omega) (by omega),
        show opt + i + 1 + (opt + j - (opt + i)) = opt + (j + 1) by omega]
      exact h (j + 1) (by omega)
    · rw [move_out _ (by omega)]
      exact h j hj

theorem Low.drops {opt n i : Nat} {p p' : Mem} (h : Low opt n p) (hi : i < n)
    (hd : ReflTransGen (drops opt n i) p p') : Low opt n p' := by
  induction hd with
  | refl => exact h
  | tail _ hstep ih =>
    rw [hstep.2]
    exact ih.removeByte hi

theorem Low.not_goesAround {opt n i : Nat} {p : Mem} (h : Low opt n p) (hi : i < n) (hn : n ≤ 40) :
    ¬ goesAround p opt i := by
  have hlen := h (i + 1) hi
  unfold goesAround optlen
  rw [← Nat.add_assoc] at hlen
  split <;> omega

theorem Low.thins {opt n : Nat} {s t : Mem × Nat} (h : Low opt n s.1)
    (hst : ReflTransGen (thins opt n) s t) : Low opt n t.1 := by
  induction hst with
  | refl => exact h
  | tail _ hstep ih => exact ih.drops hstep.2.2.1 hstep.1

/-- Only options of more than 215 bytes lead back. -/
theorem noWayBack_of_low {p : Mem} (hd : 5 ≤ p.doff) (h : Low p.optOff p.areaLen p) :
    NoWayBack p := by
  have hn := areaLen_le hd
  refine ⟨?_, ?_, ?_⟩
  · intro i _ hback hret
    obtain ⟨j, hstep, -⟩ := TransGen.head'_iff.1 hret
    exact h.not_goesAround hstep.1 hn hback
  · intro t ht hback hret
    obtain ⟨u, hstep, -⟩ := TransGen.head'_iff.1 hret
    exact (Low.thins (s := (p, 0)) h ht).not_goesAround hstep.2.2.1 hn hback
  · intro q i hq _ j _ hback hret
    obtain ⟨k, hstep, -⟩ := TransGen.head'_iff.1 hret
    exact (Low.thins (s := (p, 0)) h hq).not_goesAround hstep.1.1 hn hback

/-- A segment with one option that announces its maximum segment size. -/
theorem scansEnd_mss : 5 ≤ (segment [2, 4, 5, 180]).doff ∧ ScansEnd (segment [2, 4, 5, 180]) :=
  ⟨by decide, (scansEnd_iff (segment [2, 4, 5, 180]) (by decide)).2
    (noWayBack_of_low (by decide) (by unfold Low; decide))⟩

/-- From the second of two options, with the lengths 2 and 254, the index comes back to the
first. -/
theorem not_scansEnd_cyclic :
    5 ≤ (segment [5, 2, 5, 254]).doff ∧ ¬ ScansEnd (segment [5, 2, 5, 254]) := by
  refine ⟨by decide, fun h => ?_⟩
  have hthere : Again (scanPass (segment [5, 2, 5, 254]) 40 4 fun i =>
      segment [5, 2, 5, 254] (40 + i) == nod) 0 2 :=
        again_scanPass.2 ⟨⟨by decide, by decide⟩, by decide⟩
  have hback : Again (scanPass (segment [5, 2, 5, 254]) 40 4 fun i =>
      segment [5, 2, 5, 254] (40 + i) == nod) 2 0 :=
        again_scanPass.2 ⟨⟨by decide, by decide⟩, by decide⟩
  exact not_ends_of_returns ((TransGen.single hthere).tail hback) (h.getTcpopt nod)

end Opennop
