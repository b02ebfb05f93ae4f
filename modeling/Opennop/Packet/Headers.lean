import Opennop.Packet.Nod
import Opennop.Packet.Overhang

/-!
# The headers of a NOD option

`get_nod_header` walks over the headers of the NOD option. The walk ends where two addresses on the
stack tell it to, and its step is three times the length of a header, so it finds a header for sure
only at the front of the option (`findsHeader_iff`). No length it uses is compared with the option
or with the option area; `tagInside_iff` says for which packets the accelerator ID is read from the
options all the same.
-/

namespace Opennop

open Mem Relation

variable {gap : Int} {p p' : Mem}

/-! ## The walk over the headers of an option -/

section Walk

variable {id : List UInt8} {n nod nod' : Nat}

theorem nodWalk_cases {fuel x y : Nat}
    (h : loop (nodPass gap p nod id) (fuel + 1) (some x) = .ok (some y)) :
    ((nodIdlen p x = id.length ∧ checkNodHeader p x id) ∧ y = x) ∨
      (¬ (nodIdlen p x = id.length ∧ checkNodHeader p x id) ∧
        gap + (p (nod + 1)).toNat < nodTotLen p x ∧
        loop (nodPass gap p nod id) fuel (some (x + 3 * nodTotLen p x)) = .ok (some y)) := by
  by_cases hhit : nodIdlen p x = id.length ∧ checkNodHeader p x id
  · have hpass : nodPass gap p nod id (some x) = .ok (.done (some x)) := by
      rw [nodPass, if_pos hhit]
    rw [loop_done hpass] at h
    cases h
    exact .inl ⟨hhit, rfl⟩
  · have hpass : nodPass gap p nod id (some x) = .ok (.again (getNodNextHeader gap p nod x)) := by
      rw [nodPass, if_neg hhit]
    rw [loop_again hpass] at h
    unfold getNodNextHeader at h
    split at h
    · exact .inr ⟨hhit, ‹_›, h⟩
    · cases fuel with
      | zero => cases h
      | succ fuel =>
        rw [loop_done (show nodPass gap p nod id none = .ok (.done none) from rfl)] at h
        cases h

theorem nodWalk_hit {fuel x y : Nat}
    (h : loop (nodPass gap p nod id) fuel (some x) = .ok (some y)) :
    nodIdlen p y = id.length ∧ checkNodHeader p y id := by
  induction fuel generalizing x with
  | zero => cases h
  | succ fuel ih =>
    rcases nodWalk_cases h with ⟨hhit, rfl⟩ | ⟨-, -, h⟩
    · exact hhit
    · exact ih h

theorem nodWalk_ge {fuel x y : Nat}
    (h : loop (nodPass gap p nod id) fuel (some x) = .ok (some y)) : x ≤ y := by
  induction fuel generalizing x with
  | zero => cases h
  | succ fuel ih =>
    rcases nodWalk_cases h with ⟨-, rfl⟩ | ⟨-, -, h⟩
    · exact Nat.le_refl _
    · exact (Nat.le_add_right _ _).trans (ih h)

/-- A walk that stays inside an option takes the same way in a copy of the option. The induction is
on the number of passes; the walk only goes up. -/
theorem nodWalk_copy (hcopy : ∀ i < n, p' (nod' + i) = p (nod + i)) (h₂ : 2 ≤ n) {fuel : Nat} :
    ∀ {j y : Nat}, loop (nodPass gap p nod id) fuel (some (nod + j)) = .ok (some y) →
      y + 2 + id.length ≤ nod + n → ∃ r, y = nod + r ∧ j ≤ r ∧
        loop (nodPass gap p' nod' id) fuel (some (nod' + j)) = .ok (some (nod' + r)) := by
  induction fuel with
  | zero =>
    intro j y h
    cases h
  | succ fuel ih =>
    intro j y h hy
    have hsame : j + 2 + id.length ≤ n → (nodIdlen p' (nod' + j) = nodIdlen p (nod + j) ∧
        checkNodHeader p' (nod' + j) id = checkNodHeader p (nod + j) id ∧
        nodTotLen p' (nod' + j) = nodTotLen p (nod + j)) := by
      intro hj
      have hread : p'.read (nod' + j + 2) id.length = p.read (nod + j + 2) id.length :=
        read_copy fun i hi => by
          simp only [Nat.add_assoc]
          exact hcopy _ (by omega)
      unfold nodIdlen checkNodHeader nodTotLen
      rw [hread, Nat.add_assoc nod', hcopy (j + 1) (by omega), hcopy j (by omega)]
      exact ⟨rfl, rfl, rfl⟩
    rcases nodWalk_cases h with ⟨hhit, rfl⟩ | ⟨hmiss, hgap, hrest⟩
    · obtain ⟨h₁, hc, -⟩ := hsame (by omega)
      refine ⟨j, rfl, Nat.le_refl j, loop_done ?_⟩
      rw [nodPass, if_pos (by rwa [h₁, hc])]
    · rw [Nat.add_assoc] at hrest
      obtain ⟨r, rfl, hr, hloop⟩ := ih hrest hy
      obtain ⟨h₁, hc, htot⟩ := hsame (by omega)
      refine ⟨r, rfl, by omega, ?_⟩
      have hpass' : nodPass gap p' nod' id (some (nod' + j)) =
          .ok (.again (some (nod' + (j + 3 * nodTotLen p (nod + j))))) := by
        rw [nodPass, if_neg (by rwa [h₁, hc]), getNodNextHeader, htot, hcopy 1 (by omega),
          if_pos hgap, Nat.add_assoc]
      rw [loop_again hpass', hloop]

end Walk

theorem getNodHeaderData_some {id : List UInt8} {l a : Nat}
    (h : getNodHeaderData gap p id = .ok ⟨l, some a⟩) :
    ∃ n nodh, getTcpopt p nod = .ok (some n) ∧ getNodHeader gap p id = .ok (some nodh) ∧
      loop (nodPass gap p n id) nodFuel (some (n + 2)) = .ok (some nodh) ∧
      nodIdlen p nodh = id.length ∧ nodHdrLen p nodh = id.length + 2 + l ∧ 0 < l ∧
      a = nodh + id.length + 2 := by
  unfold getNodHeaderData at h
  obtain ⟨r, hr, h⟩ := bind_eq_ok.1 h
  cases r with
  | none => cases h
  | some nodh =>
    have hget := hr
    unfold getNodHeader at hr
    obtain ⟨n, hn, hr⟩ := bind_eq_ok.1 hr
    cases n with
    | none => cases hr
    | some n =>
      dsimp only at hr h
      split at hr
      · obtain ⟨hid, -⟩ := nodWalk_hit hr
        split at h
        · rename_i hlen
          cases h
          refine ⟨n, nodh, hn, hget, hr, hid, ?_, ?_, by rw [hid]⟩ <;> omega
        · cases h
      · cases hr

/-! ## Which header a walk returns -/

/-- The header at `x` has the ID. -/
def HasId (p : Mem) (id : List UInt8) (x : Nat) : Prop :=
  nodIdlen p x = id.length ∧ checkNodHeader p x id = true

instance (p : Mem) (id : List UInt8) (x : Nat) : Decidable (HasId p id x) :=
  inferInstanceAs (Decidable (_ ∧ _))

theorem nodPass_hit {nod x : Nat} {id : List UInt8} (h : HasId p id x) :
    nodPass gap p nod id (some x) = .ok (.done (some x)) := by
  unfold HasId at h
  rw [nodPass, if_pos h]

theorem nodPass_miss {nod x : Nat} {id : List UInt8} (h : ¬ HasId p id x) :
    nodPass gap p nod id (some x) = .ok (.again (getNodNextHeader gap p nod x)) := by
  unfold HasId at h
  rw [nodPass, if_neg h]

/-- The header to which a walk gets from `x` in `s` steps. -/
def headerAfter (gap : Int) (p : Mem) (nod : Nat) (id : List UInt8) : (s x : Nat) → Option Nat
  | 0, x => some x
  | s + 1, x =>
    if HasId p id x then none
    else (getNodNextHeader gap p nod x).bind (headerAfter gap p nod id s)

/-- A walk returns the first header on its way that has the ID. -/
theorem nodWalk_iff {nod fuel x y : Nat} {id : List UInt8} :
    loop (nodPass gap p nod id) fuel (some x) = .ok (some y) ↔
      ∃ s < fuel, headerAfter gap p nod id s x = some y ∧ HasId p id y := by
  induction fuel generalizing x with
  | zero => simp [loop]
  | succ fuel ih =>
    constructor
    · intro h
      rcases nodWalk_cases h with ⟨hhit, rfl⟩ | ⟨hmiss, hgap, hrest⟩
      · exact ⟨0, Nat.succ_pos fuel, rfl, hhit⟩
      · obtain ⟨s, hs, hafter, hid⟩ := ih.1 hrest
        refine ⟨s + 1, by omega, ?_, hid⟩
        have hmiss' : ¬ HasId p id x := hmiss
        rw [headerAfter, if_neg hmiss', getNodNextHeader, if_pos hgap]
        exact hafter
    · rintro ⟨s, hs, hafter, hid⟩
      cases s with
      | zero =>
        cases hafter
        exact loop_done (nodPass_hit hid)
      | succ s =>
        rw [headerAfter] at hafter
        by_cases hx : HasId p id x
        · rw [if_pos hx] at hafter
          cases hafter
        · rw [if_neg hx] at hafter
          obtain ⟨z, hz, hrest⟩ := Option.bind_eq_some_iff.1 hafter
          rw [loop_again (nodPass_miss hx), hz]
          exact ih.2 ⟨s, by omega, hrest, hid⟩

/-! ## Headers among others -/

/-- A header as it stands in a NOD option: its length is the number of bytes it takes, and its ID
has one to four bytes. -/
structure NodHeader where
  id : List UInt8
  hdrLen : Nat
  data : List UInt8
  id_pos : 1 ≤ id.length
  id_le : id.length ≤ 4
  hdrLen_lt : hdrLen < 32
  fits : 2 + id.length + data.length < 256

namespace NodHeader

/-- `tot_len` -/
def totLen (h : NodHeader) : Nat := 2 + h.id.length + h.data.length

def encode (h : NodHeader) : List UInt8 :=
  UInt8.ofNat h.totLen :: UInt8.ofNat (h.hdrLen * 8 + h.id.length) :: (h.id ++ h.data)

/-- Where the first header with the ID starts among headers that are laid end to end. -/
def place (id : List UInt8) : List NodHeader → Option Nat
  | [] => none
  | h :: hs => if h.id = id then some 0 else (place id hs).map (h.totLen + ·)

theorem fields_of_holds {h : NodHeader} {x : Nat} {rest : List UInt8}
    (hx : p.Holds x (h.encode ++ rest)) :
    nodTotLen p x = h.totLen ∧ nodIdlen p x = h.id.length ∧
      p.Holds (x + 2) (h.id ++ (h.data ++ rest)) := by
  simp only [encode, List.cons_append, List.append_assoc, holds_cons] at hx
  obtain ⟨ht, hb, hrest⟩ := hx
  have hfits := h.fits
  have hid := h.id_le
  have hlen := h.hdrLen_lt
  refine ⟨?_, ?_, hrest⟩
  · unfold nodTotLen
    rw [ht, UInt8.toNat_ofNat']
    unfold totLen
    omega
  · unfold nodIdlen
    rw [hb, UInt8.toNat_ofNat']
    omega

theorem hasId_iff {h : NodHeader} {x : Nat} {rest : List UInt8} (hx : p.Holds x (h.encode ++ rest))
    (id : List UInt8) : HasId p id x ↔ h.id = id := by
  obtain ⟨-, hidlen, hbytes⟩ := fields_of_holds hx
  have hread : p.read (x + 2) h.id.length = h.id := (holds_append.1 hbytes).1
  unfold HasId checkNodHeader
  rw [hidlen, beq_iff_eq]
  constructor
  · rintro ⟨hlen, hid⟩
    rw [← hlen, hread] at hid
    exact hid
  · rintro rfl
    exact ⟨rfl, hread⟩

theorem length_encode (h : NodHeader) : h.encode.length = h.totLen := by
  simp only [encode, totLen, List.length_cons, List.length_append]
  omega

end NodHeader

def encodeHeaders (hs : List NodHeader) : List UInt8 := hs.flatMap NodHeader.encode

/-- Wherever the parameters of `get_nod_next_header` are on the stack, `get_nod_header` returns the
first of the headers `hs` of the NOD option at `a` that has the ID, and a null pointer if none has
it. -/
def FindsHeader (p : Mem) (a : Nat) (hs : List NodHeader) (id : List UInt8) : Prop :=
  ∀ gap, getNodHeader gap p id = .ok ((NodHeader.place id hs).map (a + 2 + ·))

section Finds

variable {a : Nat} {h : NodHeader} {hs : List NodHeader} {id : List UInt8}

theorem front_of_holds (hlen : (encodeHeaders (h :: hs)).length + 2 < 256)
    (hold : p.Holds a (Opt.opt nod (encodeHeaders (h :: hs))).encode) :
    (p (a + 1)).toNat = (encodeHeaders (h :: hs)).length + 2 ∧
      p.Holds (a + 2) (h.encode ++ encodeHeaders hs) := by
  simp only [Opt.encode, holds_cons] at hold
  obtain ⟨-, hl, hrest⟩ := hold
  refine ⟨?_, ?_⟩
  · rw [hl, UInt8.toNat_ofNat']
    omega
  · exact hrest

theorem getNodHeader_eq_loop (hnod : getTcpopt p nod = .ok (some a))
    (hlen : (encodeHeaders (h :: hs)).length + 2 < 256)
    (hold : p.Holds a (Opt.opt nod (encodeHeaders (h :: hs))).encode) :
    getNodHeader gap p id = loop (nodPass gap p a id) nodFuel (some (a + 2)) := by
  obtain ⟨hl, -⟩ := front_of_holds hlen hold
  unfold getNodHeader
  rw [hnod, ok_bind]
  dsimp only
  rw [if_pos]
  rw [hl, encodeHeaders, List.flatMap_cons, List.length_append, NodHeader.length_encode,
    NodHeader.totLen]
  omega

theorem getNodHeader_head (hnod : getTcpopt p nod = .ok (some a))
    (hlen : (encodeHeaders (h :: hs)).length + 2 < 256)
    (hold : p.Holds a (Opt.opt nod (encodeHeaders (h :: hs))).encode) (hid : h.id = id) :
    getNodHeader gap p id = .ok (some (a + 2)) := by
  have hhit := (NodHeader.hasId_iff (front_of_holds hlen hold).2 id).2 hid
  rw [getNodHeader_eq_loop hnod hlen hold]
  exact loop_done (nodPass_hit hhit)

/-- Where the end test holds at the first header, the walk does not get past it. -/
theorem getNodHeader_stops (hnod : getTcpopt p nod = .ok (some a))
    (hlen : (encodeHeaders (h :: hs)).length + 2 < 256)
    (hold : p.Holds a (Opt.opt nod (encodeHeaders (h :: hs))).encode) (hid : h.id ≠ id)
    (hgap : -2 ≤ gap) : getNodHeader gap p id = .ok none := by
  obtain ⟨hl, hfront⟩ := front_of_holds hlen hold
  obtain ⟨htot, -, -⟩ := NodHeader.fields_of_holds hfront
  have hmiss : ¬ HasId p id (a + 2) := fun hhit => hid ((NodHeader.hasId_iff hfront id).1 hhit)
  have hend : getNodNextHeader gap p a (a + 2) = none := by
    unfold getNodNextHeader
    rw [htot, hl, encodeHeaders, List.flatMap_cons, List.length_append, NodHeader.length_encode,
      if_neg (by omega)]
  rw [getNodHeader_eq_loop hnod hlen hold, nodFuel, loop_again (nodPass_miss hmiss), hend]
  exact loop_done rfl

theorem nodWalk_ne_none (hgap : gap < -255) {nod fuel x : Nat} :
    loop (nodPass gap p nod id) fuel (some x) ≠ .ok none := by
  intro h
  have hpass : ∀ s : Option Nat, s.isSome → Post (nodPass gap p nod id s)
      (Pass.Sat (·.isSome) fun r : Option Nat => r.isSome) := by
    intro s hs
    obtain ⟨y, rfl⟩ := Option.isSome_iff_exists.1 hs
    by_cases hy : HasId p id y
    · rw [nodPass_hit hy]
      exact Post.ok rfl
    · have hb := (p (nod + 1)).toNat_lt
      rw [nodPass_miss hy, getNodNextHeader, if_pos (by omega)]
      exact Post.ok rfl
  have hpost := Post.loop hpass (s := some x) rfl none h
  cases hpost

end Finds

/-- **The headers of a NOD option are found exactly when the first has the ID**: behind it, it
depends on the stack whether the walk ends at once or never. -/
theorem findsHeader_iff (p : Mem) (a : Nat) (h : NodHeader) (hs : List NodHeader) (id : List UInt8)
    (hnod : getTcpopt p nod = .ok (some a)) (hlen : (encodeHeaders (h :: hs)).length + 2 < 256)
    (hold : p.Holds a (Opt.opt nod (encodeHeaders (h :: hs))).encode) :
    FindsHeader p a (h :: hs) id ↔ h.id = id := by
  constructor
  · intro hfinds
    by_contra hid
    have hstop := hfinds 0
    rw [getNodHeader_stops hnod hlen hold hid (by decide)] at hstop
    have hnone : (NodHeader.place id (h :: hs)).map (a + 2 + ·) = none := (Except.ok.inj hstop).symm
    have hnever := hfinds (-256)
    rw [hnone, getNodHeader_eq_loop hnod hlen hold] at hnever
    exact nodWalk_ne_none (by decide) hnever
  · intro hid gap
    rw [getNodHeader_head hnod hlen hold hid, NodHeader.place, if_pos hid]
    rfl

def NodHeader.onop : NodHeader := ⟨Opennop.onop, 6, [], by decide, by decide, by decide, by decide⟩

def NodHeader.other : NodHeader := ⟨[65, 66], 4, [], by decide, by decide, by decide, by decide⟩

theorem findsHeader_onop :
    getTcpopt (segment [33, 8, 6, 52, 79, 78, 79, 80]) nod = .ok (some 40) ∧
      FindsHeader (segment [33, 8, 6, 52, 79, 78, 79, 80]) 40 [NodHeader.onop] onop :=
  ⟨by decide, (findsHeader_iff (segment [33, 8, 6, 52, 79, 78, 79, 80]) 40 NodHeader.onop [] onop
    (by decide) (by decide) (by decide)).2 rfl⟩

/-- `set_nod_header` appends its header behind that of another vendor, and `get_nod_header` does not
find it. -/
theorem not_findsHeader_appended :
    ∃ p, setNodHeader 8 (segment ([33, 6, 4, 34, 65, 66] ++ List.replicate 10 0)) onop =
        .ok (p, some 46) ∧
      getTcpopt p nod = .ok (some 40) ∧
      p.Holds 40 (Opt.opt nod (encodeHeaders [NodHeader.other, NodHeader.onop])).encode ∧
      getNodHeader 8 p onop = .ok none ∧
      ¬ FindsHeader p 40 [NodHeader.other, NodHeader.onop] onop := by
  have hrun : (setNodHeader 8 (segment ([33, 6, 4, 34, 65, 66] ++ List.replicate 10 0)) onop).map
      (fun r => (r.2, getTcpopt r.1 nod, r.1.read 40 12, getNodHeader 8 r.1 onop)) =
      .ok (some 46, .ok (some 40),
        (Opt.opt nod (encodeHeaders [NodHeader.other, NodHeader.onop])).encode, .ok none) := by
    decide +kernel
  cases hset : setNodHeader 8 (segment ([33, 6, 4, 34, 65, 66] ++ List.replicate 10 0)) onop with
  | error e =>
    rw [hset] at hrun
    cases hrun
  | ok r =>
    obtain ⟨p, x⟩ := r
    rw [hset] at hrun
    simp only [Except.map, Except.ok.injEq, Prod.mk.injEq] at hrun
    obtain ⟨rfl, hnod, hread, hget⟩ := hrun
    refine ⟨p, rfl, hnod, hread, hget, fun hfinds => ?_⟩
    have hfound := hfinds 8
    rw [hget] at hfound
    cases hfound

/-! ## The accelerator ID and the user data -/

/-- `get_tcpopt` takes the option at index `i` for the one it looks for. -/
def kindHit (p : Mem) (k : UInt8) (i : Nat) : Bool := p (p.optOff + i) == k

/-- Where `get_nod_header_data` gives data for the ID of this program, the NOD option, the header
with its ID and the data lie in the option area, the header and the data in the option; and every
packet with the same option area on which the function returns gives the same data. -/
def TagInside (gap : Int) (p : Mem) : Prop :=
  ∀ l a, getNodHeaderData gap p onop = .ok ⟨l, some a⟩ →
    (∃ n h, getTcpopt p nod = .ok (some n) ∧ getNodHeader gap p onop = .ok (some h) ∧
      p.optOff ≤ n ∧ n + (p (n + 1)).toNat ≤ p.dataOff ∧
      n ≤ h ∧ h + 6 ≤ n + (p (n + 1)).toNat ∧ n ≤ a ∧ a + l ≤ n + (p (n + 1)).toNat) ∧
    ∀ p' r, SameOptions p p' → getNodHeaderData gap p' onop = .ok r →
      r.dataLen = l ∧ ∃ a', r.data = some a' ∧ p'.read a' l = p.read a l

/-- The first NOD option ends in the option area, the first of its headers that the walk finds, if
it announces data, ends in the option, and the scan comes to no option that starts at the last byte
of the area. -/
def TagFits (gap : Int) (p : Mem) : Prop :=
  ∀ i, OnWay p p.optOff p.areaLen (kindHit p nod) i → i < p.areaLen → p (p.optOff + i) = nod →
    2 < declaredLen p i → ∀ s < nodFuel, ∀ h,
    headerAfter gap p (p.optOff + i) onop s (p.optOff + i + 2) = some h → HasId p onop h →
    6 < nodHdrLen p h →
    i + declaredLen p i ≤ p.areaLen ∧ h + nodHdrLen p h ≤ p.optOff + i + declaredLen p i ∧
      ∀ j, OnWay p p.optOff p.areaLen (kindHit p nod) j → j + 1 < p.areaLen

section Tag

variable {i : Nat}

theorem getTcpopt_eq_some_iff {k : UInt8} {n : Nat} : getTcpopt p k = .ok (some n) ↔
    ∃ i, n = p.optOff + i ∧ OnWay p p.optOff p.areaLen (kindHit p k) i ∧ i < p.areaLen ∧
      p (p.optOff + i) = k := by
  have hscan : ∀ i, scan p p.optOff p.areaLen (fun i => p (p.optOff + i) == k) = .ok (some i) ↔
      OnWay p p.optOff p.areaLen (kindHit p k) i ∧ i < p.areaLen ∧ p (p.optOff + i) = k := by
    intro i
    rw [← beq_iff_eq (a := p (p.optOff + i))]
    exact scan_eq_some_iff
  unfold getTcpopt
  rw [bind_eq_ok]
  constructor
  · rintro ⟨o, ho, hn⟩
    cases o with
    | none => cases hn
    | some i =>
      cases hn
      exact ⟨i, rfl, (hscan i).1 ho⟩
  · rintro ⟨i, rfl, hi⟩
    exact ⟨some i, (hscan i).2 hi, rfl⟩

theorem getNodHeaderData_eq_some_iff {l a : Nat} : getNodHeaderData gap p onop = .ok ⟨l, some a⟩ ↔
    ∃ n h, getTcpopt p nod = .ok (some n) ∧ 2 < (p (n + 1)).toNat ∧
      (∃ s < nodFuel, headerAfter gap p n onop s (n + 2) = some h ∧ HasId p onop h) ∧
      nodHdrLen p h = 6 + l ∧ 0 < l ∧ a = h + 6 := by
  constructor
  · intro hget
    obtain ⟨n, h, hnod, hhead, hloop, hidlen, hlen, hl, rfl⟩ := getNodHeaderData_some hget
    refine ⟨n, h, hnod, ?_, nodWalk_iff.1 hloop, hlen, hl, rfl⟩
    unfold getNodHeader at hhead
    rw [hnod, ok_bind] at hhead
    dsimp only at hhead
    by_contra hshort
    rw [if_neg (by omega)] at hhead
    cases hhead
  · rintro ⟨n, h, hnod, hlong, hwalk, hlen, hl, rfl⟩
    obtain ⟨-, -, -, hid⟩ := id hwalk
    have hidlen : nodIdlen p h = 4 := hid.1
    have hhead : getNodHeader gap p onop = .ok (some h) := by
      unfold getNodHeader
      rw [hnod, ok_bind]
      dsimp only
      rw [if_pos hlong]
      exact nodWalk_iff.2 hwalk
    unfold getNodHeaderData
    rw [hhead, ok_bind]
    dsimp only
    rw [hidlen, hlen, if_pos (by omega), show 6 + l - (4 + 2) = l by omega]
    rfl

theorem SameOptions.kindHit_eq (h : SameOptions p p') (k : UInt8) (hi : i < p.areaLen) :
    kindHit p' k i = kindHit p k i := by
  unfold kindHit
  rw [h.area i hi]

/-- Where another option starts at the last byte of the area, the user data can end the scan. -/
theorem absent_of_last (hd : 5 ≤ p.doff) {k : UInt8} (hlast : i + 1 = p.areaLen)
    (hwalk : OnWay p p.optOff p.areaLen (kindHit p k) i) (hk : p (p.optOff + i) ≠ k) :
    ∃ p', SameOptions p p' ∧ getTcpopt p' k = .ok none := by
  obtain ⟨p', hsame, hopt, hdata⟩ := exists_behind hd [3]
  obtain ⟨hlen, -⟩ := holds_cons.1 hdata
  refine ⟨p', hsame, ?_⟩
  have hwalk' : OnWay p' p'.optOff p.areaLen (kindHit p' k) i :=
    hwalk.transport_last hsame.area (fun j hj => hsame.kindHit_eq k (by omega)) hlast
  have hmiss : kindHit p' k i = false := by
    rw [hsame.kindHit_eq k (by omega)]
    exact beq_false_of_ne hk
  have hstep : follows p' p'.optOff p.areaLen i ((i + optlen p' p'.optOff i) % 256) :=
    ⟨by omega, rfl⟩
  have hshort : (p' (p'.optOff + i + 1)).toNat ≤ 3 := by
    rw [hopt, Nat.add_assoc, hlast, optOff_add_areaLen hd, hlen]
    decide
  have hout := last_leaves hlast (areaLen_le hd) hshort
  have hscan := scan_eq_none (hwalk'.tail ⟨hstep, hmiss⟩) hout
  rw [← hsame.areaLen] at hscan
  unfold getTcpopt
  change (scan p' p'.optOff p'.areaLen (kindHit p' k) >>= _) = _
  rw [hscan, ok_bind]
  rfl

/-- A tag that lies in the option area is read the same in all packets with this area. -/
theorem SameOptions.tag_eq (hsame : SameOptions p p')
    (hall : ∀ j, OnWay p p.optOff p.areaLen (kindHit p nod) j → j + 1 < p.areaLen)
    (hwalk : OnWay p p.optOff p.areaLen (kindHit p nod) i) (hi : i < p.areaLen)
    (hnod : p (p.optOff + i) = nod) (hlong : 2 < declaredLen p i)
    (hend : i + declaredLen p i ≤ p.areaLen) {h l : Nat}
    (hloop : loop (nodPass gap p (p.optOff + i) onop) nodFuel
    (some (p.optOff + i + 2)) = .ok (some h))
    (hlen : nodHdrLen p h = 6 + l) (hl : 0 < l)
    (hfit : h + nodHdrLen p h ≤ p.optOff + i + declaredLen p i) :
    ∃ a', getNodHeaderData gap p' onop = .ok ⟨l, some a'⟩ ∧ p'.read a' l = p.read (h + 6) l := by
  have hcopy : ∀ j < declaredLen p i, p' (p'.optOff + i + j) = p (p.optOff + i + j) := by
    intro j hj
    rw [Nat.add_assoc, Nat.add_assoc]
    exact hsame.area (i + j) (by omega)
  obtain ⟨r, rfl, hr, hloop'⟩ := nodWalk_copy hcopy (by omega) hloop (by
    change h + 2 + 4 ≤ _
    omega)
  have hbytes : ∀ j, r + j < declaredLen p i →
      p' (p'.optOff + i + r + j) = p (p.optOff + i + r + j) := by
    intro j hj
    rw [Nat.add_assoc, Nat.add_assoc (p.optOff + i)]
    exact hcopy (r + j) hj
  have hlen' : nodHdrLen p' (p'.optOff + i + r) = 6 + l := by
    rw [← hlen]
    unfold nodHdrLen
    rw [hbytes 1 (by omega)]
  refine ⟨p'.optOff + i + r + 6,
    getNodHeaderData_eq_some_iff.2 ⟨p'.optOff + i, p'.optOff + i + r, ?_, ?_,
    nodWalk_iff.1 hloop', hlen', hl, rfl⟩, ?_⟩
  · refine getTcpopt_eq_some_iff.2
      ⟨i, rfl, ?_, by rwa [hsame.areaLen], by rw [hsame.area i hi, hnod]⟩
    rw [hsame.areaLen]
    exact hwalk.transport_all hsame.area (fun j hj => hsame.kindHit_eq nod (by omega)) hall
  · have := hcopy 1 (by omega)
    rw [this]
    exact hlong
  · refine read_copy fun j hj => ?_
    rw [Nat.add_assoc, Nat.add_assoc (p.optOff + i + r)]
    exact hbytes (6 + j) (by omega)

end Tag

/-- **The accelerator ID comes from the options exactly when the lengths of the option and its
header say so**, on every packet with a TCP header of at least five words. -/
theorem tagInside_iff (gap : Int) (p : Mem) (hd : 5 ≤ p.doff) :
    TagInside gap p ↔ TagFits gap p := by
  have hend := optOff_add_areaLen hd
  constructor
  · intro hin i hwalk hi hnod hlong s hs h hafter hid hlen
    have htcpopt : getTcpopt p nod = .ok (some (p.optOff + i)) :=
      getTcpopt_eq_some_iff.2 ⟨i, rfl, hwalk, hi, hnod⟩
    have hget : getNodHeaderData gap p onop = .ok ⟨nodHdrLen p h - 6, some (h + 6)⟩ :=
      getNodHeaderData_eq_some_iff.2
        ⟨p.optOff + i, h, htcpopt, hlong, ⟨s, hs, hafter, hid⟩, by omega, by omega, rfl⟩
    obtain ⟨⟨n, h', hn, hh', -, hinArea, -, -, -, hinOpt⟩, htwin⟩ := hin _ _ hget
    rw [htcpopt] at hn
    cases hn
    change p.optOff + i + declaredLen p i ≤ p.dataOff at hinArea
    change _ ≤ p.optOff + i + declaredLen p i at hinOpt
    refine ⟨by omega, by omega, fun j hj => ?_⟩
    have hlt := hj.lt hwalk hi (by unfold kindHit; rw [hnod]; rfl)
    by_contra hlast
    by_cases hk : p (p.optOff + j) = nod
    · -- the scan stops there, so this is the option found
      have hj' := getTcpopt_eq_some_iff.2 ⟨j, rfl, hj, hlt, hk⟩
      rw [htcpopt, Except.ok.injEq, Option.some.injEq] at hj'
      omega
    · obtain ⟨p', hsame, habsent⟩ := absent_of_last hd (by omega) hj hk
      have hnone : getNodHeaderData gap p' onop = .ok ⟨0, none⟩ := by
        unfold getNodHeaderData getNodHeader
        rw [habsent]
        rfl
      obtain ⟨-, a', ha', -⟩ := htwin p' _ hsame hnone
      cases ha'
  · intro hfits l a hget
    obtain ⟨n, h, hn, hlong, ⟨s, hs, hafter, hid⟩, hlen, hl, rfl⟩ :=
      getNodHeaderData_eq_some_iff.1 hget
    obtain ⟨i, rfl, hwalk, hi, hnod⟩ := getTcpopt_eq_some_iff.1 hn
    obtain ⟨hinArea, hinOpt, hall⟩ := hfits i hwalk hi hnod hlong s hs h hafter hid (by omega)
    have hloop : loop (nodPass gap p (p.optOff + i) onop) nodFuel (some (p.optOff + i + 2)) =
        .ok (some h) := nodWalk_iff.2 ⟨s, hs, hafter, hid⟩
    have hhead : getNodHeader gap p onop = .ok (some h) := by
      unfold getNodHeader
      rw [hn, ok_bind]
      dsimp only
      rw [if_pos hlong, hloop]
    have hge := nodWalk_ge hloop
    refine ⟨⟨p.optOff + i, h, hn, hhead, by omega, ?_, by omega, ?_, by omega, ?_⟩, ?_⟩
    · change p.optOff + i + declaredLen p i ≤ p.dataOff
      omega
    · change h + 6 ≤ p.optOff + i + declaredLen p i
      omega
    · change h + 6 + l ≤ p.optOff + i + declaredLen p i
      omega
    · intro p' r hsame hr
      obtain ⟨a', ha', hread⟩ := hsame.tag_eq hall hwalk hi hnod hlong hinArea hloop hlen hl hinOpt
      rw [ha'] at hr
      cases hr
      exact ⟨rfl, a', rfl, hread⟩

/-- A segment whose only option is the tag of the accelerator 1.2.3.4. -/
theorem tagInside_tag : 5 ≤ (segment [33, 12, 10, 84, 79, 78, 79, 80, 1, 2, 3, 4]).doff ∧
    TagInside 0 (segment [33, 12, 10, 84, 79, 78, 79, 80, 1, 2, 3, 4]) := by
  refine ⟨by decide, (tagInside_iff 0 (segment [33, 12, 10, 84, 79, 78, 79, 80, 1, 2, 3, 4])
    (by decide)).2 fun i hwalk _ _ _ s _ h hafter _ _ => ?_⟩
  obtain rfl := hwalk.eq_zero (by decide)
  have hid : HasId (segment [33, 12, 10, 84, 79, 78, 79, 80, 1, 2, 3, 4]) onop 42 := by decide
  cases s with
  | zero =>
    cases hafter
    refine ⟨by decide, by decide, fun j hj => ?_⟩
    obtain rfl := hj.eq_zero (by decide)
    decide
  | succ s =>
    rw [headerAfter] at hafter
    cases (if_pos hid).symm.trans hafter

/-- The NOD option of this segment starts in its option area and has the ID of the header, and what
is taken for the accelerator, in the user data. -/
theorem not_tagInside_overhang :
    5 ≤ ((segment [33, 12, 10, 84]).write 44 (onop ++ [1, 2, 3, 4])).doff ∧
      ¬ TagInside 0 ((segment [33, 12, 10, 84]).write 44 (onop ++ [1, 2, 3, 4])) := by
  refine ⟨by decide, fun hin => ?_⟩
  obtain ⟨⟨n, h, hnod, -, -, hinArea, -⟩, -⟩ := hin 4 48 (by decide +kernel)
  have hn : getTcpopt ((segment [33, 12, 10, 84]).write 44 (onop ++ [1, 2, 3, 4])) nod =
      .ok (some 40) := by decide +kernel
  rw [hn] at hnod
  cases hnod
  exact absurd hinArea (by decide)

end Opennop
