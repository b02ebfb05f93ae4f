import Opennop.Packet.Compressed
import Opennop.Session.Basic

/-!
# Decompression undoes compression

A packet that went through `tcp_compress` and then `tcp_decompress` has its data and its sequence
number back. Its options may be squeezed and the flag added; the others are the same, in the same
order. `updateseq` therefore stores the same sequence numbers on both sides.
-/

namespace Opennop

open Mem

/-- What is assumed of QuickLZ: a buffer that starts with the compressed form of an input
decompresses to the input, and the compressed form is at most 400 bytes longer. -/
structure Qlz.Inverts (q : Qlz) : Prop where
  inverse : ∀ x, x ≠ [] → x.length < 65536 → ∀ m : Mem, m.Holds 0 (q.compress x) →
    q.decompress m = x
  bound : ∀ x, x ≠ [] → x.length < 65536 → (q.compress x).length ≤ x.length + 400

/-- The compressed form is not empty: a buffer that starts with nothing would decompress to two
different inputs. -/
theorem Qlz.Inverts.compress_ne_nil {q : Qlz} (h : q.Inverts) {x : List UInt8} (hx : x ≠ [])
    (hlen : x.length < 65536) : q.compress x ≠ [] := by
  intro hnil
  have hall : ∀ m : Mem, q.decompress m = x :=
    fun m => h.inverse x hx hlen m (by rw [hnil]; exact holds_nil m 0)
  have hother : ∀ y, y ≠ [] → y.length < 65536 → y = x := by
    intro y hy hylen
    rw [← h.inverse y hy hylen (Mem.write (fun _ => 0) 0 (q.compress y)) (holds_write _ _ _)]
    exact hall _
  have h0 := hother [0] (by simp) (by decide)
  have h1 := hother [1] (by simp) (by decide)
  rw [← h0] at h1
  exact absurd h1 (by decide)

/-! ## The other options -/

/-- The options that are neither NOPs nor of the flag's kind. -/
def others (os : List Opt) : List Opt := (squeezed os).filter fun o => o.kind != compressed

theorem others_squeezed (os : List Opt) : others (squeezed os) = others os := by
  unfold others
  rw [squeezed_squeezed]

theorem others_flag (x : List UInt8) (os : List Opt) :
    others (.opt compressed x :: os) = others os := by
  unfold others
  rw [squeezed_opt, List.filter_cons_of_neg (by simp [Opt.kind])]

theorem others_cons {o : Opt} (os os' : List Opt) (h : others os = others os') :
    others (o :: os) = others (o :: os') := by
  unfold others at h ⊢
  cases o with
  | nop => rwa [squeezed_nop, squeezed_nop]
  | opt k d => rw [squeezed_opt, squeezed_opt, List.filter_cons, List.filter_cons, h]

theorem others_overwriteFirst (x : List UInt8) (os : List Opt) :
    others (overwriteFirst compressed x os) = others os := by
  induction os with
  | nil => rfl
  | cons o os ih =>
    rw [overwriteFirst]
    by_cases ho : (o.kind == compressed && o.encode.length == x.length + 2) = true
    · rw [if_pos ho, others_flag]
      rw [Bool.and_eq_true, beq_iff_eq] at ho
      cases o with
      | nop => exact absurd ho.1 (by decide)
      | opt k d =>
        obtain rfl : k = compressed := ho.1
        rw [others_flag]
    · rw [if_neg ho]
      exact others_cons _ _ ih

theorem others_setOption (x : List UInt8) (D : Nat) (os : List Opt) :
    others (setOption compressed x D os).2 = others os := by
  unfold setOption
  split
  · exact others_overwriteFirst x os
  · split
    · dsimp only
      rw [others_flag, others_squeezed]
    · exact others_squeezed os

/-! ## The round trip -/

variable {q : Qlz} {p : Mem} {D : Nat} {os : List Opt} {d : List UInt8}

theorem tcpDecompress_shows (hq : q.Inverts) (hd : d ≠ []) (h : Shows p D os (q.compress d))
    (hp : p.protocol = ipprotoTcp) (ht : 4 * p.ihl + 4 * D + d.length < 65536)
    (hz : (q.compress d).length < 65536) :
    ∃ p', tcpDecompress q true true p = .ok (p', 1) ∧
      Shows p' (setOption compressed [0] D os).1 (setOption compressed [0] D os).2 d ∧
      p'.seq = (p.seq + 4294959296) % 4294967296 ∧ SameEnds p p' := by
  have hpos := List.length_pos_iff.2 (hq.compress_ne_nil hd (by omega))
  have hinv : q.decompress (fun k => p (p.dataOff + k)) = d := by
    apply hq.inverse d hd (by omega)
    apply read_eq
    intro j hj
    rw [Nat.zero_add, h.dataOff]
    exact of_read h.data hj
  obtain ⟨h₁, hh₁⟩ := replaceData_shows h hz d
  rw [Nat.mod_eq_of_lt (by omega), List.take_length] at h₁
  obtain ⟨p₂, r, hp₂, h₂, hh₂, -⟩ := setTcpOption_shows h₁ (by rw [hh₁.ihl]; exact ht)
    (k := compressed) (by decide) (show 2 ≤ 3 by decide) (by decide) 0
  have hh := hh₁.trans hh₂
  refine ⟨p₂.setSeq (p₂.seq + 4294959296), ?_, h₂.setSeq _, ?_, ?_⟩
  · unfold tcpDecompress
    rw [if_pos rfl, if_pos hp, if_pos ⟨by rw [h.dataLen hz]; exact hpos, rfl⟩]
    dsimp only
    rw [hinv, hp₂, ok_bind]
    rfl
  · rw [seq_setSeq, hh.seq h.ihl]
  · exact (hh.sameEnds h.ihl).trans (sameEnds_setSeq (by rw [hh.ihl]; exact h.ihl) _)

/-- The packet `p'` is `p` again, up to NOPs and the flag. -/
structure Restored (p p' : Mem) (os : List Opt) : Prop where
  payload : p'.payload = p.payload
  seq : p'.seq = p.seq
  ends : SameEnds p p'
  options : ∃ os', WellFormed p' os' ∧ others os' = others os
  totLen : p'.totLen = 4 * p.ihl + 4 * p'.doff + p.payload.length
  updateseq : ∀ largerIP s, updateseq largerIP p' s = updateseq largerIP p s
  stored : ∀ largerIP s s', largerIP ≠ 0 →
    ¬ isKeepalive p (s.endpoint (sourceSide largerIP p)) →
    ¬ isKeepalive p' (s'.endpoint (sourceSide largerIP p)) →
    ((Opennop.updateseq largerIP p s).endpoint (sourceSide largerIP p)).sequence =
        ((Opennop.updateseq largerIP p' s').endpoint (sourceSide largerIP p)).sequence ∧
      ((Opennop.updateseq largerIP p s).endpoint (sourceSide largerIP p)).nextsequence =
        ((Opennop.updateseq largerIP p' s').endpoint (sourceSide largerIP p)).nextsequence

theorem Session.setEndpoint_endpoint (s : Session) (side : Side) (e : Endpoint) :
    (s.setEndpoint side e).endpoint side = e := by
  cases side <;> rfl

theorem updateseq_endpoint {largerIP : Nat} {p : Mem} {s : Session} (h0 : largerIP ≠ 0)
    (hk : ¬ isKeepalive p (s.endpoint (sourceSide largerIP p))) :
    (updateseq largerIP p s).endpoint (sourceSide largerIP p) =
      storeSeq p (s.endpoint (sourceSide largerIP p)) := by
  unfold updateseq updateseqOf
  rw [if_pos h0, if_neg hk, ← Session.setEndpoint_endpoint s (sourceSide largerIP p) (storeSeq p _)]
  cases sourceSide largerIP p <;> rfl

theorem restored_of_shows {p' : Mem} {D' : Nat} {os' : List Opt} (h : WellFormed p os)
    (h' : Shows p' D' os' p.payload) (hfit : 4 * p.ihl + 4 * D' + p.payload.length < 65536)
    (hends : SameEnds p p') (hseq : p'.seq = p.seq) (hos : others os' = others os) :
    Restored p p' os := by
  obtain ⟨-, htot⟩ := h.payload_shows
  have htot' := h'.totLen
  rw [hends.ihl, Nat.mod_eq_of_lt hfit] at htot'
  have hdoff' := h'.doff
  have hupdate : ∀ largerIP s, updateseq largerIP p' s = updateseq largerIP p s :=
    updateseq_congr hends.saddr hseq hends.flags (by rw [hends.ihl]; omega)
  refine ⟨h'.payload (by rwa [hends.ihl]), hseq, hends, ⟨os', ⟨h'.ihl, ?_, ?_, ?_⟩, hos⟩, ?_,
    hupdate, ?_⟩
  · rw [hdoff']
    exact h'.five_le
  · rw [hdoff', hends.ihl, htot']
    omega
  · rw [hdoff']
    exact h'.area
  · rw [htot', hdoff']
  · intro largerIP s s' h0 hk hk'
    have hside : sourceSide largerIP p' = sourceSide largerIP p := by
      unfold sourceSide
      rw [hends.saddr]
    have hk₁ : ¬ isKeepalive p (s'.endpoint (sourceSide largerIP p)) := by
      unfold isKeepalive at hk' ⊢
      rwa [hseq] at hk'
    rw [hupdate, updateseq_endpoint h0 hk, updateseq_endpoint h0 hk₁]
    exact ⟨rfl, rfl⟩

/-- The inner `__set_tcp_option` succeeds when there is an option to overwrite or room for one. -/
theorem flag_returns_zero_iff (h : Shows p D os d) (hd : d.length < 65536) {x : List UInt8}
    (hx : 4 * p.ihl + 4 * D + x.length < 65536) {v : Nat} :
    (∃ p₁, setTcpOption (replaceData p x) compressed 3 v = .ok (p₁, 0)) ↔
      (firstOfKindLen compressed 3 os).isSome ∨ used os + 3 ≤ 40 := by
  obtain ⟨h₁, hh₁⟩ := replaceData_shows h hd x
  rw [Nat.mod_eq_of_lt (by omega), List.take_length] at h₁
  obtain ⟨p₂, r, hp₂, -, -, hiff⟩ := setTcpOption_shows h₁ (by rw [hh₁.ihl]; exact hx)
    (k := compressed) (by decide) (show 2 ≤ 3 by decide) (by decide) v
  rw [← hiff, hp₂]
  constructor
  · rintro ⟨p₁, hp₁⟩
    rw [Except.ok.injEq, Prod.mk.injEq] at hp₁
    exact hp₁.2
  · rintro rfl
    exact ⟨p₂, rfl⟩

/-- **Decompression undoes compression.** -/
theorem tcpDecompress_tcpCompress (q : Qlz) (hq : q.Inverts) (p : Mem) (os : List Opt)
    (h : WellFormed p os) (hproto : p.protocol = ipprotoTcp) (hpay : p.payload ≠ [])
    (hlen : p.totLen ≤ 2048)
    (h31 : ∀ o ∈ os, o.kind = compressed → o.encode.length = 3)
    (compression lzbuffer stateCompress : Bool)
    (ha : Attempted q compression lzbuffer stateCompress p)
    (hset : ∃ p₁, setTcpOption (replaceData p (qlzCompress q p)) compressed 3 1 = .ok (p₁, 0)) :
    ∃ p₁ v p₂, tcpCompress q compression lzbuffer stateCompress p = .ok (p₁, 1) ∧
      getTcpOption p₁ compressed = .ok v ∧ v ≠ 0 ∧
      tcpDecompress q true true p₁ = .ok (p₂, 1) ∧ Restored p p₂ os := by
  obtain ⟨hs, htot⟩ := h.payload_shows
  have hbound := hq.bound p.payload hpay (by omega)
  have hz : (q.compress p.payload).length < 65536 := by omega
  have hi := ihl_lt p
  obtain ⟨p₁, hp₁, h₁, hseq₁, hends₁⟩ := tcpCompress_shows hs (by omega) ha
  rw [sent_eq hz] at h₁
  have hD₁ := h₁.doff_lt
  have hlands : FlagLands os := by
    rw [qlzCompress_eq hs (by omega), flag_returns_zero_iff hs (by omega) (by omega)] at hset
    cases hf : firstOfKindLen compressed 3 os with
    | some o =>
      obtain ⟨o', ho'⟩ := firstOfKind_isSome hf
      have hk := List.find?_some ho'
      exact .inl ⟨o', ho', h31 o' (List.mem_of_find?_eq_some ho') (by simpa using hk)⟩
    | none =>
      rw [hf] at hset
      exact .inr (.inr ⟨hf, by simpa using hset⟩)
  obtain ⟨p₂, hp₂, h₂, hseq₂, hends₂⟩ := tcpDecompress_shows hq hpay h₁
    (by rw [hends₁.protocol]; exact hproto) (by rw [hends₁.ihl]; omega) hz
  have hD₂ := h₂.doff_lt
  refine ⟨p₁, _, p₂, hp₁, getTcpOption_flag h₁, (flagValue_setOption _ _).2 hlands, hp₂,
    restored_of_shows h h₂ (by omega) (hends₁.trans hends₂) ?_ ?_⟩
  · have := seq_lt p
    rw [hseq₂, hseq₁]
    omega
  · rw [others_setOption, others_setOption]

end Opennop
