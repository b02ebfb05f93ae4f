import Opennop.Node.Bounds
import Opennop.Node.Segments
import Opennop.Node.Tags
import Opennop.Quicklz.Blocks

/-!
# The packets that stay within their buffers

For a packet whose options are well-formed it is known what the worker adds: the words of `tagWords`
for the tag, none if a node has tagged the packet, those of `flagWords` for the flag, and the
difference between the data and what QuickLZ makes of it. `lengthsKept_iff` says exactly when such a
packet stays within the buffers. A packet that the worker does not rewrite always does, and so does
every packet that is `Roomy`.
-/

namespace Opennop

open Mem

/-- The options of the packet either have no NOD option and leave room for the tag, or they have the
tag of the node `remote`. -/
inductive Labelled (env : Env) (p : Mem) (os : List Opt) : Option OpennopId → Prop
  | room : WellFormed p os → firstOfKind nod os = none → used os ≤ 28 → Labelled env p os none
  | tag {id : OpennopId} : Carries env p os id → Labelled env p os (some id)

def taggedWords (p : Mem) (os : List Opt) (remote : Option OpennopId) : Nat :=
  if remote = none then p.doff + tagWords p os else p.doff

def flaggedWords (p : Mem) (os : List Opt) (remote : Option OpennopId) : Nat :=
  if remote = none then p.doff + tagWords p os + flagWords p os
    else (setOption compressed [1] p.doff os).1

/-- The condition on a packet with the options `os` and the tag of `remote`: the packet with the tag
fits, and so does what is left when its data gets shorter, or what there is when it is unpacked. -/
structure Fits (env : Env) (s : Session) (p : Mem) (os : List Opt) (remote : Option OpennopId) :
    Prop where
  tagged : Rewritten p → inDomain env remote = none →
    4 * p.ihl + 4 * taggedWords p os remote + p.payload.length ≤ bufsize
  packed : Rewritten p → inDomain env remote = none →
    mayCompress env p.key p (saveacceleratorid p.key.largerIP env.id p s) = true →
    env.stateCompress → env.compression → p.protocol = ipprotoTcp →
    (env.qlz.compress p.payload).length < p.payload.length →
    4 * p.ihl + 4 * flaggedWords p os remote + (env.qlz.compress p.payload).length ≤ bufsize
  unpacked : Decompresses env s p → env.stateDecompress → p.protocol = ipprotoTcp → p.payload ≠ [] →
    4 * p.ihl + 4 * (setOption compressed [0] p.doff os).1 + (unpacked env p).length ≤ bufsize

section Labelled

variable {env : Env} {s : Session} {p q : Mem} {os : List Opt} {remote : Option OpennopId}

theorem Labelled.wellFormed (h : Labelled env p os remote) : WellFormed p os := by
  cases h with
  | room hwf _ _ => exact hwf
  | tag hc => exact hc.wellFormed

theorem Labelled.remoteID_eq (h : Labelled env p os remote) : remoteID env p = .ok remote := by
  cases h with
  | room hwf hf _ => exact remoteID_absent env (hwf.shows _ rfl) hf
  | tag hc => exact hc.remoteID_eq

theorem Labelled.setTag_shows (h : Labelled env p os remote) (hn : p.totLen ≤ bufsize) :
    ∃ q os', setTag env p = .ok q ∧ Shows q (taggedWords p os remote) os' p.payload ∧
      SameHeader p q ∧ (setOption compressed [1] (taggedWords p os remote) os').1 =
        flaggedWords p os remote := by
  cases h with
  | room hwf hf hused =>
    unfold taggedWords flaggedWords
    rw [if_pos rfl, if_pos rfl]
    rcases setTag_cases env hwf hf hused with hq | ⟨-, hover⟩
    · exact hq
    · have hwords : tagWords p os ≤ 3 := by
        unfold tagWords
        rw [dwords_eq]
        omega
      unfold bufsize at hn
      omega
  | tag hc =>
    refine ⟨p, os, hc.setTag_eq, ?_, SameHeader.refl p, ?_⟩
    · unfold taggedWords
      rw [if_neg (by simp)]
      exact hc.wellFormed.payload_shows.1
    · unfold taggedWords flaggedWords
      rw [if_neg (by simp), if_neg (by simp)]

theorem Shows.totLen_eq {D : Nat} {d : List UInt8} (h : Shows q D os d) (hihl : q.ihl = p.ihl)
    (hd : d.length ≤ 60000) : q.totLen = 4 * p.ihl + 4 * D + d.length := by
  have hD := h.doff_lt
  have hi := ihl_lt p
  rw [h.totLen, hihl, Nat.mod_eq_of_lt (by omega)]

theorem tcpDecompress_unpacked (env : Env) (hwf : WellFormed p os) (hd : p.payload ≠ [])
    (hp : p.protocol = ipprotoTcp) (hstate : env.stateDecompress = true)
    (hx : (unpacked env p).length ≤ 60000) :
    ∃ q, tcpDecompress env.qlz true env.stateDecompress p = .ok (q, 1) ∧
      q.totLen = 4 * p.ihl + 4 * (setOption compressed [0] p.doff os).1 +
        (unpacked env p).length := by
  obtain ⟨hs, -⟩ := hwf.payload_shows
  have hpay := length_payload_lt p
  have hpos := List.length_pos_iff.2 hd
  have hD := hs.doff_lt
  have hi := ihl_lt p
  obtain ⟨h₁, hh₁⟩ := replaceData_shows hs hpay (unpacked env p)
  rw [Nat.mod_eq_of_lt (by omega), List.take_length] at h₁
  obtain ⟨p₂, r, hp₂, h₂, hh₂, -⟩ := setTcpOption_shows h₁ (by rw [hh₁.ihl]; omega)
    (k := compressed) (by decide) (show 2 ≤ 3 by decide) (by decide) 0
  refine ⟨p₂.setSeq (p₂.seq + 4294959296), ?_, (h₂.setSeq _).totLen_eq ?_ hx⟩
  · unfold tcpDecompress
    rw [if_pos hstate, if_pos hp, if_pos ⟨by rw [hs.dataLen hpay]; exact hpos, rfl⟩]
    dsimp only
    unfold unpacked at hp₂
    rw [hp₂, ok_bind]
    rfl
  · rw [ihl_setSeq, hh₂.ihl, hh₁.ihl]

theorem Labelled.tcpCompress_packed (h : Labelled env p os remote) (hb : env.qlz.Bounded)
    (hn : p.totLen ≤ bufsize) (hq : setTag env p = .ok q) (hstate : env.stateCompress)
    (hcomp : env.compression) (htcp : p.protocol = ipprotoTcp)
    (hless : (env.qlz.compress p.payload).length < p.payload.length) :
    ∃ q', tcpCompress env.qlz env.compression true env.stateCompress q = .ok (q', 1) ∧
      q'.totLen = 4 * p.ihl + 4 * flaggedWords p os remote +
        (env.qlz.compress p.payload).length := by
  have hsize : bufsize = 2048 := rfl
  have hwf := h.wellFormed
  obtain ⟨-, hlen⟩ := hwf.payload_shows
  obtain ⟨q₁, os', hq₁, hs, hh, hflag⟩ := h.setTag_shows hn
  cases hq₁.symm.trans hq
  have hD := hs.doff_lt
  have hihl := ihl_lt p
  have hdata := hs.dataLen (by omega)
  have hstored := hb p.payload
  have hattempted : Attempted env.qlz env.compression true env.stateCompress q := by
    refine ⟨⟨hstate, hcomp⟩, (hh.protocol hwf.ihl).trans htcp, by omega, rfl, ?_⟩
    rw [qlzCompress_eq hs (by omega), hdata]
    omega
  obtain ⟨q', hq', hs', -, hends⟩ := tcpCompress_shows hs (by rw [hh.ihl]; omega) hattempted
  rw [sent_eq (by omega), hflag] at hs'
  exact ⟨q', hq', hs'.totLen_eq (hends.ihl.trans hh.ihl) (by omega)⟩

theorem Labelled.fits (h : Labelled env p os remote) (hb : env.qlz.Bounded)
    (hn : p.totLen ≤ bufsize) (hkept : LengthsKept env s p) : Fits env s p os remote := by
  have hsize : bufsize = 2048 := rfl
  have hwf := h.wellFormed
  obtain ⟨hs, hlen⟩ := hwf.payload_shows
  have hdata := hs.dataLen (by omega)
  obtain ⟨q, os', hq, hsq, hh, -⟩ := h.setTag_shows hn
  have htot := hsq.totLen_eq hh.ihl (by omega)
  have hopt : Rewritten p → inDomain env remote = none → Optimizes env p q :=
    fun hflags hdomain => ⟨⟨hflags, remote, h.remoteID_eq, hdomain⟩, hq⟩
  refine ⟨fun hflags hdomain => ?_, fun hflags hdomain hmay hstate hcomp htcp hless => ?_,
    fun hd hstate htcp hne => ?_⟩
  · have := hkept.total q (.tagged (hopt hflags hdomain))
    omega
  · obtain ⟨q', hq', htot'⟩ := h.tcpCompress_packed hb hn hq hstate hcomp htcp hless
    rw [← mayCompress_congr (hh.saddr hwf.ihl)] at hmay
    have := hkept.total q' (.compressed ⟨hopt hflags hdomain, hmay⟩ hq')
    omega
  · have hpos := List.length_pos_iff.2 hne
    have hx := hkept.newsize p _ (.decompress hd hstate htcp (by omega))
    obtain ⟨q', hq', htot'⟩ := tcpDecompress_unpacked env hwf hne htcp hstate (by omega)
    have := hkept.total q' (.decompressed hd hq')
    omega

end Labelled

end Opennop
