import Opennop.Node.Worker
import Opennop.Packet.Compressed
import Opennop.Packet.Lengths
import Opennop.Packet.Nod

/-!
# Packets in their buffers

A worker rewrites a packet in the buffer of `BUFSIZE` bytes that `save_packet` has copied it to, and
`lzbuffer` has 400 bytes more. Nothing in the rewriting checks a length against either of them. What
it can add to a packet is found here without looking at its options (`Roomy`);
`Opennop.Node.Fitting` says what it adds to given options.
-/

namespace Opennop

open Mem

/-- `BUFSIZE` -/
def bufsize : Nat := 2048

/-- What `lzbuffer` is made for: compressed data is at most 400 bytes longer. -/
def Qlz.Bounded (q : Qlz) : Prop := ∀ x, (q.compress x).length ≤ x.length + 400

/-- The bytes that `qlz_decompress` stores for the data of the packet. -/
def unpacked (env : Env) (p : Mem) : List UInt8 := env.qlz.decompress fun k => p (p.dataOff + k)

/-! ## The way of a packet through the worker -/

def Rewritten (p : Mem) : Prop := ¬ p.syn ∧ p.ack ∧ ¬ p.fin

/-- The worker takes the way of `optimizePacket`: no neighbor has tagged the packet. -/
structure GetsTag (env : Env) (p : Mem) : Prop where
  flags : Rewritten p
  remote : ∃ remote, remoteID env p = .ok remote ∧ inDomain env remote = none

/-- `q` is the tagged packet. -/
structure Optimizes (env : Env) (p q : Mem) : Prop extends GetsTag env p where
  tag : setTag env p = .ok q

/-- It then calls `tcp_compress`. -/
structure Compresses (env : Env) (s : Session) (p q : Mem) : Prop extends Optimizes env p q where
  may : mayCompress env p.key q (saveacceleratorid p.key.largerIP env.id p s) = true

/-- The worker takes the way of `deoptimizePacket` and calls `tcp_decompress`. -/
structure Decompresses (env : Env) (s : Session) (p : Mem) : Prop where
  flags : Rewritten p
  flag : ∃ v, getTcpOption p compressed = .ok v ∧ v ≠ 0
  may : ∃ remote id, remoteID env p = .ok remote ∧ inDomain env remote = some id ∧
    mayDecompress env p.key p (saveacceleratorid p.key.largerIP id p s) = true

/-- The packet, as it is after each call that rewrites it. -/
inductive OnPath (env : Env) (s : Session) (p : Mem) : Mem → Prop
  | taken : OnPath env s p p
  | tagged {q : Mem} : Optimizes env p q → OnPath env s p q
  | compressed {q q' : Mem} {r : Nat} : Compresses env s p q →
    tcpCompress env.qlz env.compression true env.stateCompress q = .ok (q', r) → OnPath env s p q'
  | decompressed {q : Mem} {r : Nat} : Decompresses env s p →
    tcpDecompress env.qlz true env.stateDecompress p = .ok (q, r) → OnPath env s p q

/-- The calls of QuickLZ: the packet at that time, and what is written to `lzbuffer`. -/
inductive Stored (env : Env) (s : Session) (p : Mem) : Mem → List UInt8 → Prop
  | compress {q : Mem} : Compresses env s p q → env.stateCompress → env.compression →
    q.protocol = ipprotoTcp → 0 < q.dataLen → Stored env s p q (qlzCompress env.qlz q)
  | decompress : Decompresses env s p → env.stateDecompress → p.protocol = ipprotoTcp →
    0 < p.dataLen → Stored env s p p (unpacked env p)

/-- The lengths stay within the buffers, and the size of the data is no truncated number. -/
structure LengthsKept (env : Env) (s : Session) (p : Mem) : Prop where
  total : ∀ q, OnPath env s p q → q.totLen ≤ bufsize
  oldsize : ∀ q x, Stored env s p q x → (q.dataLen : Int) = q.totLen - 4 * q.ihl - 4 * q.doff
  newsize : ∀ q x, Stored env s p q x → x.length ≤ bufsize + 400

variable {env : Env} {s : Session} {p q : Mem}

theorem processPacket_onPath {A : Type} (a : A) {remote : Option OpennopId}
    (hr : remoteID env p = .ok remote) :
    Post ((processPacket env remote a p).onRecord (some s)) fun r => OnPath env s p r.2.1 := by
  unfold processPacket
  split
  · next hflags =>
    cases hdomain : inDomain env remote with
    | none =>
      dsimp only
      rw [Prog.onRecord_bind]
      refine Post.bind (P := fun r => OnPath env s p r.2) ?_ fun r hr => Post.ok hr
      unfold optimizePacket
      rw [Prog.onRecord_update_bind, Prog.onRecord_bind, Prog.onRecord_lift]
      cases hset : setTag env p with
      | error e => exact Post.error
      | ok q =>
        have ho : Optimizes env p q := ⟨⟨hflags, remote, hr, hdomain⟩, hset⟩
        simp only [ok_bind, pure_bind]
        rw [Prog.onRecord_load_bind]
        split
        · next hmay =>
          rw [Prog.onRecord_update_bind, Prog.onRecord_bind, Prog.onRecord_lift]
          cases hc : tcpCompress env.qlz env.compression true env.stateCompress q with
          | error e => exact Post.error
          | ok r => exact Post.ok (.compressed ⟨ho, hmay⟩ hc)
        · exact Post.ok (.tagged ho)
    | some id =>
      dsimp only
      unfold deoptimizePacket
      rw [Prog.onRecord_update_bind, Prog.onRecord_bind, Prog.onRecord_lift]
      cases hflag : getTcpOption p compressed with
      | error e => exact Post.error
      | ok v =>
        simp only [ok_bind, pure_bind]
        split
        · next hv =>
          rw [Prog.onRecord_load_bind]
          split
          · next hmay =>
            have hd : Decompresses env s p :=
              ⟨hflags, ⟨v, hflag, hv⟩, remote, id, hr, hdomain, hmay⟩
            rw [Prog.onRecord_bind, Prog.onRecord_lift]
            cases hc : tcpDecompress env.qlz true env.stateDecompress p with
            | error e => exact Post.error
            | ok r =>
              simp only [ok_bind, pure_bind]
              split
              · exact Post.ok (.decompressed hd hc)
              · exact Post.ok (.decompressed hd hc)
          · exact Post.ok .taken
        · exact Post.ok .taken
  · exact Post.ok .taken

/-! ## What the calls can add -/

theorem setTag_longer (env : Env) (hi : 5 ≤ p.ihl) : Post (setTag env p) (Longer 4 p) := by
  have hlen := env.id.length_bytes
  refine (setNodHeaderData_longer env.gap p hi (by decide) (by omega)).mono fun q hq => hq.mono ?_
  rw [hlen]
  decide

/-- Without the memory for it, or without data, nothing is unpacked. -/
theorem tcpDecompress_unchanged (qlz : Qlz) {lzbuffer stateDecompress : Bool}
    (h : ¬ (stateDecompress ∧ p.protocol = ipprotoTcp ∧ 0 < p.dataLen)) :
    tcpDecompress qlz lzbuffer stateDecompress p = .ok (p, 0) := by
  unfold tcpDecompress
  split
  · next hstate =>
    split
    · next htcp => exact if_neg fun hdata => h ⟨hstate, htcp, hdata.1⟩
    · rfl
  · rfl

/-- The total length covers the headers, and goes on covering them when the TCP header grows. -/
def HeadersFit (p : Mem) : Prop :=
  5 ≤ p.doff ∧ 4 * p.ihl + 4 * p.doff ≤ p.totLen ∨ 4 * p.ihl + 60 ≤ p.totLen

theorem HeadersFit.le (h : HeadersFit p) : 4 * p.ihl + 4 * p.doff ≤ p.totLen := by
  have hd := doff_lt p
  unfold HeadersFit at h
  omega

theorem HeadersFit.setTag (h : HeadersFit p) (hi : 5 ≤ p.ihl) (hlt : p.totLen + 16 < 65536)
    (hq : setTag env p = .ok q) : 4 * q.ihl + 4 * q.doff ≤ q.totLen := by
  have hlonger := setTag_longer env hi q hq
  have hihl := hlonger.ip.ihl hi
  have htot := hlonger.totLen hlt
  have hd := doff_lt q
  rcases h with ⟨h5, hle⟩ | hle
  · obtain ⟨g, hgrown⟩ := setNodHeaderData_grown env.gap p h5 (by decide)
      (by rw [env.id.length_bytes]; decide) q hq
    have htot := hgrown.totLen
    have hdoff := hgrown.doff
    omega
  · omega

theorem mayCompress_congr {k : Key} (h : q.saddr = p.saddr) :
    mayCompress env k q s = mayCompress env k p s := by
  unfold mayCompress acceleratorsAre
  rw [h]

end Opennop
