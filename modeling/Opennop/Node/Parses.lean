import Opennop.Node.Bounds
import Opennop.Node.Ordinary
import Opennop.Packet.Headers
import Opennop.Packet.NoRoom

/-!
# Packets that the threads get through with

The option functions can run forever or use a null pointer, and then the thread that called them
never comes to its verdict. `FetcherParses` and `WorkerParses` say that the functions return that
`fetcher_callback` and `worker_thread` may call on a packet. `Fetchable` and `Workable` say of the
bytes of a packet what is enough for this: the walk for the tag ends, and where the options are
rewritten they are well-formed and leave room for what is added.
-/

namespace Opennop

open Mem

def Returns {α : Type} (x : Exec α) : Prop := ∃ y, x = .ok y

/-- The option functions return that `fetcher_callback` may call on the packet. -/
def FetcherParses (env : Env) (p : Mem) : Prop :=
  ∃ remote, remoteID env p = .ok remote ∧
    (inDomain env remote = none → p.syn → Returns (lowerMss env p)) ∧
    (remote ≠ none → Returns (setTag env p))

/-- The option functions return that `worker_thread` may call on the packet. -/
def WorkerParses (env : Env) (p : Mem) : Prop :=
  ∃ remote, remoteID env p = .ok remote ∧
    (Rewritten p →
      (inDomain env remote = none → ∃ p', setTag env p = .ok p' ∧
        Returns (tcpCompress env.qlz env.compression true env.stateCompress p')) ∧
      (inDomain env remote ≠ none → ∃ flag, getTcpOption p compressed = .ok flag ∧
        (flag ≠ 0 → Returns (tcpDecompress env.qlz true env.stateDecompress p))))

/-! ## Reading the tag -/

/-- The walk for the tag ends: the scan of the options comes to a NOD option or out of the area, and
the walk over the headers of that option to one with the ID of this program or to the last one. -/
structure TagEnds (gap : Int) (p : Mem) : Prop where
  options : ∃ i, OnWay p p.optOff p.areaLen (kindHit p nod) i ∧
    (p.areaLen ≤ i ∨ p (p.optOff + i) = nod)
  headers : ∀ i, OnWay p p.optOff p.areaLen (kindHit p nod) i → i < p.areaLen →
    p (p.optOff + i) = nod → 2 < declaredLen p i → ∃ s h, s + 1 < nodFuel ∧
      headerAfter gap p (p.optOff + i) onop s (p.optOff + i + 2) = some h ∧
      (HasId p onop h ∨ getNodNextHeader gap p (p.optOff + i) h = none)

section Tag

variable {gap : Int} {env : Env} {p : Mem}

theorem nodWalk_returns {a s fuel x h : Nat} {id : List UInt8} (hs : s + 1 < fuel)
    (hafter : headerAfter gap p a id s x = some h)
    (hend : HasId p id h ∨ getNodNextHeader gap p a h = none) :
    Returns (loop (nodPass gap p a id) fuel (some x)) := by
  induction s generalizing fuel x with
  | zero =>
    obtain ⟨fuel, rfl⟩ : ∃ k, fuel = k + 1 + 1 := ⟨fuel - 2, by omega⟩
    cases hafter
    by_cases hid : HasId p id h
    · exact ⟨_, loop_done (nodPass_hit hid)⟩
    · refine ⟨none, ?_⟩
      rw [loop_again (nodPass_miss hid), hend.resolve_left hid]
      exact loop_done rfl
  | succ s ih =>
    obtain ⟨fuel, rfl⟩ : ∃ k, fuel = k + 1 := ⟨fuel - 1, by omega⟩
    rw [headerAfter] at hafter
    by_cases hx : HasId p id x
    · rw [if_pos hx] at hafter
      cases hafter
    · rw [if_neg hx] at hafter
      obtain ⟨y, hy, hrest⟩ := Option.bind_eq_some_iff.1 hafter
      rw [loop_again (nodPass_miss hx), hy]
      exact ih (by omega) hrest

theorem TagEnds.getNodHeader (h : TagEnds gap p) : Returns (getNodHeader gap p onop) := by
  obtain ⟨i, hway, hend⟩ := h.options
  unfold Opennop.getNodHeader
  by_cases hi : p.areaLen ≤ i
  · have hscan : getTcpopt p nod = .ok none := by
      unfold getTcpopt
      change (scan p p.optOff p.areaLen (kindHit p nod) >>= _) = _
      rw [scan_eq_none hway hi]
      rfl
    rw [hscan]
    exact ⟨none, rfl⟩
  · have hnod := hend.resolve_left hi
    rw [getTcpopt_eq_some_iff.2 ⟨i, rfl, hway, by omega, hnod⟩, ok_bind]
    dsimp only
    by_cases hlong : 2 < declaredLen p i
    · obtain ⟨s, x, hs, hafter, hlast⟩ := h.headers i hway (by omega) hnod hlong
      have hlong' : (p (p.optOff + i + 1)).toNat > 2 := hlong
      rw [if_pos hlong']
      exact nodWalk_returns hs hafter hlast
    · have hshort : ¬ (p (p.optOff + i + 1)).toNat > 2 := hlong
      rw [if_neg hshort]
      exact ⟨none, rfl⟩

theorem TagEnds.remoteID (h : TagEnds env.gap p) :
    ∃ remote, Opennop.remoteID env p = .ok remote := by
  obtain ⟨o, ho⟩ := h.getNodHeader
  unfold Opennop.remoteID getNodHeaderData
  rw [ho]
  cases o with
  | none => exact ⟨none, rfl⟩
  | some x =>
    rw [ok_bind]
    dsimp only
    split
    · exact ⟨_, rfl⟩
    · exact ⟨_, rfl⟩

end Tag

/-! ## Adding options -/

/-- The options of a packet that gets a tag, after `extra` bytes of another option: a NOD option is
a tag, and without one there is room for its header. -/
structure Taggable (p : Mem) (os : List Opt) (extra : Nat) : Prop where
  wellFormed : WellFormed p os
  length : p.totLen + 40 < 65536
  tagged : ∀ o, firstOfKind nod os = some o → ∃ id : OpennopId, o = tag id.bytes
  room : firstOfKind nod os = none → used os + extra ≤ 32

def mssValue (os : List Opt) : Nat := ((firstOfKind mss os).map Opt.value).getD 0 % 65536

section Adding

variable {env : Env} {p : Mem} {os : List Opt} {D : Nat} {d : List UInt8}

theorem Taggable.length_le {extra : Nat} (h : Taggable p os extra) :
    4 * p.ihl + 60 + p.payload.length < 65536 := by
  have hlen := h.wellFormed.payload_shows.2
  have hdoff := h.wellFormed.doff
  have := h.length
  omega

theorem setTag_returns (env : Env) (h : Shows p D os d) (hlen : 4 * p.ihl + 60 + d.length < 65536)
    (htag : ∀ o, firstOfKind nod os = some o → ∃ id : OpennopId, o = tag id.bytes)
    (hroom : firstOfKind nod os = none → used os ≤ 32) :
    ∃ p' D' os', setTag env p = .ok p' ∧ Shows p' D' os' d ∧ SameHeader p p' := by
  cases hf : firstOfKind nod os with
  | some o =>
    obtain ⟨id, rfl⟩ := htag o hf
    exact ⟨p, D, os, setTag_of_remoteID (remoteID_first env h hf), h, .refl p⟩
  | none =>
    have hused := hroom hf
    by_cases hdata : used os ≤ 28
    · exact setTag_shows env h hf hdata hlen
    · have hD := h.doff_lt
      have hgrown := (room_iff 2 h.five_le hD h.used_le).2 (by omega)
      obtain ⟨p', hset, h', hh⟩ :=
        setNodHeaderData_header env.gap h (by omega) hf env.id.length_bytes
        (by omega) (by omega) (.inr (by omega))
      exact ⟨p', _, _, hset, h', hh⟩

theorem lowerMss_returns (env : Env) (hwf : WellFormed p os)
    (h : 60 < mssValue os → Taggable p os (if (firstOfKindLen mss 4 os).isSome then 0 else 4)) :
    Returns (lowerMss env p) := by
  obtain ⟨hs, -⟩ := hwf.payload_shows
  have hvalue : getTcpOption p mss = .ok (((firstOfKind mss os).map Opt.value).getD 0) := by
    rw [getTcpOption_shows hs (by decide)]
    cases firstOfKind mss os <;> rfl
  unfold lowerMss
  rw [hvalue, ok_bind]
  dsimp only
  by_cases h60 : 60 < mssValue os
  · have ht := h h60
    have hlen := ht.length_le
    have hD := hs.doff_lt
    unfold mssValue at h60
    rw [if_pos h60]
    obtain ⟨p₁, r, hset, h₁, hh₁, -⟩ := setTcpOption_shows hs (by omega) (show 2 ≤ mss by decide)
      (show 2 ≤ 4 by decide) (by decide) (((firstOfKind mss os).map Opt.value).getD 0 % 65536 - 60)
    rw [hset, ok_bind]
    dsimp only
    -- the MSS is written in its place or takes four more bytes, and a tag stays what it is
    have hnod := firstOfKind_setOption_ne (show 2 ≤ nod by decide) (show mss ≠ nod by decide)
      (dataBytes (4 - 2) (((firstOfKind mss os).map Opt.value).getD 0 % 65536 - 60)) p.doff os
    have hused : firstOfKind nod os = none → used (setOption mss
        (dataBytes (4 - 2) (((firstOfKind mss os).map Opt.value).getD 0 % 65536 - 60)) p.doff
          os).2 ≤ 32 := by
      intro hnone
      have hroom := ht.room hnone
      by_cases hsome : (firstOfKindLen mss 4 os).isSome
      · rw [if_pos hsome] at hroom
        unfold setOption
        rw [length_dataBytes, if_pos hsome]
        exact (used_overwriteFirst (by decide) _ os).trans_le hroom
      · rw [if_neg hsome] at hroom
        exact (used_setOption_le (by decide) _ p.doff os).trans (by rw [length_dataBytes]; omega)
    obtain ⟨p₂, D₂, os₂, htag, -, -⟩ := setTag_returns env h₁ (by rw [hh₁.ihl]; exact hlen)
      (fun o ho => ht.tagged o (hnod ▸ ho)) fun hnone => hused (hnod ▸ hnone)
    rw [htag, ok_bind]
    exact ⟨_, rfl⟩
  · unfold mssValue at h60
    rw [if_neg h60]
    exact ⟨none, rfl⟩

theorem tcpCompress_returns (env : Env) (h : Shows p D os d)
    (hlen : 4 * p.ihl + 4 * D + d.length < 65536) :
    Returns (tcpCompress env.qlz env.compression true env.stateCompress p) := by
  by_cases ha : Attempted env.qlz env.compression true env.stateCompress p
  · obtain ⟨q, hq, -⟩ := tcpCompress_shows h hlen ha
    exact ⟨_, hq⟩
  · obtain ⟨r, hr⟩ := tcpCompress_unchanged ha
    exact ⟨_, hr⟩

/-- The flag is cleared in its place, or there is room for it and the unpacked data in the length
field. -/
theorem tcpDecompress_returns (env : Env) (hwf : WellFormed p os)
    (h : (firstOfKindLen compressed 3 os).isSome ∨
      4 * p.ihl + 4 * p.doff + (unpacked env p).length % 65536 < 65536) :
    Returns (tcpDecompress env.qlz true env.stateDecompress p) := by
  by_cases hon : env.stateDecompress ∧ p.protocol = ipprotoTcp ∧ 0 < p.dataLen
  · obtain ⟨hstate, htcp, hpos⟩ := hon
    obtain ⟨hs, -⟩ := hwf.payload_shows
    obtain ⟨h₁, hh₁⟩ := replaceData_shows hs (length_payload_lt p) (unpacked env p)
    have hflag : Returns (setTcpOption (replaceData p (unpacked env p)) compressed 3 0) := by
      rcases setTcpOption_search h₁ (show 2 ≤ compressed by decide) 3 0 with
        ⟨hnone, -⟩ | ⟨pre, o, post, -, -, -, hset⟩
      · rw [hnone] at h
        obtain ⟨q, r, hset, -⟩ := setTcpOption_shows h₁ (by
          rw [hh₁.ihl, List.length_take]
          have := h.resolve_left (by simp)
          omega) (k := compressed) (by decide) (show 2 ≤ 3 by decide) (by decide) 0
        exact ⟨_, hset⟩
      · exact ⟨_, hset⟩
    obtain ⟨⟨q, r⟩, hset⟩ := hflag
    unfold tcpDecompress
    rw [if_pos hstate, if_pos htcp, if_pos ⟨hpos, rfl⟩]
    dsimp only
    unfold unpacked at hset
    rw [hset]
    exact ⟨_, rfl⟩
  · exact ⟨_, tcpDecompress_unchanged env.qlz hon⟩

end Adding

/-! ## What the threads get -/

/-- The bytes of a packet with which `fetcher_callback` gets through. -/
structure Fetchable (env : Env) (p : Mem) : Prop where
  tag : TagEnds env.gap p
  /-- In a handshake that no neighbor has tagged the MSS is lowered and the tag is added. -/
  handshake : p.syn → ¬ Announces env p → ∃ os, WellFormed p os ∧
    (60 < mssValue os → Taggable p os (if (firstOfKindLen mss 4 os).isSome then 0 else 4))

/-- The bytes of a packet with which `worker_thread` gets through. -/
structure Workable (env : Env) (p : Mem) : Prop where
  tag : TagEnds env.gap p
  /-- A packet that no neighbor has tagged gets the tag and may be compressed. -/
  optimized : Rewritten p → ¬ Announces env p → ∃ os, Taggable p os 0
  /-- One that a neighbor has tagged is unpacked if it has the flag. -/
  deoptimized : Rewritten p → Announces env p → ∃ os, WellFormed p os ∧
    (flagValue os ≠ 0 → (firstOfKindLen compressed 3 os).isSome ∨
      4 * p.ihl + 4 * p.doff + (unpacked env p).length % 65536 < 65536)

section Through

variable {env : Env} {p : Mem} {remote : Option OpennopId}

theorem not_announces_of_inDomain (hremote : remoteID env p = .ok remote)
    (hdomain : inDomain env remote = none) : ¬ Announces env p := by
  rintro ⟨remote', id, hremote', hid⟩
  cases hremote.symm.trans hremote'
  rw [hdomain] at hid
  cases hid

/-- **The fetcher gets through** with a packet of these bytes. -/
theorem Fetchable.parses (h : Fetchable env p) : FetcherParses env p := by
  obtain ⟨remote, hremote⟩ := h.tag.remoteID
  refine ⟨remote, hremote, fun hdomain hsyn => ?_, fun hne => ?_⟩
  · obtain ⟨os, hwf, ht⟩ := h.handshake hsyn (not_announces_of_inDomain hremote hdomain)
    exact lowerMss_returns env hwf ht
  · obtain ⟨id, rfl⟩ := Option.ne_none_iff_exists'.1 hne
    exact ⟨p, setTag_of_remoteID hremote⟩

/-- **A processor gets through** with a packet of these bytes. -/
theorem Workable.parses (h : Workable env p) : WorkerParses env p := by
  obtain ⟨remote, hremote⟩ := h.tag.remoteID
  refine ⟨remote, hremote, fun hflags => ⟨fun hdomain => ?_, fun hdomain => ?_⟩⟩
  · obtain ⟨os, ht⟩ := h.optimized hflags (not_announces_of_inDomain hremote hdomain)
    have hlen := ht.length_le
    obtain ⟨p', D', os', hset, hs, hh⟩ :=
      setTag_returns env ht.wellFormed.payload_shows.1 hlen ht.tagged
      ht.room
    have hD := hs.doff_lt
    exact ⟨p', hset, tcpCompress_returns env hs (by rw [hh.ihl]; omega)⟩
  · obtain ⟨id, hid⟩ := Option.ne_none_iff_exists'.1 hdomain
    obtain ⟨os, hwf, hflag⟩ := h.deoptimized hflags ⟨remote, id, hremote, hid⟩
    exact ⟨flagValue os, getTcpOption_flag hwf.payload_shows.1,
      fun hne => tcpDecompress_returns env hwf (hflag hne)⟩

end Through

end Opennop
