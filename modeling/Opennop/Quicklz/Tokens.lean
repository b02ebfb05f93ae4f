import Opennop.Lib.Dictionary
import Opennop.Lib.FlagWords
import Opennop.Lib.Trace
import Opennop.Quicklz.Decompress

/-!
# What a QuickLZ block says

A block is a list of tokens, literals and matches, in groups of 31 behind their flags. A match names
a hash and a length; where it copies from is known to both sides from the tokens before it.
`Spelling` is this knowledge: the position, the end of the last match and the places at which tokens
begin. The decompressor has entered all of these places except the last ones, of which it does not
know three bytes yet.

`Spells` is the contract between the two sides: tokens that spell an input, each allowed where it
stands.
-/

namespace Opennop

namespace Quicklz

open Mem

/-! ## Tokens -/

/-- A match that a token can express. -/
structure Match where
  hash : Nat
  len : Nat
  hash_lt : hash < hashValues
  three_le : 3 ≤ len
  len_le : len ≤ 255

def Match.width (t : Match) : Nat := if t.len < 18 then 2 else 3

def Match.value (t : Match) : Nat :=
  if t.len < 18 then (t.len - 2) ||| t.hash <<< 4 else (t.len <<< 16) ||| t.hash <<< 4

inductive Token where
  | lit (c : UInt8)
  | copy (t : Match)

namespace Token

def isCopy : Token → Bool
  | lit _ => false
  | copy _ => true

def bytes : Token → List UInt8
  | lit c => [c]
  | copy t => leBytes t.width t.value

def span : Token → Nat
  | lit _ => 1
  | copy t => t.len

@[simp] theorem isCopy_lit (c : UInt8) : (lit c).isCopy = false := rfl

@[simp] theorem isCopy_copy (t : Match) : (copy t).isCopy = true := rfl

theorem length_bytes_copy (t : Match) : (copy t).bytes.length = t.width := length_leBytes _ _

theorem length_bytes_le (t : Token) : t.bytes.length ≤ t.span := by
  cases t with
  | lit c => exact Nat.le_refl 1
  | copy t =>
    have := t.three_le
    rw [length_bytes_copy, Match.width, span]
    split <;> omega

theorem length_bytes_le_three (t : Token) : t.bytes.length ≤ 3 := by
  cases t with
  | lit c => exact Nat.le_of_ble_eq_true rfl
  | copy t =>
    rw [length_bytes_copy, Match.width]
    split <;> omega

end Token

/-- The stored tokens, of which the first `k` belong to a group that is open. -/
def encode (k : Nat) (ts : List Token) : List UInt8 :=
  grouped 31 (leBytes 4) Token.isCopy Token.bytes k ts

theorem encode_zero_cons (t : Token) (ts : List Token) :
    encode 0 (t :: ts) = leBytes 4 (flagWord 31 ((t :: ts).map Token.isCopy)) ++
      encode 31 (t :: ts) :=
  rfl

theorem encode_succ_cons (k : Nat) (t : Token) (ts : List Token) :
    encode (k + 1) (t :: ts) = t.bytes ++ encode k ts := rfl

/-! ## Spelling -/

/-- What both sides know between two tokens. -/
structure Spelling where
  /-- The number of bytes spelled so far. -/
  pos : Nat
  /-- The end of the last match. -/
  last : Nat
  /-- The places at which tokens begin. -/
  starts : Set Nat
  last_le : last ≤ pos
  below : ∀ r ∈ starts, r < pos
  /-- Behind the last match there are only literals. -/
  recent : ∀ r, last ≤ r → r < pos → r ∈ starts

namespace Spelling

def start : Spelling where
  pos := 0
  last := 0
  starts := ∅
  last_le := Nat.le_refl 0
  below := fun r hr => absurd hr (Set.notMem_empty r)
  recent := fun _ _ hr => absurd hr (Nat.not_lt_zero _)

theorem below_insert {σ : Spelling} {n : Nat} (hn : σ.pos < n) :
    ∀ r ∈ insert σ.pos σ.starts, r < n := by
  intro r hr
  rcases Set.mem_insert_iff.1 hr with rfl | hr
  · exact hn
  · exact (σ.below r hr).trans hn

theorem recent_insert {σ : Spelling} {n : Nat} (hn : n ≤ σ.pos + 1) :
    ∀ r, σ.last ≤ r → r < n → r ∈ insert σ.pos σ.starts := by
  intro r hl hr
  rw [Set.mem_insert_iff]
  by_cases h : r = σ.pos
  · exact .inl h
  · exact .inr (σ.recent r hl (by omega))

def literal (σ : Spelling) : Spelling where
  pos := σ.pos + 1
  last := σ.last
  starts := insert σ.pos σ.starts
  last_le := Nat.le_succ_of_le σ.last_le
  below := below_insert (Nat.lt_succ_self _)
  recent := recent_insert (Nat.le_refl _)

def matched (σ : Spelling) (t : Match) : Spelling where
  pos := σ.pos + t.len
  last := σ.pos + t.len
  starts := insert σ.pos σ.starts
  last_le := Nat.le_refl _
  below := below_insert (Nat.lt_add_of_pos_right (Nat.lt_of_lt_of_le (Nat.succ_pos 2) t.three_le))
  recent := fun _ hl hr => absurd hr (Nat.not_lt_of_le hl)

def next (σ : Spelling) : Token → Spelling
  | .lit _ => σ.literal
  | .copy t => σ.matched t

def hashed (σ : Spelling) : Int := max (σ.last - 1 : Int) (σ.pos - 3)

theorem hashed_lt (σ : Spelling) : σ.hashed < σ.pos := by
  have := σ.last_le
  unfold hashed
  omega

/-- The token is right where it stands. -/
def Allows (x : Mem) (size : Nat) (σ : Spelling) : Token → Prop
  | .lit c => σ.pos < size ∧ c = x σ.pos
  | .copy t => (σ.pos : Int) ≤ lastMatchstart size ∧ σ.pos + t.len + uncompressedEnd ≤ size ∧
      keyAt x σ.pos = t.hash ∧ ∃ o, Latest (keyAt x) σ.starts σ.hashed t.hash o ∧ o + 3 ≤ σ.pos ∧
        ∀ i < t.len, x (σ.pos + i) = x (o + i)

/-- The tokens spell the rest of the input. -/
structure Spells (x : Mem) (size : Nat) (σ : Spelling) (ts : List Token) : Prop where
  along : Trace.Along next (Allows x size) σ ts
  ends : (Trace.run next σ ts).pos = size

variable {x : Mem} {size : Nat} {σ : Spelling} {t : Token} {ts : List Token}

theorem spells_cons :
    Spells x size σ (t :: ts) ↔ Allows x size σ t ∧ Spells x size (σ.next t) ts := by
  constructor
  · intro h
    exact ⟨h.along.1, h.along.2, h.ends⟩
  · rintro ⟨ht, h⟩
    exact ⟨⟨ht, h.along⟩, h.ends⟩

theorem Spells.ne_nil (h : Spells x size σ ts) (hpos : σ.pos < size) : ts ≠ [] := by
  rintro rfl
  exact absurd h.ends (Nat.ne_of_lt hpos)

theorem pos_next (σ : Spelling) (t : Token) : (σ.next t).pos = σ.pos + t.span := by
  cases t <;> rfl

end Spelling

end Quicklz

end Opennop
