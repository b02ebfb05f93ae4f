import Opennop.Lib.Bytes

/-!
# Lists of options in kind/length encoding

The option area of a TCP header holds a list of options and then zeros. An option is a single NOP
byte or a kind byte (at least two), a length byte that counts both of these, and the data. The
operations here are those a rewriting of the area amounts to: leaving out the NOPs, and looking up
the first option of a kind.
-/

namespace Opennop

inductive Opt where
  | nop
  | opt (kind : UInt8) (data : List UInt8)
  deriving DecidableEq, Repr

namespace Opt

def kind : Opt → UInt8
  | nop => 1
  | opt k _ => k

def isNop : Opt → Bool
  | nop => true
  | opt _ _ => false

def encode : Opt → List UInt8
  | nop => [1]
  | opt k d => k :: UInt8.ofNat (d.length + 2) :: d

/-- The kind is not one of the two single-byte kinds, and the length fits its byte. -/
def Ok : Opt → Prop
  | nop => True
  | opt k d => 2 ≤ k ∧ d.length + 2 < 256

instance (o : Opt) : Decidable o.Ok := by
  cases o <;> unfold Ok <;> infer_instance

@[simp] theorem length_encode_nop : nop.encode.length = 1 := rfl

@[simp] theorem length_encode_opt (k : UInt8) (d : List UInt8) :
    (opt k d).encode.length = d.length + 2 := rfl

theorem length_encode_pos (o : Opt) : 0 < o.encode.length := by
  cases o <;> simp

end Opt

def encode (os : List Opt) : List UInt8 := os.flatMap Opt.encode

@[simp] theorem encode_nil : encode [] = [] := rfl

@[simp] theorem encode_cons (o : Opt) (os : List Opt) : encode (o :: os) = o.encode ++ encode os :=
  rfl

@[simp] theorem encode_append (os os' : List Opt) :
    encode (os ++ os') = encode os ++ encode os' := by
  simp [encode]

theorem length_le_encode (os : List Opt) : os.length ≤ (encode os).length := by
  induction os with
  | nil => simp
  | cons o os ih =>
    have := o.length_encode_pos
    simp only [encode_cons, List.length_append, List.length_cons]
    omega

/-! ## Leaving out the NOPs -/

def squeezed (os : List Opt) : List Opt := os.filter fun o => !o.isNop

def nops (os : List Opt) : Nat := os.countP Opt.isNop

/-- The number of bytes the options other than NOPs occupy. -/
def used (os : List Opt) : Nat := (encode (squeezed os)).length

@[simp] theorem squeezed_nil : squeezed [] = [] := rfl

@[simp] theorem squeezed_nop (os : List Opt) : squeezed (.nop :: os) = squeezed os := rfl

@[simp] theorem squeezed_opt (k : UInt8) (d : List UInt8) (os : List Opt) :
    squeezed (.opt k d :: os) = .opt k d :: squeezed os := rfl

@[simp] theorem nops_nil : nops [] = 0 := rfl

@[simp] theorem nops_nop (os : List Opt) : nops (.nop :: os) = nops os + 1 :=
  List.countP_cons_of_pos rfl

@[simp] theorem nops_opt (k : UInt8) (d : List UInt8) (os : List Opt) :
    nops (.opt k d :: os) = nops os :=
  List.countP_cons_of_neg (by simp [Opt.isNop])

@[simp] theorem squeezed_append (os os' : List Opt) :
    squeezed (os ++ os') = squeezed os ++ squeezed os' := by
  simp [squeezed]

@[simp] theorem squeezed_squeezed (os : List Opt) : squeezed (squeezed os) = squeezed os := by
  simp [squeezed]

@[simp] theorem length_encode_squeezed (os : List Opt) :
    (encode (squeezed os)).length = used os := rfl

theorem length_encode_eq (os : List Opt) : (encode os).length = used os + nops os := by
  induction os with
  | nil => rfl
  | cons o os ih =>
    unfold used at ih ⊢
    cases o with
    | nop =>
      simp only [encode_cons, List.length_append, squeezed_nop, nops_nop, Opt.length_encode_nop]
      omega
    | opt k d =>
      simp only [encode_cons, List.length_append, squeezed_opt, nops_opt]
      omega

theorem Opt.ok_squeezed {os : List Opt} (h : ∀ o ∈ os, o.Ok) : ∀ o ∈ squeezed os, o.Ok :=
  fun o ho => h o (List.mem_of_mem_filter ho)

/-! ## The first option of a kind -/

/-- The first option of kind `k`. -/
def firstOfKind (k : UInt8) (os : List Opt) : Option Opt := os.find? fun o => o.kind == k

theorem Opt.kind_ne_of_isNop {o : Opt} (h : o.isNop) {k : UInt8} (hk : 2 ≤ k) : o.kind ≠ k := by
  cases o with
  | nop =>
    rintro rfl
    exact absurd hk (by decide)
  | opt k d => cases h

theorem firstOfKind_squeezed (os : List Opt) {k : UInt8} (hk : 2 ≤ k) :
    firstOfKind k (squeezed os) = firstOfKind k os := by
  induction os with
  | nil => rfl
  | cons o os ih =>
    cases o with
    | nop =>
      have h : (Opt.nop.kind == k) = false := by
        simpa using Opt.kind_ne_of_isNop (o := .nop) rfl hk
      rw [squeezed_nop, ih, firstOfKind, firstOfKind, List.find?_cons_of_neg (by simp [h])]
    | opt k' d =>
      unfold firstOfKind at ih ⊢
      rw [squeezed_opt, List.find?_cons, List.find?_cons, ih]

end Opennop
