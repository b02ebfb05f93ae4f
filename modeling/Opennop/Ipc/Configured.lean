import Opennop.Ipc.NeighborMap

/-!
# Configuring neighbors

Whole histories of the commands `neighbor` and `no neighbor`, with the IPC thread at work on the
entries between them: the list holds exactly the addresses that were added and not since removed.
-/

namespace Opennop

namespace NeighborList

/-- What the IPC thread writes to an entry. -/
structure PeerFields where
  state : NeighborState
  id : OpennopId
  sock : Nat
  hellotimer : Int
  timer : Int

def PeerFields.write (f : PeerFields) (e : NeighborEntry) : NeighborEntry :=
  { e with
    state := f.state, id := f.id, sock := f.sock, hellotimer := f.hellotimer, timer := f.timer }

/-- A step: one of the two commands, or the IPC thread at work on an entry. -/
inductive Op (A : Type) where
  | neighbor (parameters : List CString) (mem : Malloc A)
  | noNeighbor (parameters : List CString)
  | peer (a : A) (fields : PeerFields)

variable {A : Type}

/-- `malloc` returns a free block, and the IPC thread works on blocks that are not. -/
def Op.Allowed (t : NeighborList A) : Op A → Prop
  | .neighbor _ mem => t.heap mem.block = none
  | .noNeighbor _ => True
  | .peer a _ => ∃ n, t.heap a = some n

section History

variable (inetPton : CString → Option Nat)

/-- What a step asks for when its input is accepted: a key for an address, or no entry for it. -/
def Op.request : Op A → Option (Nat × Option (List UInt8))
  | .neighbor [stringip] _ => (inetPton stringip).map (·, some [])
  | .neighbor [stringip, key] _ =>
    if key.chars.length > 64 then none else (inetPton stringip).map (·, some key.chars)
  | .noNeighbor [stringip] => (inetPton stringip).map (·, none)
  | _ => none

/-- The key that the last request about an address gave, if it was not to remove it. -/
def lastKey (ops : List (Op A)) : Nat → Option (List UInt8) :=
  ops.foldl (fun keys op =>
    match op.request inetPton with
    | some (ip, key) => Function.update keys ip key
    | none => keys) fun _ => none

/-- The addresses with their keys, in the order in which they were added, after one more step. -/
def after (m : KeyMap) (op : Op A) : KeyMap :=
  match op.request inetPton with
  | some (ip, some key) => m.set ip key
  | some (ip, none) => m.erase ip
  | none => m

def configured (ops : List (Op A)) : KeyMap := ops.foldl (after inetPton) []

theorem get_configured (ops : List (Op A)) (ip : Nat) :
    (configured inetPton ops).get ip = lastKey inetPton ops ip := by
  unfold configured lastKey
  induction ops using List.reverseRecOn with
  | nil => rfl
  | append_singleton ops op ih =>
    rw [List.foldl_append, List.foldl_append, List.foldl_cons, List.foldl_nil, List.foldl_cons,
      List.foldl_nil]
    generalize ops.foldl (after inetPton) [] = m at ih ⊢
    unfold after
    cases op.request inetPton with
    | none => exact ih
    | some r =>
      obtain ⟨ip', key⟩ := r
      cases key with
      | none => simp [KeyMap.get_erase, Function.update_apply, ih]
      | some key => simp [KeyMap.get_set, Function.update_apply, ih]

end History

section Runs

variable [Fintype A] [DecidableEq A] (inetPton : CString → Option Nat)

def step (t : NeighborList A) : Op A → Exec (NeighborList A)
  | .neighbor parameters mem => t.cliNeighbor inetPton mem parameters
  | .noNeighbor parameters => t.cliNoNeighbor inetPton parameters
  | .peer a fields => t.modify a fields.write

/-- The list after the steps `ops`. -/
inductive Run : List (Op A) → NeighborList A → Prop
  | start : Run [] {}
  | step {ops : List (Op A)} {t : NeighborList A} {op : Op A} {t' : NeighborList A} : Run ops t →
    op.Allowed t → t.step inetPton op = .ok t' → Run (ops ++ [op]) t'

variable {inetPton} {t : NeighborList A} {nodes : List A} {m : KeyMap}

theorem Represents.cliNeighbor (h : Represents t nodes m) {mem : Malloc A}
    (hfree : t.heap mem.block = none) (parameters : List CString) :
    ∃ t' nodes', t.cliNeighbor inetPton mem parameters = .ok t' ∧
      Represents t' nodes' (after inetPton m (.neighbor parameters mem)) := by
  match parameters with
  | [] => exact ⟨t, nodes, rfl, h⟩
  | [stringip] =>
    cases hip : inetPton stringip with
    | none => exact ⟨t, nodes, by simp [NeighborList.cliNeighbor, validateNeighborInput, hip],
        by simpa [after, Op.request, hip] using h⟩
    | some ip =>
      obtain ⟨t', nodes', hadd, h'⟩ := h.addUpdateNeighbor hfree none (Nat.zero_le _) ip
      exact ⟨t', nodes', by simpa [NeighborList.cliNeighbor, validateNeighborInput, hip] using hadd,
        by simpa [after, Op.request, hip, givenKey] using h'⟩
  | [stringip, key] =>
    cases hip : inetPton stringip with
    | none =>
      refine ⟨t, nodes, by simp [NeighborList.cliNeighbor, validateNeighborInput, hip], ?_⟩
      by_cases hlen : key.chars.length > 64 <;> simpa [after, Op.request, hip, hlen] using h
    | some ip =>
      by_cases hlen : key.chars.length > 64
      · exact ⟨t, nodes, by simp [NeighborList.cliNeighbor, validateNeighborInput, hip, hlen],
          by simpa [after, Op.request, hip, hlen] using h⟩
      · obtain ⟨t', nodes', hadd, h'⟩ := h.addUpdateNeighbor hfree (some key) (not_lt.1 hlen) ip
        exact ⟨t',
          nodes', by simpa [NeighborList.cliNeighbor, validateNeighborInput, hip, hlen] using hadd,
          by simpa [after, Op.request, hip, hlen, givenKey] using h'⟩
  | _ :: _ :: _ :: _ => exact ⟨t, nodes, rfl, h⟩

theorem Represents.cliNoNeighbor (h : Represents t nodes m) (parameters : List CString) :
    ∃ t' nodes', t.cliNoNeighbor inetPton parameters = .ok t' ∧
      Represents t' nodes' (after inetPton m (.noNeighbor parameters : Op A)) := by
  match parameters with
  | [] => exact ⟨t, nodes, rfl, h⟩
  | [stringip] =>
    cases hip : inetPton stringip with
    | none => exact ⟨t, nodes, by simp [NeighborList.cliNoNeighbor, validateNeighborInput, hip],
        by simpa [after, Op.request, hip] using h⟩
    | some ip =>
      obtain ⟨t', nodes', hdel, h'⟩ := h.delNeighbor ip
      exact ⟨t',
        nodes', by simpa [NeighborList.cliNoNeighbor, validateNeighborInput, hip] using hdel,
        by simpa [after, Op.request, hip] using h'⟩
  | _ :: _ :: _ => exact ⟨t, nodes, rfl, h⟩

omit [Fintype A] in
theorem Represents.peer (h : Represents t nodes m) {a : A} {n : NeighborNode A}
    (hn : t.heap a = some n) (fields : PeerFields) :
    ∃ t', t.modify a fields.write = .ok t' ∧ Represents t' nodes m := by
  obtain ⟨key, hkey, hmem⟩ := h.binding_eq hn
  obtain ⟨hmod, hrep⟩ := h.modify hn (f := fields.write) rfl hkey
  refine ⟨_, hmod, ?_⟩
  -- the entry keeps its key, so that replacing it changes nothing
  have hsame :
      (m.map fun e => if e.1 = n.entry.neighborIP then (n.entry.neighborIP, key) else e) = m := by
    conv_rhs => rw [← List.map_id m]
    refine List.map_congr_left fun e he => ?_
    split
    · next heq =>
      have hget := KeyMap.get_eq_some h.nodup hmem
      rw [← heq, KeyMap.get_eq_some h.nodup he, Option.some.injEq] at hget
      exact Prod.ext heq.symm hget.symm
    · rfl
  rwa [hsame] at hrep

/-- **One step** returns, and the list represents the map after it. -/
theorem Represents.step (inetPton : CString → Option Nat) (h : Represents t nodes m) {op : Op A}
    (hop : op.Allowed t) :
    ∃ t' nodes', t.step inetPton op = .ok t' ∧ Represents t' nodes' (after inetPton m op) := by
  cases op with
  | neighbor parameters mem => exact h.cliNeighbor hop parameters
  | noNeighbor parameters => exact h.cliNoNeighbor parameters
  | peer a fields =>
    obtain ⟨n, hn⟩ := hop
    obtain ⟨t', hmod, h'⟩ := h.peer hn fields
    exact ⟨t', nodes, hmod, h'⟩

/-- **Every run** represents the map of its requests. -/
theorem Run.represents {ops : List (Op A)} (hrun : Run inetPton ops t) :
    ∃ nodes, Represents t nodes (configured inetPton ops) := by
  induction hrun with
  | start => exact ⟨[], Represents.init⟩
  | step hrun hop hstep ih =>
    obtain ⟨nodes, h⟩ := ih
    obtain ⟨t', nodes', hstep', h'⟩ := h.step inetPton hop
    obtain rfl : t' = _ := Except.ok.inj (hstep'.symm.trans hstep)
    refine ⟨nodes', ?_⟩
    rw [configured, List.foldl_append, List.foldl_cons, List.foldl_nil]
    exact h'

/-- The list is the map of the requests `ops`. -/
structure IsMapOf (inetPton : CString → Option Nat) (t : NeighborList A) (ops : List (Op A)) :
    Prop where
  /-- The neighbors are linked both ways between the two head pointers, in the order in which they
  were added, and each holds the key last given. -/
  list : ∃ nodes, DList t.next t.prev t.ipchead.next t.ipchead.prev nodes ∧
    nodes.map t.binding = (configured inetPton ops).map some ∧ ∀ a n, t.heap a = some n → a ∈ nodes
  /-- No address is there twice. -/
  nodup : ((configured inetPton ops).map Prod.fst).Nodup
  /-- The two lookups find the entry of an address that was added and not since removed, and no
  other. -/
  find : ∀ ip, match lastKey inetPton ops ip with
    | some key =>
      ∃ a, t.findNeighborByU32 ip = .ok (some a) ∧ t.findNeighborByAddr ip = .ok (some a) ∧
        t.binding a = some (ip, key)
    | none => t.findNeighborByU32 ip = .ok none ∧ t.findNeighborByAddr ip = .ok none
  /-- A new key for an address that is there changes that key and nothing else in any entry. -/
  update : ∀ ip key mem, lastKey inetPton ops ip ≠ none → (givenKey key).length ≤ 64 →
    ∃ t', t.addUpdateNeighbor mem ip key = .ok t' ∧ ∀ a n, t.heap a = some n → ∃ n',
      t'.heap a = some n' ∧ (n.entry.neighborIP ≠ ip → n' = n) ∧
      (n.entry.neighborIP = ip → n'.entry.keyString = some (givenKey key) ∧
        n'.entry.state = n.entry.state ∧ n'.entry.id = n.entry.id ∧ n'.entry.sock = n.entry.sock)
  /-- Every further step returns. -/
  returns : ∀ op : Op A, op.Allowed t → ∃ t', t.step inetPton op = .ok t'

/-- **The neighbor list is a map**, whatever the commands were. -/
theorem run_isMapOf {ops : List (Op A)} (hrun : Run inetPton ops t) : IsMapOf inetPton t ops := by
  obtain ⟨nodes, h⟩ := hrun.represents
  have hlast := get_configured inetPton ops
  refine ⟨⟨nodes, h.links, h.bindings, fun a n hn => (h.heap a).2 ⟨n, hn⟩⟩, h.nodup,
    fun ip => ?_, ?_, ?_⟩
  · obtain ⟨a, n, hwalk, hn, rfl⟩ | ⟨hwalk, hno⟩ := h.walk_cases ip
    · obtain ⟨key, hkey, hmem⟩ := h.binding_eq hn
      rw [← hlast, KeyMap.get_eq_some h.nodup hmem]
      exact ⟨a, hwalk, hwalk, by simp [binding, hn, hkey]⟩
    · rw [← hlast, KeyMap.get_eq_none.2 hno]
      exact ⟨hwalk, hwalk⟩
  · intro ip key mem hip hkey
    rw [← hlast, Ne, KeyMap.get_eq_none, not_not] at hip
    obtain ⟨a, n, hn, hn_ip, hadd, -⟩ := h.addUpdateNeighbor_update hip mem hkey
    refine ⟨_, hadd, fun b k hk => ?_⟩
    obtain rfl | hba := eq_or_ne b a
    · obtain rfl : n = k := Option.some.inj (hn.symm.trans hk)
      refine ⟨_, Function.update_self .., fun hne => absurd hn_ip hne, fun _ => ?_⟩
      refine ⟨keyString_setNeighborKey n.entry hkey, ?_⟩
      cases key <;> exact ⟨rfl, rfl, rfl⟩
    · refine ⟨k, (Function.update_of_ne hba ..).trans hk, fun _ => rfl, fun hip' => ?_⟩
      exact absurd (h.eq_of_neighborIP hk hn (hip'.trans hn_ip.symm)) hba
  · intro op hop
    obtain ⟨t', -, hstep, -⟩ := h.step inetPton hop
    exact ⟨t', hstep⟩

end Runs

/-! ## Two neighbors -/

/-- The string `10.0.0.1`. -/
def firstQuad : CString := ⟨[49, 48, 46, 48, 46, 48, 46, 49], by simp⟩

/-- The string `10.0.0.2`. -/
def secondQuad : CString := ⟨[49, 48, 46, 48, 46, 48, 46, 50], by simp⟩

/-- What `inet_pton` makes of these two. -/
def quads (s : CString) : Option Nat :=
  if s.chars = firstQuad.chars then some 16777226
  else if s.chars = secondQuad.chars then some 33554442
  else none

/-- The first with a key, the second without one, no more the first, and the first again. -/
def twoNeighbors : List (Op Bool) :=
  [.neighbor [firstQuad, ⟨[97, 98], by simp⟩] (malloc false), .neighbor [secondQuad] (malloc true),
    .noNeighbor [firstQuad], .neighbor [firstQuad] (malloc false)]
where
  malloc (block : Bool) : Malloc Bool := ⟨block, ⟨0, .down, .zero, 0, fun _ => 7, 0, 0⟩, 1, 1⟩

theorem run_isMapOf_twoNeighbors :
    ∃ t t' : NeighborList Bool,
      IsMapOf quads t (twoNeighbors.take 3) ∧
      configured quads (twoNeighbors.take 3) = [(33554442, [])] ∧
      IsMapOf quads t' twoNeighbors ∧
      configured quads twoNeighbors = [(33554442, []), (16777226, [])] := by
  have h₁ : Run quads (twoNeighbors.take 1) _ := Run.start.step rfl rfl
  have h₂ : Run quads (twoNeighbors.take 1 ++
      [.neighbor [secondQuad] (twoNeighbors.malloc true)]) _ := h₁.step rfl rfl
  have h₃ : Run quads (twoNeighbors.take 2 ++ [.noNeighbor [firstQuad]]) _ :=
    Run.step h₂ trivial rfl
  have h₄ : Run quads (twoNeighbors.take 3 ++
      [.neighbor [firstQuad] (twoNeighbors.malloc false)]) _ := Run.step h₃ rfl rfl
  exact ⟨_, _, run_isMapOf h₃, by decide, run_isMapOf h₄, by decide⟩

end NeighborList

end Opennop
