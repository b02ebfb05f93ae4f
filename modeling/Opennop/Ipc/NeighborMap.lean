import Opennop.Ipc.NeighborList

/-!
# The list of neighbors is a map

The abstract state is the list of the configured addresses with their keys, in the order in which
the addresses were added. `Represents` connects it with the pointers; each command keeps it, and so
does the IPC thread, which writes to the other fields of an entry.
-/

namespace Opennop

/-! ## The abstract map -/

abbrev KeyMap := List (Nat × List UInt8)

namespace KeyMap

/-- Give an address a key: in its place if it is there, at the end if not. -/
def set (m : KeyMap) (ip : Nat) (key : List UInt8) : KeyMap :=
  if ip ∈ m.map Prod.fst then m.map fun e => if e.1 = ip then (ip, key) else e else m ++ [(ip, key)]

def erase (m : KeyMap) (ip : Nat) : KeyMap := m.filter (·.1 ≠ ip)

def get : KeyMap → Nat → Option (List UInt8)
  | [], _ => none
  | (a, key) :: m, ip => if a = ip then some key else get m ip

theorem get_eq_none {m : KeyMap} {ip : Nat} : m.get ip = none ↔ ip ∉ m.map Prod.fst := by
  induction m with
  | nil => simp [get]
  | cons e m ih =>
    by_cases he : e.1 = ip
    · simp [get, he]
    · simp only [get, he, if_false, ih, List.map_cons, List.mem_cons, not_or, Ne.symm he,
        not_false_eq_true, true_and]

theorem get_append (m m' : KeyMap) (ip : Nat) : get (m ++ m') ip = (m.get ip).or (get m' ip) := by
  induction m with
  | nil => rfl
  | cons e m ih =>
    by_cases he : e.1 = ip <;> simp [get, he, ih]

theorem get_eq_some {m : KeyMap} {e : Nat × List UInt8} (hm : (m.map Prod.fst).Nodup) (he : e ∈ m) :
    m.get e.1 = some e.2 := by
  obtain ⟨m₁, m₂, rfl⟩ := List.append_of_mem he
  have hfst : get m₁ e.1 = none := by
    rw [get_eq_none]
    intro hmem
    rw [List.map_append, List.map_cons, List.nodup_append] at hm
    exact hm.2.2 _ hmem _ List.mem_cons_self rfl
  rw [get_append, hfst]
  simp [get]

theorem map_fst_replace (m : KeyMap) (ip : Nat) (key : List UInt8) :
    (m.map fun e => if e.1 = ip then (ip, key) else e).map Prod.fst = m.map Prod.fst := by
  rw [List.map_map]
  refine List.map_congr_left fun e _ => ?_
  by_cases he : e.1 = ip <;> simp [he]

theorem nodup_erase {m : KeyMap} (h : (m.map Prod.fst).Nodup) (ip : Nat) :
    ((m.erase ip).map Prod.fst).Nodup :=
  h.sublist (List.filter_sublist.map _)

theorem get_replace (m : KeyMap) (ip : Nat) (key : List UInt8) (ip' : Nat) :
    get (m.map fun e => if e.1 = ip then (ip, key) else e) ip' =
      if ip' = ip then (m.get ip).map fun _ => key else m.get ip' := by
  induction m with
  | nil => simp [get]
  | cons e m ih =>
    by_cases he : e.1 = ip
    · by_cases hip : ip' = ip
      · simp [get, he, hip]
      · simp [get, he, hip, Ne.symm hip, ih]
    · obtain rfl | hip := eq_or_ne ip' ip
      · simpa [get, he] using ih
      · simp [get, he, hip, ih]

theorem get_set (m : KeyMap) (ip : Nat) (key : List UInt8) (ip' : Nat) :
    (m.set ip key).get ip' = if ip' = ip then some key else m.get ip' := by
  unfold set
  split
  · next hmem =>
    obtain ⟨k, hk⟩ := Option.ne_none_iff_exists'.1 (mt get_eq_none.1 (not_not.2 hmem))
    rw [get_replace, hk, Option.map_some]
  · next hmem =>
    rw [get_append]
    by_cases hip : ip' = ip
    · simp [hip, get_eq_none.2 hmem, get]
    · simp [hip, get, Ne.symm hip]

theorem erase_middle {m₁ m₂ : KeyMap} {e : Nat × List UInt8}
    (h : ((m₁ ++ e :: m₂).map Prod.fst).Nodup) :
    erase (m₁ ++ e :: m₂) e.1 = m₁ ++ m₂ := by
  rw [List.map_append, List.map_cons, List.nodup_middle, List.nodup_cons, ← List.map_append] at h
  unfold erase
  rw [List.filter_append, List.filter_cons_of_neg (by simp), ← List.filter_append,
    List.filter_eq_self]
  intro x hx
  simpa using fun hxe : x.1 = e.1 => h.1 (hxe ▸ List.mem_map_of_mem hx)

theorem get_erase (m : KeyMap) (ip ip' : Nat) :
    (m.erase ip).get ip' = if ip' = ip then none else m.get ip' := by
  unfold erase
  induction m with
  | nil => simp [get]
  | cons e m ih =>
    by_cases he : e.1 = ip
    · rw [List.filter_cons_of_neg (by simp [he]), ih]
      by_cases hip : ip' = ip
      · simp [hip]
      · simp [get, he, hip, Ne.symm hip]
    · rw [List.filter_cons_of_pos (by simp [he]), get, ih]
      by_cases hip : ip' = ip
      · simp [hip, he]
      · simp [get, hip]

end KeyMap

/-! ## The string in the key -/

theorem cString_of_terminated {m : Mem} {s : List UInt8} :
    ∀ {a n : Nat}, (∀ c ∈ s, c ≠ 0) → s.length < n →
    (∀ i (h : i < s.length), m (a + i) = s[i]) → m (a + s.length) = 0 → cString m a n = some s := by
  induction s with
  | nil =>
    intro a n _ hn _ hnul
    obtain ⟨n, rfl⟩ : ∃ k, n = k + 1 := ⟨n - 1, by simp at hn; omega⟩
    simp only [List.length_nil, Nat.add_zero] at hnul
    simp [cString, hnul]
  | cons c s ih =>
    intro a n hc hn hbytes hnul
    rw [List.length_cons] at hn
    obtain ⟨n, rfl⟩ : ∃ k, n = k + 1 := ⟨n - 1, by omega⟩
    have ha : m a = c := hbytes 0 (by simp)
    have hrest : cString m (a + 1) n = some s := by
      refine ih (fun d hd => hc d (List.mem_cons_of_mem _ hd)) (by omega) (fun i hi => ?_) ?_
      · rw [Nat.add_assoc, Nat.add_comm 1 i]
        exact hbytes (i + 1) (by simpa using hi)
      · rw [Nat.add_assoc, Nat.add_comm 1]
        exact hnul
    rw [cString, ha, if_neg (hc c List.mem_cons_self), hrest, Option.map_some]

def NeighborEntry.keyString (e : NeighborEntry) : Option (List UInt8) :=
  cString e.key 0 opennopIpcKeyLength

/-- The string that a command gives: empty if it gives none. -/
def givenKey (key : Option CString) : List UInt8 := (key.map CString.chars).getD []

theorem keyString_setNeighborKey (e : NeighborEntry) {key : Option CString}
    (hkey : (givenKey key).length ≤ 64) :
    (setNeighborKey e key).keyString = some (givenKey key) := by
  unfold setNeighborKey NeighborEntry.keyString opennopIpcKeyLength
  cases key with
  | none => simp [cString, Mem.fill, givenKey]
  | some key =>
    have hlen : key.chars.length ≤ 64 := hkey
    change cString ((e.key.fill 0 65 0).write 0 key.chars) 0 65 = some key.chars
    refine cString_of_terminated key.ne_zero (by omega) (fun i hi => ?_) ?_
    · rw [Mem.write_in _ (by omega) (by omega)]
      simp
    · rw [Mem.write_out _ (by omega), Mem.fill_in _ _ (by omega) (by omega)]

theorem keyString_allocateNeighbor {A : Type} (m : Malloc A) (ip : Nat) {key : Option CString}
    (hkey : (givenKey key).length ≤ 64) :
    (allocateNeighbor m ip key).keyString = some (givenKey key) ∧
      (allocateNeighbor m ip key).neighborIP = ip := by
  unfold allocateNeighbor
  by_cases hip : ip = 0
  · cases key with
    | none => simp [NeighborEntry.keyString, opennopIpcKeyLength, cString, givenKey, hip]
    | some key => exact ⟨keyString_setNeighborKey _ hkey, by simp [setNeighborKey, hip]⟩
  · cases key with
    | none => simp [NeighborEntry.keyString, opennopIpcKeyLength, cString, givenKey, hip]
    | some key => exact ⟨keyString_setNeighborKey _ hkey, by simp [setNeighborKey, hip]⟩

/-! ## Representation -/

namespace NeighborList

variable {A : Type}

/-- The address and the key of the neighbor at `a`. -/
def binding (t : NeighborList A) (a : A) : Option (Nat × List UInt8) :=
  (t.heap a).bind fun n => n.entry.keyString.map (n.entry.neighborIP, ·)

def linked [DecidableEq A] (t : NeighborList A) (a : A) (e : NeighborEntry) : NeighborList A where
  ipchead := { next := if t.ipchead.next = none then some a else t.ipchead.next, prev := some a }
  heap x :=
    if x = a then some { prev := t.ipchead.prev, entry := e }
    else (t.heap x).map fun n => if some x = t.ipchead.prev then { n with next := some a } else n

/-- The list without the neighbor `n` at `a`. -/
def unlinked [DecidableEq A] (t : NeighborList A) (a : A) (n : NeighborNode A) :
    NeighborList A where
  ipchead :=
    { next := if n.prev = none then n.next else t.ipchead.next
      prev := if n.next = none then n.prev else t.ipchead.prev }
  heap x :=
    if x = a then none
    else (t.heap x).map fun k =>
      { k with
        next := if some x = n.prev then n.next else k.next
        prev := if some x = n.next then n.prev else k.prev }

/-- The neighbors at `nodes`, linked in this order, are the entries of `m`. -/
structure Represents (t : NeighborList A) (nodes : List A) (m : KeyMap) : Prop where
  links : DList t.next t.prev t.ipchead.next t.ipchead.prev nodes
  heap : ∀ a, a ∈ nodes ↔ ∃ n, t.heap a = some n
  bindings : nodes.map t.binding = m.map some
  nodup : (m.map Prod.fst).Nodup

namespace Represents

variable {t : NeighborList A} {nodes : List A} {m : KeyMap} {a : A} {n : NeighborNode A} {ip : Nat}

theorem init : Represents ({} : NeighborList A) [] [] where
  links := DList.nil _ _
  heap := by simp
  bindings := rfl
  nodup := List.nodup_nil

theorem binding_eq (h : Represents t nodes m) (hn : t.heap a = some n) :
    ∃ key, n.entry.keyString = some key ∧ (n.entry.neighborIP, key) ∈ m := by
  have hmem : t.binding a ∈ m.map some := by
    rw [← h.bindings]
    exact List.mem_map_of_mem ((h.heap a).2 ⟨n, hn⟩)
  obtain ⟨e, he, hbind⟩ := List.mem_map.1 hmem
  simp only [binding, hn, Option.bind_some] at hbind
  obtain ⟨key, hkey, rfl⟩ := Option.map_eq_some_iff.1 hbind.symm
  exact ⟨key, hkey, he⟩

theorem eq_of_neighborIP (h : Represents t nodes m) {b : A} {n' : NeighborNode A}
    (hn : t.heap a = some n) (hn' : t.heap b = some n')
    (hip : n.entry.neighborIP = n'.entry.neighborIP) : a = b := by
  have hnodup : (nodes.map fun x => (t.binding x).map Prod.fst).Nodup := by
    have : nodes.map (fun x => (t.binding x).map Prod.fst) = (m.map Prod.fst).map some := by
      have hmap := congrArg (List.map (Option.map Prod.fst)) h.bindings
      simpa [Function.comp_def] using hmap
    rw [this]
    exact h.nodup.map (Option.some_injective _)
  have hbind : ∀ {x : A} {k : NeighborNode A}, t.heap x = some k →
      (t.binding x).map Prod.fst = some k.entry.neighborIP := by
    intro x k hk
    obtain ⟨key, hkey, -⟩ := h.binding_eq hk
    simp [binding, hk, hkey]
  refine List.inj_on_of_nodup_map hnodup ((h.heap a).2 ⟨n, hn⟩) ((h.heap b).2 ⟨n', hn'⟩) ?_
  rw [hbind hn, hbind hn', hip]

theorem length_le [Fintype A] (h : Represents t nodes m) : nodes.length ≤ Fintype.card A :=
  h.links.nodup.length_le_card

theorem walk_eq [Fintype A] (h : Represents t nodes m) (ip : Nat) :
    t.walk ip = .ok (nodes.find? fun x => (t.heap x).map (·.entry.neighborIP) = some ip) := by
  refine search_eq h.links.forward (fun x hx => ?_) (Nat.le_succ_of_le h.length_le)
  obtain ⟨n, hn⟩ := (h.heap x).1 hx
  simp only [walkPass, load, hn, ok_bind, searchStep, next, Option.map_some, Option.bind_some,
    Option.some.injEq, decide_eq_true_eq]
  split
  · rfl
  · cases n.next <;> rfl

theorem walk_cases [Fintype A] (h : Represents t nodes m) (ip : Nat) :
    (∃ a n, t.walk ip = .ok (some a) ∧ t.heap a = some n ∧ n.entry.neighborIP = ip) ∨
      (t.walk ip = .ok none ∧ ip ∉ m.map Prod.fst) := by
  rw [h.walk_eq ip]
  cases hf : nodes.find? fun x => (t.heap x).map (·.entry.neighborIP) = some ip with
  | some a =>
    have ha := List.find?_some hf
    rw [decide_eq_true_eq] at ha
    obtain ⟨n, hn, hip⟩ := Option.map_eq_some_iff.1 ha
    exact .inl ⟨a, n, rfl, hn, hip⟩
  | none =>
    refine .inr ⟨rfl, fun hmem => ?_⟩
    obtain ⟨e, he, rfl⟩ := List.mem_map.1 hmem
    have hbind : some e ∈ nodes.map t.binding := h.bindings ▸ List.mem_map_of_mem he
    obtain ⟨a, ha, hbind⟩ := List.mem_map.1 hbind
    obtain ⟨n, hn⟩ := (h.heap a).1 ha
    simp only [binding, hn, Option.bind_some] at hbind
    obtain ⟨key, -, rfl⟩ := Option.map_eq_some_iff.1 hbind
    simpa [hn] using List.find?_eq_none.1 hf a ha

variable [DecidableEq A]

/-! ### Changing an entry -/

theorem modify (h : Represents t nodes m) (hn : t.heap a = some n)
    {f : NeighborEntry → NeighborEntry} {key : List UInt8}
    (hip : (f n.entry).neighborIP = n.entry.neighborIP) (hkey : (f n.entry).keyString = some key) :
    t.modify a f = .ok (t.store a { n with entry := f n.entry }) ∧
      Represents (t.store a { n with entry := f n.entry }) nodes
        (m.map fun e => if e.1 = n.entry.neighborIP then (n.entry.neighborIP, key) else e) := by
  refine ⟨by simp [NeighborList.modify, load, hn], ?_, fun x => ?_, ?_, ?_⟩
  · refine h.links.congr (fun x _ => ?_) fun x _ => ?_
    · by_cases hx : x = a <;> simp [next, store, hx, hn]
    · by_cases hx : x = a <;> simp [prev, store, hx, hn]
  · rw [h.heap x]
    by_cases hx : x = a <;> simp [store, hx, hn]
  · have hbind : ∀ x ∈ nodes, (t.store a { n with entry := f n.entry }).binding x =
      (t.binding x).map
        fun e => if e.1 = n.entry.neighborIP then (n.entry.neighborIP, key) else e := by
      intro x hx
      obtain ⟨n', hn'⟩ := (h.heap x).1 hx
      obtain ⟨k, hk, -⟩ := h.binding_eq hn'
      obtain rfl | hxa := eq_or_ne x a
      · rw [hn, Option.some.injEq] at hn'
        subst hn'
        simp [binding, store, hn, hk, hip, hkey]
      · have hne : n'.entry.neighborIP ≠ n.entry.neighborIP :=
          fun he => hxa (h.eq_of_neighborIP hn' hn he)
        simp [binding, store, hxa, hn', hk, hne]
    have hmap := congrArg (List.map (Option.map
      fun e => if e.1 = n.entry.neighborIP then (n.entry.neighborIP, key) else e)) h.bindings
    rw [List.map_congr_left hbind]
    simpa [Function.comp_def] using hmap
  · rw [KeyMap.map_fst_replace]
    exact h.nodup

/-! ### Adding an entry -/

omit [DecidableEq A] in
theorem not_mem_of_free (h : Represents t nodes m) (ha : t.heap a = none) : a ∉ nodes := by
  intro hmem
  obtain ⟨n, hn⟩ := (h.heap a).1 hmem
  rw [ha] at hn
  cases hn

theorem link_eq (h : Represents t nodes m) (ha : t.heap a = none) (e : NeighborEntry) :
    (t.store a { entry := e }).link a = .ok (t.linked a e) := by
  unfold link
  cases hhead : t.ipchead.next with
  | none =>
    have hnil : nodes = [] := List.head?_eq_none_iff.1 (h.links.head_eq.symm.trans hhead)
    have hlast : t.ipchead.prev = none := by rw [h.links.tail_eq, hnil]; rfl
    simp only [store, hhead, linked, if_true]
    congr 2
    funext x
    by_cases hx : x = a <;> simp [hx, hlast]
  | some first =>
    have hne : nodes ≠ [] := by
      rintro rfl
      rw [h.links.head_eq] at hhead
      cases hhead
    obtain ⟨last, hlast⟩ := Option.ne_none_iff_exists'.1 (mt List.getLast?_eq_none_iff.1 hne)
    rw [← h.links.tail_eq] at hlast
    obtain ⟨k, hk⟩ := (h.heap last).1 (List.mem_of_getLast? (h.links.tail_eq.symm.trans hlast))
    have hla : last ≠ a := by
      rintro rfl
      rw [ha] at hk
      cases hk
    simp only [store, setPrev, setNext, load, linked, hhead, hlast, hk, ok_bind, pure_eq_ok,
      Function.update_self, Function.update_idem, Function.update_of_ne hla, reduceCtorEq, if_false]
    congr 2
    funext x
    by_cases hx : x = a
    · subst hx
      simp [hla.symm]
    · by_cases hxl : x = last
      · subst hxl
        simp [hx, hk]
      · simp [hx, hxl]

theorem link (h : Represents t nodes m) (ha : t.heap a = none) {e : NeighborEntry}
    {key : List UInt8} (hkey : e.keyString = some key) (hip : e.neighborIP ∉ m.map Prod.fst) :
    Represents (t.linked a e) (nodes ++ [a]) (m ++ [(e.neighborIP, key)]) := by
  have hfree := h.not_mem_of_free ha
  have hne : ∀ x ∈ nodes, x ≠ a := fun x hx hxa => hfree (hxa ▸ hx)
  refine ⟨?_, fun x => ?_, ?_, ?_⟩
  · have hlinks :
      DList (t.linked a e).next (t.linked a e).prev (if nodes = [] then some a else t.ipchead.next)
        (some a) (nodes ++ [a]) := h.links.append hfree
      (fun x hx => ?_) (by simp [next, linked]) (fun x hx => ?_) (by simp [prev, linked])
    · have hempty : (t.ipchead.next = none) = (nodes = []) := by
        rw [h.links.head_eq, List.head?_eq_none_iff]
      simpa only [linked, hempty] using hlinks
    · obtain ⟨n, hn⟩ := (h.heap x).1 hx
      simp only [next, linked, if_neg (hne x hx), hn, Option.map_some, Option.bind_some]
      split <;> rfl
    · obtain ⟨n, hn⟩ := (h.heap x).1 hx
      simp only [prev, linked, if_neg (hne x hx), hn, Option.map_some, Option.bind_some]
      split <;> rfl
  · rw [List.mem_append, List.mem_singleton, h.heap x]
    by_cases hx : x = a <;> simp [linked, hx]
  · rw [List.map_append, List.map_append, ← h.bindings]
    congr 1
    · refine List.map_congr_left fun x hx => ?_
      obtain ⟨n, hn⟩ := (h.heap x).1 hx
      simp only [binding, linked, if_neg (hne x hx), hn, Option.map_some, Option.bind_some]
      split <;> rfl
    · simp [binding, linked, hkey]
  · rw [List.map_append, List.nodup_append_comm]
    exact List.nodup_cons.2 ⟨hip, h.nodup⟩

/-! ### Removing an entry -/

section Remove

variable {l₁ l₂ : List A}

theorem unlink_eq (h : Represents t (l₁ ++ a :: l₂) m) (hn : t.heap a = some n) :
    (do let t ← t.unlink n; return t.free a) = .ok (t.unlinked a n) := by
  have hnodup := h.links.nodup
  rw [List.nodup_append, List.nodup_cons] at hnodup
  obtain ⟨-, ⟨ha₂, -⟩, hdisj⟩ := hnodup
  have hprev : ∀ y, n.prev = some y → y ∈ l₁ := fun y hy => by
    refine List.mem_of_getLast? (h.links.prev_eq.symm.trans ?_)
    simpa [prev, hn] using hy
  have hnext : ∀ x, n.next = some x → x ∈ l₂ := fun x hx => by
    refine List.mem_of_head? (h.links.next_eq.symm.trans ?_)
    simpa [next, hn] using hx
  unfold NeighborList.unlink
  cases hp : n.prev with
  | none =>
    cases hx : n.next with
    | none =>
      simp only [ok_bind, pure_eq_ok, free, unlinked, hp, hx, if_true]
      congr 2
      funext z
      by_cases hz : z = a <;> simp [hz]
    | some x =>
      have hxa : x ≠ a := fun he => ha₂ (he ▸ hnext x hx)
      obtain ⟨k, hk⟩ := (h.heap x).1 (by simp [hnext x hx])
      simp only [setPrev, load, hk, store, ok_bind, pure_eq_ok, free,
        unlinked, hp, hx, if_true, reduceCtorEq, if_false]
      congr 2
      funext z
      by_cases hz : z = a
      · simp [hz]
      · by_cases hzx : z = x <;> simp [hz, hzx, hxa, hk]
  | some y =>
    have hya : y ≠ a := fun he => hdisj y (hprev y hp) a List.mem_cons_self he
    obtain ⟨k, hk⟩ := (h.heap y).1 (by simp [hprev y hp])
    cases hx : n.next with
    | none =>
      simp only [setNext, load, hk, store, ok_bind, pure_eq_ok, free,
        unlinked, hp, hx, if_true, reduceCtorEq, if_false]
      congr 2
      funext z
      by_cases hz : z = a
      · simp [hz]
      · by_cases hzy : z = y <;> simp [hz, hzy, hya, hk]
    | some x =>
      have hxa : x ≠ a := fun he => ha₂ (he ▸ hnext x hx)
      have hxy : x ≠ y :=
        fun he => hdisj y (hprev y hp) x (List.mem_cons_of_mem _ (hnext x hx)) he.symm
      obtain ⟨k', hk'⟩ := (h.heap x).1 (by simp [hnext x hx])
      simp only [setNext, setPrev, load, hk, hk', store, ok_bind, pure_eq_ok, free,
        unlinked, hp, hx, Function.update_of_ne hxy, reduceCtorEq, if_false]
      congr 2
      funext z
      by_cases hz : z = a
      · simp [hz]
      · by_cases hzx : z = x
        · subst hzx
          simp [hz, hxy, hk']
        · by_cases hzy : z = y <;> simp [hz, hzx, hzy, hya, Ne.symm hxy, hk]

theorem unlink (h : Represents t (l₁ ++ a :: l₂) m) (hn : t.heap a = some n) :
    Represents (t.unlinked a n) (l₁ ++ l₂) (m.erase n.entry.neighborIP) := by
  have hnodup := h.links.nodup
  rw [List.nodup_middle, List.nodup_cons] at hnodup
  have hne : ∀ x ∈ l₁ ++ l₂, x ≠ a := fun x hx hxa => hnodup.1 (hxa ▸ hx)
  have hmem : ∀ x ∈ l₁ ++ l₂, ∃ k, t.heap x = some k := fun x hx => (h.heap x).1 (by
    rw [List.mem_append, List.mem_cons]
    rw [List.mem_append] at hx
    tauto)
  have hnext : t.next a = n.next := by simp [next, hn]
  have hprev : t.prev a = n.prev := by simp [prev, hn]
  refine ⟨?_, fun x => ?_, ?_, KeyMap.nodup_erase h.nodup _⟩
  · simp only [unlinked, ← hnext, ← hprev]
    refine h.links.remove (fun x hx => ?_) fun x hx => ?_
    · obtain ⟨k, hk⟩ := hmem x hx
      simp [next, prev, hne x hx, hk, hn]
    · obtain ⟨k, hk⟩ := hmem x hx
      simp [next, prev, hne x hx, hk, hn]
  · have hx := h.heap x
    rw [List.mem_append, List.mem_cons] at hx
    rw [List.mem_append]
    by_cases hxa : x = a
    · subst hxa
      simp only [unlinked, if_true, reduceCtorEq, exists_false, iff_false, ← List.mem_append]
      exact hnodup.1
    · simp only [hxa, false_or] at hx
      rw [hx]
      simp [unlinked, hxa]
  · have hbindings := h.bindings
    have hnodup' := h.nodup
    rw [List.map_append, List.map_cons] at hbindings
    obtain ⟨m₁, m', rfl, hm₁, hm'⟩ := List.map_eq_append_iff.1 hbindings.symm
    obtain ⟨e, m₂, rfl, he, hm₂⟩ := List.map_eq_cons_iff.1 hm'
    have hip : e.1 = n.entry.neighborIP := by
      simp only [binding, hn, Option.bind_some] at he
      obtain ⟨key, -, rfl⟩ := Option.map_eq_some_iff.1 he.symm
      rfl
    rw [← hip, KeyMap.erase_middle hnodup', List.map_append (f := some), hm₁, hm₂,
      ← List.map_append]
    refine List.map_congr_left fun x hx => ?_
    obtain ⟨k, hk⟩ := hmem x hx
    simp [binding, unlinked, hne x hx, hk]

end Remove

/-! ### The commands -/

section Commands

variable [Fintype A] {mem : Malloc A} {key : Option CString}

/-- A command for an address that is there changes the key of its entry, and nothing else in any
entry. -/
theorem addUpdateNeighbor_update (h : Represents t nodes m) (hip : ip ∈ m.map Prod.fst)
    (mem : Malloc A) (hkey : (givenKey key).length ≤ 64) :
    ∃ a n, t.heap a = some n ∧ n.entry.neighborIP = ip ∧
      t.addUpdateNeighbor mem ip key =
        .ok (t.store a { n with entry := setNeighborKey n.entry key }) ∧
      Represents (t.store a { n with entry := setNeighborKey n.entry key }) nodes
        (m.set ip (givenKey key)) := by
  obtain ⟨a, n, hwalk, hn, rfl⟩ := (h.walk_cases ip).resolve_right fun hno => hno.2 hip
  have hsame : (setNeighborKey n.entry key).neighborIP = n.entry.neighborIP := by
    cases key <;> rfl
  obtain ⟨hmod, hrep⟩ :=
    h.modify hn (f := (setNeighborKey · key)) hsame (keyString_setNeighborKey n.entry hkey)
  refine ⟨a, n, hn, rfl, ?_, ?_⟩
  · rw [addUpdateNeighbor, hwalk, ok_bind]
    exact hmod
  · rw [KeyMap.set, if_pos hip]
    exact hrep

theorem addUpdateNeighbor (h : Represents t nodes m) (hfree : t.heap mem.block = none)
    (key : Option CString) (hkey : (givenKey key).length ≤ 64) (ip : Nat) :
    ∃ t' nodes', t.addUpdateNeighbor mem ip key = .ok t' ∧
      Represents t' nodes' (m.set ip (givenKey key)) := by
  by_cases hip : ip ∈ m.map Prod.fst
  · obtain ⟨a, n, -, -, hadd, hrep⟩ := h.addUpdateNeighbor_update hip mem hkey
    exact ⟨_, _, hadd, hrep⟩
  · obtain ⟨a, n, -, hn, rfl⟩ | ⟨hwalk, -⟩ := h.walk_cases ip
    · obtain ⟨k, -, hmem⟩ := h.binding_eq hn
      exact absurd (List.mem_map_of_mem hmem) hip
    · obtain ⟨hstring, haddr⟩ := keyString_allocateNeighbor mem ip hkey
      refine ⟨t.linked mem.block (allocateNeighbor mem ip key), nodes ++ [mem.block], ?_, ?_⟩
      · rw [NeighborList.addUpdateNeighbor, hwalk, ok_bind]
        exact h.link_eq hfree _
      · have hrep := h.link hfree hstring (haddr.symm ▸ hip)
        rw [haddr] at hrep
        rw [KeyMap.set, if_neg hip]
        exact hrep

theorem delNeighbor (h : Represents t nodes m) (ip : Nat) :
    ∃ t' nodes', t.delNeighbor ip = .ok t' ∧ Represents t' nodes' (m.erase ip) := by
  unfold NeighborList.delNeighbor
  obtain ⟨a, n, hwalk, hn, rfl⟩ | ⟨hwalk, hno⟩ := h.walk_cases ip
  · obtain ⟨l₁, l₂, rfl⟩ := List.append_of_mem ((h.heap a).2 ⟨n, hn⟩)
    refine ⟨_, _, ?_, h.unlink hn⟩
    rw [hwalk, ok_bind]
    simp only [load, hn, ok_bind]
    exact h.unlink_eq hn
  · refine ⟨t, nodes, by rw [hwalk]; rfl, ?_⟩
    have : m.erase ip = m := by
      refine List.filter_eq_self.2 fun e he => ?_
      simpa using fun hip : e.1 = ip => hno (hip ▸ List.mem_map_of_mem he)
    rwa [this]

end Commands

end Represents

end NeighborList

end Opennop
