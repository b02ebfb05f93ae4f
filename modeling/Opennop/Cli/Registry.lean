import Mathlib.Data.List.Find
import Mathlib.Data.List.Perm.Subperm
import Mathlib.Data.List.TakeWhile
import Opennop.Cli.Commands
import Opennop.Lib.Chain
import Opennop.Lib.Forest

/-!
# The tree of commands as a forest

The heads and commands in memory store a forest whose keys are tokens (`Stores`): the list of a head
is a doubly linked list, and no command is in two of them. `find_command` is a step in the forest,
and a command that `register_command` creates is a new node of it.
-/

namespace Opennop

/-! ## Tokens -/

@[simp] theorem tokens_nil : tokens [] = [] := rfl

theorem tokens_space (s : List Char) : tokens (' ' :: s) = tokens s := by
  simp [tokens, List.splitOnP_cons_eq_if_modifyHead]

theorem tokens_dropWhile (s : List Char) : tokens (s.dropWhile (· = ' ')) = tokens s := by
  induction s with
  | nil => rfl
  | cons c s ih =>
    by_cases hc : c = ' '
    · subst hc
      rw [List.dropWhile_cons_of_pos (by simp), ih, tokens_space]
    · rw [List.dropWhile_cons_of_neg (by simpa using hc)]

theorem tokens_word {w : List Char} (hw : w ≠ []) (hword : ∀ c ∈ w, c ≠ ' ') (s : List Char) :
    tokens (w ++ ' ' :: s) = w :: tokens s := by
  unfold tokens
  rw [List.splitOnP_append_cons_of_forall_mem (by simpa using hword) _ (by simp),
    List.filter_cons_of_pos (by simpa using hw)]

theorem tokens_single {w : List Char} (hw : w ≠ []) (hword : ∀ c ∈ w, c ≠ ' ') :
    tokens w = [w] := by
  unfold tokens
  rw [List.splitOnP_eq_singleton (by simpa using hword),
    List.filter_cons_of_pos (by simpa using hw)]
  rfl

/-- **`strtok_r` takes the words of a string one after the other.** -/
theorem strtokR_spec (s : List Char) :
    (strtokR s).1 = (tokens s).head? ∧ tokens (strtokR s).2 = (tokens s).tail := by
  rw [← tokens_dropWhile s]
  unfold strtokR
  cases hs : s.dropWhile (· = ' ') with
  | nil => exact ⟨rfl, rfl⟩
  | cons c r =>
    have hc : c ≠ ' ' := by
      have := List.head?_dropWhile_not (· = ' ') s
      rw [hs] at this
      simpa using this
    have hword : ∀ d ∈ (c :: r).takeWhile (· ≠ ' '), d ≠ ' ' := fun d hd => by
      simpa using List.mem_takeWhile_imp hd
    have hw : (c :: r).takeWhile (· ≠ ' ') ≠ [] := by
      rw [List.takeWhile_cons_of_pos (by simpa using hc)]
      simp
    have hsplit := (List.takeWhile_append_dropWhile (p := (· ≠ ' ')) (l := c :: r)).symm
    cases hrest : (c :: r).dropWhile (· ≠ ' ') with
    | nil =>
      rw [hrest, List.append_nil] at hsplit
      rw [hsplit, tokens_single hw hword]
      simp only [← hsplit, hrest]
      exact ⟨rfl, rfl⟩
    | cons d t =>
      have hd : d = ' ' := by
        have := List.head?_dropWhile_not (· ≠ ' ') (c :: r)
        rw [hrest] at this
        simpa using this
      subst hd
      rw [hrest] at hsplit
      rw [hsplit, tokens_word hw hword]
      simp only [← hsplit, hrest]
      exact ⟨rfl, rfl⟩

theorem strtokR_nil {s : List Char} (hs : tokens s = []) :
    ∃ s', strtokR s = (none, s') ∧ tokens s' = [] := by
  obtain ⟨hhead, htail⟩ := strtokR_spec s
  rw [hs] at hhead htail
  exact ⟨_, Prod.ext hhead rfl, htail⟩

theorem strtokR_cons {s : List Char} {t : Token} {ts : List Token} (hs : tokens s = t :: ts) :
    ∃ s', strtokR s = (some t, s') ∧ tokens s' = ts := by
  obtain ⟨hhead, htail⟩ := strtokR_spec s
  rw [hs] at hhead htail
  exact ⟨_, Prod.ext hhead rfl, htail⟩

theorem length_tokens_le (s : List Char) : (tokens s).length ≤ s.length + 1 := by
  have hsplit : ∀ s : List Char, (s.splitOnP (· = ' ')).length ≤ s.length + 1 := by
    intro s
    induction s with
    | nil => simp
    | cons c s ih =>
      rw [List.splitOnP_cons_eq_if_modifyHead]
      split
      · simpa using ih
      · simp only [List.length_modifyHead, List.length_cons]
        omega
  exact (List.length_filter_le _ _).trans (hsplit s)

/-! ## The forest in memory -/

section Registry

variable {M H : Type} {cli : Cli M H} {F : Forest (HeadRef M) Nat Token}

theorem modeHead_ne_child (mode : Option M) (a : Nat) : HeadRef.child a ≠ modeHead mode := by
  cases mode with
  | none => simp [modeHead]
  | some m => simp [modeHead]

theorem modeHead_injective : Function.Injective (modeHead (M := M)) := by
  intro m m' h
  cases m <;> cases m' <;> simp_all [modeHead]

/-- The heads and commands are those of `F`. -/
structure Stores (cli : Cli M H) (F : Forest (HeadRef M) Nat Token) : Prop where
  child : ∀ a, F.child a = .child a
  list : ∀ r, DList (fun a => (cli.commands a).next) (fun a => (cli.commands a).prev)
    (cli.head r).next (cli.head r).prev (F.kids r)
  key : ∀ {r a}, a ∈ F.kids r → (cli.commands a).command = F.key a
  lt : ∀ {r a}, a ∈ F.kids r → a < cli.allocated
  leaf : ∀ {a}, cli.allocated ≤ a → F.kids (.child a) = []

namespace Stores

theorem isRoot (h : Stores cli F) (mode : Option M) : F.IsRoot (modeHead mode) := by
  intro a
  rw [h.child]
  exact modeHead_ne_child mode a

theorem length_kids_le (h : Stores cli F) (r : HeadRef M) : (F.kids r).length ≤ cli.allocated := by
  have hsub : F.kids r ⊆ List.range cli.allocated := fun a ha => List.mem_range.2 (h.lt ha)
  have hle := (List.subperm_of_subset (h.list r).nodup hsub).length_le
  rwa [List.length_range] at hle

/-- The loop of `find_command` over a list. -/
theorem loop_findPass (name : Token) {l : List Nat} {start : Option Nat} {n : Nat}
    (hseg : Seg (fun a => (cli.commands a).next) start l none) (hn : l.length < n) :
    loop (findPass cli name) n start = .ok (l.find? fun a => (cli.commands a).command = name) := by
  induction l generalizing start n with
  | nil =>
    obtain ⟨n, rfl⟩ : ∃ k, n = k + 1 := ⟨n - 1, by simp at hn; omega⟩
    rw [Seg.nil_iff.1 hseg]
    exact loop_done rfl
  | cons a l ih =>
    obtain ⟨n, rfl⟩ : ∃ k, n = k + 1 := ⟨n - 1, by simp at hn; omega⟩
    obtain ⟨rfl, htail⟩ := Seg.cons_iff.1 hseg
    by_cases ha : (cli.commands a).command = name
    · rw [List.find?_cons_of_pos (by simpa using ha)]
      exact loop_done (by simp [findPass, ha])
    · rw [List.find?_cons_of_neg (by simpa using ha), ← ih htail (by simp at hn; omega)]
      exact loop_again (by simp [findPass, ha])

/-- **`find_command` is a step in the forest.** -/
theorem findCommand_eq (h : Stores cli F) (r : HeadRef M) (t : Token) :
    findCommand cli r t = .ok (F.step r t) := by
  have hlen := h.length_kids_le r
  unfold findCommand Forest.step
  rw [loop_findPass t (h.list r).forward (by omega)]
  congr 1
  exact List.find?_congr fun a ha => by rw [h.key ha]

theorem next_eq_none_iff (h : Stores cli F) (r : HeadRef M) :
    (cli.head r).next = none ↔ F.kids r = [] := by
  rw [(h.list r).head_eq, List.head?_eq_none_iff]

theorem reach_live (h : Stores cli F) {mode : Option M} {p : List Token} {a : Nat}
    (hp : F.reach (modeHead mode) p = some (.child a)) : a < cli.allocated := by
  cases p using List.reverseRecOn with
  | nil => exact absurd (Option.some.inj hp).symm (modeHead_ne_child mode a)
  | append_singleton p t =>
    obtain ⟨s, b, -, hstep, hb⟩ := Forest.reach_concat.1 hp
    rw [h.child] at hb
    cases hb
    exact h.lt (Forest.step_eq_some.1 hstep).1

end Stores

/-! ### A new command -/

@[simp] theorem Cli.commands_setCommand (cli : Cli M H) (a : Nat) (c : Command H) (b : Nat) :
    (cli.setCommand a c).commands b = if b = a then c else cli.commands b := by
  simp [Cli.setCommand, Function.update_apply]

@[simp] theorem Cli.allocated_setCommand (cli : Cli M H) (a : Nat) (c : Command H) :
    (cli.setCommand a c).allocated = cli.allocated := rfl

theorem Cli.head_setCommand [DecidableEq M] (cli : Cli M H) (a : Nat) (c : Command H)
    (s : HeadRef M) :
    (cli.setCommand a c).head s = if s = .child a then c.child else cli.head s := by
  cases s with
  | globalmode => simp [Cli.head, Cli.setCommand]
  | mode m => simp [Cli.head, Cli.setCommand]
  | child b =>
    simp only [Cli.head, Cli.commands_setCommand, HeadRef.child.injEq]
    split
    · rfl
    · rfl

variable [DecidableEq M]

@[simp] theorem Cli.allocated_setHead (cli : Cli M H) (r : HeadRef M) (hd : CommandHead) :
    (cli.setHead r hd).allocated = cli.allocated := by
  cases r <;> rfl

@[simp] theorem Cli.commands_setHead (cli : Cli M H) (r : HeadRef M) (hd : CommandHead) (b : Nat) :
    (cli.setHead r hd).commands b =
      { cli.commands b with child := if r = .child b then hd else (cli.commands b).child } := by
  cases r with
  | globalmode => simp [Cli.setHead]
  | mode m => simp [Cli.setHead]
  | child a =>
    simp only [Cli.setHead, Cli.commands_setCommand, HeadRef.child.injEq]
    by_cases hab : b = a
    · subst hab
      simp
    · simp [hab, Ne.symm hab]

theorem Cli.head_setHead (cli : Cli M H) (r : HeadRef M) (hd : CommandHead) (s : HeadRef M) :
    (cli.setHead r hd).head s = if s = r then hd else cli.head s := by
  cases s with
  | child b =>
    simp only [Cli.head, Cli.commands_setHead, eq_comm]
  | globalmode => cases r <;> simp [Cli.head, Cli.setHead, Cli.setCommand]
  | mode m =>
    cases r with
    | mode m' => simp [Cli.head, Cli.setHead, Function.update_apply]
    | globalmode => simp [Cli.head, Cli.setHead]
    | child a => simp [Cli.head, Cli.setHead, Cli.setCommand]

/-- What `register_command` changes when it creates a command for `token` below `r`. -/
structure Created (cli cli' : Cli M H) (r : HeadRef M) (token : Token) : Prop where
  allocated : cli'.allocated = cli.allocated + 1
  head : (cli'.head r) = ⟨(cli.head r).next.or (some cli.allocated), some cli.allocated⟩
  head_new : cli'.head (.child cli.allocated) = {}
  head_ne : ∀ s, s ≠ r → s ≠ .child cli.allocated → cli'.head s = cli.head s
  next : ∀ b, b ≠ cli.allocated → (cli'.commands b).next =
    if some b = (cli.head r).prev then some cli.allocated else (cli.commands b).next
  next_new : (cli'.commands cli.allocated).next = none
  prev : ∀ b, b ≠ cli.allocated → (cli'.commands b).prev = (cli.commands b).prev
  prev_new : (cli'.commands cli.allocated).prev = (cli.head r).prev
  command : ∀ b, b ≠ cli.allocated → (cli'.commands b).command = (cli.commands b).command
  command_new : (cli'.commands cli.allocated).command = token
  data : ∀ b, b ≠ cli.allocated →
    (cli'.commands b).commandHandler = (cli.commands b).commandHandler ∧
    (cli'.commands b).hasparams = (cli.commands b).hasparams
  data_new : (cli'.commands cli.allocated).commandHandler = none ∧
    (cli'.commands cli.allocated).hasparams = false

/-- The memory after `allocate_command` and the assignment of the token. -/
def allocateToken (cli : Cli M H) (token : Token) : Cli M H :=
  { cli.setCommand cli.allocated { command := token } with allocated := cli.allocated + 1 }

omit [DecidableEq M] in
theorem commands_allocateToken (cli : Cli M H) (token : Token) (b : Nat) :
    (allocateToken cli token).commands b =
      if b = cli.allocated then { command := token } else cli.commands b :=
  Cli.commands_setCommand cli cli.allocated _ b

theorem head_allocateToken (cli : Cli M H) (token : Token) (s : HeadRef M) :
    (allocateToken cli token).head s = if s = .child cli.allocated then {} else cli.head s :=
  Cli.head_setCommand cli cli.allocated _ s

omit [DecidableEq M] in
theorem setCommand_allocateCommand (cli : Cli M H) (token : Token) :
    (allocateCommand cli).2.setCommand cli.allocated
      { (allocateCommand cli).2.commands cli.allocated with command := token } =
      allocateToken cli token := by
  simp [allocateCommand, allocateToken, Cli.setCommand]

omit [DecidableEq M] in
@[simp] theorem allocated_allocateToken (cli : Cli M H) (token : Token) :
    (allocateToken cli token).allocated = cli.allocated + 1 := rfl

/-- `a` is put behind `last`, the last command of a list that is not empty. -/
def linkBehind (cli : Cli M H) (r : HeadRef M) (first : Option Nat) (last a : Nat) : Cli M H :=
  let cli := cli.setCommand last { cli.commands last with next := some a }
  let cli := cli.setCommand a { cli.commands a with prev := some last }
  cli.setHead r ⟨first, some a⟩

theorem commands_linkBehind (cli : Cli M H) (r : HeadRef M) (first : Option Nat) {last a : Nat}
    (hne : last ≠ a) (b : Nat) :
    (linkBehind cli r first last a).commands b =
      { cli.commands b with
        next := if b = last then some a else (cli.commands b).next
        prev := if b = a then some last else (cli.commands b).prev
        child := if r = .child b then ⟨first, some a⟩ else (cli.commands b).child } := by
  by_cases ha : b = a
  · subst ha
    simp [linkBehind, hne.symm]
  · by_cases hl : b = last
    · subst hl
      simp [linkBehind, hne]
    · simp [linkBehind, ha, hl]

theorem head_linkBehind (cli : Cli M H) (r : HeadRef M) (first : Option Nat) {last a : Nat}
    (hne : last ≠ a) (s : HeadRef M) :
    (linkBehind cli r first last a).head s = if s = r then ⟨first, some a⟩ else cli.head s := by
  unfold linkBehind
  rw [Cli.head_setHead, Cli.head_setCommand, Cli.head_setCommand]
  split
  · rfl
  · split
    · subst s
      simp [hne.symm, Cli.head]
    · split
      · subst s
        rfl
      · rfl

theorem created_createCommand (h : Stores cli F) {r : HeadRef M} (token : Token)
    (hr : r ≠ .child cli.allocated) :
    ∃ cli', createCommand cli r token = .ok (cli.allocated, cli') ∧ Created cli cli' r token := by
  have hhead : (allocateToken cli token).head r = cli.head r := by
    rw [head_allocateToken, if_neg hr]
  have hcreate : createCommand cli r token =
      linkCommand (allocateToken cli token) r cli.allocated >>= fun cli' =>
        .ok (cli.allocated, cli') := by
    rw [← setCommand_allocateCommand]
    rfl
  rw [hcreate]
  unfold linkCommand
  rw [hhead]
  cases hnext : (cli.head r).next with
  | none =>
    have hprev : (cli.head r).prev = none := by
      rw [(h.list r).tail_eq, (h.next_eq_none_iff r).1 hnext, List.getLast?_nil]
    refine ⟨_, rfl, ?_⟩
    constructor
    all_goals simp_all [Cli.head_setHead, head_allocateToken, commands_allocateToken, hr.symm]
  | some first =>
    obtain ⟨last, hlast⟩ : ∃ last, (F.kids r).getLast? = some last := by
      refine ⟨_, List.getLast?_eq_some_getLast fun hnil => ?_⟩
      rw [(h.next_eq_none_iff r).2 hnil] at hnext
      cases hnext
    have hprev : (cli.head r).prev = some last := (h.list r).tail_eq.trans hlast
    have hlt : last ≠ cli.allocated := Nat.ne_of_lt (h.lt (List.mem_of_getLast? hlast))
    rw [hprev]
    refine ⟨linkBehind (allocateToken cli token) r (some first) last cli.allocated, rfl, ?_⟩
    constructor
    case allocated => simp [linkBehind]
    all_goals simp_all [commands_linkBehind, head_linkBehind, head_allocateToken,
      commands_allocateToken, hr.symm, hlt.symm]

theorem Stores.created_list (h : Stores cli F) {cli' : Cli M H} {r : HeadRef M} {token : Token}
    (hc : Created cli cli' r token) (hfree : ∀ s, cli.allocated ∉ F.kids s) (s : HeadRef M) :
    DList (fun a => (cli'.commands a).next) (fun a => (cli'.commands a).prev) (cli'.head s).next
      (cli'.head s).prev (Function.update F.kids r (F.kids r ++ [cli.allocated]) s) := by
  have hne : ∀ {s b}, b ∈ F.kids s → b ≠ cli.allocated := fun hb => Nat.ne_of_lt (h.lt hb)
  by_cases hs : s = r
  · subst hs
    have happend := (h.list s).append (hfree s)
      (fun b hb => hc.next b (hne hb)) hc.next_new (fun b hb => hc.prev b (hne hb)) hc.prev_new
    have hnext : (cli.head s).next.or (some cli.allocated) =
        if F.kids s = [] then some cli.allocated else (cli.head s).next := by
      rw [(h.list s).head_eq]
      cases F.kids s with
      | nil => rfl
      | cons a l => rfl
    rw [Function.update_self, hc.head, hnext]
    exact happend
  · rw [Function.update_of_ne hs]
    by_cases hnew : s = .child cli.allocated
    · subst hnew
      rw [hc.head_new, h.leaf (Nat.le_refl _)]
      exact DList.nil _ _
    · rw [hc.head_ne s hs hnew]
      refine (h.list s).congr (fun b hb => ?_) (fun b hb => hc.prev b (hne hb))
      rw [hc.next b (hne hb), if_neg]
      -- the command whose link changes hangs in another list
      intro hlast
      rw [(h.list r).tail_eq] at hlast
      exact hs (F.place_unique hb (List.mem_of_getLast? hlast.symm))

/-- **A new command is a new node of the forest.** -/
theorem Stores.created (h : Stores cli F) {cli' : Cli M H} {r : HeadRef M} {token : Token}
    (hc : Created cli cli' r token) (hr : ∀ b, r = .child b → b < cli.allocated)
    (hfree : ∀ s, cli.allocated ∉ F.kids s) (hk : F.step r token = none) :
    Stores cli' (F.insert r cli.allocated token hfree hk) := by
  have hne : ∀ {s b}, b ∈ F.kids s → b ≠ cli.allocated := fun hb => Nat.ne_of_lt (h.lt hb)
  refine ⟨h.child, h.created_list hc hfree, ?_, ?_, ?_⟩
  · intro s b hb
    rcases Forest.mem_kids_insert.1 hb with hb | ⟨rfl, rfl⟩
    · rw [hc.command b (hne hb), h.key hb, Forest.key_insert, Function.update_of_ne (hne hb)]
    · rw [hc.command_new, Forest.key_insert, Function.update_self]
  · intro s b hb
    rw [hc.allocated]
    rcases Forest.mem_kids_insert.1 hb with hb | ⟨rfl, rfl⟩
    · exact Nat.lt_succ_of_lt (h.lt hb)
    · exact Nat.lt_succ_self _
  · intro b hb
    rw [hc.allocated] at hb
    have hrb : HeadRef.child b ≠ r := fun heq => by
      have := hr b heq.symm
      omega
    exact (Function.update_of_ne hrb _ _).trans (h.leaf (by omega))

end Registry

end Opennop
