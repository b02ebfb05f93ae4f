import Opennop.Cli.Menus

/-!
# Dispatch of a line

For commands none of which begins another, `execute_commands` runs the handler of the command with
which a line begins, and no other handler; the order in which the commands were registered does not
matter.
-/

namespace Opennop

/-- The arguments of a call of `register_command`, apart from the mode. -/
structure Registration (H : Type) where
  name : List Char
  handler : H
  hasparams : Bool

section Dispatch

variable {M H : Type}

/-- Calls of `register_command`. -/
def registerAll [DecidableEq M] (cli : Cli M H) : List (Option M × Registration H) → Exec (Cli M H)
  | [] => .ok cli
  | (mode, c) :: l => do
    let cli ← registerCommand cli mode c.name (some c.handler) c.hasparams
    registerAll cli l

/-- The commands that are registered in a mode, in the order of the calls. -/
def commandsOf [DecidableEq M] (mode : Option M) (l : List (Option M × Registration H)) :
    List (Registration H) :=
  (l.filter (·.1 = mode)).map Prod.snd

theorem commandsOf_cons [DecidableEq M] (m mode : Option M) (c : Registration H)
    (l : List (Option M × Registration H)) :
    commandsOf m ((mode, c) :: l) = if mode = m then c :: commandsOf m l else commandsOf m l := by
  by_cases hm : mode = m
  · simp [commandsOf, hm]
  · simp [commandsOf, hm]

/-! ## The menu of a list of commands -/

def Menu.register (T : Menu H) (c : Registration H) : Menu H :=
  T.add (tokens c.name) (some c.handler, c.hasparams)

/-- What a list of commands leaves in a menu that was empty. -/
def menuOf (cmds : List (Registration H)) : Menu H := cmds.foldl Menu.register fun _ => none

theorem registerAll_menu [DecidableEq M] {l : List (Option M × Registration H)} :
    ∀ {cli : Cli M H} {F : Forest (HeadRef M) Nat Token}, Stores cli F →
      ∃ cli' F', registerAll cli l = .ok cli' ∧ Stores cli' F' ∧
        ∀ m, menu cli' F' m = (commandsOf m l).foldl Menu.register (menu cli F m) := by
  induction l with
  | nil =>
    intro cli F h
    exact ⟨cli, F, rfl, h, fun _ => rfl⟩
  | cons e l ih =>
    intro cli F h
    obtain ⟨mode, c⟩ := e
    obtain ⟨cli₁, F₁, hcli₁, h₁, hmenu₁⟩ :=
      h.registerCommand mode c.name (some c.handler) c.hasparams
    obtain ⟨cli', F', hcli', h', hmenu'⟩ := ih h₁
    refine ⟨cli', F', bind_eq_ok.2 ⟨cli₁, hcli₁, hcli'⟩, h', fun m => ?_⟩
    rw [hmenu', hmenu₁]
    by_cases hm : m = mode
    · subst hm
      rw [if_pos rfl, commandsOf_cons, if_pos rfl]
      rfl
    · rw [if_neg hm, commandsOf_cons, if_neg (Ne.symm hm)]

def emptyForest : Forest (HeadRef M) Nat Token where
  kids _ := []
  key _ := []
  child := .child
  child_injective _ _ h := HeadRef.child.inj h
  nodup_keys _ := List.nodup_nil
  place_unique h := absurd h List.not_mem_nil

theorem stores_empty : Stores ({} : Cli M H) emptyForest where
  child _ := rfl
  list r := by
    cases r <;> exact DList.nil _ _
  key h := absurd h List.not_mem_nil
  lt h := absurd h List.not_mem_nil
  leaf _ := rfl

/-- **After a run of registrations, the menu of a mode is that of its commands.** -/
theorem exists_registerAll [DecidableEq M] (l : List (Option M × Registration H)) :
    ∃ cli F, registerAll {} l = .ok cli ∧ Stores cli F ∧
      ∀ m, menu cli F m = menuOf (commandsOf m l) := by
  obtain ⟨cli, F, hcli, h, hmenu⟩ := registerAll_menu (l := l) (stores_empty (M := M) (H := H))
  refine ⟨cli, F, hcli, h, fun m => ?_⟩
  have hempty : menu ({} : Cli M H) emptyForest m = fun _ => none := by
    funext p
    by_contra hsome
    obtain ⟨hp, r, hr⟩ := stores_empty.menu_ne_none.1 hsome
    cases p with
    | nil => exact hp rfl
    | cons t p =>
      obtain ⟨a, ha, -⟩ := Forest.reach_cons.1 hr
      exact absurd (Forest.step_eq_some.1 ha).1 List.not_mem_nil
  rw [hmenu, hempty]
  rfl

theorem menuOf_concat (cmds : List (Registration H)) (c : Registration H) :
    menuOf (cmds ++ [c]) = (menuOf cmds).register c := by
  simp [menuOf]

/-- A menu has the commands and what is on the way to them. -/
theorem menuOf_ne_none {cmds : List (Registration H)} {p : List Token} :
    menuOf cmds p ≠ none ↔ p ≠ [] ∧ ∃ c ∈ cmds, p <+: tokens c.name := by
  induction cmds using List.reverseRecOn with
  | nil => simp [menuOf]
  | append_singleton cmds c ih =>
    rw [menuOf_concat, Menu.register, Menu.add_ne_none, ih]
    constructor
    · rintro (⟨hp, hpre⟩ | ⟨hp, d, hd, hpre⟩)
      · exact ⟨hp, c, by simp, hpre⟩
      · exact ⟨hp, d, List.mem_append_left _ hd, hpre⟩
    · rintro ⟨hp, d, hd, hpre⟩
      rcases List.mem_append.1 hd with hd | hd
      · exact .inr ⟨hp, d, hd, hpre⟩
      · cases List.mem_singleton.1 hd
        exact .inl ⟨hp, hpre⟩

theorem menuOf_eq {cmds : List (Registration H)} {c : Registration H}
    (hdistinct : (cmds.map fun c => tokens c.name).Nodup) (hc : c ∈ cmds)
    (hne : tokens c.name ≠ []) :
    menuOf cmds (tokens c.name) = some (some c.handler, c.hasparams) := by
  induction cmds using List.reverseRecOn with
  | nil => cases hc
  | append_singleton cmds d ih =>
    rw [List.map_append, List.nodup_append] at hdistinct
    obtain ⟨hdistinct, -, hlast⟩ := hdistinct
    rw [menuOf_concat, Menu.register]
    rcases List.mem_append.1 hc with hc | hc
    · have hcd := hlast _ (List.mem_map_of_mem hc) _ List.mem_cons_self
      have hsome := ih hdistinct hc
      rw [Menu.add_of_ne hcd (by simp [hsome]), hsome]
    · cases List.mem_singleton.1 hc
      exact Menu.add_self hne

/-! ## Parameters -/

theorem loop_parameterPass {ts : List Token} :
    ∀ {token : Token} {saved : List Char} {parameters : List Token} {n : Nat}, tokens saved = ts →
      ts.length + 1 < n →
      ∃ saved', loop parameterPass n (some token, saved, parameters) =
        .ok (saved', parameters ++ ts) ∧ tokens saved' = [] := by
  induction ts with
  | nil =>
    intro token saved parameters n hsaved hn
    obtain ⟨n, rfl⟩ : ∃ k, n = k + 2 := ⟨n - 2, by simp at hn; omega⟩
    obtain ⟨saved', hstrtok, hend⟩ := strtokR_nil hsaved
    refine ⟨saved', ?_, hend⟩
    have hpass : parameterPass (some token, saved, parameters) =
        .ok (.again (none, saved', parameters)) := by
      simp only [parameterPass, hstrtok]
    rw [loop_again hpass, List.append_nil]
    exact loop_done rfl
  | cons t ts ih =>
    intro token saved parameters n hsaved hn
    obtain ⟨n, rfl⟩ : ∃ k, n = k + 1 := ⟨n - 1, by omega⟩
    obtain ⟨saved₁, hstrtok, hrest⟩ := strtokR_cons hsaved
    have hpass : parameterPass (some token, saved, parameters) =
        .ok (.again (some t, saved₁, parameters ++ [t])) := by
      simp only [parameterPass, hstrtok]
    obtain ⟨saved', hloop, hend⟩ := ih (n := n) hrest (by simp at hn; omega)
    refine ⟨saved', ?_, hend⟩
    rw [loop_again hpass, List.append_cons parameters t ts]
    exact hloop

/-- **All remaining tokens become parameters, in their order.** -/
theorem collectParameters_eq (saved : List Char) :
    ∃ saved', collectParameters saved = .ok (saved', tokens saved) ∧ tokens saved' = [] := by
  unfold collectParameters
  cases hts : tokens saved with
  | nil =>
    obtain ⟨saved', hstrtok, hend⟩ := strtokR_nil hts
    rw [hstrtok]
    exact ⟨saved', loop_done rfl, hend⟩
  | cons t ts =>
    obtain ⟨saved₁, hstrtok, hrest⟩ := strtokR_cons hts
    rw [hstrtok]
    have hlength := length_tokens_le saved₁
    rw [hrest] at hlength
    exact loop_parameterPass hrest (by omega)

/-! ## Execution -/

/-- Nonempty token sequences without the two words for help, all different and none the beginning of
another. -/
structure Unambiguous (cmds : List (Registration H)) : Prop where
  nonempty : ∀ c ∈ cmds, tokens c.name ≠ []
  distinct : (cmds.map fun c => tokens c.name).Nodup
  prefix_free : ∀ c ∈ cmds, ∀ d ∈ cmds, tokens c.name <+: tokens d.name →
    tokens c.name = tokens d.name
  no_help : ∀ c ∈ cmds, ['h', 'e', 'l', 'p'] ∉ tokens c.name ∧ ['?'] ∉ tokens c.name

/-- The handlers that have to run for the words of a line: that of the command with which they
begin, with the words behind it if it takes parameters, or none. -/
structure Dispatched (cmds : List (Registration H)) (words : List Token)
    (calls : List (H × List Token)) : Prop where
  run : ∀ c ∈ cmds, tokens c.name <+: words →
    calls = [(c.handler, if c.hasparams then words.drop (tokens c.name).length else [])]
  idle : (∀ c ∈ cmds, ¬ tokens c.name <+: words) → calls = []

theorem Unambiguous.unique {cmds : List (Registration H)} (hu : Unambiguous cmds)
    {c d : Registration H} (hc : c ∈ cmds) (hd : d ∈ cmds) {words : List Token}
    (hcw : tokens c.name <+: words) (hdw : tokens d.name <+: words) : c = d := by
  have heq : tokens c.name = tokens d.name := by
    rcases List.prefix_or_prefix_of_prefix hcw hdw with h | h
    · exact hu.prefix_free c hc d hd h
    · exact (hu.prefix_free d hd c hc h).symm
  exact List.inj_on_of_nodup_map hu.distinct hc hd heq

section Execute

variable {cli : Cli M H} {F : Forest (HeadRef M) Nat Token} {mode : Option M}
  {cmds : List (Registration H)}

/-- A command has children if a registered sequence of tokens goes on behind it. -/
theorem Stores.child_iff (h : Stores cli F) {p : List Token} {a : Nat}
    (ha : F.reach (modeHead mode) p = some (.child a)) :
    (cli.commands a).child.next ≠ none ↔ ∃ u, menu cli F mode (p ++ [u]) ≠ none := by
  rw [show (cli.commands a).child = cli.head (.child a) from rfl, Ne, h.next_eq_none_iff]
  constructor
  · intro hkids
    obtain ⟨b, hb⟩ := List.exists_mem_of_ne_nil _ hkids
    refine ⟨F.key b, h.menu_ne_none.2 ⟨by simp, F.child b, ?_⟩⟩
    exact Forest.reach_concat.2 ⟨_, b, ha, Forest.step_eq_some.2 ⟨hb, rfl⟩, rfl⟩
  · rintro ⟨u, hu⟩
    obtain ⟨-, r, hr⟩ := h.menu_ne_none.1 hu
    obtain ⟨s, b, hs, hb, -⟩ := Forest.reach_concat.1 hr
    cases Option.some.inj (ha.symm.trans hs)
    exact List.ne_nil_of_mem (Forest.step_eq_some.1 hb).1

/-- The loop over the commands of a node runs the handler of the command at which it starts. -/
theorem loop_callPass {a : Nat} {t : Token} {handler : H} (ha : a < cli.allocated)
    (hcommand : (cli.commands a).command = t)
    (hhandler : (cli.commands a).commandHandler = some handler)
    (saved : List Char) :
    ∃ c, loop (callPass cli) (cli.allocated + 1) ⟨some t, saved, some a, false, []⟩ = .ok c ∧
      c.executed = true ∧
      c.calls = [(handler, if (cli.commands a).hasparams then tokens saved else [])] := by
  obtain ⟨k, hk⟩ : ∃ k, cli.allocated = k + 1 := ⟨cli.allocated - 1, by omega⟩
  rw [hk]
  by_cases hparams : (cli.commands a).hasparams = true
  · obtain ⟨saved', hcollect, -⟩ := collectParameters_eq saved
    have hpass : callPass cli ⟨some t, saved, some a, false, []⟩ =
        .ok (.again ⟨none, saved', (cli.commands a).next, true, [(handler, tokens saved)]⟩) := by
      simp only [callPass, hcommand, hhandler, hparams, hcollect, decide_true, if_true, ok_bind,
        List.nil_append]
      rfl
    refine ⟨_, (loop_again hpass).trans (loop_done rfl), rfl, ?_⟩
    rw [if_pos hparams]
  · have hpass : callPass cli ⟨some t, saved, some a, false, []⟩ =
        .ok (.again ⟨some t, saved, (cli.commands a).next, true, [(handler, [])]⟩) := by
      simp [callPass, hcommand, hhandler, hparams]
    refine ⟨_, (loop_again hpass).trans (loop_done rfl), rfl, ?_⟩
    rw [if_neg hparams]

theorem executePass_executed (token : Option Token) (saved : List Char) (r : HeadRef M)
    (calls : List (H × List Token)) :
    executePass cli ⟨token, saved, r, true, calls⟩ = .ok (.done { calls }) := by
  cases token <;> rfl

theorem exists_registered (h : Stores cli F) (hmenu : menu cli F mode = menuOf cmds)
    {p : List Token} {a : Nat} (ha : F.reach (modeHead mode) p = some (.child a)) (hp : p ≠ [])
    (hleaf : (cli.commands a).child.next = none) : ∃ c ∈ cmds, tokens c.name = p := by
  have hsome : menuOf cmds p ≠ none := hmenu ▸ h.menu_ne_none.2 ⟨hp, _, ha⟩
  obtain ⟨-, c, hc, q, hq⟩ := menuOf_ne_none.1 hsome
  refine ⟨c, hc, ?_⟩
  cases q with
  | nil => rw [← hq, List.append_nil]
  | cons u q =>
    have hchild : ∃ u, menu cli F mode (p ++ [u]) ≠ none :=
      ⟨u, hmenu ▸ menuOf_ne_none.2 ⟨by simp, c, hc, q, by rw [← hq, List.append_assoc]; rfl⟩⟩
    exact absurd hleaf ((h.child_iff ha).2 hchild)

/-- No command ends where another one goes on. -/
theorem not_prefix_of_child (h : Stores cli F) (hmenu : menu cli F mode = menuOf cmds)
    (hu : Unambiguous cmds) {p : List Token} {a : Nat}
    (ha : F.reach (modeHead mode) p = some (.child a))
    (hchild : (cli.commands a).child.next ≠ none) : ∀ c ∈ cmds, ¬ tokens c.name <+: p := by
  intro c hc hpre
  obtain ⟨u, hmore⟩ := (h.child_iff ha).1 hchild
  rw [hmenu] at hmore
  obtain ⟨-, e, he, hue⟩ := menuOf_ne_none.1 hmore
  have heq := hu.prefix_free c hc e he ((hpre.trans (List.prefix_append _ [u])).trans hue)
  have hle := hpre.length_le
  have hlt := hue.length_le
  rw [heq] at hle
  rw [List.length_append, List.length_singleton] at hlt
  omega

theorem executePass_leaf (h : Stores cli F) (hmenu : menu cli F mode = menuOf cmds)
    (hu : Unambiguous cmds) {d : List Token} {r : HeadRef M} {t : Token} {a : Nat}
    (hd : F.reach (modeHead mode) d = some r) (hstep : F.step r t = some a)
    (hhelp : ¬ (t = ['h', 'e', 'l', 'p'] ∨ t = ['?'])) (hleaf : (cli.commands a).child.next = none)
    (saved : List Char) :
    ∃ c ∈ cmds, tokens c.name = d ++ [t] ∧ ∃ token' saved',
      executePass cli ⟨some t, saved, r, false, []⟩ = .ok (.again
        ⟨token', saved', r, true, [(c.handler, if c.hasparams then tokens saved else [])]⟩) := by
  have hreach : F.reach (modeHead mode) (d ++ [t]) = some (.child a) :=
    Forest.reach_concat.2 ⟨r, a, hd, hstep, h.child a⟩
  obtain ⟨c, hc, hcd⟩ := exists_registered h hmenu hreach (by simp) hleaf
  have hdata := menuOf_eq hu.distinct hc (hu.nonempty c hc)
  rw [hcd, ← hmenu] at hdata
  obtain ⟨b, hb, hv⟩ := menu_eq_some.1 hdata
  cases Option.some.inj (hreach.symm.trans hb)
  obtain ⟨hhandler, hparams⟩ := Prod.mk.inj hv
  have hkey := Forest.step_eq_some.1 hstep
  obtain ⟨call, hcall, hexecuted, hcalls⟩ := loop_callPass (h.lt hkey.1)
    ((h.key hkey.1).trans hkey.2) hhandler saved
  rw [hparams] at hcalls
  refine ⟨c, hc, hcd, (strtokR call.savedToken).1, (strtokR call.savedToken).2, ?_⟩
  rw [← hcalls, ← hexecuted]
  refine (if_neg hhelp).trans ?_
  rw [h.findCommand_eq, hstep, ok_bind]
  refine (if_neg (not_not.2 hleaf)).trans ?_
  exact bind_eq_ok.2 ⟨call, hcall, rfl⟩

/-- **The loop of `execute_commands`**, for a line whose words `d` have led to `r` and whose words
`ts` are left. -/
theorem loop_executePass (h : Stores cli F) (hmenu : menu cli F mode = menuOf cmds)
    (hu : Unambiguous cmds) {ts : List Token} :
    ∀ {d : List Token} {r : HeadRef M} {token : Option Token} {saved : List Char} {n : Nat},
      F.reach (modeHead mode) d = some r → (∀ c ∈ cmds, ¬ tokens c.name <+: d) → token = ts.head? →
      tokens saved = ts.tail → ts.length < n →
      ∃ out, loop (executePass cli) n ⟨token, saved, r, false, []⟩ = .ok out ∧
        Dispatched cmds (d ++ ts) out.calls := by
  induction ts with
  | nil =>
    intro d r token saved n hd hnot htoken _ hn
    obtain ⟨n, rfl⟩ : ∃ k, n = k + 1 := ⟨n - 1, by simp at hn; omega⟩
    cases htoken
    refine ⟨_, loop_done rfl, ?_⟩
    rw [List.append_nil]
    exact ⟨fun c hc hpre => absurd hpre (hnot c hc), fun _ => rfl⟩
  | cons t ts ih =>
    intro d r token saved n hd hnot htoken hsaved hn
    obtain ⟨n, rfl⟩ : ∃ k, n = k + 2 := ⟨n - 2, by simp at hn; omega⟩
    cases htoken
    -- a command with which the line begins goes on with `t`
    have hlong : ∀ c ∈ cmds, tokens c.name <+: d ++ t :: ts → d ++ [t] <+: tokens c.name := by
      intro c hc hpre
      have hdt : d ++ [t] <+: d ++ t :: ts := by simp
      rcases List.prefix_or_prefix_of_prefix hpre hdt with hle | hle
      · rcases List.prefix_concat_iff.1 hle with heq | hle
        · exact ⟨[], by rw [List.append_nil, heq]⟩
        · exact absurd hle (hnot c hc)
      · exact hle
    by_cases hhelp : t = ['h', 'e', 'l', 'p'] ∨ t = ['?']
    · refine ⟨_, loop_done (if_pos hhelp), fun c hc hpre => ?_, fun _ => rfl⟩
      have ht : t ∈ tokens c.name := (hlong c hc hpre).subset (by simp)
      rcases hhelp with rfl | rfl
      · exact absurd ht (hu.no_help c hc).1
      · exact absurd ht (hu.no_help c hc).2
    cases hstep : F.step r t with
    | none =>
      have hpass : executePass cli ⟨some t, saved, r, false, []⟩ =
          .ok (.done { calls := [], help := some r }) := by
        refine (if_neg hhelp).trans ?_
        rw [h.findCommand_eq, hstep]
        rfl
      refine ⟨_, loop_done hpass, fun c hc hpre => ?_, fun _ => rfl⟩
      have hnone := h.menu_concat_eq_none hd hstep
      rw [hmenu] at hnone
      exact absurd hnone (menuOf_ne_none.2 ⟨by simp, c, hc, hlong c hc hpre⟩)
    | some a =>
      rw [List.append_cons d t ts]
      by_cases hchild : (cli.commands a).child.next = none
      · obtain ⟨c, hc, hcd, token', saved', hpass⟩ :=
          executePass_leaf h hmenu hu hd hstep hhelp hchild saved
        rw [hsaved, List.tail_cons] at hpass
        have hcw : tokens c.name <+: d ++ [t] ++ ts := hcd ▸ List.prefix_append _ _
        refine ⟨_, (loop_again hpass).trans (loop_done (executePass_executed _ _ _ _)), ?_, ?_⟩
        · intro e he hpre
          obtain rfl := hu.unique he hc hpre hcw
          rw [hcd, List.drop_left]
        · exact fun hidle => absurd hcw (hidle c hc)
      · have hreach : F.reach (modeHead mode) (d ++ [t]) = some (.child a) :=
          Forest.reach_concat.2 ⟨r, a, hd, hstep, h.child a⟩
        have hpass : executePass cli ⟨some t, saved, r, false, []⟩ =
            .ok (.again ⟨(strtokR saved).1, (strtokR saved).2, .child a, false, []⟩) := by
          refine (if_neg hhelp).trans ?_
          rw [h.findCommand_eq, hstep, ok_bind]
          exact if_pos hchild
        obtain ⟨hhead, htail⟩ := strtokR_spec saved
        rw [hsaved, List.tail_cons] at hhead htail
        obtain ⟨out, hloop, hout⟩ := ih (n := n + 1) hreach
          (not_prefix_of_child h hmenu hu hreach hchild) hhead htail (by simp at hn; omega)
        exact ⟨out, (loop_again hpass).trans hloop, hout⟩

/-- **`execute_commands` dispatches a line.** -/
theorem Stores.executeCommands (h : Stores cli F) (hmenu : menu cli F mode = menuOf cmds)
    (hu : Unambiguous cmds) (line : List Char) :
    ∃ out, Opennop.executeCommands cli mode line = .ok out ∧
      Dispatched cmds (tokens line) out.calls := by
  by_cases hnext : (cli.head (modeHead mode)).next = none
  · -- a mode without commands
    refine ⟨{}, if_pos hnext, fun c hc => ?_, fun _ => rfl⟩
    obtain ⟨t, ts, hts⟩ := List.exists_cons_of_ne_nil (hu.nonempty c hc)
    have hsome : menuOf cmds [t] ≠ none := menuOf_ne_none.2 ⟨by simp, c, hc, ts, hts.symm⟩
    rw [← hmenu] at hsome
    obtain ⟨-, r, hr⟩ := h.menu_ne_none.1 hsome
    obtain ⟨a, ha, -⟩ := Forest.reach_cons.1 hr
    rw [Forest.step_eq_some, (h.next_eq_none_iff _).1 hnext] at ha
    exact absurd ha.1 List.not_mem_nil
  · obtain ⟨hhead, htail⟩ := strtokR_spec line
    have hlength := length_tokens_le line
    have hnot : ∀ c ∈ cmds, ¬ tokens c.name <+: [] := fun c hc hpre =>
      hu.nonempty c hc (List.prefix_nil.1 hpre)
    obtain ⟨out, hloop, hout⟩ :=
      loop_executePass h hmenu hu (n := line.length + 2) Forest.reach_nil hnot
      hhead htail (by omega)
    exact ⟨out, (if_neg hnext).trans hloop, hout⟩

end Execute

theorem Dispatched.calls_unique {cmds : List (Registration H)} {words : List Token}
    {calls calls' : List (H × List Token)} (h : Dispatched cmds words calls)
    (h' : Dispatched cmds words calls') : calls = calls' := by
  by_cases hrun : ∃ c ∈ cmds, tokens c.name <+: words
  · obtain ⟨c, hc, hpre⟩ := hrun
    rw [h.run c hc hpre, h'.run c hc hpre]
  · have hidle : ∀ c ∈ cmds, ¬ tokens c.name <+: words := fun c hc hpre => hrun ⟨c, hc, hpre⟩
    rw [h.idle hidle, h'.idle hidle]

theorem Unambiguous.perm {cmds cmds' : List (Registration H)} (hu : Unambiguous cmds)
    (hp : cmds'.Perm cmds) : Unambiguous cmds' where
  nonempty c hc := hu.nonempty c (hp.mem_iff.1 hc)
  distinct := (hp.map _).nodup_iff.2 hu.distinct
  prefix_free c hc d hd := hu.prefix_free c (hp.mem_iff.1 hc) d (hp.mem_iff.1 hd)
  no_help c hc := hu.no_help c (hp.mem_iff.1 hc)

theorem Dispatched.perm {cmds cmds' : List (Registration H)} {words : List Token}
    {calls : List (H × List Token)} (h : Dispatched cmds' words calls) (hp : cmds'.Perm cmds) :
    Dispatched cmds words calls where
  run c hc := h.run c (hp.mem_iff.2 hc)
  idle hidle := h.idle fun c hc => hidle c (hp.mem_iff.1 hc)

theorem exists_dispatched [DecidableEq M] (l : List (Option M × Registration H)) (mode : Option M)
    (hu : Unambiguous (commandsOf mode l)) (line : List Char) :
    ∃ cli out, registerAll {} l = .ok cli ∧ executeCommands cli mode line = .ok out ∧
      Dispatched (commandsOf mode l) (tokens line) out.calls := by
  obtain ⟨cli, F, hcli, h, hmenu⟩ := exists_registerAll l
  obtain ⟨out, hout, hdispatched⟩ := h.executeCommands (hmenu mode) hu line
  exact ⟨cli, out, hcli, hout, hdispatched⟩

end Dispatch

/-- **Dispatch matches registration.** For every run of registrations, in which the commands of a
mode are unambiguous, and every line: the handler of the command with which the line begins is run,
with the rest of the line if it takes parameters, and no other handler; and so it is for every other
order of the registrations. -/
theorem executeCommands_dispatch {M H : Type} [DecidableEq M] (l : List (Option M × Registration H))
    (mode : Option M) (hu : Unambiguous (commandsOf mode l)) (line : List Char) :
    ∃ cli out, registerAll {} l = .ok cli ∧ executeCommands cli mode line = .ok out ∧
      Dispatched (commandsOf mode l) (tokens line) out.calls ∧
      ∀ l', l'.Perm l → ∃ cli' out', registerAll {} l' = .ok cli' ∧
        executeCommands cli' mode line = .ok out' ∧ out'.calls = out.calls := by
  obtain ⟨cli, out, hcli, hout, hdispatched⟩ := exists_dispatched l mode hu line
  refine ⟨cli, out, hcli, hout, hdispatched, fun l' hl' => ?_⟩
  have hperm : (commandsOf mode l').Perm (commandsOf mode l) := (hl'.filter _).map _
  obtain ⟨cli', out', hcli', hout', hdispatched'⟩ := exists_dispatched l' mode (hu.perm hperm) line
  exact ⟨cli', out', hcli', hout', (hdispatched'.perm hperm).calls_unique hdispatched⟩

/-! ### Some commands of the daemon -/

inductive KeyHandler where
  | cliSetKey
  | cliShowKey
  | cliShowParams
  deriving DecidableEq

/-- Two registrations in the global mode, with one in the test mode between them. -/
def keyRegistrations : List (Option Unit × Registration KeyHandler) :=
  [(none, ⟨['k', 'e', 'y'], .cliSetKey, true⟩),
    (some (), ⟨['s', 'h', 'o', 'w', ' ', 'p', 'a', 'r', 'a', 'm', 'e', 't', 'e', 'r', 's'],
      .cliShowParams, true⟩),
    (none, ⟨['s', 'h', 'o', 'w', ' ', 'k', 'e', 'y'], .cliShowKey, false⟩)]

theorem tokens_key : tokens ['k', 'e', 'y'] = [['k', 'e', 'y']] := by decide

theorem tokens_showKey :
    tokens ['s', 'h', 'o', 'w', ' ', 'k', 'e', 'y'] = [['s', 'h', 'o', 'w'], ['k', 'e', 'y']] := by
  decide

theorem unambiguous_key : Unambiguous (commandsOf none keyRegistrations) := by
  have hcommands : commandsOf none keyRegistrations =
      [⟨['k', 'e', 'y'], .cliSetKey, true⟩,
        ⟨['s', 'h', 'o', 'w', ' ', 'k', 'e', 'y'], .cliShowKey, false⟩] := rfl
  rw [hcommands]
  constructor
  all_goals simp [tokens_key, tokens_showKey]

/-- The line `key  1 2` sets the key. -/
theorem executeCommands_key :
    Unambiguous (commandsOf none keyRegistrations) ∧
    ∃ cli out, registerAll {} keyRegistrations = .ok cli ∧
      executeCommands cli none ['k', 'e', 'y', ' ', ' ', '1', ' ', '2'] = .ok out ∧
      out.calls = [(.cliSetKey, [['1'], ['2']])] := by
  obtain ⟨cli, out, hcli, hout, hdispatched, -⟩ := executeCommands_dispatch keyRegistrations none
    unambiguous_key ['k', 'e', 'y', ' ', ' ', '1', ' ', '2']
  refine ⟨unambiguous_key, cli, out, hcli, hout, ?_⟩
  exact hdispatched.run ⟨['k', 'e', 'y'], .cliSetKey, true⟩ List.mem_cons_self (by decide)

end Opennop
