import Opennop.Cli.Registry

/-!
# What registration builds

What the tree of commands holds for a mode is a menu: a map from sequences of tokens to the handler
registered for them. `register_command` adds the sequence of a name to the menu of its mode, with
the sequences on the way to it, and changes no other menu.
-/

namespace Opennop

section Menus

variable {M H : Type} {cli : Cli M H} {F : Forest (HeadRef M) Nat Token}

/-! ## Menus -/

/-- What is registered for each sequence of tokens: the handler, if there is one, and whether it
takes parameters. -/
abbrev Menu (H : Type) := List Token → Option (Option H × Bool)

def menu (cli : Cli M H) (F : Forest (HeadRef M) Nat Token) (mode : Option M) : Menu H := fun p =>
  match F.reach (modeHead mode) p with
  | some (.child a) => some ((cli.commands a).commandHandler, (cli.commands a).hasparams)
  | _ => none

/-- Menus get the commands on the way to a sequence of tokens. -/
def Menu.open (T : Menu H) (q : List Token) : Menu H := fun p =>
  if p ≠ [] ∧ p <+: q ∧ T p = none then some (none, false) else T p

/-- Menus get a command. -/
def Menu.add (T : Menu H) (q : List Token) (v : Option H × Bool) : Menu H := fun p =>
  if q ≠ [] ∧ p = q then some v else T.open q p

namespace Menu

variable {T : Menu H} {p q : List Token} {v : Option H × Bool}

theorem add_self (hq : q ≠ []) : T.add q v q = some v := if_pos ⟨hq, rfl⟩

theorem add_of_ne (hp : p ≠ q) (hT : T p ≠ none) : T.add q v p = T p := by
  rw [add, if_neg fun h => hp h.2, Menu.open, if_neg fun h => hT h.2.2]

theorem add_ne_none : T.add q v p ≠ none ↔ p ≠ [] ∧ p <+: q ∨ T p ≠ none := by
  unfold add Menu.open
  by_cases hq : q ≠ [] ∧ p = q
  · obtain ⟨hq, rfl⟩ := hq
    simp [hq]
  · rw [if_neg hq]
    split
    · rename_i h
      simp [h.1, h.2.1]
    · rename_i h
      constructor
      · exact .inr
      · rintro (⟨hp, hpre⟩ | hT)
        · exact fun hnone => h ⟨hp, hpre, hnone⟩
        · exact hT

end Menu

theorem menu_eq_some {mode : Option M} {p : List Token} {v : Option H × Bool} :
    menu cli F mode p = some v ↔ ∃ a, F.reach (modeHead mode) p = some (.child a) ∧
      ((cli.commands a).commandHandler, (cli.commands a).hasparams) = v := by
  unfold menu
  cases hreach : F.reach (modeHead mode) p with
  | none => simp
  | some r =>
    cases r with
    | globalmode => simp
    | mode m => simp
    | child a => simp

theorem Stores.reach_cases (h : Stores cli F) {mode : Option M} {p : List Token}
    {r : HeadRef M} (hr : F.reach (modeHead mode) p = some r) :
    p = [] ∧ r = modeHead mode ∨ p ≠ [] ∧ ∃ a, r = .child a ∧ a < cli.allocated := by
  cases p using List.reverseRecOn with
  | nil => exact .inl ⟨rfl, (Option.some.inj hr).symm⟩
  | append_singleton p t =>
    obtain ⟨s, a, -, hstep, ha⟩ := Forest.reach_concat.1 hr
    rw [h.child] at ha
    exact .inr ⟨by simp, a, ha.symm, h.lt (Forest.step_eq_some.1 hstep).1⟩

theorem Stores.menu_ne_none (h : Stores cli F) {mode : Option M} {p : List Token} :
    menu cli F mode p ≠ none ↔ p ≠ [] ∧ ∃ r, F.reach (modeHead mode) p = some r := by
  rw [Option.ne_none_iff_exists']
  constructor
  · rintro ⟨v, hv⟩
    obtain ⟨a, ha, -⟩ := menu_eq_some.1 hv
    refine ⟨?_, _, ha⟩
    rintro rfl
    exact modeHead_ne_child mode a (Option.some.inj ha).symm
  · rintro ⟨hp, r, hr⟩
    rcases h.reach_cases hr with ⟨hnil, -⟩ | ⟨-, a, rfl, -⟩
    · exact absurd hnil hp
    · exact ⟨_, menu_eq_some.2 ⟨a, hr, rfl⟩⟩

variable [DecidableEq M]

theorem Stores.reach_created (h : Stores cli F) {mode : Option M} {d : List Token}
    {r : HeadRef M} {token : Token} (hd : F.reach (modeHead mode) d = some r)
    (hfree : ∀ s, cli.allocated ∉ F.kids s) (hk : F.step r token = none) {m : Option M}
    {p : List Token} {x : HeadRef M} :
    (F.insert r cli.allocated token hfree hk).reach (modeHead m) p = some x ↔
      F.reach (modeHead m) p = some x ∨ (m = mode ∧ p = d ++ [token]) ∧
        x = .child cli.allocated := by
  have hne : F.child cli.allocated ≠ r := fun heq => by
    rw [h.child] at heq
    exact Nat.lt_irrefl _ (h.reach_live (heq ▸ hd))
  have hleaf : F.kids (F.child cli.allocated) = [] := by
    rw [h.child]
    exact h.leaf (Nat.le_refl _)
  rw [Forest.reach_insert hleaf hne, h.child]
  refine or_congr Iff.rfl ⟨?_, ?_⟩
  · rintro ⟨q, rfl, hq, hx⟩
    obtain ⟨hm, rfl⟩ := Forest.reach_injective (h.isRoot m) (h.isRoot mode) hq hd
    exact ⟨⟨modeHead_injective hm, rfl⟩, hx⟩
  · rintro ⟨⟨rfl, rfl⟩, hx⟩
    exact ⟨d, rfl, hd, hx⟩

omit [DecidableEq M] in
theorem Stores.menu_concat_eq_none (h : Stores cli F) {mode : Option M} {d : List Token}
    {r : HeadRef M} {token : Token} (hd : F.reach (modeHead mode) d = some r)
    (hstep : F.step r token = none) : menu cli F mode (d ++ [token]) = none := by
  by_contra hsome
  obtain ⟨-, x, hx⟩ := h.menu_ne_none.1 hsome
  obtain ⟨s, a, hs, ha, -⟩ := Forest.reach_concat.1 hx
  cases Option.some.inj (hd.symm.trans hs)
  rw [hstep] at ha
  cases ha

/-- **Creating a command adds one sequence of tokens to one menu.** -/
theorem menu_created (h : Stores cli F) {cli' : Cli M H} {mode : Option M} {d : List Token}
    {r : HeadRef M} {token : Token} (hd : F.reach (modeHead mode) d = some r)
    (hc : Created cli cli' r token) (hfree : ∀ s, cli.allocated ∉ F.kids s)
    (hk : F.step r token = none) (m : Option M) (p : List Token) :
    menu cli' (F.insert r cli.allocated token hfree hk) m p =
      if m = mode ∧ p = d ++ [token] then some (none, false) else menu cli F m p := by
  by_cases hnew : m = mode ∧ p = d ++ [token]
  · rw [if_pos hnew]
    exact menu_eq_some.2 ⟨cli.allocated, (h.reach_created hd hfree hk).2 (.inr ⟨hnew, rfl⟩),
      Prod.ext hc.data_new.1 hc.data_new.2⟩
  · rw [if_neg hnew]
    apply Option.ext
    intro v
    rw [menu_eq_some, menu_eq_some]
    refine exists_congr fun a => ?_
    rw [h.reach_created hd hfree hk, or_iff_left fun hor => hnew hor.1]
    refine and_congr_right fun ha => ?_
    obtain ⟨hhandler, hparams⟩ := hc.data a (Nat.ne_of_lt (h.reach_live ha))
    rw [hhandler, hparams]

/-! ## Registration -/

omit [DecidableEq M] in
theorem menu_open_self (T : Menu H) {d : List Token} (hd : ∀ p, p ≠ [] → p <+: d → T p ≠ none) :
    T.open d = T := by
  funext p
  unfold Menu.open
  rw [if_neg]
  rintro ⟨hp, hpre, hnone⟩
  exact hd p hp hpre hnone

omit [DecidableEq M] in
theorem menu_open_open (T : Menu H) {q q' : List Token} (hq : q <+: q') :
    (T.open q).open q' = T.open q' := by
  funext p
  unfold Menu.open
  by_cases hp : p ≠ [] ∧ p <+: q ∧ T p = none
  · rw [if_pos hp, if_neg (by simp), if_pos ⟨hp.1, hp.2.1.trans hq, hp.2.2⟩]
  · rw [if_neg hp]

omit [DecidableEq M] in
/-- Every sequence on the way to a registered one is registered. -/
theorem Stores.menu_on_way (h : Stores cli F) {mode : Option M} {d p : List Token}
    {r : HeadRef M} (hd : F.reach (modeHead mode) d = some r) (hp : p ≠ []) (hpre : p <+: d) :
    menu cli F mode p ≠ none := by
  obtain ⟨q, rfl⟩ := hpre
  rw [Forest.reach_append] at hd
  obtain ⟨s, hs, -⟩ := Option.bind_eq_some_iff.1 hd
  exact h.menu_ne_none.2 ⟨hp, s, hs⟩

/-- One token: the command is there, or it is created. -/
theorem Stores.registerToken (h : Stores cli F) {mode : Option M} {d : List Token}
    {r : HeadRef M} (token : Token) (hd : F.reach (modeHead mode) d = some r) :
    ∃ a cli' F', Opennop.registerToken cli r token = .ok (a, cli') ∧
      Stores cli' F' ∧ F'.reach (modeHead mode) (d ++ [token]) = some (.child a) ∧
      ∀ m, menu cli' F' m =
        if m = mode then (menu cli F mode).open (d ++ [token]) else menu cli F m := by
  unfold Opennop.registerToken
  rw [h.findCommand_eq, ok_bind]
  cases hstep : F.step r token with
  | some a =>
    have hreach : F.reach (modeHead mode) (d ++ [token]) = some (.child a) :=
      Forest.reach_concat.2 ⟨r, a, hd, hstep, h.child a⟩
    refine ⟨a, cli, F, rfl, h, hreach, fun m => ?_⟩
    rw [menu_open_self _ fun p hp hpre => h.menu_on_way hreach hp hpre]
    split
    · subst m
      rfl
    · rfl
  | none =>
    have hr : ∀ b, r = .child b → b < cli.allocated := fun b hb => h.reach_live (hb ▸ hd)
    have hfree : ∀ s, cli.allocated ∉ F.kids s := fun s hs => Nat.lt_irrefl _ (h.lt hs)
    obtain ⟨cli', hcreate, hc⟩ := created_createCommand h token fun heq =>
      Nat.lt_irrefl _ (hr _ heq)
    have hnone := h.menu_concat_eq_none hd hstep
    refine ⟨_, cli', _, hcreate, h.created hc hr hfree hstep,
      (h.reach_created hd hfree hstep).2 (.inr ⟨⟨rfl, rfl⟩, rfl⟩), fun m => funext fun p => ?_⟩
    rw [menu_created h hd hc hfree hstep]
    by_cases hm : m = mode
    · subst hm
      rw [if_pos rfl]
      by_cases hp : p = d ++ [token]
      · subst hp
        rw [if_pos ⟨rfl, rfl⟩, Menu.open, if_pos ⟨by simp, List.prefix_rfl, hnone⟩]
      · rw [if_neg fun hand => hp hand.2, Menu.open, if_neg]
        rintro ⟨hnil, hpre, hmenu⟩
        rcases List.prefix_concat_iff.1 hpre with heq | hpre
        · exact hp heq
        · exact h.menu_on_way hd hnil hpre hmenu
    · rw [if_neg fun hand => hm hand.1, if_neg hm]

/-- The loop of `register_command` over the tokens `ts` that are left behind `d`. -/
theorem loop_registerPass {mode : Option M} {ts : List Token} :
    ∀ {cli : Cli M H} {F : Forest (HeadRef M) Nat Token} {d : List Token} {r : HeadRef M}
      {token : Option Token} {saved : List Char} {n : Nat} (current : Option Nat),
      Stores cli F → F.reach (modeHead mode) d = some r → token = ts.head? →
      tokens saved = ts.tail → ts.length < n →
      ∃ current' cli' F' r', loop registerPass n ⟨token, saved, r, current, cli⟩ =
        .ok (current', cli') ∧ Stores cli' F' ∧ F'.reach (modeHead mode) (d ++ ts) = some r' ∧
        (ts = [] ∧ current' = current ∧ r' = r ∨ ∃ a, current' = some a ∧ r' = .child a) ∧
        ∀ m, menu cli' F' m =
          if m = mode then (menu cli F mode).open (d ++ ts) else menu cli F m := by
  induction ts with
  | nil =>
    intro cli F d r token saved n current h hd htoken _ hn
    obtain ⟨n, rfl⟩ : ∃ k, n = k + 1 := ⟨n - 1, by simp at hn; omega⟩
    cases htoken
    refine ⟨current, cli, F, r, loop_done rfl, h, by rwa [List.append_nil], .inl ⟨rfl, rfl, rfl⟩,
      fun m => ?_⟩
    rw [List.append_nil, menu_open_self _ fun p hp hpre => h.menu_on_way hd hp hpre]
    split
    · subst m
      rfl
    · rfl
  | cons t ts ih =>
    intro cli F d r token saved n current h hd htoken hsaved hn
    obtain ⟨n, rfl⟩ : ∃ k, n = k + 1 := ⟨n - 1, by simp at hn; omega⟩
    cases htoken
    obtain ⟨a, cli₁, F₁, hstep, h₁, hreach₁, hmenu₁⟩ := h.registerToken t hd
    obtain ⟨hhead, htail⟩ := strtokR_spec saved
    rw [hsaved, List.tail_cons] at hhead htail
    have hpass : registerPass ⟨some t, saved, r, current, cli⟩ =
        .ok (.again ⟨(strtokR saved).1, (strtokR saved).2, .child a, some a, cli₁⟩) :=
      bind_eq_ok.2 ⟨(a, cli₁), hstep, rfl⟩
    obtain ⟨current', cli', F', r', hloop, h', hreach', hcur, hmenu'⟩ :=
      ih (n := n) (some a) h₁ hreach₁ hhead htail (by simp at hn; omega)
    refine ⟨current', cli', F', r', ?_, h', by rwa [List.append_cons], .inr ?_, fun m => ?_⟩
    · exact (loop_again hpass).trans hloop
    · rcases hcur with ⟨-, hcur, hr'⟩ | hcur
      · exact ⟨a, hcur, hr'⟩
      · exact hcur
    · rw [hmenu']
      by_cases hm : m = mode
      · subst hm
        rw [if_pos rfl, if_pos rfl, hmenu₁, if_pos rfl, menu_open_open _ (List.prefix_append _ _),
          List.append_cons d t ts]
      · rw [if_neg hm, if_neg hm, hmenu₁, if_neg hm]

theorem Stores.setHandler (h : Stores cli F) {mode : Option M} {q : List Token} {a : Nat}
    (ha : F.reach (modeHead mode) q = some (.child a)) (handler : Option H) (hasparams : Bool) :
    Stores (cli.setCommand a { cli.commands a with commandHandler := handler, hasparams }) F ∧
      ∀ m p,
        menu (cli.setCommand a { cli.commands a with commandHandler := handler, hasparams }) F m p =
        if m = mode ∧ p = q then some (handler, hasparams) else menu cli F m p := by
  generalize hcli' :
    cli.setCommand a { cli.commands a with commandHandler := handler, hasparams } = cli'
  have hcommands : ∀ b, cli'.commands b = if b = a then
      { cli.commands a with commandHandler := handler, hasparams } else cli.commands b := by
    intro b
    rw [← hcli', Cli.commands_setCommand]
  have hlinks : ∀ b, (cli'.commands b).next = (cli.commands b).next ∧
      (cli'.commands b).prev = (cli.commands b).prev ∧
      (cli'.commands b).command = (cli.commands b).command := fun b => by
    rw [hcommands]
    split
    · subst b
      exact ⟨rfl, rfl, rfl⟩
    · exact ⟨rfl, rfl, rfl⟩
  have hhead : ∀ r, cli'.head r = cli.head r := fun r => by
    rw [← hcli', Cli.head_setCommand]
    split
    · subst r
      rfl
    · rfl
  refine ⟨⟨h.child, fun r => ?_, fun hb => ?_, ?_, ?_⟩, fun m p => ?_⟩
  · rw [hhead]
    exact (h.list r).congr (fun b _ => (hlinks b).1) (fun b _ => (hlinks b).2.1)
  · rw [(hlinks _).2.2, h.key hb]
  · rw [← hcli']
    exact h.lt
  · rw [← hcli']
    exact h.leaf
  · by_cases hnew : m = mode ∧ p = q
    · obtain ⟨rfl, rfl⟩ := hnew
      rw [if_pos ⟨rfl, rfl⟩]
      exact menu_eq_some.2 ⟨a, ha, by rw [hcommands, if_pos rfl]⟩
    · rw [if_neg hnew]
      apply Option.ext
      intro v
      rw [menu_eq_some, menu_eq_some]
      refine exists_congr fun b => and_congr_right fun hb => ?_
      have hne : b ≠ a := by
        rintro rfl
        obtain ⟨hm, hp⟩ := Forest.reach_injective (h.isRoot m) (h.isRoot mode) hb ha
        exact hnew ⟨modeHead_injective hm, hp⟩
      rw [hcommands, if_neg hne]

/-- **Registering a command adds it to the menu of its mode.** -/
theorem Stores.registerCommand (h : Stores cli F) (mode : Option M) (name : List Char)
    (handler : Option H) (hasparams : Bool) :
    ∃ cli' F', Opennop.registerCommand cli mode name handler hasparams = .ok cli' ∧ Stores cli' F' ∧
      ∀ m, menu cli' F' m =
        if m = mode then (menu cli F mode).add (tokens name) (handler, hasparams)
        else menu cli F m := by
  obtain ⟨hhead, htail⟩ := strtokR_spec name
  have hlength := length_tokens_le name
  obtain ⟨current, cli₁, F₁, r, hloop, h₁, hreach, hcur, hmenu⟩ :=
    loop_registerPass (n := name.length + 2) none h
      (Forest.reach_nil (r := modeHead mode)) hhead htail
      (by omega)
  rw [List.nil_append] at hreach
  rcases hcur with ⟨hnil, rfl, -⟩ | ⟨a, rfl, rfl⟩
  · -- a name without a token registers nothing
    refine ⟨cli₁, F₁, bind_eq_ok.2 ⟨_, hloop, rfl⟩, h₁, fun m => ?_⟩
    rw [hmenu, hnil]
    rfl
  · obtain ⟨h₂, hmenu₂⟩ := h₁.setHandler hreach handler hasparams
    refine ⟨_, F₁, bind_eq_ok.2 ⟨_, hloop, rfl⟩, h₂, fun m => funext fun p => ?_⟩
    have hne : tokens name ≠ [] := fun hnil => by
      rw [hnil] at hreach
      exact modeHead_ne_child mode a (Option.some.inj hreach).symm
    rw [hmenu₂, hmenu]
    by_cases hm : m = mode
    · subst hm
      rw [if_pos rfl, if_pos rfl, List.nil_append, Menu.add]
      by_cases hp : p = tokens name
      · rw [if_pos ⟨rfl, hp⟩, if_pos ⟨hne, hp⟩]
      · rw [if_neg fun hand => hp hand.2, if_neg fun hand => hp hand.2]
    · rw [if_neg fun hand => hm hand.1, if_neg hm, if_neg hm]

end Menus

end Opennop
