import Hoca.Support.Entries

namespace Hoca.Support

-- Before the process has counted itself in tprocess, and after it has taken itself off in
-- terminate.
def TermPc.Early : TermPc → Prop
  | .unborn => True
  | .tprocess => True
  | .raise _ => True
  | _ => False

def TermPc.Past : TermPc → Prop
  | .test => True
  | .notify => True
  | .terminateproc _ => True
  | .gone _ => True
  | _ => False

def TermPc.active : TermPc → Int
  | .unborn => 0
  | .tprocess => 0
  | .raise _ => 0
  | .test => 0
  | .notify => 0
  | .terminateproc _ => 0
  | .gone _ => 0
  | _ => 1

-- Whether the process loads active_t_processes next, for a ++ or a --, and what it has
-- loaded and not yet stored.
def TermPc.Loads : TermPc → Prop
  | .tprocess => True
  | .terminate => True
  | _ => False

def TermPc.loaded : TermPc → Option Int
  | .raise active => some active
  | .lower active => some active
  | _ => none

instance : DecidablePred TermPc.Early
  | .unborn | .tprocess | .raise _ => isTrue trivial
  | .user | .delay _ _ | .lockTable _ _ _ | .write _ _ _ | .block _ _ | .delayed _ _ | .terminate
  | .lower _ | .test | .notify | .terminateproc _ | .gone _ => isFalse id

instance : DecidablePred TermPc.Loads
  | .tprocess | .terminate => isTrue trivial
  | .unborn | .raise _ | .user | .delay _ _ | .lockTable _ _ _ | .write _ _ _ | .block _ _
  | .delayed _ _ | .lower _ | .test | .notify | .terminateproc _ | .gone _ => isFalse id

def CronPc.Ends : CronPc → Prop
  | .terminateproc => True
  | .gone => True
  | _ => False

theorem TermPc.active_nonneg (pc : TermPc) : 0 ≤ pc.active := by
  unfold TermPc.active
  split
  all_goals omega

theorem TermPc.Past.active {pc : TermPc} (h : pc.Past) : pc.active = 0 := by
  cases pc with
  | test => rfl
  | notify => rfl
  | terminateproc => rfl
  | gone => rfl
  | _ => exact False.elim h

theorem TermPc.past_of_active_eq_zero {pc : TermPc} (h : pc.active = 0) (hearly : ¬ pc.Early) :
    pc.Past := by
  cases pc with
  | unborn => exact absurd trivial hearly
  | tprocess => exact absurd trivial hearly
  | raise => exact absurd trivial hearly
  | test => trivial
  | notify => trivial
  | terminateproc => trivial
  | gone => trivial
  | _ => cases h

-- The count is that of the processes between their ++ and their --. One of them at most is
-- in the middle of one, and it has loaded the count as it is.
structure Tallied (term : Term → TermPc) (active_t_processes : Int) : Prop where
  counted : active_t_processes = ∑ i, (term i).active
  loaded : ∀ i n, (term i).loaded = some n → n = active_t_processes
  alone : ∀ i j, (term i).loaded ≠ none → (term j).loaded ≠ none → i = j

namespace Tallied

variable {term : Term → TermPc} {n n' : Int} {i : Term} {pc pc' : TermPc}

theorem others (h : Tallied term n) (hi : (term i).loaded ≠ none) :
    ∀ j ≠ i, (term j).loaded = none := by
  intro j hj
  by_contra hne
  exact hj (h.alone j i hne hi)

-- A process moves without touching the count, or stores it, or loads it, while nobody
-- else is in the middle.
theorem turns (h : Tallied term n) (hpc : term i = pc) (hactive : n' = n + (pc'.active - pc.active))
    (hload : (n' = n ∧ pc'.loaded = none) ∨
      (∀ j ≠ i, (term j).loaded = none) ∧ ∀ m, pc'.loaded = some m → m = n') :
    Tallied (Function.update term i pc') n' where
  counted := by
    rw [sum_update (i := i) (fun j => (term j).active), Function.update_self, hactive, h.counted,
      hpc]
    intro j hj
    rw [Function.update_of_ne hj]
  loaded j m hm := by
    by_cases hj : j = i
    · subst hj
      rw [Function.update_self] at hm
      rcases hload with ⟨-, hnone⟩ | ⟨-, hlast⟩
      · cases hnone.symm.trans hm
      · exact hlast m hm
    · rw [Function.update_of_ne hj] at hm
      rcases hload with ⟨hsame, -⟩ | ⟨hnone, -⟩
      · exact (h.loaded j m hm).trans hsame.symm
      · cases (hnone j hj).symm.trans hm
  alone j k hj hk := by
    have hother : ∀ l ≠ i, (Function.update term i pc' l).loaded ≠ none →
        (term l).loaded ≠ none ∧ pc'.loaded = none := by
      intro l hl hne
      rw [Function.update_of_ne hl] at hne
      rcases hload with ⟨-, hnone⟩ | ⟨hnone, -⟩
      · exact ⟨hne, hnone⟩
      · exact absurd (hnone l hl) hne
    have hself : (Function.update term i pc' i).loaded = pc'.loaded := by rw [Function.update_self]
    by_cases hji : j = i
    · by_cases hki : k = i
      · exact hji.trans hki.symm
      · exact absurd (hself.trans (hother k hki hk).2) (hji ▸ hj)
    · by_cases hki : k = i
      · exact absurd (hself.trans (hother j hji hj).2) (hki ▸ hk)
      · exact h.alone j k (hother j hji hj).1 (hother k hki hk).1

end Tallied

namespace System

variable {s s' : System} {a : Action} {i j : Term}

-- active_t_processes is the number of processes between their ++ and their --: none of
-- these has been lost.
def Exact (s : System) : Prop := s.active_t_processes = ∑ i, (s.term i).active

instance (s : System) : Decidable s.Exact := inferInstanceAs (Decidable (_ = _))

-- Cron ends only when every T-process has executed terminate.
def Shut (s : System) : Prop := s.cron.Ends → ∀ i, (s.term i).Past

-- When cron finds no active process, the count is right and every process has counted
-- itself.
def Tested (s : System) (a : Action) : Prop :=
  a = .cron → s.cron = .loop → s.active_t_processes = 0 → s.Exact ∧ ∀ i, ¬ (s.term i).Early

instance (s : System) (a : Action) : Decidable (Tested s a) :=
  inferInstanceAs (Decidable (_ → _ → _ → _))

-- Nobody loads the count for a ++ or a -- while somebody is in the middle of one.
def Undivided (s : System) (a : Action) : Prop :=
  ∀ i, a = .term i → (s.term i).Loads → ∀ j, (s.term j).loaded = none

instance (s : System) (a : Action) : Decidable (Undivided s a) :=
  inferInstanceAs (Decidable (∀ _, _ → _ → _))

section Shut

theorem next_ends (j : Term) (b : Bool) : ¬ (next j b).Ends :=
  next_holds (P := fun pc => ¬ pc.Ends) (fun _ => id) id id j

theorem Exact.closes (h : s.Exact) (hzero : s.active_t_processes = 0)
    (hearly : ∀ i, ¬ (s.term i).Early) (i : Term) : (s.term i).Past := by
  have hsum : ∑ i, (s.term i).active = 0 := h.symm.trans hzero
  have hnone := (Finset.sum_eq_zero_iff_of_nonneg fun i _ => (s.term i).active_nonneg).mp hsum i
    (Finset.mem_univ i)
  exact TermPc.past_of_active_eq_zero hnone (hearly i)

theorem Shut.cronStep (h : s.Shut) (ht : Tested s .cron) (hs : s.cronStep = some s') : s'.Shut := by
  unfold System.cronStep at hs
  split at hs
  case h_1 =>
    cases hs
    intro he
    dsimp only at he
    split at he
    · exact False.elim he
    · exact False.elim he
  case h_3 hpc =>
    cases hs
    intro he
    dsimp only at he
    split at he
    · next hzero =>
      obtain ⟨hexact, hearly⟩ := ht rfl hpc hzero
      exact hexact.closes hzero hearly
    · exact False.elim he
  case h_4 hpc =>
    cases hs
    exact fun _ => h (hpc ▸ trivial)
  case h_5 => cases hs
  case h_8 =>
    cases hs
    intro he
    dsimp only at he
    split at he
    · exact False.elim he
    · exact absurd he (next_ends _ _)
  case h_9 =>
    cases hs
    intro he
    dsimp only at he
    split at he
    · exact False.elim he
    · exact absurd he (next_ends _ _)
  case h_11 =>
    cases hs
    exact fun he => absurd he (next_ends _ true)
  all_goals cases hs
  all_goals exact False.elim

-- A process past its count goes on past it.
theorem Shut.turns (h : s.Shut) {pc pc' : TermPc} (hpc : s.term i = pc) (hcron : s'.cron = s.cron)
    (hterm : s'.term = Function.update s.term i pc') (hpast : pc.Past → pc'.Past) : s'.Shut := by
  intro he k
  have hk := h (hcron ▸ he)
  rw [hterm]
  by_cases hki : k = i
  · subst hki
    rw [Function.update_self]
    exact hpast (hpc ▸ hk k)
  · rw [Function.update_of_ne hki]
    exact hk k

theorem Shut.termStep (h : s.Shut) (hs : s.termStep i = some s') : s'.Shut := by
  unfold System.termStep at hs
  split at hs
  case h_12 hpc =>
    cases hs
    split
    · exact h.turns hpc rfl rfl id
    · exact h.turns hpc rfl rfl id
  case h_13 hpc =>
    cases hs
    exact h.turns hpc rfl rfl id
  case h_14 hpc =>
    cases hs
    exact h.turns hpc rfl rfl id
  all_goals cases hs
  all_goals next hpc => exact h.turns hpc rfl rfl False.elim

theorem Shut.step (h : s.Shut) (ht : Tested s a) (hs : System.step a s = some s') : s'.Shut := by
  cases a with
  | tick =>
      rw [step_tick hs]
      exact h
  | cron => exact h.cronStep ht (step_cron hs).2
  | term i => exact h.termStep (step_term hs).2.2
  | delay i d =>
      obtain ⟨hpc, rfl⟩ := step_delay hs
      exact h.turns hpc rfl rfl False.elim
  | terminate i =>
      obtain ⟨hpc, rfl⟩ := step_terminate hs
      exact h.turns hpc rfl rfl False.elim

end Shut

section Count

def Tallied (s : System) : Prop := Support.Tallied s.term s.active_t_processes

theorem initial_tallied (clock : Int) : Tallied (initial clock) where
  counted := by simp [initial, TermPc.active]
  loaded _ _ h := by cases h
  alone _ _ h _ := absurd rfl h

theorem Tallied.cronStep (h : s.Tallied) (hborn : s.Born) (hs : s.cronStep = some s') :
    s'.Tallied := by
  unfold System.cronStep at hs
  split at hs
  case h_1 j hj =>
    cases hs
    exact h.turns (hborn j j hj le_rfl) (Int.add_zero _).symm (Or.inl ⟨rfl, rfl⟩)
  all_goals cases hs
  all_goals exact h

theorem Tallied.termStep (h : s.Tallied) (hdiv : Undivided s (.term i))
    (hs : s.termStep i = some s') : s'.Tallied := by
  have hsame : s.active_t_processes = s.active_t_processes + 0 := (Int.add_zero _).symm
  unfold System.termStep at hs
  split at hs
  case h_2 hpc =>
    cases hs
    have hnone := hdiv i rfl (hpc ▸ trivial)
    exact h.turns hpc hsame (Or.inr ⟨fun j _ => hnone j, fun m hm => (Option.some.inj hm).symm⟩)
  case h_3 n hpc =>
    cases hs
    obtain rfl := h.loaded i n (hpc ▸ rfl)
    have hmiddle : (s.term i).loaded ≠ none := by
      rw [hpc]
      exact Option.some_ne_none _
    exact h.turns hpc rfl (Or.inr ⟨h.others hmiddle, fun m hm => by cases hm⟩)
  case h_10 hpc =>
    cases hs
    have hnone := hdiv i rfl (hpc ▸ trivial)
    exact h.turns hpc hsame (Or.inr ⟨fun j _ => hnone j, fun m hm => (Option.some.inj hm).symm⟩)
  case h_11 n hpc =>
    cases hs
    obtain rfl := h.loaded i n (hpc ▸ rfl)
    have hmiddle : (s.term i).loaded ≠ none := by
      rw [hpc]
      exact Option.some_ne_none _
    exact h.turns hpc rfl (Or.inr ⟨h.others hmiddle, fun m hm => by cases hm⟩)
  case h_12 hpc =>
    cases hs
    split
    · exact h.turns hpc hsame (Or.inl ⟨rfl, rfl⟩)
    · exact h.turns hpc hsame (Or.inl ⟨rfl, rfl⟩)
  all_goals cases hs
  all_goals next hpc => exact h.turns hpc hsame (Or.inl ⟨rfl, rfl⟩)

theorem Tallied.step (h : s.Tallied) (hborn : s.Born) (hdiv : Undivided s a)
    (hs : System.step a s = some s') : s'.Tallied := by
  have hsame : s.active_t_processes = s.active_t_processes + 0 := (Int.add_zero _).symm
  cases a with
  | tick =>
      rw [step_tick hs]
      exact h
  | cron => exact h.cronStep hborn (step_cron hs).2
  | term i => exact h.termStep hdiv (step_term hs).2.2
  | delay i d =>
      obtain ⟨hpc, rfl⟩ := step_delay hs
      exact h.turns hpc hsame (Or.inl ⟨rfl, rfl⟩)
  | terminate i =>
      obtain ⟨hpc, rfl⟩ := step_terminate hs
      exact h.turns hpc hsame (Or.inl ⟨rfl, rfl⟩)

end Count

-- The first process starts and ends before the second is created.
def early : List Action :=
  [.cron, .term 0, .term 0, .terminate 0, .term 0, .term 0, .term 0, .term 0, .cron, .cron, .cron]

-- Both processes start, and then end.
def orderly : List Action :=
  [.cron, .cron, .cron, .term 0, .term 0, .term 1, .term 1, .terminate 0, .term 0, .term 0, .term 0,
    .term 0, .terminate 1, .term 1, .term 1, .term 1, .term 1, .term 1, .cron]

end System

end Hoca.Support
