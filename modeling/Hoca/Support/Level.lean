import Hoca.Support.Steps

namespace Hoca.Support

open Semaphores

-- The support level: cron and the T-processes between their calls, and what they do
-- in their programs, in the terminal calls and in the handler of page faults.
structure Level where
  system : System
  lines : Lines

-- A step of p1a, cron or a T-process outside its program, a SYS instruction or a
-- program trap of a T-process in its program, a step of its terminal call, its page
-- fault or its program, and the SYS17 with which slmmhandler ends it.
inductive LevelAction where
  | tick
  | cron
  | term (i : Term)
  | sys (i : Term) (sys_no : ℕ) (d3 d4 : BitVec 32)
  | prog (i : Term)
  | line (a : LineAction)
  | mmterminate (i : Term)

-- Whose step it is.
def LevelAction.actor : LevelAction → Option Proc
  | .tick => none
  | .cron => some .cron
  | .term i => some (.term i)
  | .sys i _ _ _ => some (.term i)
  | .prog i => some (.term i)
  | .line a => some (.term a.actor)
  | .mmterminate i => some (.term i)

-- What slsyshandler starts, or what comes with a line.
def LineAction.Enters : LineAction → Prop
  | .call (.sys9 _ _) => True
  | .call (.sys10 _ _ _) => True
  | .call (.line _ _ _ _) => True
  | _ => False

instance : DecidablePred LineAction.Enters
  | .call (.sys9 _ _) | .call (.sys10 _ _ _) | .call (.line _ _ _ _) => isTrue trivial
  | .call (.mm _) | .call (.written _ _ _) | .call (.go _) | .line _ _ _ _ _ | .store _ _ _ =>
      isFalse id

namespace Level

-- The T-process executes its program.
def User (s : Level) (i : Term) : Prop :=
  s.system.cron ≠ .gone ∧ s.system.term i = .user ∧ s.lines.terminals.call i = .user ∧
    s.lines.terminals.Runs i

instance (s : Level) (i : Term) : Decidable (s.User i) := inferInstanceAs (Decidable (_ ∧ _))

def gettimeofday (i : Term) (s : Level) : Level :=
  { s with lines := { s.lines with terminals := { s.lines.terminals with
      d2 := Function.update s.lines.terminals.d2 i (BitVec.ofInt 32 s.system.clock) } } }

def slsyshandler (p : Image) (i : Term) (sys_no : ℕ) (d3 d4 : BitVec 32) (s : Level) :
    Option Level :=
  match sys_no with
  | 9 => (Lines.step p (.call (.sys9 i d3)) s.lines).map fun l => { s with lines := l }
  | 10 => (Lines.step p (.call (.sys10 i d3 d4)) s.lines).map fun l => { s with lines := l }
  | 13 => (System.step (.delay i d4.toInt) s.system).map fun t => { s with system := t }
  | 16 => some (s.gettimeofday i)
  | 17 => (System.step (.terminate i) s.system).map fun t => { s with system := t }
  | _ => some s

def slproghandler (p : Image) (i : Term) (s : Level) : Option Level := slsyshandler p i 17 0 0 s

-- In user mode SYS1 to SYS8 are program traps.
def step (p : Image) (a : LevelAction) (s : Level) : Option Level :=
  match a with
  | .tick => (System.step .tick s.system).map fun t => { s with system := t }
  | .cron => (System.step .cron s.system).map fun t => { s with system := t }
  | .term i => (System.step (.term i) s.system).map fun t => { s with system := t }
  | .sys i sys_no d3 d4 =>
      if s.User i then
        if sys_no < 9 then slproghandler p i s else slsyshandler p i sys_no d3 d4 s
      else none
  | .prog i => if s.User i then slproghandler p i s else none
  | .line a =>
      if s.system.cron ≠ .gone ∧ s.system.term a.actor = .user ∧ ¬ a.Enters then
        (Lines.step p a s.lines).map fun l => { s with lines := l }
      else none
  | .mmterminate i =>
      if s.system.cron ≠ .gone ∧ s.lines.terminals.memory.handler i = .terminate then
        slsyshandler p i 17 0 0 s
      else none

def begin (m : Memory) (bytes : Bytes) (clock : Int) : Level where
  system := .initial clock
  lines := .begin m bytes

-- The delays do not ask for the marker, and the copy loops keep to the T-process and
-- its buffer.
def Meets (s : Level) : LevelAction → Prop
  | .term i => ∀ j, System.Unmarked j s.system (.term i)
  | .sys i sys_no d3 d4 => sys_no = 10 → Lines.Meets s.lines (.call (.sys10 i d3 d4))
  | .line a => Lines.Meets s.lines a
  | _ => True

instance (s : Level) : DecidablePred (Meets s)
  | .term _ => inferInstanceAs (Decidable (∀ _, _))
  | .sys i _ d3 d4 => inferInstanceAs (Decidable (_ → Lines.Meets s.lines (.call (.sys10 i d3 d4))))
  | .line a => inferInstanceAs (Decidable (Lines.Meets s.lines a))
  | .tick | .cron | .prog _ | .mmterminate _ => isTrue trivial

-- Nobody loads active_t_processes in the middle of a ++ or -- of another process.
def Undivided (s : Level) : LevelAction → Prop
  | .term i => System.Undivided s.system (.term i)
  | _ => True

instance (s : Level) : DecidablePred (Undivided s)
  | .term _ => inferInstanceAs (Decidable (System.Undivided _ _))
  | .tick | .cron | .sys _ _ _ _ | .prog _ | .line _ | .mmterminate _ => isTrue trivial

-- The T-process is in no terminal call and no handler, or slmmhandler has given it up.
def Outside (s : Level) (i : Term) : Prop :=
  s.lines.terminals.memory.handler i = .terminate ∨
    s.lines.terminals.call i = .user ∧ s.lines.terminals.memory.handler i = .user

section Step

variable {p : Image} {s s' : Level} {a : LevelAction} {i : Term}

-- A step as one of cron, delay and terminate, with the T-process it calls from, or as
-- one of the terminal calls and the handlers; SYS16 and the calls that slsyshandler
-- does not know move neither.
def Turns (p : Image) (a : LevelAction) (s s' : Level) : Prop :=
  (∃ b, System.step b s.system = some s'.system ∧ s'.lines = s.lines ∧
    (s.Meets a → ∀ j, System.Unmarked j s.system b) ∧
    (s.Undivided a → System.Undivided s.system b) ∧
    ∀ i, ((∃ d, b = .delay i d) ∨ b = .terminate i) → s.Outside i) ∨
  (∃ c, Lines.step p c s.lines = some s'.lines ∧ s'.system = s.system ∧
    s.system.term c.actor = .user ∧ a.actor = some (.term c.actor) ∧
    (s.Meets a → Lines.Meets s.lines c)) ∨
  s' = s ∨ ∃ i, a.actor = some (.term i) ∧ s' = s.gettimeofday i

theorem turns_moves {b : Action} (hs : (System.step b s.system).map (fun t => { s with system := t })
    = some s') (hmarks : s.Meets a → ∀ j, System.Unmarked j s.system b)
    (hdiv : s.Undivided a → System.Undivided s.system b)
    (hout : ∀ i, ((∃ d, b = .delay i d) ∨ b = .terminate i) → s.Outside i) : Turns p a s s' := by
  obtain ⟨t, ht, rfl⟩ := Option.map_eq_some_iff.mp hs
  exact Or.inl ⟨b, ht, rfl, hmarks, hdiv, hout⟩

theorem turns_calls {c : LineAction} (hs : (Lines.step p c s.lines).map (fun l => { s with lines := l })
    = some s') (hpc : s.system.term c.actor = .user) (hactor : a.actor = some (.term c.actor))
    (hmeets : s.Meets a → Lines.Meets s.lines c) : Turns p a s s' := by
  obtain ⟨l, hl, rfl⟩ := Option.map_eq_some_iff.mp hs
  exact Or.inr (Or.inl ⟨c, hl, rfl, hpc, hactor, hmeets⟩)

theorem not_calls {b : Action} (h : ∀ j d, b ≠ .delay j d) (h' : ∀ j, b ≠ .terminate j) (i : Term) :
    ¬ ((∃ d, b = .delay i d) ∨ b = .terminate i) := by
  rintro (⟨d, hd⟩ | hd)
  · exact h i d hd
  · exact h' i hd

-- The end of a T-process, and the end of a call of delay.
theorem turns_ends (hs : slsyshandler p i 17 0 0 s = some s') (hout : s.Outside i) :
    Turns p a s s' := by
  apply turns_moves hs
  · intro _ j hj
    cases hj
  · intro _ j hj
    cases hj
  · rintro k (⟨d, hd⟩ | hd)
    · cases hd
    · cases hd
      exact hout

theorem User.outside (h : s.User i) : s.Outside i := Or.inr h.2.2

-- SYS9 and SYS10 start a terminal call, SYS13 and SYS17 are steps of delay and terminate,
-- and SYS16 moves neither part.
theorem slsyshandler_turns {sys_no : ℕ} {d3 d4 : BitVec 32}
    (hs : slsyshandler p i sys_no d3 d4 s = some s') (huser : s.User i) :
    Turns p (.sys i sys_no d3 d4) s s' := by
  unfold slsyshandler at hs
  split at hs
  · exact turns_calls hs huser.2.1 rfl fun _ => trivial
  · exact turns_calls hs huser.2.1 rfl fun hmeets => hmeets rfl
  · apply turns_moves hs
    · intro _ j hj
      cases hj
    · intro _ j hj
      cases hj
    · rintro k (⟨d, hd⟩ | hd)
      · cases hd
        exact huser.outside
      · cases hd
  · exact Or.inr (Or.inr (Or.inr ⟨i, rfl, (Option.some.inj hs).symm⟩))
  · exact turns_ends hs huser.outside
  · exact Or.inr (Or.inr (Or.inl (Option.some.inj hs).symm))

theorem step_turns (hs : step p a s = some s') : Turns p a s s' := by
  have htime : ∀ b, (∀ j, b ≠ .term j) → (∀ j d, b ≠ .delay j d) → (∀ j, b ≠ .terminate j) →
      (System.step b s.system).map (fun t => { s with system := t }) = some s' →
      Turns p a s s' := fun b hb hd ht hs =>
    turns_moves hs (fun _ j hj => absurd hj (hb j)) (fun _ j hj => absurd hj (hb j))
      fun i hi => absurd hi (not_calls hd ht i)
  cases a with
  | tick =>
      exact htime .tick (fun _ h => Action.noConfusion h) (fun _ _ h => Action.noConfusion h)
        (fun _ h => Action.noConfusion h) hs
  | cron =>
      exact htime .cron (fun _ h => Action.noConfusion h) (fun _ _ h => Action.noConfusion h)
        (fun _ h => Action.noConfusion h) hs
  | term i =>
      exact turns_moves hs id id fun k hk => absurd hk (not_calls (fun _ _ h => Action.noConfusion h)
        (fun _ h => Action.noConfusion h) k)
  | sys i sys_no d3 d4 =>
      rw [step] at hs
      split at hs
      · next huser =>
        split at hs
        · exact turns_ends hs huser.outside
        · exact slsyshandler_turns hs huser
      · cases hs
  | prog i =>
      rw [step] at hs
      split at hs
      · next huser => exact turns_ends hs huser.outside
      · cases hs
  | line c =>
      rw [step] at hs
      split at hs
      · next hpc => exact turns_calls hs hpc.2.1 rfl id
      · cases hs
  | mmterminate i =>
      rw [step] at hs
      split at hs
      · next hpc => exact turns_ends hs (Or.inl hpc.2)
      · cases hs

end Step

section Sound

variable {p : Image} {g : Frames} {s s' : Level} {a : LevelAction} {i : Term}

-- What holds in every state of the support level that can be reached.
structure Sound (p : Image) (g : Frames) (s : Level) : Prop where
  lines : Lines.Sound p g s.lines
  system : s.system.Sane
  asking : s.lines.terminals.memory.Asking
  straight : s.lines.terminals.astray = false
  calm : s.lines.terminals.Calm
  outside : ∀ i, s.system.term i ≠ .user → s.Outside i

theorem Sound.moves {b : Action} (h : Sound p g s) (hs : System.step b s.system = some s'.system)
    (hlines : s'.lines = s.lines) (hmarks : ∀ j, System.Unmarked j s.system b)
    (hout : ∀ i, ((∃ d, b = .delay i d) ∨ b = .terminate i) → s.Outside i) : Sound p g s' where
  lines := hlines ▸ h.lines
  system := h.system.step hmarks hs
  asking := hlines ▸ h.asking
  straight := hlines ▸ h.straight
  calm := hlines ▸ h.calm
  outside i hi := by
    have hold : s.Outside i := by
      by_cases huser : s.system.term i = .user
      · exact hout i (System.step_user h.system.born hs huser hi)
      · exact h.outside i huser
    unfold Outside
    rw [hlines]
    exact hold

theorem Sound.calls {c : LineAction} (h : Sound p g s) (hg : pageinit p.toLinker = some g)
    (hs : Lines.step p c s.lines = some s'.lines) (hsystem : s'.system = s.system)
    (hpc : s.system.term c.actor = .user) (hmeets : Lines.Meets s.lines c) : Sound p g s' := by
  have hlines := h.lines.step hg hmeets hs
  have hsane : s'.system.Sane := hsystem ▸ h.system
  have hasking : s'.lines.terminals.memory.Asking := by
    rcases Lines.step_memory hs with heq | ⟨d, hd⟩
    · exact heq ▸ h.asking
    · exact h.asking.step hd
  have hne : ∀ {i}, s'.system.term i ≠ .user → i ≠ c.actor := by
    rintro i hi rfl
    exact hi (hsystem ▸ hpc)
  rcases (h.lines.step_frame hg hmeets hs).1 with heq | ⟨b, hb, hm, ht⟩
  · refine ⟨hlines, hsane, hasking, heq ▸ h.straight, heq ▸ h.calm, fun i hi => ?_⟩
    unfold Outside
    rw [heq]
    exact h.outside i (hsystem ▸ hi)
  · refine ⟨hlines, hsane, hasking, Terminals.step_astray h.lines.fenced hm ht, h.calm.step ht,
      fun i hi => ?_⟩
    obtain ⟨hcall, hhandler⟩ := Terminals.step_other ht (hb ▸ hne hi)
    unfold Outside
    rw [hcall, hhandler]
    exact h.outside i (hsystem ▸ hi)

theorem Sound.step (h : Sound p g s) (hg : pageinit p.toLinker = some g) (hmeets : s.Meets a)
    (hs : step p a s = some s') : Sound p g s' := by
  rcases step_turns hs with ⟨b, hb, hlines, hmarks, -, hout⟩ | ⟨c, hc, hsystem, hpc, -, hlines⟩ |
    rfl | ⟨i, -, rfl⟩
  · exact h.moves hb hlines (hmarks hmeets) hout
  · exact h.calls hg hc hsystem hpc (hlines hmeets)
  · exact h
  · obtain ⟨⟨hfenced, hrunning, hown⟩, hsane, hasking, hstraight, hcalm, hout⟩ := h
    exact ⟨⟨⟨hfenced.kernel, hfenced.within, hfenced.ended, hfenced.kept⟩, hrunning, hown⟩, hsane,
      hasking, hstraight, hcalm, hout⟩

theorem run_sound {m₀ : Memory} {bytes : Bytes} {clock : Int} {as : List LevelAction}
    (hboot : Memory.p1 p.toLinker = some m₀)
    (h : Runs.run (step p) as (begin m₀ bytes clock) = some s)
    (hmeets : Runs.Along (step p) Meets as (begin m₀ bytes clock)) :
    ∃ g, pageinit p.toLinker = some g ∧ Sound p g s := by
  obtain ⟨g, hg, hbooted⟩ := Memory.p1_booted hboot
  have hbegin : Sound p g (begin m₀ bytes clock) :=
    ⟨Lines.begin_sound hbooted bytes, System.initial_sane clock, Memory.booted_asking hbooted, rfl,
      fun _ => False.elim, fun i _ => Or.inr ⟨rfl, hbooted.idle i⟩⟩
  exact ⟨g, hg, Runs.run_invariant (fun _ _ _ h hm hs => h.step hg hm hs) hbegin hmeets h⟩

-- As long as no two updates of active_t_processes overlap.
theorem Sound.counting_step (h : Sound p g s) (hc : s.system.Counting) (hmeets : s.Meets a)
    (hdiv : s.Undivided a) (hs : Level.step p a s = some s') : s'.system.Counting := by
  rcases step_turns hs with ⟨b, hb, -, hmarks, hundivided, -⟩ | ⟨c, -, hsystem, -, -, -⟩ | rfl |
    ⟨i, -, rfl⟩
  · exact hc.step (hmarks hmeets) (hundivided hdiv) hb
  · exact hsystem ▸ hc
  · exact hc
  · exact hc

theorem Sound.counting_run {as : List LevelAction} (h : Sound p g s)
    (hg : pageinit p.toLinker = some g) (hc : s.system.Counting)
    (hmeets : Runs.Along (Level.step p) Meets as s) (hdiv : Runs.Along (Level.step p) Undivided as s)
    (hrun : Runs.run (Level.step p) as s = some s') : s'.system.Counting :=
  (Runs.run_invariant (I := fun s => Sound p g s ∧ s.system.Counting)
    (fun _ _ _ hr hp hs => ⟨hr.1.step hg hp.1 hs, hr.1.counting_step hr.2 hp.1 hp.2 hs⟩) ⟨h, hc⟩
    (hmeets.and hdiv) hrun).2

theorem run_counting {m₀ : Memory} {bytes : Bytes} {clock : Int} {as : List LevelAction}
    (hboot : Memory.p1 p.toLinker = some m₀)
    (h : Runs.run (step p) as (begin m₀ bytes clock) = some s)
    (hmeets : Runs.Along (step p) Meets as (begin m₀ bytes clock))
    (hdiv : Runs.Along (step p) Undivided as (begin m₀ bytes clock)) : s.system.Counting := by
  have hnone : Runs.run (step p) [] (begin m₀ bytes clock) = some (begin m₀ bytes clock) := rfl
  obtain ⟨g, hg, hbegin⟩ := run_sound hboot hnone trivial
  exact hbegin.counting_run hg (System.initial_counting clock) hmeets hdiv h

end Sound

section Parts

variable {p : Image} {s s' : Level} {as : List LevelAction} {m₀ : Memory} {bytes : Bytes}
  {clock : Int}

-- The support level adds nothing to its two parts: what cron, delay and terminate do
-- in it is a run of theirs, and so is what the terminal calls and the handlers do, but
-- for the times of day in D2.
theorem run_parts (h : Runs.run (step p) as (begin m₀ bytes clock) = some s)
    (hmeets : Runs.Along (step p) Meets as (begin m₀ bytes clock)) :
    (∃ bs, System.run bs (.initial clock) = some s.system ∧
      Runs.Along System.step (fun t b => ∀ i, System.Unmarked i t b) bs (.initial clock)) ∧
    ∃ cs d2, Runs.run (Lines.step p) cs (.begin m₀ bytes) = some (s.lines.withD2 d2) ∧
      Runs.Along (Lines.step p) Lines.Meets cs (.begin m₀ bytes) := by
  constructor
  · have hstep : ∀ r a r' t, t = r.system → r.Meets a → Level.step p a r = some r' →
        ∃ bs t', System.run bs t = some t' ∧
          Runs.Along System.step (fun t b => ∀ i, System.Unmarked i t b) bs t ∧ t' = r'.system := by
      rintro r a r' t rfl ha hs
      rcases step_turns hs with ⟨b, hb, -, hmarks, -, -⟩ | ⟨c, -, hsystem, -, -, -⟩ | rfl |
        ⟨i, -, rfl⟩
      · refine ⟨[b], r'.system, ?_, ⟨hmarks ha, fun _ _ => trivial⟩, rfl⟩
        rw [System.run, Runs.run, hb]
        rfl
      · exact ⟨[], _, rfl, trivial, hsystem.symm⟩
      · exact ⟨[], _, rfl, trivial, rfl⟩
      · exact ⟨[], _, rfl, trivial, rfl⟩
    obtain ⟨bs, t, hbs, hmarks, rfl⟩ := Runs.run_simulates hstep rfl hmeets h
    exact ⟨bs, hbs, hmarks⟩
  · have hstep : ∀ r a r' l, (∃ d2, l = r.lines.withD2 d2) → r.Meets a →
        Level.step p a r = some r' → ∃ cs l', Runs.run (Lines.step p) cs l = some l' ∧
          Runs.Along (Lines.step p) Lines.Meets cs l ∧ ∃ d2, l' = r'.lines.withD2 d2 := by
      rintro r a r' l ⟨d2, rfl⟩ ha hs
      rcases step_turns hs with ⟨b, -, hlines, -, -, -⟩ | ⟨c, hc, -, -, -, hmeets⟩ | rfl |
        ⟨i, -, rfl⟩
      · exact ⟨[], _, rfl, trivial, d2, hlines ▸ rfl⟩
      · obtain ⟨d2', hd⟩ := Lines.step_d2 d2 hc
        refine ⟨[c], r'.lines.withD2 d2', ?_, ⟨?_, fun _ _ => trivial⟩, d2', rfl⟩
        · rw [Runs.run, hd]
          rfl
        · exact (Lines.meets_d2 d2).mpr (hmeets ha)
      · exact ⟨[], _, rfl, trivial, d2, rfl⟩
      · exact ⟨[], _, rfl, trivial, d2, rfl⟩
    obtain ⟨cs, l, hcs, hmeets', d2, rfl⟩ :=
      Runs.run_simulates hstep ⟨fun _ => 0, rfl⟩ hmeets h
    exact ⟨cs, d2, hcs, hmeets'⟩

-- The T-processes are created and start, and one has a page fault that is handled.
def started : List LevelAction := [.cron, .cron, .cron, .term 0, .term 0, .term 1, .term 1]

def faulting (i : Term) (pg : ℕ) : List LevelAction :=
  .line (.call (.mm (.fault i PAGEMISS 1 pg))) :: List.replicate 9 (.line (.call (.mm (.handle i))))

-- T-process 0 asks for the time and T-process 1 for a delay.
theorem run_parts_sample : ∃ m₀ s, Memory.p1 Image.image.toLinker = some m₀ ∧
    Runs.run (step Image.image) (started ++ [.sys 0 16 0 0, .sys 1 13 0 5, .term 1])
      (begin m₀ (fun _ => 0) 0) = some s ∧ ∃ bs, System.run bs (.initial 0) = some s.system := by
  have hend : ∃ m₀ ∈ Memory.p1 Image.image.toLinker,
      Runs.Along (step Image.image) Meets (started ++ [.sys 0 16 0 0, .sys 1 13 0 5, .term 1])
        (begin m₀ (fun _ => 0) 0) ∧
      (Runs.run (step Image.image) (started ++ [.sys 0 16 0 0, .sys 1 13 0 5, .term 1])
        (begin m₀ (fun _ => 0) 0)).isSome = true := by
    decide +kernel
  obtain ⟨m₀, hboot, hmeets, hsome⟩ := hend
  obtain ⟨s, h⟩ := Option.isSome_iff_exists.mp hsome
  obtain ⟨bs, hbs, -⟩ := (run_parts h hmeets).1
  exact ⟨m₀, s, hboot, h, bs, hbs⟩

end Parts

section Undisturbed

variable {p : Image} {g : Frames} {s s' : Level} {a : LevelAction} {i : Term} {m₀ : Memory}
  {bytes : Bytes} {clock : Int} {as bs : List LevelAction}

theorem Sound.keeps (h : Sound p g s) (hg : pageinit p.toLinker = some g) (hmeets : s.Meets a)
    (hs : Level.step p a s = some s') (hi : a.actor ≠ some (.term i)) :
    Lines.Keeps p i s.lines s'.lines ∧ s'.lines.terminals.d2 i = s.lines.terminals.d2 i := by
  rcases step_turns hs with ⟨b, -, hlines, -, -, -⟩ | ⟨c, hc, -, -, hactor, hlines⟩ | rfl |
    ⟨k, hk, rfl⟩
  · rw [hlines]
    exact ⟨Lines.Keeps.refl _, rfl⟩
  · have hne : i ≠ c.actor := by
      rintro rfl
      exact hi hactor
    refine ⟨h.lines.keeps hg (hlines hmeets) hc hne, ?_⟩
    rcases Lines.step_terminals hc with ⟨b, hb, ht⟩ | ⟨-, heq⟩
    · exact Terminals.step_result ht (hb ▸ hne)
    · rw [heq]
  · exact ⟨Lines.Keeps.refl _, rfl⟩
  · have hne : i ≠ k := by
      rintro rfl
      exact hi hk
    exact ⟨⟨rfl, rfl, fun _ _ => rfl, fun _ _ => rfl⟩, Function.update_of_ne hne ..⟩

-- While a T-process takes no step, cron and the others leave all of it as it is: the
-- bytes of its segment 1 and its io_buffer, its place in a terminal call and the byte
-- it has loaded there, and its D2.
theorem run_undisturbed (hboot : Memory.p1 p.toLinker = some m₀)
    (h : Runs.run (step p) as (begin m₀ bytes clock) = some s)
    (h' : Runs.run (step p) bs s = some s')
    (hmeets : Runs.Along (step p) Meets (as ++ bs) (begin m₀ bytes clock))
    (hother : ∀ a ∈ bs, a.actor ≠ some (.term i)) :
    (∀ v c, v_seg v = 1 → s.lines.byte i v = some c → s'.lines.byte i v = some c) ∧
      (∀ b < 512, s'.lines.bytes (p.io_buffer i + b) = s.lines.bytes (p.io_buffer i + b)) ∧
      s'.lines.terminals.call i = s.lines.terminals.call i ∧
      s'.lines.loaded i = s.lines.loaded i ∧
      s'.lines.terminals.d2 i = s.lines.terminals.d2 i := by
  obtain ⟨g, hg, hsound⟩ := run_sound hboot h hmeets.append_left
  have hkeep : ∀ r b r', (Sound p g r ∧ Lines.Keeps p i s.lines r.lines ∧
      r.lines.terminals.d2 i = s.lines.terminals.d2 i) →
      r.Meets b ∧ b.actor ≠ some (.term i) → Level.step p b r = some r' →
      Sound p g r' ∧ Lines.Keeps p i s.lines r'.lines ∧
        r'.lines.terminals.d2 i = s.lines.terminals.d2 i := by
    rintro r b r' ⟨hr, hkeeps, hd2⟩ ⟨hb, hne⟩ hs
    obtain ⟨hone, hres⟩ := hr.keeps hg hb hs hne
    exact ⟨hr.step hg hb hs, hkeeps.trans hone, hres.trans hd2⟩
  have hboth := (hmeets.append_right h).and (Runs.along_of_forall (fun a ha _ => hother a ha) s)
  obtain ⟨-, hkeeps, hd2⟩ :=
    Runs.run_invariant hkeep ⟨hsound, Lines.Keeps.refl _, rfl⟩ hboth h'
  exact ⟨fun v c hseg hb => hkeeps.byte hseg hb, fun b hb => hkeeps.buffer hb, hkeeps.call,
    hkeeps.loaded, hd2⟩

-- T-process 0 stores a byte, which it finds again when T-process 1 has had a page fault
-- and has ended.
theorem run_undisturbed_sample : ∃ m₀ s', Memory.p1 Image.image.toLinker = some m₀ ∧
    Runs.run (step Image.image)
      ((started ++ [.line (.store 0 0x83e00 72)]) ++ (faulting 1 0 ++ [.prog 1, .term 1]))
      (begin m₀ (fun _ => 0) 0) = some s' ∧ s'.lines.byte 0 0x83e00 = some 72 := by
  have hend : ∃ m₀ ∈ Memory.p1 Image.image.toLinker,
      Runs.Along (step Image.image) Meets
        ((started ++ [.line (.store 0 0x83e00 72)]) ++ (faulting 1 0 ++ [.prog 1, .term 1]))
        (begin m₀ (fun _ => 0) 0) ∧
      ∃ s ∈ Runs.run (step Image.image) (started ++ [.line (.store 0 0x83e00 72)])
        (begin m₀ (fun _ => 0) 0), s.lines.byte 0 0x83e00 = some 72 ∧
        (∀ a ∈ faulting 1 0 ++ [.prog 1, .term 1], a.actor ≠ some (.term 0)) ∧
        (Runs.run (step Image.image) (faulting 1 0 ++ [.prog 1, .term 1]) s).isSome = true := by
    decide +kernel
  obtain ⟨m₀, hboot, hmeets, s, h, hbyte, hother, hsome⟩ := hend
  obtain ⟨s', h'⟩ := Option.isSome_iff_exists.mp hsome
  have hseg : v_seg 0x83e00 = 1 := by decide
  have hsame := (run_undisturbed hboot h h' hmeets hother).1 0x83e00 72 hseg hbyte
  refine ⟨m₀, s', hboot, ?_, hsame⟩
  rw [Runs.run_append, h]
  exact h'

end Undisturbed

end Level

end Hoca.Support
