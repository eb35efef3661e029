import Hoca.Support.Level

namespace Hoca.Support

open Semaphores

namespace Level

section Standstill

variable {p : Image} {g : Frames} {s s' : Level} {a : LevelAction} {i : Term} {q : Proc}
  {m₀ : Memory} {bytes : Bytes} {clock : Int} {as : List LevelAction}

-- A process that can take a step. For one that waits for its terminal it is the one
-- after the interrupt.
def Ready (p : Image) (s : Level) (q : Proc) : Prop := ∃ a, a.actor = some q ∧ (step p a s).isSome

-- The T-process waits for a frame.
def Starves (s : Level) (i : Term) : Prop :=
  Proc.term i ∈ s.lines.terminals.memory.sems.queue .sem_pf

-- All that is left are T-processes that wait for a frame, and cron, which waits to hear
-- from a T-process.
structure Starved (s : Level) : Prop where
  cron : Proc.cron ∈ s.system.sems.queue .wake_up_cron_sem
  term : ∀ i, (∃ b, s.system.term i = .gone b) ∨ s.Starves i

theorem Sound.starves (h : Sound p g s) (hi : s.Starves i) :
    s.system.term i = .user ∧ s.lines.terminals.memory.handler i ≠ .user ∧
      s.lines.terminals.memory.handler i ≠ .terminate := by
  obtain ⟨d, hd⟩ := h.asking i hi
  have huser : s.lines.terminals.memory.handler i ≠ .user := by
    rw [hd]
    exact MmPc.noConfusion
  have hend : s.lines.terminals.memory.handler i ≠ .terminate := by
    rw [hd]
    exact MmPc.noConfusion
  refine ⟨?_, huser, hend⟩
  by_contra hpc
  exact (h.outside i hpc).elim hend fun hout => huser hout.2

theorem not_user_of_term (h : s.system.term i ≠ .user) : ¬ s.User i := fun huser => h huser.2.1

theorem step_term_none (h : s.system.termStep i = none) : step p (.term i) s = none := by
  have hnone : System.step (.term i) s.system = none := by
    rw [System.step, h]
    exact ite_self _
  rw [step, hnone]
  rfl

-- Outside of its handler a T-process is at none of the handler's points.
theorem Outside.not_handler {Q : MmPc → Prop} (h : s.Outside i) (hend : ¬ Q .terminate)
    (huser : ¬ Q .user) : ¬ Q (s.lines.terminals.memory.handler i) := by
  rcases h with hpc | ⟨-, hpc⟩
  · rw [hpc]
    exact hend
  · rw [hpc]
    exact huser

-- A T-process that has gone, or that waits for a frame, takes no step.
theorem step_gone {b : Bool} (hi : s.system.term i = .gone b) (ha : a.actor = some (.term i)) :
    step p a s = none := by
  have hne : s.system.term i ≠ .user := by
    rw [hi]
    exact TermPc.noConfusion
  have hend : System.step (.terminate i) s.system = none := if_neg fun hc => hne hc.2
  cases a with
  | tick => cases ha
  | cron => cases ha
  | term k =>
      cases ha
      apply step_term_none
      rw [System.termStep, hi]
  | sys k n d3 d4 =>
      cases ha
      exact if_neg (not_user_of_term hne)
  | prog k =>
      cases ha
      exact if_neg (not_user_of_term hne)
  | line c =>
      cases ha
      exact if_neg fun hc => hne hc.2.1
  | mmterminate k =>
      cases ha
      rw [step, slsyshandler, hend]
      exact ite_self _

theorem Sound.step_starves (h : Sound p g s) (hi : s.Starves i) (ha : a.actor = some (.term i)) :
    Level.step p a s = none := by
  obtain ⟨hpc, huser, hend⟩ := h.starves hi
  have hprogram : ¬ s.User i := fun hc => huser hc.2.2.2
  cases a with
  | tick => cases ha
  | cron => cases ha
  | term k =>
      cases ha
      apply step_term_none
      rw [System.termStep, hpc]
  | sys k n d3 d4 =>
      cases ha
      exact if_neg hprogram
  | prog k =>
      cases ha
      exact if_neg hprogram
  | line c =>
      obtain rfl : c.actor = i := Proc.term.inj (Option.some.inj ha)
      have hnone : Lines.step p c s.lines = none := by
        by_contra hne
        obtain ⟨l, hl⟩ := Option.ne_none_iff_exists'.mp hne
        rcases Lines.step_terminals hl with ⟨b, hb, ht⟩ | ⟨hrun, -⟩
        · rw [h.calm.stops (hb ▸ hi) (hb ▸ huser)] at ht
          cases ht
        · exact huser hrun
      rw [Level.step, hnone]
      exact ite_self _
  | mmterminate k =>
      cases ha
      exact if_neg fun hc => hend hc.2

theorem Sound.not_ready (h : Sound p g s) (hs : s.Starved) (q : Proc) : ¬ s.Ready p q := by
  rintro ⟨a, ha, hsome⟩
  have hnone : Level.step p a s = none := by
    cases q with
    | cron =>
        have hblocked : System.step .cron s.system = none := if_pos ⟨_, hs.cron⟩
        cases a with
        | cron =>
            rw [Level.step, hblocked]
            rfl
        | _ => cases ha
    | term i =>
        rcases hs.term i with ⟨b, hb⟩ | hi
        · exact step_gone hb ha
        · exact h.step_starves hi ha
  rw [hnone] at hsome
  cases hsome

-- A T-process in its program, in a terminal call or in the handler of a page fault
-- can go on, or one that is in its way can, if it does not wait for a frame.
theorem Sound.ready_of_user (h : Sound p g s) (hon : s.system.cron ≠ .gone)
    (hpc : s.system.term i = .user) (hq : ¬ s.Starves i) : ∃ j, s.Ready p (.term j) := by
  have hline : ∀ {c : LineAction}, s.system.term c.actor = .user → ¬ c.Enters →
      (Lines.step p c s.lines).isSome → s.Ready p (.term c.actor) := by
    intro c hc henters hsome
    refine ⟨.line c, rfl, ?_⟩
    rw [Level.step, if_pos ⟨hon, hc, henters⟩, Option.isSome_map]
    exact hsome
  by_cases hend : s.lines.terminals.memory.handler i = .terminate
  · refine ⟨i, .mmterminate i, rfl, ?_⟩
    rw [Level.step, if_pos ⟨hon, hend⟩, slsyshandler, Option.isSome_map, System.step,
      if_pos ⟨hon, hpc⟩]
    rfl
  by_cases huser : s.lines.terminals.memory.handler i = .user
  · refine ⟨i, ?_⟩
    cases hcall : s.lines.terminals.call i with
    | user =>
        refine ⟨.sys i 16 0 0, rfl, ?_⟩
        rw [Level.step, if_pos ⟨hon, hpc, hcall, huser⟩, if_neg (by decide)]
        rfl
    | readWait va =>
        refine hline (c := .line i (fun _ => 0) 0 0 0) hpc id ?_
        rw [Lines.step, Option.isSome_map, Terminals.step, h.straight, if_neg Bool.false_ne_true]
        simp only [hcall]
        rfl
    | writeWait =>
        refine hline (c := .call (.written i 0 0)) hpc id ?_
        rw [Lines.step, Option.isSome_map, Terminals.step, h.straight, if_neg Bool.false_ne_true]
        · simp only [hcall]
          rfl
        · exact fun _ hc => TerminalAction.noConfusion hc
    | load c va n j =>
        refine hline (c := .call (.go i)) hpc id ?_
        rw [Lines.step, Option.isSome_map]
        exact Terminals.go_isSome h.straight huser (hcall ▸ CallPc.noConfusion) (hcall ▸ id)
    | store c va n j =>
        refine hline (c := .call (.go i)) hpc id ?_
        rw [Lines.step, Option.isSome_map]
        exact Terminals.go_isSome h.straight huser (hcall ▸ CallPc.noConfusion) (hcall ▸ id)
  obtain ⟨j, hj⟩ : ∃ j, s.lines.terminals.memory.Goes j := by
    rcases h.lines.running.isolated.goes_or_waits h.asking hq huser hend with hi | ⟨-, j, -, hj⟩
    · exact ⟨i, hi⟩
    · exact ⟨j, hj⟩
  refine ⟨j, hline (c := .call (.mm (.handle j))) ?_ id ?_⟩
  · obtain ⟨m, hm⟩ := Option.isSome_iff_exists.mp hj
    have hhandle := (Memory.step_handle hm).2.2
    by_contra hj
    rcases h.outside j hj with hout | ⟨-, hout⟩
    · simp only [Memory.handle, hout] at hhandle
      cases hhandle
    · simp only [Memory.handle, hout] at hhandle
      cases hhandle
  · rw [Lines.step, Option.isSome_map, Terminals.step, h.straight, if_neg Bool.false_ne_true,
      Option.isSome_map]
    · exact hj
    · exact fun _ hc => TerminalAction.noConfusion hc

theorem Sound.starved (h : Sound p g s) (hon : s.system.cron ≠ .gone) (hno : ∀ q, ¬ s.Ready p q) :
    s.Starved := by
  have hquiet : ∀ q, ¬ s.system.Moves q := by
    intro q hq
    cases q with
    | cron =>
        refine hno .cron ⟨.cron, rfl, ?_⟩
        rw [Level.step, Option.isSome_map]
        exact hq
    | term i =>
        refine hno (.term i) ⟨.term i, rfl, ?_⟩
        rw [Level.step, Option.isSome_map]
        exact hq
  have huser : ∀ i, s.system.term i = .user → s.Starves i := by
    intro i hi
    by_contra hq
    obtain ⟨j, hj⟩ := h.ready_of_user hon hi hq
    exact hno _ hj
  obtain ⟨hcron, hterm⟩ := h.system.settled hon hquiet
  exact ⟨hcron, fun j => (hterm j).symm.imp (fun hj => ⟨false, hj⟩) (huser j)⟩

-- One of them at least waits when the count is right.
theorem Sound.exists_starves (h : Sound p g s) (hc : s.system.Counting) (hon : s.system.cron ≠ .gone)
    (hs : s.Starved) : ∃ i, s.Starves i := by
  by_contra hnone
  push Not at hnone
  have hquiet : ∀ q, ¬ s.system.Ready q := by
    intro q hq
    cases q with
    | cron =>
        refine h.not_ready hs .cron ⟨.cron, rfl, ?_⟩
        rw [Level.step, Option.isSome_map]
        exact hq
    | term i =>
        obtain ⟨b, hb⟩ := (hs.term i).resolve_right (hnone i)
        rcases hq with hq | hq
        · obtain ⟨t, ht⟩ := Option.isSome_iff_exists.mp hq
          have hterm := (System.step_term ht).2.2
          rw [System.termStep, hb] at hterm
          cases hterm
        · cases hq.symm.trans hb
  obtain ⟨q, hq⟩ := hc.exists_ready hon
  exact hquiet q hq

-- Then all frames have been handed out.
theorem Sound.exhausted (h : Sound p g s) (hs : s.Starved) (hi : s.Starves i) :
    s.lines.terminals.memory.pf_ctr = MAXFRAMES := by
  have hisolated := h.lines.running.isolated
  have hbound := hisolated.bound
  by_contra hne
  obtain ⟨q, hq, hfree⟩ := Sems.Permits.exists_free hisolated.frames (by omega) hi
  have hpays := mem_inside.mp hq
  cases q with
  | cron => exact hpays.elim
  | term j =>
      have hj : (s.lines.terminals.memory.handler j).Pays := hpays
      rcases hs.term j with ⟨b, hb⟩ | hj'
      · have hgone : s.system.term j ≠ .user := by
          rw [hb]
          exact TermPc.noConfusion
        exact (h.outside j hgone).not_handler (Q := MmPc.Pays) id id hj
      · exact hfree hj'

-- The support level comes to a standstill only when whoever is left waits for a frame,
-- and it stays there. All frames have then been handed out. That nobody is left when cron
-- waits takes a lost update of active_t_processes.
theorem run_standstill (hboot : Memory.p1 p.toLinker = some m₀)
    (h : Runs.run (step p) as (begin m₀ bytes clock) = some s)
    (hmeets : Runs.Along (step p) Meets as (begin m₀ bytes clock))
    (hon : s.system.cron ≠ .gone) :
    ((∀ q, ¬ s.Ready p q) ↔ s.Starved) ∧
      (s.Starved → (Runs.Along (step p) Undivided as (begin m₀ bytes clock) → ∃ i, s.Starves i) ∧
        ((∃ i, s.Starves i) → s.lines.terminals.memory.pf_ctr = MAXFRAMES) ∧
        ∀ bs s', Runs.run (step p) bs s = some s' → s'.Starved ∧ s'.system.cron ≠ .gone) := by
  obtain ⟨g, hg, hsound⟩ := run_sound hboot h hmeets
  refine ⟨⟨hsound.starved hon, hsound.not_ready⟩, fun hs => ⟨fun hdiv => ?_, ?_, ?_⟩⟩
  · exact hsound.exists_starves (run_counting hboot h hmeets hdiv) hon hs
  · rintro ⟨i, hi⟩
    exact hsound.exhausted hs hi
  intro bs s' hbs
  have hkeep : ∀ r b r', (Sound p g r ∧ r.Starved ∧ r.system.cron ≠ .gone) →
      Level.step p b r = some r' → Sound p g r' ∧ r'.Starved ∧ r'.system.cron ≠ .gone := by
    rintro r b r' ⟨hr, hstarved, hcron⟩ hb
    have hnone : ∀ q, b.actor ≠ some q := by
      intro q hq
      exact hr.not_ready hstarved q ⟨b, hq, hb ▸ rfl⟩
    cases b with
    | tick =>
        have hmeets : r.Meets .tick := trivial
        have hr' := hr.step hg hmeets hb
        rw [Level.step] at hb
        obtain ⟨t, ht, rfl⟩ := Option.map_eq_some_iff.mp hb
        rw [System.step_tick ht] at hr' ⊢
        exact ⟨hr', ⟨hstarved.cron, hstarved.term⟩, hcron⟩
    | cron => exact absurd rfl (hnone _)
    | term i => exact absurd rfl (hnone _)
    | sys i n d3 d4 => exact absurd rfl (hnone _)
    | prog i => exact absurd rfl (hnone _)
    | line c => exact absurd rfl (hnone _)
    | mmterminate i => exact absurd rfl (hnone _)
  exact (Runs.run_preserves hkeep ⟨hsound, hs, hon⟩ hbs).2

-- A page fault that gets no frame.
def asking (i : Term) (pg : ℕ) : List LevelAction :=
  [.line (.call (.mm (.fault i PAGEMISS 1 pg))), .line (.call (.mm (.handle i)))]

-- T-process 0 takes the frames that the bootcode has left.
def taking : List LevelAction := started ++ (List.range 18).flatMap (faulting 0)

theorem run_standstill_sample : ∃ m₀ s, Memory.p1 Image.image.toLinker = some m₀ ∧
    Runs.run (step Image.image) (taking ++ asking 0 18 ++ asking 1 0) (begin m₀ (fun _ => 0) 0) =
      some s ∧ (∀ q, ¬ s.Ready Image.image q) ∧ s.lines.terminals.memory.pf_ctr = MAXFRAMES := by
  have hend : ∃ m₀ ∈ Memory.p1 Image.image.toLinker,
      Runs.Along (step Image.image) Meets (taking ++ asking 0 18 ++ asking 1 0)
        (begin m₀ (fun _ => 0) 0) ∧
      Runs.Along (step Image.image) Undivided (taking ++ asking 0 18 ++ asking 1 0)
        (begin m₀ (fun _ => 0) 0) ∧
      ∃ s ∈ Runs.run (step Image.image) (taking ++ asking 0 18 ++ asking 1 0)
        (begin m₀ (fun _ => 0) 0), s.system.cron ≠ .gone ∧
          Proc.cron ∈ s.system.sems.queue .wake_up_cron_sem ∧
          ∀ i, Proc.term i ∈ s.lines.terminals.memory.sems.queue .sem_pf := by
    decide +kernel
  obtain ⟨m₀, hboot, hmeets, hdiv, s, h, hon, hcron, hwait⟩ := hend
  have hstarved : s.Starved := ⟨hcron, fun i => Or.inr (hwait i)⟩
  obtain ⟨hiff, hall⟩ := run_standstill hboot h hmeets hon
  obtain ⟨hstarves, hframes, -⟩ := hall hstarved
  exact ⟨m₀, s, hboot, h, hiff.mpr hstarved, hframes (hstarves hdiv)⟩

end Standstill

section Starvation

variable {p : Image} {g : Frames} {s s' : Level} {a : LevelAction} {i : Term} {m₀ : Memory}
  {bytes : Bytes} {clock : Int} {as bs : List LevelAction}

-- A T-process in its program is counted.
theorem counts (hc : s.system.Counting) (hpc : s.system.term i = .user) :
    1 ≤ s.system.active_t_processes := by
  have hone : (s.system.term i).active = 1 := by
    rw [hpc]
    rfl
  rw [hc.tallied.counted, ← hone]
  exact Finset.single_le_sum (fun j _ => (s.system.term j).active_nonneg) (Finset.mem_univ i)

theorem Sound.keeps_starving (h : Sound p g s) (hc : s.system.Counting) (hi : s.Starves i)
    (hends : ¬ s.system.cron.Ends) (hs : Level.step p a s = some s') :
    s'.Starves i ∧ ¬ s'.system.cron.Ends := by
  have hcount := counts hc (h.starves hi).1
  rcases step_turns hs with ⟨b, hb, hlines, -, -, -⟩ | ⟨c, hc, hsystem, -, -, -⟩ | rfl | ⟨k, -, rfl⟩
  · refine ⟨?_, System.step_ends hb (by omega) hends⟩
    rw [Starves, hlines]
    exact hi
  · refine ⟨?_, hsystem ▸ hends⟩
    rcases Lines.step_memory hc with heq | ⟨d, hd⟩
    · rw [Starves, heq]
      exact hi
    · exact Memory.step_waits hd hi
  · exact ⟨hi, hends⟩
  · exact ⟨hi, hends⟩

-- A T-process that waits for a frame is never released and never ends, and with it
-- the shutdown is out of reach, as long as no two updates of active_t_processes overlap.
theorem run_starved (hboot : Memory.p1 p.toLinker = some m₀)
    (h : Runs.run (step p) as (begin m₀ bytes clock) = some s)
    (h' : Runs.run (step p) bs s = some s')
    (hmeets : Runs.Along (step p) Meets (as ++ bs) (begin m₀ bytes clock))
    (hdiv : Runs.Along (step p) Undivided (as ++ bs) (begin m₀ bytes clock))
    (hi : s.Starves i) (hends : ¬ s.system.cron.Ends) :
    s'.Starves i ∧ s'.system.term i = .user ∧ 1 ≤ s'.system.active_t_processes ∧
      ¬ s'.system.cron.Ends := by
  obtain ⟨g, hg, hsound⟩ := run_sound hboot h hmeets.append_left
  have hcounting := run_counting hboot h hmeets.append_left hdiv.append_left
  have hkeep : ∀ r b r', (Sound p g r ∧ r.system.Counting ∧ r.Starves i ∧ ¬ r.system.cron.Ends) →
      r.Meets b ∧ r.Undivided b → Level.step p b r = some r' →
      Sound p g r' ∧ r'.system.Counting ∧ r'.Starves i ∧ ¬ r'.system.cron.Ends := by
    rintro r b r' ⟨hr, hc, hwait, hcron⟩ ⟨hb, hd⟩ hs
    exact ⟨hr.step hg hb hs, hr.counting_step hc hb hd hs, hr.keeps_starving hc hwait hcron hs⟩
  obtain ⟨hend, hc, hi', hends'⟩ := Runs.run_invariant hkeep ⟨hsound, hcounting, hi, hends⟩
    ((hmeets.append_right h).and (hdiv.append_right h)) h'
  have hpc := (hend.starves hi').1
  exact ⟨hi', hpc, counts hc hpc, hends'⟩

-- T-process 1 ends meanwhile.
theorem run_starved_sample : ∃ m₀ s', Memory.p1 Image.image.toLinker = some m₀ ∧
    Runs.run (step Image.image) (taking ++ asking 0 18 ++ [.prog 1, .term 1, .term 1, .term 1, .term 1])
      (begin m₀ (fun _ => 0) 0) = some s' ∧ 1 ≤ s'.system.active_t_processes := by
  have hend : ∃ m₀ ∈ Memory.p1 Image.image.toLinker,
      Runs.Along (step Image.image) Meets
        (taking ++ asking 0 18 ++ [.prog 1, .term 1, .term 1, .term 1, .term 1])
        (begin m₀ (fun _ => 0) 0) ∧
      Runs.Along (step Image.image) Undivided
        (taking ++ asking 0 18 ++ [.prog 1, .term 1, .term 1, .term 1, .term 1])
        (begin m₀ (fun _ => 0) 0) ∧
      ∃ s ∈ Runs.run (step Image.image) (taking ++ asking 0 18) (begin m₀ (fun _ => 0) 0),
        Proc.term 0 ∈ s.lines.terminals.memory.sems.queue .sem_pf ∧ s.system.cron = .loop ∧
        ∃ s' ∈ Runs.run (step Image.image) [.prog 1, .term 1, .term 1, .term 1, .term 1] s,
          s'.system.term 1 = .gone false := by
    decide +kernel
  obtain ⟨m₀, hboot, hmeets, hdiv, s, h, hwait, hcron, s', h', -⟩ := hend
  have hends : ¬ s.system.cron.Ends := hcron ▸ id
  refine ⟨m₀, s', hboot, ?_, (run_starved hboot h h' hmeets hdiv hwait hends).2.2.1⟩
  rw [Runs.run_append, h]
  exact h'

end Starvation

section Clean

variable {p : Image} {g : Frames} {s s' : Level} {i : Term} {m₀ : Memory} {bytes : Bytes}
  {clock : Int} {as : List LevelAction}

-- A T-process waits on a semaphore of cron in delay only.
theorem Sound.unblocked (h : Sound p g s) (hlocks : ¬ (s.system.term i).Locks)
    (hasks : ¬ (s.system.term i).Asks) : ¬ s.system.sems.Blocked (.term i) := by
  rw [System.blocked_iff]
  rintro (hq | hq | ⟨j, hq⟩)
  · obtain ⟨n, -, hpermits⟩ := h.system.granted
    have hl : Locks s.system.cron s.system.term (.term i) := mem_inside.mp (hpermits.within _ hq)
    exact hlocks hl
  · exact Proc.noConfusion (h.system.waits _ hq).1
  · have hentry := h.system.entry j
    cases hentry.own _ hq
    have hneg := Sems.Balanced.word_neg hentry.balanced hq
    have hword := (hentry.idle hasks).2.1
    omega

theorem Sound.unblocked_pages (h : Sound p g s) (hout : s.Outside i) :
    ¬ s.lines.terminals.memory.sems.Blocked (.term i) ∧
      ¬ (s.lines.terminals.memory.handler i).Locks := by
  refine ⟨?_, hout.not_handler (Q := MmPc.Locks) id id⟩
  rintro ⟨x, hq⟩
  cases x with
  | sem_pf =>
      obtain ⟨d, hd⟩ := h.asking i hq
      exact hout.not_handler (Q := (· = .lockCounter d)) MmPc.noConfusion MmPc.noConfusion hd
  | sem_mm => exact hout.not_handler (Q := MmPc.Starts) id id (h.lines.running.isolated.waits i hq)

-- A T-process that has called terminate, from its program, after a trap or out of a
-- copy loop, waits for nothing and has no semaphore locked.
theorem run_ends_clean (hboot : Memory.p1 p.toLinker = some m₀)
    (h : Runs.run (step p) as (begin m₀ bytes clock) = some s)
    (hmeets : Runs.Along (step p) Meets as (begin m₀ bytes clock))
    (hpast : s.system.term i = .terminate ∨ (∃ active, s.system.term i = .lower active) ∨
      (s.system.term i).Past) :
    ¬ s.system.sems.Blocked (.term i) ∧ ¬ s.lines.terminals.memory.sems.Blocked (.term i) ∧
      ¬ (s.system.term i).Locks ∧ ¬ (s.lines.terminals.memory.handler i).Locks := by
  obtain ⟨g, -, hsound⟩ := run_sound hboot h hmeets
  have hpc : s.system.term i ≠ .user ∧ ¬ (s.system.term i).Locks ∧ ¬ (s.system.term i).Asks := by
    cases hterm : s.system.term i with
    | terminate => exact ⟨TermPc.noConfusion, id, id⟩
    | lower => exact ⟨TermPc.noConfusion, id, id⟩
    | test => exact ⟨TermPc.noConfusion, id, id⟩
    | notify => exact ⟨TermPc.noConfusion, id, id⟩
    | terminateproc b => exact ⟨TermPc.noConfusion, id, id⟩
    | gone b => exact ⟨TermPc.noConfusion, id, id⟩
    | _ =>
        rw [hterm] at hpast
        rcases hpast with hpc | ⟨n, hpc⟩ | hpc
        · cases hpc
        · cases hpc
        · exact hpc.elim
  obtain ⟨hpages, hlocks⟩ := hsound.unblocked_pages (hsound.outside i hpc.1)
  exact ⟨hsound.unblocked hpc.2.1 hpc.2.2, hpages, hpc.2.1, hlocks⟩

-- T-process 0 ends on a segment it does not have.
theorem run_ends_clean_sample : ∃ m₀ s, Memory.p1 Image.image.toLinker = some m₀ ∧
    Runs.run (step Image.image)
      (started ++ [.line (.call (.mm (.fault 0 SEGMISS 5 0))), .mmterminate 0])
      (begin m₀ (fun _ => 0) 0) = some s ∧ ¬ s.system.sems.Blocked (.term 0) := by
  have hend : ∃ m₀ ∈ Memory.p1 Image.image.toLinker,
      Runs.Along (step Image.image) Meets
        (started ++ [.line (.call (.mm (.fault 0 SEGMISS 5 0))), .mmterminate 0])
        (begin m₀ (fun _ => 0) 0) ∧
      ∃ s ∈ Runs.run (step Image.image)
        (started ++ [.line (.call (.mm (.fault 0 SEGMISS 5 0))), .mmterminate 0])
        (begin m₀ (fun _ => 0) 0), s.system.term 0 = .terminate := by
    decide +kernel
  obtain ⟨m₀, hboot, hmeets, s, h, hpc⟩ := hend
  exact ⟨m₀, s, hboot, h, (run_ends_clean hboot h hmeets (Or.inl hpc)).1⟩

end Clean

end Level

end Hoca.Support
