import Hoca.Support.Access
import Hoca.Support.Shared

namespace Hoca.Support

open Semaphores

namespace Memory

variable {l : Linker} {g : Frames} {s s' s₀ s₁ : Memory} {a : MmAction} {as bs : List MmAction}
  {d : Desc} {i j : Term} {pg : Fin 32}

section Private

-- A handler that gets a frame for a page of segment 1 does so for its own T-process,
-- while the page is missing.
def Private (s : Memory) : Prop :=
  ∀ i j pg, (s.handler i).desc = some (.user j pg) → j = i ∧ (s.pd (.user j pg)).pd_p = false

theorem slmmhandler_user {typ seg n : ℕ} (h : (slmmhandler i typ seg n).desc = some (.user j pg)) :
    ∃ hn : n < 32, typ = PAGEMISS ∧ seg = 1 ∧ j = i ∧ pg = ⟨n, hn⟩ := by
  unfold slmmhandler at h
  split at h
  · next htyp =>
    split at h
    · cases h
    · next hseg =>
      split at h
      · next hn =>
        simp only [MmPc.desc, Option.some.injEq] at h
        split at h
        · next hone =>
          cases h
          exact ⟨hn, htyp, hone, rfl, rfl⟩
        · cases h
      · cases h
  · cases h

theorem booted_private (h : Booted l g s₀) : s₀.Private := by
  intro i j pg hi
  rw [h.idle i] at hi
  cases hi

theorem Private.step (h : s.Private) (hs : Memory.step a s = some s') : s'.Private := by
  cases a with
  | fault i typ seg n =>
      obtain ⟨-, hmiss, rfl⟩ := step_fault hs
      intro k j pg hk
      by_cases hki : k = i
      · subst hki
        simp only [setHandler, Function.update_self] at hk
        obtain ⟨hn, htyp, hseg, rfl, rfl⟩ := slmmhandler_user hk
        exact ⟨rfl, (hmiss htyp hn).1 hseg⟩
      · simp only [setHandler, Function.update_of_ne hki] at hk
        exact h k j pg hk
  | handle i =>
      obtain ⟨-, -, hs⟩ := step_handle hs
      obtain ⟨pc, hhandler, hcase⟩ := handle_desc hs
      intro k j pg hk
      rw [hhandler] at hk
      rcases hcase with ⟨hpc, hpd⟩ | ⟨d, f, hpc, rfl, hpd⟩
      · have hold : (s.handler k).desc = some (.user j pg) := by
          by_cases hki : k = i
          · subst hki
            rw [Function.update_self] at hk
            exact hpc.symm.trans hk
          · rw [Function.update_of_ne hki] at hk
            exact hk
        exact ⟨(h k j pg hold).1, (hpd _).trans (h k j pg hold).2⟩
      · have hki : k ≠ i := by
          rintro rfl
          rw [Function.update_self] at hk
          cases hk
        rw [Function.update_of_ne hki] at hk
        obtain ⟨rfl, hp⟩ := h k j pg hk
        refine ⟨rfl, ?_⟩
        have hd : Desc.user j pg ≠ d := by
          rintro rfl
          exact hki (h i j pg (congrArg MmPc.desc hpc)).1
        rw [hpd, Function.update_of_ne hd]
        exact hp

-- A page of a T-process that is present stays as it is.
theorem Private.keeps (h : s.Private) (hs : Memory.step a s = some s')
    (hp : (s.pd (.user i pg)).pd_p = true) : s'.pd (.user i pg) = s.pd (.user i pg) := by
  have hframe : (s'.pd (.user i pg)).pd_frame = (s.pd (.user i pg)).pd_frame := by
    rcases step_frame hs (.user i pg) with hf | ⟨j, f, rfl, hpc, -⟩
    · exact hf
    · have hmissing := (h j i pg (congrArg MmPc.desc hpc)).2
      rw [hp] at hmissing
      cases hmissing
  have hpresent := (step_present hs hp).trans hp.symm
  cases hnew : s'.pd (.user i pg) with
  | mk p f =>
    cases hold : s.pd (.user i pg) with
    | mk p₀ f₀ =>
      rw [hnew, hold] at hframe hpresent
      exact congrArg₂ Pd.mk hpresent hframe

end Private

section Answers

-- The handler is still to answer the fault, or the page is present.
def Answers (i : Term) (d : Desc) (s : Memory) : Prop :=
  (s.handler i).desc = some d ∨ (s.pd d).pd_p = true

theorem Answers.step (h : s.Answers i d) (hs : Memory.step a s = some s') : s'.Answers i d := by
  rcases h with h | h
  · cases a with
    | fault j typ seg n =>
        obtain ⟨hpc, -, rfl⟩ := step_fault hs
        have hij : i ≠ j := by
          rintro rfl
          rw [hpc] at h
          cases h
        left
        simp only [setHandler, Function.update_of_ne hij]
        exact h
    | handle j =>
        obtain ⟨-, -, hs⟩ := step_handle hs
        obtain ⟨pc, hhandler, hcase⟩ := handle_desc hs
        by_cases hij : i = j
        · subst hij
          rcases hcase with ⟨hpc, -⟩ | ⟨d', f, hpc, rfl, hpd⟩
          · left
            rw [hhandler, Function.update_self]
            exact hpc.trans h
          · right
            rw [hpc] at h
            cases h
            rw [hpd, Function.update_self]
            rfl
        · left
          rw [hhandler, Function.update_of_ne hij]
          exact h
  · exact Or.inr (step_present hs h)

theorem answers_fault {seg n : ℕ} (hn : n < 32) (hseg : seg = 1 ∨ seg = 2)
    (hs : Memory.step (.fault i PAGEMISS seg n) s = some s') :
    s'.Answers i (if seg = 1 then .user i ⟨n, hn⟩ else .shared ⟨n, hn⟩) := by
  obtain ⟨-, -, rfl⟩ := step_fault hs
  left
  simp only [setHandler, Function.update_self]
  rw [slmmhandler, if_pos rfl, if_neg (by omega), dif_pos hn]
  rfl

end Answers

-- A page of a T-process keeps its frame as soon as it has one, and a T-process that
-- has trapped on a missing page finds it present when it runs again.
theorem run_pages {as bs : List MmAction} (hboot : p1 l = some s₀) (h : run as s₀ = some s)
    (h' : run bs s = some s') :
    (∀ i pg, (s.pd (.user i pg)).pd_p = true → s'.pd (.user i pg) = s.pd (.user i pg)) ∧
      (∀ pg, (s.pd (.shared pg)).pd_p = true → (s'.pd (.shared pg)).pd_p = true) ∧
      ∀ i seg n, (hn : n < 32) → seg = 1 ∨ seg = 2 →
        bs.head? = some (.fault i PAGEMISS seg n) → s'.handler i = .user →
          (s'.pd (if seg = 1 then .user i ⟨n, hn⟩ else .shared ⟨n, hn⟩)).pd_p = true := by
  obtain ⟨g, hg, hbooted⟩ := p1_booted hboot
  have hprivate : s.Private :=
    Runs.run_preserves (fun _ _ _ h hs => h.step hs) (booted_private hbooted) h
  refine ⟨fun i pg hp => ?_, fun pg hp => ?_, fun i seg n hn hseg hhead huser => ?_⟩
  · have hinv := Runs.run_preserves (I := fun r => r.Private ∧ r.pd (.user i pg) = s.pd (.user i pg))
      (fun r a r' ⟨hr, heq⟩ hs => ⟨hr.step hs, (hr.keeps hs (by rw [heq]; exact hp)).trans heq⟩)
      ⟨hprivate, rfl⟩ h'
    exact hinv.2
  · exact Runs.run_preserves (I := fun r => (r.pd (.shared pg)).pd_p = true)
      (fun r a r' hr hs => step_present hs hr) hp h'
  · cases bs with
    | nil => cases hhead
    | cons b bs =>
        cases hhead
        obtain ⟨r, hs, hrest⟩ := Option.bind_eq_some_iff.mp h'
        have hanswers := Runs.run_preserves (fun r a r' hr hs => Answers.step hr hs)
          (answers_fault hn hseg hs) hrest
        rcases hanswers with hdesc | hp
        · rw [huser] at hdesc
          cases hdesc
        · exact hp

-- T-process 0 misses its first page, and runs again when it is there.
theorem run_pages_sample : ∃ s₀ s, p1 small = some s₀ ∧
    run (.fault 0 PAGEMISS 1 0 :: List.replicate 9 (.handle 0)) s₀ = some s ∧
      (s.pd (.user 0 0)).pd_p = true := by
  have hend : ∃ s₀ ∈ p1 small,
      ∃ s ∈ run (.fault 0 PAGEMISS 1 0 :: List.replicate 9 (.handle 0)) s₀, s.handler 0 = .user := by
    decide +kernel
  obtain ⟨s₀, hboot, s, h, huser⟩ := hend
  have hpages := (run_pages hboot (rfl : run [] s₀ = some s₀) h).2.2
  exact ⟨s₀, s, hboot, h, hpages 0 1 0 (by decide) (Or.inl rfl) rfl huser⟩

section Pool

-- Who waits for a frame has just asked for it.
def Asking (s : Memory) : Prop :=
  ∀ i, Proc.term i ∈ s.sems.queue .sem_pf → ∃ d, s.handler i = .lockCounter d

theorem booted_asking (h : Booted l g s₀) : s₀.Asking := by
  intro i hi
  have hpays := h.isolated.frames.within _ hi
  rw [inside_idle h.idle (P := MmPc.Pays) id] at hpays
  cases hpays

-- A handler goes on and those who wait for a frame still do.
theorem Asking.turns (h : s.Asking) {pc : MmPc} (hq : Proc.term i ∉ s.sems.queue .sem_pf)
    (hhandler : s'.handler = Function.update s.handler i pc)
    (hqueue : s'.sems.queue .sem_pf = s.sems.queue .sem_pf) : s'.Asking := by
  intro k hk
  rw [hqueue] at hk
  have hki : k ≠ i := by
    rintro rfl
    exact hq hk
  rw [hhandler, Function.update_of_ne hki]
  exact h k hk

theorem handle_frames (hs : s.handle i = some s') :
    ∃ pc, s'.handler = Function.update s.handler i pc ∧
      (s'.sems.queue .sem_pf = s.sems.queue .sem_pf ∨
        (∃ d, pc = .lockCounter d) ∧ s'.sems = s.sems.op (.term i) (.P .sem_pf)) := by
  have hother : ∀ o : Op PageSem, o.sem ≠ .sem_pf →
      (s.sems.op (.term i) o).queue .sem_pf = s.sems.queue .sem_pf :=
    fun o ho => Sems.queue_op_of_ne ho
  unfold Memory.handle at hs
  split at hs
  case h_2 d hpc =>
    cases hs
    exact ⟨_, rfl, Or.inr ⟨⟨d, rfl⟩, rfl⟩⟩
  case h_3 d hpc =>
    cases hs
    exact ⟨_, rfl, Or.inl (hother (.P .sem_mm) (by decide))⟩
  case h_6 d f hpc =>
    cases hs
    exact ⟨_, rfl, Or.inl (hother (.V .sem_mm) (by decide))⟩
  case h_7 d f hpc =>
    cases hs
    exact ⟨_, rfl, Or.inl (hother (.P .sem_mm) (by decide))⟩
  case h_10 d hpc =>
    cases hs
    exact ⟨_, rfl, Or.inl (hother (.V .sem_mm) (by decide))⟩
  all_goals cases hs
  all_goals exact ⟨_, rfl, Or.inl rfl⟩

theorem Asking.step (h : s.Asking) (hs : Memory.step a s = some s') : s'.Asking := by
  cases a with
  | fault i typ seg n =>
      obtain ⟨hpc, -, rfl⟩ := step_fault hs
      have hhandler : (s.setHandler i (slmmhandler i typ seg n)).handler =
          Function.update s.handler i (slmmhandler i typ seg n) := rfl
      refine h.turns (fun hq => ?_) hhandler rfl
      obtain ⟨d, hd⟩ := h i hq
      rw [hpc] at hd
      cases hd
  | handle i =>
      obtain ⟨hpf, -, hs⟩ := step_handle hs
      obtain ⟨pc, hhandler, hqueue | ⟨⟨d, rfl⟩, hsems⟩⟩ := handle_frames hs
      · exact h.turns hpf hhandler hqueue
      · intro k hk
        rw [hsems] at hk
        rw [hhandler]
        by_cases hki : k = i
        · subst hki
          exact ⟨d, Function.update_self ..⟩
        · rw [Function.update_of_ne hki]
          rcases Sems.mem_queue_op hk with hk | ⟨hk, -⟩
          · exact h k hk
          · exact absurd (Proc.term.inj hk) hki

-- Nobody gives a frame back.
theorem step_waits {p : Proc} (hs : Memory.step a s = some s') (hp : p ∈ s.sems.queue .sem_pf) :
    p ∈ s'.sems.queue .sem_pf := by
  cases a with
  | fault i typ seg n =>
      obtain ⟨-, -, rfl⟩ := step_fault hs
      exact hp
  | handle i =>
      obtain ⟨-, -, hs⟩ := step_handle hs
      obtain ⟨pc, -, hqueue | ⟨-, hsems⟩⟩ := handle_frames hs
      · exact hqueue.symm ▸ hp
      · rw [hsems, Sems.queue_P]
        split
        · exact List.mem_append_left _ hp
        · exact hp

-- A handler can take its next step.
def Goes (s : Memory) (i : Term) : Prop := (Memory.step (.handle i) s).isSome

theorem goes_of (hpf : Proc.term i ∉ s.sems.queue .sem_pf) (hmm : Proc.term i ∉ s.sems.queue .sem_mm)
    (huser : s.handler i ≠ .user) (hend : s.handler i ≠ .terminate) : s.Goes i := by
  show (Memory.step (.handle i) s).isSome
  rw [Memory.step, if_neg fun hq => hq.elim hpf hmm]
  unfold Memory.handle
  split
  case h_1 hpc => exact absurd hpc huser
  case h_11 hpc => exact absurd hpc hend
  all_goals rfl

-- Who waits at sem_mm waits for a handler that has locked it and can go on.
theorem Isolated.exists_locks (h : s.Isolated) (ha : s.Asking)
    (hmm : Proc.term i ∈ s.sems.queue .sem_mm) : ∃ j, (s.handler j).Locks ∧ s.Goes j := by
  obtain ⟨q, hq, hfree⟩ := Sems.Permits.exists_free h.mutex (le_refl 1) hmm
  have hlocks := mem_inside.mp hq
  cases q with
  | cron => exact hlocks.elim
  | term j =>
      have hj : (s.handler j).Locks := hlocks
      refine ⟨j, hj, goes_of (fun hjq => ?_) hfree (fun hpc => ?_) fun hpc => ?_⟩
      · obtain ⟨d, hd⟩ := ha j hjq
        rw [hd] at hj
        exact hj
      · rw [hpc] at hj
        exact hj
      · rw [hpc] at hj
        exact hj

-- While a handler does not wait for a frame, it can go on, or it waits at sem_mm for
-- the one that has locked it, which can.
theorem Isolated.goes_or_waits (h : s.Isolated) (ha : s.Asking)
    (hpf : Proc.term i ∉ s.sems.queue .sem_pf) (huser : s.handler i ≠ .user)
    (hend : s.handler i ≠ .terminate) :
    s.Goes i ∨ Proc.term i ∈ s.sems.queue .sem_mm ∧ ∃ j, (s.handler j).Locks ∧ s.Goes j := by
  by_cases hmm : Proc.term i ∈ s.sems.queue .sem_mm
  · exact Or.inr ⟨hmm, h.exists_locks ha hmm⟩
  · exact Or.inl (goes_of hpf hmm huser hend)

-- The pool has twenty frames: nobody waits for one before the last has been asked
-- for, and then for good, and the handlers that have one come to their end.
theorem run_pool {as : List MmAction} (hboot : p1 l = some s₀) (h : run as s₀ = some s) :
    (s.sems.queue .sem_pf ≠ [] → s.pf_ctr + (inside (At MmPc.Pays s.handler)).card =
      MAXFRAMES + (s.sems.queue .sem_pf).length) ∧
    (∀ bs s', run bs s = some s' → ∀ p ∈ s.sems.queue .sem_pf, p ∈ s'.sems.queue .sem_pf) ∧
    ∀ i, Proc.term i ∉ s.sems.queue .sem_pf → s.handler i ≠ .user → s.handler i ≠ .terminate →
      s.Goes i ∨ Proc.term i ∈ s.sems.queue .sem_mm ∧ ∃ j, (s.handler j).Locks ∧ s.Goes j := by
  obtain ⟨g, hg, hbooted⟩ := p1_booted hboot
  have hrunning := hbooted.running.run hg h
  have hasking : s.Asking :=
    Runs.run_preserves (fun _ _ _ h hs => h.step hs) (booted_asking hbooted) h
  refine ⟨fun hne => ?_, fun bs s' hbs p hp => ?_, fun i hpf huser hend => ?_⟩
  · obtain ⟨p, hp⟩ := List.exists_mem_of_ne_nil _ hne
    have hneg := hrunning.isolated.frames.balanced.word_neg hp
    have hlen := hrunning.isolated.frames.balanced
    have hword := hrunning.isolated.frames.word
    unfold Sems.Balanced at hlen
    omega
  · exact Runs.run_preserves (I := fun r => p ∈ r.sems.queue .sem_pf)
      (fun r a r' hr hs => step_waits hs hr) hp hbs
  · exact hrunning.isolated.goes_or_waits hasking hpf huser hend

-- T-process 0 takes all frames but two, then both ask for one, and the other one waits
-- at sem_mm.
def crowded : List MmAction :=
  ((List.range 16).flatMap fun n => .fault 0 PAGEMISS 1 n :: List.replicate 9 (.handle 0)) ++
    [.fault 0 PAGEMISS 1 16, .fault 1 PAGEMISS 1 0, .handle 0, .handle 1, .handle 0, .handle 1]

-- Both get one, and T-process 1 asks for another.
def exhausted : List MmAction :=
  List.replicate 4 (.handle 0) ++ List.replicate 4 (.handle 1) ++ List.replicate 3 (.handle 0) ++
    List.replicate 3 (.handle 1) ++ [.fault 1 PAGEMISS 1 1, .handle 1]

theorem run_pool_sample : ∃ s₀ s s₁ s₂, p1 small = some s₀ ∧ run crowded s₀ = some s ∧
    run exhausted s = some s₁ ∧ run [.fault 0 PAGEMISS 2 5, .handle 0] s₁ = some s₂ ∧
      (Proc.term 1 ∈ s.sems.queue .sem_mm ∧ ∃ j, (s.handler j).Locks ∧ s.Goes j) ∧
      s₁.sems.queue .sem_pf = [.term 1] ∧
      s₁.pf_ctr + (inside (At MmPc.Pays s₁.handler)).card = MAXFRAMES + 1 ∧
      Proc.term 1 ∈ s₂.sems.queue .sem_pf := by
  have hmem : ∃ s₀ ∈ p1 small, ∃ s ∈ run crowded s₀, ∃ s₁ ∈ run exhausted s,
      ∃ s₂ ∈ run [.fault 0 PAGEMISS 2 5, .handle 0] s₁,
        ((Memory.step (.handle 1) s).isSome = false ∧ s.handler 1 ≠ .user ∧
          s.handler 1 ≠ .terminate ∧ s.sems.queue .sem_pf = []) ∧
        s₁.sems.queue .sem_pf = [.term 1] := by
    decide +kernel
  obtain ⟨s₀, hboot, s, h, s₁, h₁, s₂, h₂, ⟨hstuck, huser, hend, hfree⟩, hqueue⟩ := hmem
  have hrun : run (crowded ++ exhausted) s₀ = some s₁ := by
    rw [run, Runs.run_append, Option.bind_eq_some_iff]
    exact ⟨s, h, h₁⟩
  have hgoes := (run_pool hboot h).2.2 1 (by rw [hfree]; exact List.not_mem_nil) huser hend
  have hwaits := hgoes.resolve_left fun hgoes => by
    rw [Goes, hstuck] at hgoes
    cases hgoes
  have hcount := (run_pool hboot hrun).1 (by rw [hqueue]; exact List.cons_ne_nil _ _)
  have hkept := (run_pool hboot hrun).2.1 _ s₂ h₂ (.term 1)
    (by rw [hqueue]; exact List.mem_singleton_self _)
  rw [hqueue] at hcount
  exact ⟨s₀, s, s₁, s₂, hboot, h, h₁, h₂, hwaits, hqueue, hcount, hkept⟩

end Pool

section Reach

-- The frames of the support level that all its processes have: page 2, the device
-- registers, and its text and variables.
def Common (l : Linker) (f : ℕ) : Prop :=
  f = 2 ∨ f = START_DEVICE_REG ∨ (l.startt1 / PAGESIZE ≤ f ∧ f ≤ l.etext / PAGESIZE) ∨
    (l.startd1 / PAGESIZE ≤ f ∧ f ≤ l.edata / PAGESIZE) ∨
    (l.startb1 / PAGESIZE ≤ f ∧ f ≤ l.end_ / PAGESIZE)

-- The frames that a process finds through its segment tables: a T-process in its
-- program and in the support level, cron in the support level.
def Reaches (s : Memory) : Proc → ℕ → Prop
  | .cron, f => ∃ pgFrame, (s.cron_pd_table pgFrame).pd_p = true ∧
      (s.cron_pd_table pgFrame).pd_frame = f
  | .term i, f => ∃ state, (state = SUPPORT_SYS_TRAP_NEW_STATE i ∨ state = terminalProcessState i) ∧
      ∃ right a, s.translate state right a = .ok f

-- What is not common to all: the stacks of its handlers, or of cron, and its pages.
inductive Owned (l : Linker) (s : Memory) : Proc → ℕ → Prop where
  | stack (i : Term) (f : ℕ) (h : f = l.end_ / PAGESIZE + 2 + i ∨ f = l.end_ / PAGESIZE + 7 + i) :
      Owned l s (.term i) f
  | cron (f : ℕ) (h : l.end_ / PAGESIZE + 12 ≤ f ∧ f ≤ l.end_ / PAGESIZE + 14) : Owned l s .cron f
  | page (i : Term) (pg : Fin 32) (h : (s.pd (.user i pg)).pd_p = true) :
      Owned l s (.term i) (s.pd (.user i pg)).pd_frame

def SharedPage (s : Memory) (f : ℕ) : Prop :=
  ∃ pg, (s.pd (.shared pg)).pd_p = true ∧ (s.pd (.shared pg)).pd_frame = f

theorem translate_descriptor {state : TrapState} {right : BitVec 3} {x : BitVec 32} {f : ℕ}
    (h : s.translate state right x = .ok f) : ∃ table, (state.s_crp (v_seg x)).sd_pta = some table ∧
      (s.descriptor table (v_page x)).pd_p = true ∧
        (s.descriptor table (v_page x)).pd_frame = f := by
  unfold translate at h
  dsimp only at h
  split at h
  · split at h
    · split at h
      · cases ht : (state.s_crp (v_seg x)).sd_pta with
        | none =>
            rw [ht] at h
            cases h
        | some table =>
            rw [ht] at h
            dsimp only at h
            split at h
            · next hp => exact ⟨table, rfl, hp, Except.ok.inj h⟩
            · cases h
      · cases h
    · cases h
  · cases h

theorem kernelPage_common (hg : pageinit l = some g) {pgFrame : Fin KERNEL_PAGES}
    (hp : (kernelPage l g i pgFrame).pd_p = true) : Common l pgFrame ∨ Owned l s (.term i) pgFrame := by
  obtain ⟨-, -, hsys, hmm⟩ := pageinit_eq hg
  simp only [kernelPage, hsys, hmm, Fin.val_castLE] at hp
  unfold Common
  by_cases htwo : pgFrame.val = 2
  · exact Or.inl (Or.inl htwo)
  rw [if_neg htwo] at hp
  by_cases hreg : pgFrame.val = START_DEVICE_REG
  · exact Or.inl (Or.inr (Or.inl hreg))
  rw [if_neg hreg] at hp
  split at hp
  · next htext => exact Or.inl (Or.inr (Or.inr (Or.inl htext)))
  · split at hp
    · next hdata => exact Or.inl (Or.inr (Or.inr (Or.inr (Or.inl hdata))))
    · split at hp
      · next hbss => exact Or.inl (Or.inr (Or.inr (Or.inr (Or.inr hbss))))
      · split at hp
        · next hstack => exact Or.inr (.stack i _ (Or.inl hstack))
        · split at hp
          · next hstack => exact Or.inr (.stack i _ (Or.inr hstack))
          · cases hp

theorem cronPage_common (hg : pageinit l = some g) {pgFrame : Fin KERNEL_PAGES}
    (hp : (cronPage l g pgFrame).pd_p = true) : Common l pgFrame ∨ Owned l s .cron pgFrame := by
  have hstack : g.Scronstack / PAGESIZE = l.end_ / PAGESIZE + 12 := by
    unfold pageinit at hg
    dsimp only at hg
    split at hg
    · cases hg
    · cases hg
      dsimp only [PAGESIZE]
      omega
  simp only [cronPage, hstack] at hp
  unfold Common
  by_cases htwo : pgFrame.val = 2
  · exact Or.inl (Or.inl htwo)
  rw [if_neg htwo] at hp
  split at hp
  · next htext => exact Or.inl (Or.inr (Or.inr (Or.inl htext)))
  · split at hp
    · next hdata => exact Or.inl (Or.inr (Or.inr (Or.inr (Or.inl hdata))))
    · split at hp
      · next hbss => exact Or.inl (Or.inr (Or.inr (Or.inr (Or.inr hbss))))
      · split at hp
        · next hcron => exact Or.inr (.cron _ hcron)
        · cases hp

theorem descriptor_owned (h : Running l g s) (hg : pageinit l = some g) {n f : ℕ} {table : PageTable}
    (htable : table = .kernel i ∨ table = .user i ∨ table = .shared)
    (hp : (s.descriptor table n).pd_p = true) (hf : (s.descriptor table n).pd_frame = f) :
    Common l f ∨ s.SharedPage f ∨ Owned l s (.term i) f := by
  rcases htable with rfl | rfl | rfl
  · unfold descriptor at hp hf
    dsimp only at hp hf
    split at hp
    · next hn =>
      rw [dif_pos hn, h.kernel] at hf
      rw [h.kernel] at hp
      subst hf
      exact (kernelPage_common hg hp).imp id Or.inr
    · cases hp
  · unfold descriptor at hp hf
    dsimp only at hp hf
    split at hp
    · next hn =>
      rw [dif_pos hn] at hf
      subst hf
      exact Or.inr (Or.inr (.page i ⟨n, hn⟩ hp))
    · cases hp
  · unfold descriptor at hp hf
    dsimp only at hp hf
    split at hp
    · next hn =>
      rw [dif_pos hn] at hf
      exact Or.inr (Or.inl ⟨⟨n, hn⟩, hp, hf⟩)
    · cases hp

theorem sd_table_cases {state : TrapState} {seg : ℕ} {table : PageTable}
    (hstate : state = SUPPORT_SYS_TRAP_NEW_STATE i ∨ state = terminalProcessState i)
    (h : (state.s_crp seg).sd_pta = some table) :
    table = .kernel i ∨ table = .user i ∨ table = .shared := by
  rcases hstate with rfl | rfl
  · simp only [SUPPORT_SYS_TRAP_NEW_STATE, kernel_mode_sd_table] at h
    split at h
    · exact Or.inl (Option.some.inj h).symm
    · split at h
      · exact Or.inr (Or.inl (Option.some.inj h).symm)
      · split at h
        · exact Or.inr (Or.inr (Option.some.inj h).symm)
        · cases h
  · simp only [terminalProcessState, user_mode_sd_table] at h
    split at h
    · exact Or.inr (Or.inl (Option.some.inj h).symm)
    · split at h
      · exact Or.inr (Or.inr (Option.some.inj h).symm)
      · cases h

theorem Running.reaches (h : Running l g s) (hg : pageinit l = some g) {p : Proc} {f : ℕ}
    (hr : s.Reaches p f) : Common l f ∨ s.SharedPage f ∨ Owned l s p f := by
  cases p with
  | cron =>
      obtain ⟨pgFrame, hp, hf⟩ := hr
      rw [h.cron] at hp hf
      subst hf
      exact (cronPage_common hg hp).imp id Or.inr
  | term i =>
      obtain ⟨state, hstate, right, x, ht⟩ := hr
      obtain ⟨table, hsome, hp, hf⟩ := translate_descriptor ht
      exact descriptor_owned h hg (sd_table_cases hstate hsome) hp hf

-- What one process owns no other does.
theorem Running.owned_unique (h : Running l g s) (hg : pageinit l = some g) {p q : Proc} {f : ℕ}
    (hp : Owned l s p f) (hq : Owned l s q f) : p = q := by
  have hstart := (pageinit_eq hg).2.1
  have hrange : ∀ d, (s.pd d).pd_p = true → l.end_ / PAGESIZE + 17 ≤ (s.pd d).pd_frame := by
    intro d hd
    have hlow := (h.isolated.range (.desc d) _ ⟨hd, rfl⟩).1
    rw [h.start, hstart] at hlow
    exact hlow
  have hlt : ∀ i : Term, i.val < 2 := fun i => i.isLt
  cases hp with
  | stack i f hi =>
      have hi' := hlt i
      cases hq with
      | stack j f hj =>
          have hj' := hlt j
          exact congrArg Proc.term (Fin.ext (by omega))
      | cron f hj => omega
      | page j pg hj =>
          have hlow := hrange _ hj
          omega
  | cron f hi =>
      cases hq with
      | stack j f hj =>
          have hj' := hlt j
          omega
      | cron f hj => rfl
      | page j pg hj =>
          have hlow := hrange _ hj
          omega
  | page i pg hi =>
      have hlow := hrange _ hi
      generalize hf : (s.pd (.user i pg)).pd_frame = f at hq hlow
      cases hq with
      | stack j f hj =>
          have hj' := hlt j
          omega
      | cron f hj => omega
      | page j pg' hj =>
          have heq := h.isolated.unique (.desc (.user i pg)) (.desc (.user j pg')) _ ⟨hi, hf⟩
            ⟨hj, rfl⟩
          cases heq
          rfl

-- Two processes of the support level have no memory in common but its text and
-- variables, page 2, the device registers and the pages of segment 2: none reaches
-- a page of another one or the stack of another one's handlers.
theorem run_reaches {as : List MmAction} (hboot : p1 l = some s₀) (h : run as s₀ = some s)
    {p q : Proc} {f : ℕ} (hpq : p ≠ q) (hp : s.Reaches p f) (hq : s.Reaches q f) :
    Common l f ∨ s.SharedPage f := by
  obtain ⟨g, hg, hbooted⟩ := p1_booted hboot
  have hrunning := hbooted.running.run hg h
  rcases hrunning.reaches hg hp with hc | hs | ho
  · exact Or.inl hc
  · exact Or.inr hs
  · rcases hrunning.reaches hg hq with hc | hs | ho'
    · exact Or.inl hc
    · exact Or.inr hs
    · exact absurd (hrunning.owned_unique hg ho ho') hpq

-- Both T-processes and cron run the text of the support level.
theorem run_reaches_sample : ∃ s₀ s, p1 small = some s₀ ∧ run faults s₀ = some s ∧
    s.Reaches (.term 0) 24 ∧ s.Reaches .cron 24 ∧ (Common small 24 ∨ s.SharedPage 24) := by
  have hend : ∃ s₀ ∈ p1 small, ∃ s ∈ run faults s₀,
      (s.translate (SUPPORT_SYS_TRAP_NEW_STATE 0) READ 0x3000).toOption = some 24 ∧
        (s.cron_pd_table 24).pd_p = true ∧ (s.cron_pd_table 24).pd_frame = 24 := by
    decide +kernel
  obtain ⟨s₀, hboot, s, h, htranslate, hcron⟩ := hend
  have hterm : s.Reaches (.term 0) 24 := by
    refine ⟨SUPPORT_SYS_TRAP_NEW_STATE 0, Or.inl rfl, READ, 0x3000, ?_⟩
    cases ht : s.translate (SUPPORT_SYS_TRAP_NEW_STATE 0) READ 0x3000 with
    | error typ =>
        rw [ht] at htranslate
        cases htranslate
    | ok f =>
        rw [ht] at htranslate
        cases htranslate
        rfl
  have hcron : s.Reaches .cron 24 := ⟨24, hcron⟩
  exact ⟨s₀, s, hboot, h, hterm, hcron, run_reaches hboot h (by decide) hterm hcron⟩

end Reach

end Memory

end Hoca.Support
