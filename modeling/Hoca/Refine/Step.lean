import Hoca.Refine.Int

namespace Hoca

open Links Forest

variable {k k' : Kernel} {v v' : Sched} {p : ProcId} {L : Layout} {currentTime : Int}
  {path : ProcId → List ProcId} {e : Event} {R : Set Addr}

section Trap

-- A call that returns goes on with the state in the old area.
theorem Rep.resume (h : Rep k v) (currentTime : Int) (p : ProcId) :
    Rep ((k.updateLastStartTime currentTime p).LDST k.SYS_TRAP_OLD_STATE)
      ((v.updateLastStartTime currentTime p).LDST v.SYS_TRAP_OLD_STATE) := by
  have hu := h.updateLastStartTime currentTime p
  rw [h.old_eq]
  exact h.change (hu.1.LDST _) hu.2 rfl rfl rfl

theorem Rep.enter (h : Rep k v) (e : Event) (p : ProcId) :
    Rep (Kernel.updateTotalTimeOnProcessor
      { k with areas := e.areas, SYS_TRAP_OLD_STATE := e.old } e.tIn p) (v.enter e p) := by
  have hm := h.mapEnv fun env => { env with areas := e.areas, SYS_TRAP_OLD_STATE := e.old }
  have hu := hm.updateTotalTime e.tIn p
  exact h.change hu.1 hu.2 rfl rfl rfl

theorem call_spec (h : Rep k (v.enter e p)) (hw : v.WfExcept L R) (hr : v.running = some p)
    (hadm : v.Admits L e) (hshed : v.Sheds e) (hcall : e.call = some e.old.s_tmp.sys_no)
    (htrap : e.old.s_tmp.sys_no = 0 ∨ 8 < e.old.s_tmp.sys_no → e.trap = some .SYSTRAP) :
    ∃ r, Kernel.syscall L e.tOut e.vpops e.old.s_tmp.sys_no k = some r ∧
      Agree r ((v.enter e p).call L e p) := by
  obtain ⟨path, hfam⟩ := hw.rooted
  have ht : (v.enter e p).Neat := ⟨hw.neat.once, hw.ready, hw.neat.alone⟩
  have hf : (v.enter e p).Rooted path := hfam
  have hr' : (v.enter e p).running = some p := hr
  have hold : (v.enter e p).SYS_TRAP_OLD_STATE = e.old := rfl
  have hctx := v.enter_trap e p
  have hunlink : ((v.enter e p).unlinkChild p).removeReady.queue =
      (v.unlinkChild p).removeReady.queue := by
    simp only [Sched.removeReady, Sched.queue_unlinkChild]
    rfl
  have hkill : e.Ends (v.context p) → Sched.AllTakable
      (progeny (v.enter e p).children MAXPROC p) ((v.enter e p).unlinkChild p).removeReady :=
    fun hends => (hshed p hr hends).congr hunlink
  have hpass : e.old.s_tmp.sys_no = 0 ∨ 8 < e.old.s_tmp.sys_no →
      ∃ r, (do let k ← Kernel.trapsysdefault L e.tOut k; some (Ret.gone k)) = some r ∧
        Agree r (.gone ((v.enter e p).passUp L e.tOut .SYSTRAP (v.enter e p).SYS_TRAP_OLD_STATE p)) := by
    intro hno
    obtain ⟨k', hrun, hrep⟩ := passUp_spec (L := L) e.tOut h ht hf hr' .SYSTRAP
      (v.enter e p).SYS_TRAP_OLD_STATE (fun hc => hkill (Or.inr (Or.inr ⟨.SYSTRAP, htrap hno, by
        rwa [hctx.1, hctx.2] at hc⟩)))
    refine ⟨.gone k', ?_, hrep⟩
    simp only [Kernel.trapsysdefault, h.old_eq, hrun, Option.bind_eq_bind, Option.bind_some]
  unfold Kernel.syscall Sched.call
  generalize hn : e.old.s_tmp.sys_no = n at hcall hpass ⊢
  rcases n with _ | _ | _ | _ | _ | _ | _ | _ | _ | n
  · exact hpass (Or.inl rfl)
  · obtain ⟨k', hrun, hrep⟩ := createproc_spec h hf hr'
    exact ⟨.back k', by simp [hrun], hrep⟩
  · obtain ⟨k', hrun, hrep⟩ := killproc_spec (L := L) h ht hf hr' e.tOut (hkill (Or.inl hcall))
    exact ⟨.gone k', by simp [hrun], hrep⟩
  · exact semop_spec h ht hr' e.vpops (hadm.vector p hr hcall)
  · exact ⟨_, rfl, h.change (h.mapEnv fun env => { env with cpu := .halted "" }) (SameKin.refl k)
      rfl rfl rfl⟩
  · refine trapstate_spec h ht hf hr' fun T hT hc => hkill (Or.inr (Or.inl ⟨hcall, T, hT, ?_⟩))
    rwa [hctx.1, hctx.2] at hc
  · refine ⟨.back { k with SYS_TRAP_OLD_STATE :=
      k.SYS_TRAP_OLD_STATE.setD2 (k.procTable p).total_processor_time }, ?_, ?_⟩
    · simp only [Kernel.getcputime, h.kernel_running, hr', Option.bind_eq_bind, Option.bind_some]
    · have htime : (k.procTable p).total_processor_time =
          ((v.enter e p).context p).total_processor_time := by rw [← h.context p]
      rw [htime]
      exact h.change (h.mapEnv fun env => { env with
        SYS_TRAP_OLD_STATE := env.SYS_TRAP_OLD_STATE.setD2
          ((v.enter e p).context p).total_processor_time }) (SameKin.refl k) rfl rfl rfl
  · have hpc := hw.pclock
    rw [Sched.level] at hpc
    obtain ⟨k', hrun, hrep⟩ := waitforpclock_spec (L := L) e.tOut h ht hr'
      (show v.sem L.PSEUDO_CLOCK_SEMAPHORE ≤ 0 by omega) (hadm.clock p hr hcall)
    exact ⟨.gone k', hrun, hrep⟩
  · obtain ⟨d, hd, hdesc⟩ := hadm.device p hr hcall
    rw [← hold] at hd
    obtain ⟨r, hrun, hagree⟩ := waitforio_spec (L := L) e.tOut h ht hr' hd hdesc
    exact ⟨r, hrun, by simp only [hd]; exact hagree⟩
  · exact hpass (Or.inr (by omega))

theorem trapsyshandler_spec (h : Rep k v) (hw : v.WfExcept L R) (e : Event) (hr : v.running = some p)
    (hkind : e.kind = .sys) (hadm : v.Admits L e) (hshed : v.Sheds e) :
    ∃ k', Kernel.trapsyshandler L e.tIn e.tOut e.vpops
        { k with areas := e.areas, SYS_TRAP_OLD_STATE := e.old } = some k' ∧
      Rep k' (v.trapsyshandler L e p) := by
  obtain ⟨path, hfam⟩ := hw.rooted
  have hent := h.enter e p
  have hrun₀ : Kernel.running { k with areas := e.areas, SYS_TRAP_OLD_STATE := e.old } = some p :=
    h.kernel_running.trans hr
  have hold : (Kernel.updateTotalTimeOnProcessor { k with
      areas := e.areas, SYS_TRAP_OLD_STATE := e.old } e.tIn p).SYS_TRAP_OLD_STATE = e.old := rfl
  unfold Kernel.trapsyshandler Sched.trapsyshandler
  simp only [hrun₀, Option.bind_eq_bind, Option.bind_some, hold]
  by_cases hmode : e.old.s_sr.ps_s = false ∧ e.old.s_tmp.sys_no < 9
  · rw [if_pos hmode, if_pos hmode]
    have hset := hent.change (hent.mapEnv fun env => { env with
      SYS_TRAP_OLD_STATE := { e.old with s_tmp := e.old.s_tmp.setPrTyp PRIVILEGE } })
      (SameKin.refl _) rfl rfl rfl
    have hctx := v.enter_trap e p
    have htrap : e.trap = some .PROGTRAP := by
      simp only [Event.trap, hkind, if_pos hmode]
    refine passUp_spec (L := L) e.tOut hset ⟨hw.neat.once, hw.ready, hw.neat.alone⟩ hfam
      hr .PROGTRAP _ fun hc => ?_
    refine (hshed p hr (Or.inr (Or.inr ⟨.PROGTRAP, htrap, ?_⟩))).congr ?_
    · rwa [← hctx.1, ← hctx.2]
    · simp only [Sched.removeReady, Sched.queue_unlinkChild]
      rfl
  · rw [if_neg hmode, if_neg hmode]
    obtain ⟨r, hrun, hagree⟩ := call_spec (L := L) hent hw hr hadm hshed (Event.call_eq hkind hmode)
      (Event.trap_eq hkind hmode)
    rw [hrun, Option.bind_some]
    cases r with
    | gone k₁ =>
        cases hc : (v.enter e p).call L e p with
        | gone v₁ =>
            rw [hc] at hagree
            exact ⟨k₁, rfl, hagree⟩
        | back v₁ =>
            rw [hc] at hagree
            exact hagree.elim
    | back k₁ =>
        cases hc : (v.enter e p).call L e p with
        | gone v₁ =>
            rw [hc] at hagree
            exact hagree.elim
        | back v₁ =>
            rw [hc] at hagree
            exact ⟨_, rfl, Rep.resume hagree e.tOut p⟩

end Trap

theorem Rep.areas (h : Rep k v) (areas : Addr → State) :
    Rep { k with areas := areas } { v with areas := areas } :=
  h.change (h.mapEnv fun env => { env with areas := areas }) (SameKin.refl k) rfl rfl rfl

theorem Rep.cpu_eq (h : Rep k v) : k.cpu = v.cpu := by
  rw [h.env]

theorem passUp_step (h : Rep k v) (hw : v.WfExcept L R) (hr : v.running = some p) {T : TrapType}
    (htrap : e.trap = some T) (hshed : v.Sheds e) :
    ∃ k', Kernel.passUp L e.tOut T e.old { k with areas := e.areas } = some k' ∧
      Rep k' ({ v with areas := e.areas }.passUp L e.tOut T e.old p) := by
  obtain ⟨path, hfam⟩ := hw.rooted
  refine passUp_spec _ (h.areas e.areas) ⟨hw.neat.once, hw.ready, hw.neat.alone⟩ hfam hr T e.old fun hc => ?_
  refine (hshed p hr (Or.inr (Or.inr ⟨T, htrap, hc⟩))).congr ?_
  simp only [Sched.removeReady, Sched.queue_unlinkChild]

theorem device_step (h : Rep k v) (hw : v.WfExcept L R) {d : Device} (type : DeviceType) (reg : DevReg)
    (hdev : deviceOf (e.old.s_tmp.in_dno + type.first) = some d)
    (hwait : v.sem (L.device d) = -1 → v.procs (some (L.device d)) ≠ []) :
    ∃ k', Kernel.intdevicehandler type L e.tOut e.old reg { k with areas := e.areas } = some k' ∧
      Rep k' ({ v with areas := e.areas }.intdevicehandler L e.tOut e.old d reg) :=
  intdevicehandler_spec (h.areas e.areas) type e.old reg hdev hwait (hw.clean_device d)

-- An interrupt that is taken with the semaphore of its device at -1 has found a waiter:
-- inthandler reads the head of the queue.
theorem answers_of_step (h : Rep k v) (hrun : Kernel.step L e k = some k') : v.Answers L e := by
  intro d hd hsem hnil
  obtain ⟨type, reg, hkind⟩ := Sched.device_kind hd
  have hnone : ({ k with areas := e.areas } : Kernel).inthandler L e.tOut d reg = none := by
    have hhead : ({ k with areas := e.areas } : Kernel).headBlocked (L.device d) = some none := by
      rw [(h.areas e.areas).headBlocked_eq]
      exact congrArg (fun l => some (List.head? l)) hnil
    unfold Kernel.inthandler
    rw [if_pos (show k.sem (L.device d) = -1 by rw [h.sem_eq]; exact hsem), hhead]
    rfl
  have hdev : deviceOf (e.old.s_tmp.in_dno + type.first) = some d := by
    simpa only [Event.device, hkind] using hd
  have hfail : Kernel.intdevicehandler type L e.tOut e.old reg { k with areas := e.areas } = none := by
    unfold Kernel.intdevicehandler
    simp only [hdev, Option.bind_eq_bind, Option.bind_some, hnone, Option.bind_none,
      Option.bind_fun_none]
  unfold Kernel.step at hrun
  rw [hkind] at hrun
  cases type <;> cases hfail.symm.trans hrun

-- One kernel entry on both sides.
theorem step_spec (h : Rep k v) (hw : v.WfExcept L R) (e : Event) (hen : k.Enabled e = true)
    (hadm : v.Admits L e) (hshed : v.Sheds e) (hans : v.Answers L e) :
    ∃ k', Kernel.step L e k = some k' ∧ Rep k' (v.step L e) := by
  have hexp := hw.expects h.cpu_eq hen
  have hdev : ∀ type reg, e.kind = .device type reg → ∃ d, e.device = some d ∧
      deviceOf (e.old.s_tmp.in_dno + type.first) = some d := by
    intro type reg hk
    obtain ⟨d, hd⟩ := hexp.device type reg hk
    refine ⟨d, hd, ?_⟩
    simpa only [Event.device, hk] using hd
  unfold Kernel.step Sched.step
  cases hk : e.kind with
  | sys =>
      obtain ⟨p, hr⟩ := hexp.running (Or.inl hk)
      simp only [hr]
      exact trapsyshandler_spec h hw e hr hk hadm hshed
  | mm =>
      obtain ⟨p, hr⟩ := hexp.running (Or.inr (Or.inl hk))
      simp only [hr]
      exact passUp_step h hw hr (by simp only [Event.trap, hk]) hshed
  | prog =>
      obtain ⟨p, hr⟩ := hexp.running (Or.inr (Or.inr hk))
      simp only [hr]
      exact passUp_step h hw hr (by simp only [Event.trap, hk]) hshed
  | clock =>
      have hpc := hw.pclock
      have htimer := (h.areas e.areas).change ((h.areas e.areas).mapEnv fun env =>
        { env with intervalTimer := none }) (SameKin.refl _) rfl rfl rfl
      refine intclockhandler_spec (L := L) htimer ⟨hw.neat.once, hw.ready, hw.neat.alone⟩ e.tIn e.tOut
        e.old (fun hq => ?_) (hw.clean_reserved (Or.inl rfl))
      have hpos := List.length_pos_of_ne_nil hq
      rw [Sched.level] at hpc
      dsimp only at hpos ⊢
      omega
  | device type reg =>
      obtain ⟨d, hd, hdev⟩ := hdev type reg hk
      simp only [hd]
      cases type <;> exact device_step h hw _ reg hdev (hans d hd)

end Hoca
