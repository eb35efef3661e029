import Hoca.Refine.Kill

namespace Hoca

open Links Forest

variable {k k' : Kernel} {v v' : Sched} {p : ProcId} {s : Addr} {L : Layout} {currentTime : Int}
  {path : ProcId → List ProcId}

theorem Rep.change (h : Rep k v) (hc : Core k' v') (hs : SameKin k k') (hfree : v'.free = v.free)
    (hparent : v'.parent = v.parent) (hchildren : v'.children = v.children) : Rep k' v' := by
  refine ⟨hc, ?_⟩
  rw [hfree, hparent, hchildren]
  exact h.kin.congr hs

theorem Core.running_live (h : Core k v) (hr : v.running = some p) : p ∉ v.free := by
  obtain ⟨e, he, rfl⟩ := Option.map_eq_some_iff.mp hr
  exact h.queued.linked.allocated (List.mem_of_head? he)

section Wake

-- The part of a V that the two semaphore routines share.
theorem wake_spec (h : Core k v) (s : Addr) (hclean : CleanHead (v.queue (some s))) :
    ∃ k₁ out, k.removeBlocked s = some (k₁, out) ∧
      ((out = none ∧ Core k₁ (v.wake s) ∧ SameKin k k₁) ∨
        (∃ p, out = some p ∧ (k₁.procTable p).qcount ≠ 0 ∧ Core k₁ (v.wake s) ∧ SameKin k k₁) ∨
        ∃ p k₂, out = some p ∧ (k₁.procTable p).qcount = 0 ∧ k₁.insertReady p = some k₂ ∧
          Core k₂ (v.wake s) ∧ SameKin k k₂) := by
  obtain ⟨k₁, hrun, hcore, hsame⟩ := removeBlocked_core h s hclean
  refine ⟨k₁, _, hrun, ?_⟩
  cases hh : (v.procs (some s)).head? with
  | none =>
      have hq : v.queue (some s) = [] := by simpa [Sched.procs] using hh
      have hv : v.removeBlocked s = v := by
        rw [Sched.removeBlocked, dequeue, hq, List.tail_nil, ← hq, Function.update_eq_self]
      have hw : v.wake s = v := by simp [Sched.wake, hh]
      rw [hv] at hcore
      exact Or.inl ⟨rfl, by rw [hw]; exact hcore, hsame⟩
  | some p =>
      have hp : p ∉ v.free := by
        have hm : p ∈ v.procs (some s) := List.mem_of_head? hh
        obtain ⟨e, he, rfl⟩ := List.mem_map.mp hm
        exact h.queued.linked.allocated he
      have hcount := hcore.qcount_eq_zero p
      right
      by_cases hz : occupied (v.removeBlocked s).queue p = ∅
      · right
        obtain ⟨k₂, hins, hcore₂, hsame₂⟩ := insertReady_spec hcore hp (by simp [hz])
        refine ⟨p, k₂, rfl, hcount.mpr hz, hins, ?_, hsame.trans hsame₂⟩
        simp only [Sched.wake, hh, if_pos hz]
        exact hcore₂
      · left
        refine ⟨p, rfl, fun hc => hz (hcount.mp hc), ?_, hsame⟩
        simp only [Sched.wake, hh, if_neg hz]
        exact hcore

end Wake

section Semop

theorem semopStep_spec (h : Core k v) (hr : v.running = some p) (o : Vpop) (b : Bool)
    (hfit : v.Fits o p) :
    ∃ k', k.semopStep o b = some (k', (v.semopStep o p b).2) ∧
      Core k' (v.semopStep o p b).1 ∧ SameKin k k' := by
  have hsem := h.sem_eq
  have hset := h.setSem o.sem (toLong (v.sem o.sem + o.op))
  unfold Kernel.semopStep Sched.semopStep
  simp only [hsem]
  by_cases hl : o.op = LOCK
  · rw [if_pos hl, if_pos hl]
    by_cases hz : v.sem o.sem ≤ 0
    · rw [if_pos hz, if_pos hz]
      obtain ⟨hcard, hdesc⟩ := hfit.1 hl hz
      have hold : (k.setSem o.sem (toLong (v.sem o.sem + o.op))).SYS_TRAP_OLD_STATE =
          v.SYS_TRAP_OLD_STATE := h.old_eq
      have hsave := hset.saveState p v.SYS_TRAP_OLD_STATE
      obtain ⟨k', hins, hcore, hsame⟩ := insertBlocked_core hsave.1 (h.running_live hr) hcard hdesc
      refine ⟨k', ?_, hcore, hsave.2.trans hsame⟩
      rw [hset.kernel_running, show (v.setSem o.sem _).running = some p from hr, hold]
      simp only [Option.bind_eq_bind, Option.bind_some, hins]
    · rw [if_neg hz, if_neg hz]
      exact ⟨_, rfl, hset, SameKin.refl k⟩
  · rw [if_neg hl, if_neg hl]
    by_cases hu : o.op = UNLOCK
    · rw [if_pos hu]
      by_cases hz : v.sem o.sem < 0
      · rw [if_pos hz, if_pos ⟨hu, hz⟩]
        obtain ⟨k₁, out, hrun, hcases⟩ := wake_spec hset o.sem (hfit.2 hu hz)
        rw [hrun]
        rcases hcases with ⟨rfl, hcore, hsame⟩ | ⟨q, rfl, hq, hcore, hsame⟩ |
          ⟨q, k₂, rfl, hq, hins, hcore, hsame⟩
        · exact ⟨k₁, rfl, hcore, hsame⟩
        · exact ⟨k₁, by simp [hq], hcore, hsame⟩
        · exact ⟨k₂, by simp [hq, hins], hcore, hsame⟩
      · rw [if_neg hz, if_neg fun hc => hz hc.2]
        exact ⟨_, rfl, hset, SameKin.refl k⟩
    · rw [if_neg hu, if_neg fun hc => hu hc.1]
      exact ⟨_, rfl, hset, SameKin.refl k⟩

theorem semopLoop_spec {ops : List Vpop} (h : Core k v) (hr : v.running = some p) (b : Bool)
    (hfit : Sched.AllFit ops p v) :
    ∃ k', Kernel.semopLoop ops k b = some (k', (Sched.semopLoop ops p v b).2) ∧
      Core k' (Sched.semopLoop ops p v b).1 ∧ SameKin k k' := by
  induction ops generalizing k v b with
  | nil => exact ⟨k, rfl, h, SameKin.refl k⟩
  | cons o ops ih =>
      obtain ⟨k₁, hrun, hcore, hsame⟩ := semopStep_spec h hr o b hfit.1
      have hrest := hfit.2
      rw [v.semopStep_fst o p false b] at hrest
      obtain ⟨k', hrun', hcore', hsame'⟩ := ih hcore (Sched.running_semopStep hr o b)
        (v.semopStep o p b).2 hrest
      refine ⟨k', ?_, hcore', hsame.trans hsame'⟩
      simp only [Kernel.semopLoop, hrun, Option.bind_eq_bind, Option.bind_some, hrun']
      rfl

end Semop

-- The two kernels leave a routine in the same way.
def Agree : Ret Kernel → Ret Sched → Prop
  | .back k, .back v => Rep k v
  | .gone k, .gone v => Rep k v
  | _, _ => False

section Calls

theorem semop_spec (h : Rep k v) (ht : v.Neat) (hr : v.running = some p)
    (vpops : Addr → ℕ → Vpop)
    (hfit : Sched.AllFit (Kernel.vector vpops v.SYS_TRAP_OLD_STATE) p v) :
    ∃ r, k.semop L currentTime vpops = some r ∧
      Agree r (v.semop L currentTime (Kernel.vector vpops v.SYS_TRAP_OLD_STATE) p) := by
  obtain ⟨k₁, hrun, hcore, hsame⟩ := semopLoop_spec h.toCore hr false hfit
  obtain ⟨q, sem, context, hv⟩ := v.frame_semopLoop (p := p)
    (Kernel.vector vpops v.SYS_TRAP_OLD_STATE) false
  have hold : k.SYS_TRAP_OLD_STATE = v.SYS_TRAP_OLD_STATE := h.old_eq
  unfold Kernel.semop Kernel.semopVector Sched.semop
  rw [hold, hrun]
  generalize hb : (Sched.semopLoop (Kernel.vector vpops v.SYS_TRAP_OLD_STATE) p v false).2 = b
  cases b with
  | false =>
      refine ⟨.back k₁, by simp, ?_⟩
      simp only [hb, Bool.false_eq_true, if_false]
      exact h.change hcore hsame (by rw [hv]) (by rw [hv]) (by rw [hv])
  | true =>
      have hready := Sched.ready_semopLoop (p := p) ht.ready
        (Kernel.vector vpops v.SYS_TRAP_OLD_STATE) false
      obtain ⟨k₂, hrem, hcore₂, hsame₂⟩ := removeReady_spec hcore (cleanHead_of_slot hready)
      obtain ⟨k₃, hsched, hcore₃, hsame₃⟩ := schedule_spec (L := L) hcore₂ currentTime
      refine ⟨.gone k₃, by simp [hrem, hsched], ?_⟩
      simp only [hb, if_true]
      exact h.change hcore₃ ((hsame.trans hsame₂).trans hsame₃)
        (by simp [Sched.removeReady, hv]) (by simp [Sched.removeReady, hv])
        (by simp [Sched.removeReady, hv])

theorem createproc_spec (h : Rep k v) (hfam : v.Rooted path) (hr : v.running = some p) :
    ∃ k', k.createproc = some k' ∧ Rep k' (v.createproc p) := by
  have hp := h.running_live hr
  by_cases hfree : v.free = []
  · have halloc := allocProc_none h.toCore hfree
    refine ⟨{ k with SYS_TRAP_OLD_STATE := k.SYS_TRAP_OLD_STATE.setD2 (-1) }, ?_, ?_⟩
    · simp only [Kernel.createproc, h.kernel_running, hr, halloc, Option.bind_eq_bind,
        Option.bind_some]
    · rw [v.createproc_full hfree]
      exact ⟨h.mapEnv fun env =>
        { env with SYS_TRAP_OLD_STATE := env.SYS_TRAP_OLD_STATE.setD2 (-1) }, h.kin⟩
  · obtain ⟨c, rest, hfree⟩ := List.exists_cons_of_ne_nil hfree
    have hc : c ∈ v.free := hfree ▸ by simp
    have hcl := (h.free.cleared c hc).kin
    have hpc : p ≠ c := fun heq => hp (heq ▸ hc)
    have horphan : ∀ b, c ∉ v.children b := fun b hb =>
      (hfam.parent_live b c ((hfam.child b c).mp hb)).2 hc
    have hchildless : v.children c = [] := List.eq_nil_iff_forall_not_mem.mpr fun d hd =>
      (hfam.parent_live c d ((hfam.child c d).mp hd)).1 hc
    have hrest : ∀ {x}, x ∉ v.free → x ∉ rest := fun hx hm => hx (hfree ▸ List.mem_cons_of_mem _ hm)
    have hlive : ∀ {x}, x ∉ rest → x ≠ c → x ∉ v.free := by
      intro x hx hxc hm
      rw [hfree] at hm
      exact (List.mem_cons.mp hm).elim hxc hx
    obtain ⟨k₁, halloc, hcore₁, hsame₁⟩ := allocProc_spec h.toCore hfree
    have hcore₂ := hcore₁.mapEnv fun env =>
      { env with SYS_TRAP_OLD_STATE := env.SYS_TRAP_OLD_STATE.setD2 0 }
    let k₂ := { k₁ with SYS_TRAP_OLD_STATE := k₁.SYS_TRAP_OLD_STATE.setD2 0 }
    have hcore₃ := hcore₂.saveState c (k₂.areas k₂.SYS_TRAP_OLD_STATE.d4)
    let k₃ := k₂.saveState c (k₂.areas k₂.SYS_TRAP_OLD_STATE.d4)
    have hkin₃ : ∀ x, (k₃.procTable x).toKin = (k.procTable x).toKin := fun x =>
      (hcore₃.2 x).trans (hsame₁ x)
    have hcn : c ∉ rest := (List.nodup_cons.mp (hfree ▸ h.free.nodup)).1
    have hcore₄ := hcore₃.1.setKin hcn { (k₃.procTable c).toKin with parent_proc := some p }
    let k₄ := k₃.setKin c { (k₃.procTable c).toKin with parent_proc := some p }
    have hk₄ : ∀ x, x ≠ c → (k₄.procTable x).toKin = (k.procTable x).toKin := by
      intro x hx
      rw [← hkin₃ x]
      simp only [k₄]
      rw [setKin_kin, if_neg hx]
    have hk₄c : (k₄.procTable c).toKin = ⟨some p, none, none⟩ := by
      simp only [k₄]
      rw [setKin_self, hkin₃ c, hcl]
    have hkin₄ : Kinship k₄.procTable rest (Function.update v.parent c (some p)) v.children := by
      refine ⟨fun x hx => ?_, fun x hx => ?_, fun x hx hnone => ?_⟩
      · by_cases hxc : x = c
        · subst hxc
          rw [hk₄c, Function.update_self]
        · rw [hk₄ x hxc, Function.update_of_ne hxc]
          exact h.kin.parent x (hlive hx hxc)
      · by_cases hxc : x = c
        · subst hxc
          rw [hk₄c, hchildless]
          simp
        · rw [hk₄ x hxc]
          refine (h.kin.chain x (hlive hx hxc)).congr fun d hd => ?_
          rw [hk₄ d]
          rintro rfl
          exact horphan x hd
      · by_cases hxc : x = c
        · rw [hxc, hk₄c] at hnone
          cases hnone
        · rw [hk₄ x hxc] at hnone ⊢
          exact h.kin.root x (hlive hx hxc) hnone
    have hone : OneParent v.children := by
      intro a b d ha hb
      rw [hfam.child] at ha hb
      exact Option.some.inj (ha.symm.trans hb)
    obtain ⟨k₅, hbirth, hcore₅, hkin₅⟩ := linkChild_spec hcore₄ hkin₄ (a := p) (c := c) (hrest hp)
      (by rw [hk₄c]) horphan hone (fun d hd hm => by
        by_cases hdc : d = c
        · exact horphan p (hdc ▸ hm)
        · rw [Function.update_of_ne hdc, (hfam.child p d).mp hm] at hd
          cases hd)
      (fun d hd => hrest (hfam.parent_live p d ((hfam.child p d).mp hd)).2) (hfam.nodup p)
    have hstate : k₂.areas k₂.SYS_TRAP_OLD_STATE.d4 = v.areas v.SYS_TRAP_OLD_STATE.d4 := by
      rw [hcore₂.areas_eq, hcore₂.old_eq]
      rfl
    rw [hstate] at hcore₅
    have hcore₅' : Core k₅ (v.newborn p c rest) :=
      ⟨hcore₅.env, hcore₅.queued, hcore₅.free, hcore₅.context⟩
    have hempty : occupied (v.newborn p c rest).queue c = ∅ := by
      ext i
      simpa [mem_occupied, Sched.newborn] using fun x => h.queued.linked.idle c hc x i
    obtain ⟨k', hins, hcore', hsame'⟩ := insertReady_spec hcore₅' hcn (by simp [hempty])
    refine ⟨k', ?_, ⟨by rw [v.createproc_cons hfree]; exact hcore', ?_⟩⟩
    · simp only [Kernel.createproc, h.kernel_running, hr, halloc, Option.bind_eq_bind,
        Option.bind_some]
      exact (congrArg (fun r => r.bind fun k => k.insertReady c) hbirth).trans hins
    · rw [v.createproc_cons hfree]
      exact hkin₅.congr hsame'

theorem trapstate_spec (h : Rep k v) (ht : v.Neat) (hfam : v.Rooted path)
    (hr : v.running = some p)
    (htake : ∀ T, TrapType.ofCode v.SYS_TRAP_OLD_STATE.d2 = some T →
      ¬ ((v.context p).trap_old_state T = none ∧ (v.context p).trap_new_state T = none) →
      Sched.AllTakable (progeny v.children MAXPROC p) (v.unlinkChild p).removeReady) :
    ∃ r, k.trapstate L currentTime = some r ∧ Agree r (v.trapstate L currentTime p) := by
  have hold := h.old_eq
  have hctx := h.context p
  unfold Kernel.trapstate Sched.trapstate
  rw [h.kernel_running, hr, hold]
  simp only [Option.bind_eq_bind, Option.bind_some, hctx]
  cases hT : TrapType.ofCode v.SYS_TRAP_OLD_STATE.d2 with
  | none => exact ⟨_, rfl, h⟩
  | some T =>
      dsimp only
      by_cases hc : (v.context p).trap_old_state T = none ∧ (v.context p).trap_new_state T = none
      · rw [if_pos hc, if_pos hc]
        have hset := h.setContext p { v.context p with
          trap_old_state := Function.update (v.context p).trap_old_state T
            (toPointer v.SYS_TRAP_OLD_STATE.d3)
          trap_new_state := Function.update (v.context p).trap_new_state T
            (toPointer v.SYS_TRAP_OLD_STATE.d4) }
        exact ⟨_, rfl, h.change hset.1 hset.2 rfl rfl rfl⟩
      · rw [if_neg hc, if_neg hc]
        obtain ⟨k', hkill, hrep⟩ := killproc_spec (L := L) h ht hfam hr currentTime (htake T hT hc)
        exact ⟨.gone k', by rw [hkill]; rfl, hrep⟩

-- The process goes on in its own trap handler, or is ended.
theorem passUp_spec (currentTime : Int) (h : Rep k v) (ht : v.Neat) (hfam : v.Rooted path) (hr : v.running = some p)
    (T : TrapType) (old : State)
    (htake : (v.context p).trap_old_state T = none ∨ (v.context p).trap_new_state T = none →
      Sched.AllTakable (progeny v.children MAXPROC p) (v.unlinkChild p).removeReady) :
    ∃ k', k.passUp L currentTime T old = some k' ∧ Rep k' (v.passUp L currentTime T old p) := by
  have hctx := h.context p
  have ho : (k.procTable p).trap_old_state = (v.context p).trap_old_state := by rw [← hctx]
  have hn : (k.procTable p).trap_new_state = (v.context p).trap_new_state := by rw [← hctx]
  unfold Kernel.passUp Sched.passUp
  rw [h.kernel_running, hr]
  simp only [Option.bind_eq_bind, Option.bind_some, ho, hn]
  cases hO : (v.context p).trap_old_state T with
  | none => exact killproc_spec h ht hfam hr currentTime (htake (Or.inl hO))
  | some old_state =>
      cases hN : (v.context p).trap_new_state T with
      | none => exact killproc_spec h ht hfam hr currentTime (htake (Or.inr hN))
      | some new_state =>
          have hu := h.updateLastStartTime currentTime p
          have ha := hu.1.mapEnv fun env =>
            { env with areas := Function.update env.areas old_state old }
          have hl := ha.LDST (Function.update v.areas old_state old new_state)
          have harea : k.areas = v.areas := h.areas_eq
          refine ⟨_, rfl, h.change ?_ hu.2 rfl rfl rfl⟩
          rw [show (k.updateLastStartTime currentTime p).areas = v.areas from harea]
          rw [show (k.updateLastStartTime currentTime p).areas = v.areas from harea] at hl
          exact hl

end Calls

end Hoca
