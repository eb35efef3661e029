import Hoca.Conservation
import Hoca.Nucleus.Vectors
import Hoca.Sched.Context

namespace Hoca

variable {L : Layout} {k k' m : Kernel} {v : Sched} {e : Event} {p : ProcId} {T : TrapType}
  {p1 : State} {currentTime : Int}

namespace Sample

-- A process that has called SYS5 dies, and its entry of procTable goes to a new one.
def inherited : List Event :=
  List.replicate 19 fork ++ [locked [7], sys 5 0 100 200 [], sys 2 0 0 0 [], fork] ++
    List.replicate 18 clock

end Sample

namespace Sched

-- A process that an entry ends is free afterwards.
theorem free_killproc (h : v.Stable L) (hr : v.running = some p) (currentTime : Int) :
    p ∈ (v.killproc L currentTime p).free := by
  change p ∈ ((v.remains p).schedule L currentTime).free
  rw [schedule_free, free_remains]
  exact List.mem_append_right _ (self_mem_doomed (h.except (R := ∅)) hr)

theorem free_passUp (h : v.Stable L) (hr : v.running = some p) (currentTime : Int) (old : State)
    (hT : (v.context p).trap_old_state T = none ∨ (v.context p).trap_new_state T = none) :
    p ∈ (v.passUp L currentTime T old p).free := by
  unfold passUp
  split
  · next hold hnew => simp [hold, hnew] at hT
  · exact free_killproc h hr currentTime

-- A trap that is not served is passed up.
theorem step_trap (h : v.Wf L) (hr : v.running = some p) (htrap : e.trap = some T) :
    ∃ w : Sched, v.step L e = w.passUp L e.tOut T e.stored p ∧ w.Stable L ∧ w.running = some p ∧
      (w.context p).trap_old_state = (v.context p).trap_old_state ∧
      (w.context p).trap_new_state = (v.context p).trap_new_state := by
  have hptr := v.enter_trap e p
  cases hk : e.kind with
  | sys =>
      by_cases hmode : e.old.s_sr.ps_s = false ∧ e.old.s_tmp.sys_no < 9
      · simp only [Event.trap, hk, if_pos hmode, Option.some.injEq] at htrap
        subst htrap
        refine ⟨{ v.enter e p with SYS_TRAP_OLD_STATE := e.stored }, ?_,
          h.toStable.congr rfl rfl rfl rfl rfl, hr, hptr.1, hptr.2⟩
        unfold step trapsyshandler
        simp only [Event.stored, hk, hr, if_pos hmode]
      · simp only [Event.trap, hk, if_neg hmode] at htrap
        split at htrap
        · next hno =>
          cases htrap
          refine ⟨v.enter e p, ?_, h.toStable.congr rfl rfl rfl rfl rfl, hr, hptr.1, hptr.2⟩
          rw [step_call hr (Event.call_eq hk hmode)]
          simp only [Event.stored, hk, if_neg hmode]
          unfold Sched.call
          split <;> first | omega | rfl
        · cases htrap
  | mm =>
      simp only [Event.trap, hk, Option.some.injEq] at htrap
      subst htrap
      refine ⟨{ v with areas := e.areas }, ?_, h.toStable.congr rfl rfl rfl rfl rfl, hr, rfl, rfl⟩
      unfold step
      simp only [Event.stored, hk, hr]
  | prog =>
      simp only [Event.trap, hk, Option.some.injEq] at htrap
      subst htrap
      refine ⟨{ v with areas := e.areas }, ?_, h.toStable.congr rfl rfl rfl rfl rfl, hr, rfl, rfl⟩
      unfold step
      simp only [Event.stored, hk, hr]
  | clock => simp [Event.trap, hk] at htrap
  | device type reg => simp [Event.trap, hk] at htrap

theorem free_step (h : v.Wf L) (hr : v.running = some p) (hends : e.Ends (v.context p)) :
    p ∈ (v.step L e).free := by
  have henter : (v.enter e p).Stable L := h.toStable.congr rfl rfl rfl rfl rfl
  have hptr := v.enter_trap e p
  rcases hends with hcall | ⟨hcall, T, hT, hset⟩ | ⟨T, htrap, hT⟩
  · have hcallee : (v.enter e p).call L e p = .gone ((v.enter e p).killproc L e.tOut p) := by
      unfold Sched.call
      rw [(call_some hcall).2.2]
      rfl
    rw [step_call hr hcall, hcallee]
    exact free_killproc henter hr e.tOut
  · have hcallee : (v.enter e p).call L e p = .gone ((v.enter e p).killproc L e.tOut p) := by
      unfold Sched.call
      rw [(call_some hcall).2.2]
      have hT' : TrapType.ofCode (v.enter e p).SYS_TRAP_OLD_STATE.d2 = some T := hT
      simp only [trapstate, hT', hptr.1, hptr.2, if_neg hset]
    rw [step_call hr hcall, hcallee]
    exact free_killproc henter hr e.tOut
  · obtain ⟨w, hstep, hw, hwr, hold, hnew⟩ := step_trap h hr htrap
    rw [hstep]
    exact free_passUp hw hwr e.tOut e.stored (by rwa [hold, hnew])

end Sched

namespace Kernel

-- What the processes have given to SYS5 since they were created.
abbrev Given := ProcId → TrapType → Option (Option Addr × Option Addr)

def given (k : Kernel) (e : Event) (_ : Kernel) (g : Given) : Given :=
  match k.running with
  | none => g
  | some p =>
      if e.call = some 1 then
        match k.procFree_h with
        | none => g
        | some c => Function.update g c fun _ => none
      else if e.call = some 5 then
        match TrapType.ofCode e.old.d2 with
        | none => g
        | some T =>
            if g p T = none then
              Function.update g p (Function.update (g p) T
                (some (toPointer e.old.d3, toPointer e.old.d4)))
            else g
      else g

-- A process that SYS1 creates finds no trap vector in its entry, and none gives
-- a vector after one of ENULLs.
structure Owned (k : Kernel) (g : Given) (e : Event) : Prop where
  fresh : e.call = some 1 → ∀ c, k.procFree_h = some c → ∀ T,
    (k.procTable c).trap_old_state T = none ∧ (k.procTable c).trap_new_state T = none
  once : e.call = some 5 → ∀ p T, k.running = some p → TrapType.ofCode e.old.d2 = some T →
    g p T ≠ some (none, none)

theorem owned_iff (k : Kernel) (g : Given) (e : Event) : Owned k g e ↔
    (e.call = some 1 → ∀ c ∈ k.procFree_h, ∀ T,
      (k.procTable c).trap_old_state T = none ∧ (k.procTable c).trap_new_state T = none) ∧
    (e.call = some 5 → ∀ p ∈ k.running, ∀ T ∈ TrapType.ofCode e.old.d2,
      g p T ≠ some (none, none)) :=
  ⟨fun h => ⟨h.fresh, fun hcall p hp T hT => h.once hcall p T hp hT⟩,
    fun h => ⟨h.1, fun hcall p T hp hT => h.2 hcall p hp T hT⟩⟩

instance (k : Kernel) (g : Given) (e : Event) : Decidable (Owned k g e) :=
  @decidable_of_iff' _ _ (owned_iff k g e) (@instDecidableAnd _ _ inferInstance inferInstance)

-- The trap vectors are those that the processes have given.
def Own (k : Kernel) (g : Given) : Prop :=
  ∀ p T, (k.procTable p).trap_old_state T = (g p T).bind Prod.fst ∧
    (k.procTable p).trap_new_state T = (g p T).bind Prod.snd

-- The process keeps the processor and goes on from a state.
structure GoesOn (k : Kernel) (p : ProcId) (s : State) (k' : Kernel) : Prop where
  cpu : k'.cpu = .running s
  running : k'.running = some p
  free : k'.procFree_h = k.procFree_h

-- The process is killed, and is free afterwards when the tables were in order.
structure Terminates (L : Layout) (k : Kernel) (e : Event) (p : ProcId) (k' : Kernel) : Prop where
  killed : ∃ m : Kernel, m.running = some p ∧ m.killproc L e.tOut = some k'
  freed : k.Sound L → Orderly L k e → p ∈ k'.abs.free

section Step

theorem running_setContext (k : Kernel) (p : ProcId) (c : Context) :
    (k.setContext p c).running = k.running := by
  unfold running headQueue
  simp only [setContext, link_context]

theorem trapsyshandler_eq (hr : k.running = some p) :
    trapsyshandler L e.tIn e.tOut e.vpops { k with areas := e.areas, SYS_TRAP_OLD_STATE := e.old } =
      if e.old.s_sr.ps_s = false ∧ e.old.s_tmp.sys_no < 9 then
        passUp L e.tOut .PROGTRAP { e.old with s_tmp := e.old.s_tmp.setPrTyp PRIVILEGE }
          { k.enter e p with
            SYS_TRAP_OLD_STATE := { e.old with s_tmp := e.old.s_tmp.setPrTyp PRIVILEGE } }
      else (syscall L e.tOut e.vpops e.old.s_tmp.sys_no (k.enter e p)).bind fun r => match r with
        | .gone k => some k
        | .back k => some ((k.updateLastStartTime e.tOut p).LDST k.SYS_TRAP_OLD_STATE) := by
  have hr' : ({ k with areas := e.areas, SYS_TRAP_OLD_STATE := e.old } : Kernel).running = some p := hr
  unfold trapsyshandler
  rw [hr']
  rfl

theorem step_sys (hr : k.running = some p) {n : ℕ} (hcall : e.call = some n) :
    step L e k = (syscall L e.tOut e.vpops n (k.enter e p)).bind fun r => match r with
      | .gone k => some k
      | .back k => some ((k.updateLastStartTime e.tOut p).LDST k.SYS_TRAP_OLD_STATE) := by
  obtain ⟨hk, hmode, rfl⟩ := Sched.call_some hcall
  unfold step
  rw [hk]
  dsimp only
  rw [trapsyshandler_eq hr, if_neg hmode]

theorem running_enter (k : Kernel) (e : Event) (p : ProcId) : (k.enter e p).running = k.running :=
  running_setContext _ p _

theorem vectors_enter (k : Kernel) (e : Event) (p : ProcId) :
    (k.enter e p).procTable.vectors = k.procTable.vectors :=
  vectors_updateTotalTime ..

-- A trap that is not served is passed up.
theorem step_trap (hr : k.running = some p) (htrap : e.trap = some T) :
    ∃ m : Kernel, step L e k = passUp L e.tOut T e.stored m ∧ m.running = some p ∧
      m.procTable.vectors = k.procTable.vectors ∧ m.procFree_h = k.procFree_h := by
  have hrun := (k.running_enter e p).trans hr
  have hvec := k.vectors_enter e p
  cases hk : e.kind with
  | sys =>
      by_cases hmode : e.old.s_sr.ps_s = false ∧ e.old.s_tmp.sys_no < 9
      · simp only [Event.trap, hk, if_pos hmode, Option.some.injEq] at htrap
        subst htrap
        refine ⟨{ k.enter e p with SYS_TRAP_OLD_STATE := e.stored }, ?_, hrun, hvec, rfl⟩
        unfold step
        simp only [Event.stored, hk, if_pos hmode]
        rw [trapsyshandler_eq hr, if_pos hmode]
      · simp only [Event.trap, hk, if_neg hmode] at htrap
        split at htrap
        · next hno =>
          cases htrap
          refine ⟨k.enter e p, ?_, hrun, hvec, rfl⟩
          rw [step_sys hr (Event.call_eq hk hmode)]
          simp only [Event.stored, hk, if_neg hmode]
          unfold syscall
          have hpass : trapsysdefault L e.tOut (k.enter e p) =
              passUp L e.tOut .SYSTRAP e.old (k.enter e p) := rfl
          split <;> first | omega | skip
          rw [hpass]
          cases passUp L e.tOut .SYSTRAP e.old (k.enter e p) <;> rfl
        · cases htrap
  | mm =>
      simp only [Event.trap, hk, Option.some.injEq] at htrap
      subst htrap
      refine ⟨{ k with areas := e.areas }, ?_, hr, rfl, rfl⟩
      unfold step
      simp only [Event.stored, hk]
      rfl
  | prog =>
      simp only [Event.trap, hk, Option.some.injEq] at htrap
      subst htrap
      refine ⟨{ k with areas := e.areas }, ?_, hr, rfl, rfl⟩
      unfold step
      simp only [Event.stored, hk]
      rfl
  | clock => simp [Event.trap, hk] at htrap
  | device type reg => simp [Event.trap, hk] at htrap

-- What becomes of a process that takes a trap.
theorem trap_outcome (hr : k.running = some p) (htrap : e.trap = some T)
    (hent : step L e k = some k') :
    (∀ old_state new_state, (k.procTable p).trap_old_state T = some old_state →
      (k.procTable p).trap_new_state T = some new_state →
      k'.areas old_state = e.stored ∧ k.GoesOn p (k'.areas new_state) k') ∧
    ((k.procTable p).trap_old_state T = none ∨ (k.procTable p).trap_new_state T = none →
      ∃ m : Kernel, m.running = some p ∧ m.killproc L e.tOut = some k') := by
  obtain ⟨m, hstep, hmr, hvec, hfree⟩ := step_trap hr htrap (L := L)
  have hold : (m.procTable p).trap_old_state = (k.procTable p).trap_old_state :=
    congrArg Prod.fst (congrFun hvec p)
  have hnew : (m.procTable p).trap_new_state = (k.procTable p).trap_new_state :=
    congrArg Prod.snd (congrFun hvec p)
  rw [hstep, passUp, hmr, Option.bind_eq_bind, Option.bind_some, hold, hnew] at hent
  refine ⟨fun old_state new_state ho hn => ?_, fun hnone => ⟨m, hmr, ?_⟩⟩
  · rw [ho, hn] at hent
    cases hent
    refine ⟨by simp [LDST], ?_⟩
    exact ⟨rfl, (running_setContext m p _).trans hmr, hfree⟩
  · rcases hnone with ho | hn
    · rw [ho] at hent
      exact hent
    · rw [hn] at hent
      cases ho : (k.procTable p).trap_old_state T <;> rw [ho] at hent <;> exact hent

-- Entries of the two tables of trap vectors of one process.
theorem vectors_give (t : ProcTable) (p : ProcId) {c : Context} (T : TrapType)
    {old_state new_state : Option Addr}
    (ho : c.trap_old_state = Function.update (t p).trap_old_state T old_state)
    (hn : c.trap_new_state = Function.update (t p).trap_new_state T new_state) :
    ProcTable.vectors (Function.update t p { t p with toContext := c }) =
      Function.update t.vectors p (Function.update (t p).trap_old_state T old_state,
        Function.update (t p).trap_new_state T new_state) := by
  funext a
  by_cases hap : a = p
  · subst hap
    simp [ProcTable.vectors, ho, hn]
  · simp [ProcTable.vectors, hap]

-- What becomes of a process that calls SYS5.
theorem sys5_outcome (hr : k.running = some p) (hcall : e.call = some 5)
    (hent : step L e k = some k') (hT : TrapType.ofCode e.old.d2 = some T) :
    ((k.procTable p).trap_old_state T = none ∧ (k.procTable p).trap_new_state T = none →
      k.GoesOn p e.old k' ∧ k'.procTable.vectors = Function.update k.procTable.vectors p
        (Function.update (k.procTable p).trap_old_state T (toPointer e.old.d3),
          Function.update (k.procTable p).trap_new_state T (toPointer e.old.d4))) ∧
    (¬ ((k.procTable p).trap_old_state T = none ∧ (k.procTable p).trap_new_state T = none) →
      ∃ m : Kernel, m.running = some p ∧ m.procTable.vectors = k.procTable.vectors ∧
        m.killproc L e.tOut = some k') := by
  have hrun := (k.running_enter e p).trans hr
  have hvec := congrFun (k.vectors_enter e p) p
  have ho : ((k.enter e p).procTable p).trap_old_state = (k.procTable p).trap_old_state :=
    congrArg Prod.fst hvec
  have hn : ((k.enter e p).procTable p).trap_new_state = (k.procTable p).trap_new_state :=
    congrArg Prod.snd hvec
  have hT' : TrapType.ofCode (k.enter e p).SYS_TRAP_OLD_STATE.d2 = some T := hT
  rw [step_sys hr hcall] at hent
  simp only [syscall, trapstate, hrun, Option.bind_eq_bind, Option.bind_some, hT', ho, hn] at hent
  refine ⟨fun hnone => ?_, fun hset => ⟨k.enter e p, hrun, k.vectors_enter e p, ?_⟩⟩
  · rw [if_pos hnone] at hent
    cases hent
    refine ⟨⟨rfl, ?_, rfl⟩, ?_⟩
    · exact ((running_setContext _ p _).trans (running_setContext _ p _)).trans hrun
    · change ((_ : Kernel).updateLastStartTime e.tOut p).procTable.vectors = _
      rw [vectors_updateLastStartTime]
      refine (vectors_give (k.enter e p).procTable p T (by rw [ho]) (by rw [hn])).trans ?_
      rw [vectors_enter, ho, hn]
      rfl
  · rw [if_neg hset] at hent
    obtain ⟨r, hr', hent⟩ := Option.bind_eq_some_iff.mp hent
    obtain ⟨m, hkill, hm⟩ := Option.bind_eq_some_iff.mp hr'
    cases hm
    cases hent
    exact hkill

-- A code that is no trap type changes nothing.
theorem sys5_idle (hr : k.running = some p) (hcall : e.call = some 5)
    (hent : step L e k = some k') (hT : TrapType.ofCode e.old.d2 = none) :
    k'.procTable.vectors = k.procTable.vectors := by
  have hT' : TrapType.ofCode (k.enter e p).SYS_TRAP_OLD_STATE.d2 = none := hT
  rw [step_sys hr hcall] at hent
  simp only [syscall, trapstate, (k.running_enter e p).trans hr, Option.bind_eq_bind,
    Option.bind_some, hT'] at hent
  cases hent
  exact (vectors_updateLastStartTime ..).trans (k.vectors_enter e p)

theorem running_of_sys {n : ℕ} (hcall : e.call = some n) (hent : step L e k = some k') :
    ∃ p, k.running = some p := by
  obtain ⟨hk, -, -⟩ := Sched.call_some hcall
  unfold step trapsyshandler at hent
  rw [hk] at hent
  obtain ⟨p, hp, -⟩ := Option.bind_eq_some_iff.mp hent
  exact ⟨p, hp⟩

theorem Own.congr {g : Given} (h : k.Own g) (hvec : k'.procTable.vectors = k.procTable.vectors) :
    k'.Own g := fun p T =>
  ⟨(congrFun (congrArg Prod.fst (congrFun hvec p)) T).trans (h p T).1,
    (congrFun (congrArg Prod.snd (congrFun hvec p)) T).trans (h p T).2⟩

theorem Own.unset {g : Given} (h : k.Own g)
    (hnone : (k.procTable p).trap_old_state T = none ∧ (k.procTable p).trap_new_state T = none)
    (hg : g p T ≠ some (none, none)) : g p T = none := by
  have hp := h p T
  rw [hnone.1, hnone.2] at hp
  cases hgp : g p T with
  | none => rfl
  | some r =>
      obtain ⟨old_state, new_state⟩ := r
      rw [hgp] at hp hg
      obtain ⟨hold, hnew⟩ := hp
      exact absurd (by rw [show old_state = none from hold.symm, show new_state = none from hnew.symm]) hg

-- An entry of an owned process keeps everyone's vectors their own.
theorem Own.step {g : Given} (h : k.Own g) (ho : k.Owned g e) (hent : Kernel.step L e k = some k') :
    k'.Own (k.given e k' g) := by
  by_cases hcall : e.call = some 5
  · obtain ⟨p, hr⟩ := running_of_sys hcall hent
    have hgiven : k.given e k' g = match TrapType.ofCode e.old.d2 with
        | none => g
        | some T => if g p T = none then Function.update g p (Function.update (g p) T
            (some (toPointer e.old.d3, toPointer e.old.d4))) else g := by
      simp [given, hr, hcall]
    rw [hgiven]
    cases hT : TrapType.ofCode e.old.d2 with
    | none => exact h.congr (sys5_idle hr hcall hent hT)
    | some T =>
        obtain ⟨haccept, hrefuse⟩ := sys5_outcome hr hcall hent hT
        dsimp only
        split
        · next hg =>
          have hnone := h p T
          rw [hg] at hnone
          obtain ⟨-, hvec⟩ := haccept hnone
          intro a T'
          have ha := congrFun hvec a
          by_cases hap : a = p
          · subst hap
            rw [Function.update_self] at ha
            have hold := congrFun (congrArg Prod.fst ha) T'
            have hnew := congrFun (congrArg Prod.snd ha) T'
            by_cases hTT : T' = T
            · subst hTT
              simpa [ProcTable.vectors] using And.intro hold hnew
            · have hb := h a T'
              simp only [ProcTable.vectors, Function.update_of_ne hTT] at hold hnew
              simp only [Function.update_self, Function.update_of_ne hTT]
              exact ⟨hold.trans hb.1, hnew.trans hb.2⟩
          · rw [Function.update_of_ne hap] at ha ⊢
            exact ⟨(congrFun (congrArg Prod.fst ha) T').trans (h a T').1,
              (congrFun (congrArg Prod.snd ha) T').trans (h a T').2⟩
        · next hg =>
          obtain ⟨m, -, hm, hkill⟩ := hrefuse fun hnone => hg (h.unset hnone (ho.once hcall p T hr hT))
          exact h.congr ((killproc_spares L e.tOut m k' hkill).trans hm)
  · have hkeep := h.congr (step_spares L k hcall k' hent)
    by_cases hone : e.call = some 1
    · obtain ⟨p, hr⟩ := running_of_sys hone hent
      cases hfree : k.procFree_h with
      | none =>
          have hgiven : k.given e k' g = g := by simp [given, hr, hone, hfree]
          rwa [hgiven]
      | some c =>
          have hgiven : k.given e k' g = Function.update g c fun _ => none := by
            simp [given, hr, hone, hfree]
          rw [hgiven]
          intro a T'
          by_cases hac : a = c
          · subst hac
            have hvec := congrFun (step_spares L k hcall k' hent) a
            have hfresh := ho.fresh hone a hfree T'
            rw [Function.update_self]
            exact ⟨(congrFun (congrArg Prod.fst hvec) T').trans hfresh.1,
              (congrFun (congrArg Prod.snd hvec) T').trans hfresh.2⟩
          · rw [Function.update_of_ne hac]
            exact hkeep a T'
    · have hgiven : k.given e k' g = g := by
        cases hr : k.running <;> simp [given, hr, hone, hcall]
      rwa [hgiven]

theorem terminates (hr : k.running = some p) (hent : Kernel.entry L e k = some k')
    (hends : e.Ends (k.procTable p).toContext)
    (hkill : ∃ m : Kernel, m.running = some p ∧ m.killproc L e.tOut = some k') :
    k.Terminates L e p k' where
  killed := hkill
  freed hsound hor := by
    rw [(hsound.entry_eq hor hent).2]
    exact Sched.free_step hsound.wf (hsound.running_eq ▸ hr) hends

end Step

section Run

variable {k₁ k₂ k₃ : Kernel} {es : List Event} {g : Given}

def ungiven : Given := fun _ _ => none

theorem main_own (hmain : main L p1 currentTime k = some k') : k'.Own ungiven := by
  have hinit : ((k.load L).init L).Own ungiven := fun _ _ => ⟨rfl, rfl⟩
  suffices hspares : ((k.load L).init L).Spares (main L p1 currentTime k) from
    hinit.congr (hspares k' hmain)
  unfold main allocProc
  split
  · exact Returns.absent
  · next m c heq =>
    have hm : m.procTable.vectors = ((k.load L).init L).procTable.vectors := by
      split at heq <;> cases heq
      exact vectors_setLink ..
    refine Returns.bind (insertReady_spares _ c) fun m' hm' => ?_
    refine (schedule_spares L currentTime m').mono fun m'' hm'' => hm''.trans (hm'.trans ?_)
    rw [vectors_saveState]
    exact hm

-- In a run whose processes own their entries a trap goes to the areas that the
-- process itself has given since it was created, or ends it. Its first SYS5 for
-- a trap is accepted and every other ends it.
theorem run_vectors (hmain : main L p1 currentTime k = some k₁)
    (hes : Runs.Along (Runs.watched (Kernel.entry L) given) (fun r e => Owned r.1 r.2 e) es
      (k₁, ungiven))
    (hrun : Runs.run (Runs.watched (Kernel.entry L) given) es (k₁, ungiven) = some (k₂, g))
    (ho : k₂.Owned g e) (hr : k₂.running = some p) (hent : Kernel.entry L e k₂ = some k₃) :
    (∀ T, e.trap = some T →
      (∀ old_state new_state, g p T = some (some old_state, some new_state) →
        k₃.areas old_state = e.stored ∧ k₂.GoesOn p (k₃.areas new_state) k₃) ∧
      ((∀ old_state new_state, g p T ≠ some (some old_state, some new_state)) →
        k₂.Terminates L e p k₃)) ∧
    (e.call = some 5 → ∀ T, TrapType.ofCode e.old.d2 = some T →
      (g p T = none → k₂.GoesOn p e.old k₃ ∧
        (k₃.procTable p).trap_old_state T = toPointer e.old.d3 ∧
        (k₃.procTable p).trap_new_state T = toPointer e.old.d4) ∧
      (g p T ≠ none → k₂.Terminates L e p k₃)) := by
  have hown : k₂.Own g := Runs.run_invariant (I := fun r => Own r.1 r.2)
    (fun r e r' hr ho hstep => by
      obtain ⟨k', hent, rfl⟩ := Option.map_eq_some_iff.mp hstep
      exact hr.step ho (step_of_entry hent)) (main_own hmain) hes hrun
  have hstep := step_of_entry hent
  refine ⟨fun T htrap => ?_, fun hcall T hT => ?_⟩
  · obtain ⟨hup, hend⟩ := trap_outcome hr htrap hstep
    have hp := hown p T
    refine ⟨fun old_state new_state hg => ?_, fun hno => ?_⟩
    · rw [hg] at hp
      exact hup old_state new_state hp.1 hp.2
    · have hnone : (k₂.procTable p).trap_old_state T = none ∨
          (k₂.procTable p).trap_new_state T = none := by
        rw [hp.1, hp.2]
        rcases hg : g p T with _ | ⟨_ | old_state, _ | new_state⟩
        · exact Or.inl rfl
        · exact Or.inl rfl
        · exact Or.inl rfl
        · exact Or.inr rfl
        · exact absurd hg (hno old_state new_state)
      exact terminates hr hent (Or.inr (Or.inr ⟨T, htrap, hnone⟩)) (hend hnone)
  · obtain ⟨haccept, hrefuse⟩ := sys5_outcome hr hcall hstep hT
    have hp := hown p T
    refine ⟨fun hg => ?_, fun hg => ?_⟩
    · rw [hg] at hp
      obtain ⟨hgoes, hvec⟩ := haccept hp
      have hpv := congrFun hvec p
      rw [Function.update_self] at hpv
      refine ⟨hgoes, ?_, ?_⟩
      · exact (congrFun (congrArg Prod.fst hpv) T).trans (Function.update_self ..)
      · exact (congrFun (congrArg Prod.snd hpv) T).trans (Function.update_self ..)
    · have hset : ¬ ((k₂.procTable p).trap_old_state T = none ∧
          (k₂.procTable p).trap_new_state T = none) :=
        fun hnone => hg (hown.unset hnone (ho.once hcall p T hr hT))
      obtain ⟨m, hm, -, hkill⟩ := hrefuse hset
      exact terminates hr hent (Or.inr (Or.inl ⟨hcall, T, hT, hset⟩)) ⟨m, hm, hkill⟩

section Sample

open Sample

-- A process that has called no SYS5 dies, and its entry of procTable goes to a new one,
-- which calls SYS5.
def reused : List Event :=
  List.replicate 19 fork ++ [locked [7], sys 2 0 0 0 [], fork] ++ List.replicate 18 clock ++
    [sys 5 0 100 200 []]

theorem run_vectors_sample : ∃ k₁ k₂ k₃ k₄ g, main layout state 0 cold = some k₁ ∧
    Runs.run (Runs.watched (Kernel.entry layout) given) reused (k₁, ungiven) = some (k₂, g) ∧
    k₂.running = some 1 ∧ g 1 .PROGTRAP = some (some 100, some 200) ∧
    (Kernel.entry layout fault k₂ = some k₃ ∧ k₃.areas 100 = fault.stored ∧
      k₂.GoesOn 1 (k₃.areas 200) k₃) ∧
    Kernel.entry layout (sys 5 0 300 400 []) k₂ = some k₄ ∧
      k₂.Terminates layout (sys 5 0 300 400 []) 1 k₄ := by
  obtain ⟨k₁, hmain, -, -⟩ := main_sound layout state 0 cold
  have hmem : ∃ k ∈ main layout state 0 cold,
      Runs.Along (Runs.watched (Kernel.entry layout) given) (fun r e => Owned r.1 r.2 e) reused
        (k, ungiven) ∧
      ∃ r ∈ Runs.run (Runs.watched (Kernel.entry layout) given) reused (k, ungiven),
        (r.1.running = some 1 ∧ r.2 1 .PROGTRAP = some (some 100, some 200)) ∧
        (r.1.Owned r.2 fault ∧ r.1.Owned r.2 (sys 5 0 300 400 [])) ∧
        (Kernel.entry layout fault r.1).isSome ∧
          (Kernel.entry layout (sys 5 0 300 400 []) r.1).isSome := by
    decide +kernel
  obtain ⟨k, hk, hes, ⟨k₂, g⟩, hrun, ⟨hr, hg⟩, ⟨hfault, hsys5⟩, hgoes, hends⟩ := hmem
  cases hmain.symm.trans hk
  obtain ⟨k₃, hent⟩ := Option.isSome_iff_exists.mp hgoes
  obtain ⟨k₄, hent'⟩ := Option.isSome_iff_exists.mp hends
  have hup := ((run_vectors hmain hes hrun hfault hr hent).1 .PROGTRAP rfl).1 100 200 hg
  have hend := ((run_vectors hmain hes hrun hsys5 hr hent').2 rfl .PROGTRAP rfl).2
    (fun hnone => Option.some_ne_none _ (hg.symm.trans hnone))
  exact ⟨k₁, k₂, k₃, k₄, g, hmain, hrun, hr, hg, ⟨hent, hup⟩, hent', hend⟩

-- A new process that has called no SYS5 has its trap passed up to the areas of a
-- dead one.
theorem vectors_inherited : ∃ k₁ k₂ k₃ g, main layout state 0 cold = some k₁ ∧
    Runs.run (Runs.watched (Kernel.entry layout) given) inherited (k₁, ungiven) = some (k₂, g) ∧
    k₂.running = some 1 ∧ g 1 .PROGTRAP = none ∧
    Kernel.entry layout fault k₂ = some k₃ ∧ k₃.running = some 1 ∧ 1 ∉ k₃.abs.free ∧
    k₃.areas 100 = fault.old := by
  obtain ⟨k₁, hmain, -, -⟩ := main_sound layout state 0 cold
  have hval : ((main layout state 0 cold).bind fun k =>
      (Runs.run (Runs.watched (Kernel.entry layout) given) inherited (k, ungiven)).bind fun r =>
        (Kernel.entry layout fault r.1).map fun k' => (r.1.running, (r.2 1 .PROGTRAP).isNone,
          k'.running, k'.abs.free.contains 1, decide (k'.areas 100 = fault.old))) =
      some (some 1, true, some 1, false, true) := by decide +kernel
  rw [hmain, Option.bind_some] at hval
  obtain ⟨⟨k₂, g⟩, hrun, hval⟩ := Option.bind_eq_some_iff.mp hval
  obtain ⟨k₃, hent, heq⟩ := Option.map_eq_some_iff.mp hval
  simp only [Prod.mk.injEq] at heq
  exact ⟨k₁, k₂, k₃, g, hmain, hrun, heq.1, by simpa using heq.2.1, hent, heq.2.2.1,
    by simpa using heq.2.2.2.1, of_decide_eq_true heq.2.2.2.2⟩

end Sample

end Run

end Kernel

end Hoca
