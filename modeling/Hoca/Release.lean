import Hoca.Device

namespace Hoca

open Forest

variable {L : Layout} {d : Device} {e : Event} {type : DeviceType} {reg : DevReg}

namespace Sched

variable {v v' : Sched} {p : ProcId}

-- Whoever has waited longest for the device has its results and is ready, and the
-- others wait on.
def Releases (L : Layout) (d : Device) (reg : DevReg) (v v' : Sched) : Prop :=
  ∃ a rest, v.procs (some (L.device d)) = a :: rest ∧ v'.procs (some (L.device d)) = rest ∧
    a ∈ v'.procs none ∧ (∃ s, v'.Carries a s ∧ s.d2 = reg.d_dadd ∧ s.d3 = reg.d_stat) ∧
      v'.sem (L.device d) = -rest.length

-- An interrupt is a V just when one process waits and the semaphore says so.
theorem releases_iff (h : v.Wf L) (hans : v.Answers L e) (hkind : e.kind = .device type reg)
    (hd : e.device = some d) :
    Releases L d reg v (v.step L e) ↔
      (v.procs (some (L.device d))).length = 1 ∧ v.sem (L.device d) = -1 := by
  rcases step_interrupt hans hkind hd with ⟨hneg, a, ha, hs⟩ | ⟨hne, hs⟩
  · obtain ⟨rest, hq⟩ := List.head?_eq_some_iff.mp ha
    obtain ⟨hsem, hq', hready, hcarry⟩ := delivered h hq hs
    rw [hq, List.length_cons]
    constructor
    · rintro ⟨b, rest', hcons, -, -, -, hword⟩
      obtain ⟨-, rfl⟩ := List.cons.inj (hq.symm.trans hcons)
      omega
    · rintro ⟨hone, -⟩
      have hzero : (rest.length : Int) = 0 := by omega
      refine ⟨a, rest, hq, hq', hready, hcarry, ?_⟩
      rw [hsem, hzero]
      rfl
  · constructor
    · rintro ⟨a, rest, hcons, hrest, -⟩
      have hsame : (v.step L e).procs (some (L.device d)) = v.procs (some (L.device d)) :=
        hs.procs _
      rw [hsame, hcons] at hrest
      exact absurd hrest (List.cons_ne_self a rest)
    · rintro ⟨-, hsem⟩
      exact absurd hsem hne

-- At most one process waits for the device, and the semaphore says so.
def Lone (L : Layout) (v : Sched) (d : Device) : Prop :=
  (v.procs (some (L.device d)) = [] ∧ 0 ≤ v.sem (L.device d)) ∨
    ∃ a, v.procs (some (L.device d)) = [a] ∧ v.sem (L.device d) = -1

theorem Lone.elsewhere (h : v.Lone L d) (hel : Elsewhere L d v v') : v'.Lone L d := by
  unfold Lone
  rw [hel.procs, hel.sem]
  exact h

theorem Lone.room (h : v.Lone L d) : v.Roomy (L.device d) := by
  intro hne
  rcases h with ⟨hq, -⟩ | ⟨a, hq, hneg⟩
  · exact absurd (List.map_eq_nil_iff.mp hq) hne
  · rw [level, hneg, ← length_procs, hq, List.length_singleton]
    decide

theorem Lone.answers (h : v.Lone L d) (hd : e.device = some d) : v.Answers L e := by
  intro d' hd' hsem
  cases hd.symm.trans hd'
  rcases h with ⟨-, hpos⟩ | ⟨a, hq, -⟩
  · omega
  · rw [hq]
    exact List.cons_ne_nil a []

theorem Lone.remains (h : v.Lone L d) (hw : v.Wf L) (p : ProcId) : (v.remains p).Lone L d := by
  obtain ⟨hprocs, hsem⟩ := device_remains hw p d h.room
  rcases h with ⟨hq, hpos⟩ | ⟨a, hq, hneg⟩
  · rw [hq] at hprocs hsem
    exact Or.inl ⟨hprocs, by simpa [hsem] using hpos⟩
  · rw [hq, hneg] at hsem
    rw [hq] at hprocs
    by_cases ha : a ∈ progeny v.children MAXPROC p
    · left
      rw [List.filter_cons_of_neg (by simpa using ha), List.filter_nil] at hprocs hsem
      exact ⟨hprocs, by simp [hsem]⟩
    · right
      rw [List.filter_cons_of_pos (by simpa using ha), List.filter_nil] at hprocs hsem
      exact ⟨a, hprocs, by simpa using hsem⟩

theorem Lone.call (h : v.Lone L d) (hr : v.running = some p) (hcall : e.call = some 8)
    (hd : deviceOf e.old.d4 = some d) (hq : v.procs (some (L.device d)) = []) :
    (v.step L e).Lone L d := by
  have hpos : 0 ≤ v.sem (L.device d) := by
    rcases h with ⟨-, hpos⟩ | ⟨a, hone, -⟩
    · exact hpos
    · exact absurd (hq.symm.trans hone) (by simp)
  rcases step_waitforio (L := L) hr hcall hd with ⟨hz, hs⟩ | ⟨hfree, hs, -⟩
  · have hzero : v.sem (L.device d) = 0 := by omega
    right
    refine ⟨p, ?_, ?_⟩
    · rw [hs.procs, Sched.block, procs_insertBlocked, if_pos rfl, procs_removeReady,
        if_neg (by simp)]
      show v.procs (some (L.device d)) ++ [p] = [p]
      rw [hq, List.nil_append]
    · rw [hs.sem]
      show Function.update v.sem (L.device d) (toLong (v.sem (L.device d) - 1)) (L.device d) = -1
      rw [Function.update_self, hzero]
      rfl
  · left
    refine ⟨(hs.procs _).trans hq, ?_⟩
    rw [hs.sem]
    show 0 ≤ Function.update v.sem (L.device d) (v.sem (L.device d) - 1) (L.device d)
    rw [Function.update_self]
    omega

theorem Lone.interrupt (h : v.Lone L d) (hw : v.Wf L) (hfit : v.DevicesFit L)
    (hkind : e.kind = .device type reg) (hd : e.device = some d) : (v.step L e).Lone L d := by
  left
  rcases step_interrupt (h.answers hd) hkind hd with ⟨hneg, a, ha, hs⟩ | ⟨hne, hs⟩
  · rcases h with ⟨-, hpos⟩ | ⟨b, hone, -⟩
    · omega
    · obtain ⟨hsem, hq, -, -⟩ := delivered hw hone (by
        rw [hone, List.head?_cons] at ha
        cases ha
        exact hs)
      exact ⟨hq, hsem.ge⟩
  · rcases h with ⟨hq, hpos⟩ | ⟨-, -, hneg⟩
    · refine ⟨(hs.procs _).trans hq, ?_⟩
      have hlt := hfit d
      rw [level] at hlt
      rw [hs.sem]
      show 0 ≤ Function.update v.sem (L.device d) (toLong (v.sem (L.device d) + 1)) (L.device d)
      rw [Function.update_self, toLong_of_bounds (by omega) (by omega)]
      omega
    · exact absurd hneg hne

theorem Lone.step (h : v.Lone L d) (hw : v.Wf L) (hap : Apart L e) (hfit : v.DevicesFit L)
    (hexp : v.Expects e) (hvacant : e.call = some 8 → deviceOf e.old.d4 = some d →
      v.procs (some (L.device d)) = []) : (v.step L e).Lone L d := by
  by_cases hio : e.call = some 8 ∧ deviceOf e.old.d4 = some d
  · obtain ⟨hcall, hd⟩ := hio
    obtain ⟨p, hr⟩ := hexp.running (Or.inl (call_some hcall).1)
    exact h.call hr hcall hd (hvacant hcall hd)
  · by_cases hdev : e.device = some d
    · obtain ⟨type, reg, hkind⟩ := device_kind hdev
      exact h.interrupt hw hfit hkind hdev
    · rcases step_elsewhere hw hap (fun hcall hd => hio ⟨hcall, hd⟩) hdev with hel | ⟨p, -, hs⟩
      · exact h.elsewhere hel
      · have hrem := h.remains hw p
        unfold Lone
        rw [hs.procs, congrFun hs.sem]
        exact hrem

end Sched

namespace Kernel

variable {k k' k₁ : Kernel} {p1 : State} {currentTime : Int}

-- Nobody calls SYS8 on the device while another process is blocked there.
def Vacant (L : Layout) (d : Device) (k : Kernel) (e : Event) : Prop :=
  e.call = some 8 → deviceOf e.old.d4 = some d → k.abs.procs (some (L.device d)) = []

theorem main_lone (hmain : main L p1 currentTime k = some k₁) (d : Device) : k₁.abs.Lone L d := by
  obtain ⟨hsem, hq⟩ := ((main_served hmain).serves d).owes
  exact Or.inl ⟨hq, hsem.ge⟩

theorem Sound.lone (h : k.Sound L) (hlone : k.abs.Lone L d) (hor : k.Orderly L e)
    (hfit : k.DevicesFit L e) (hvacant : k.Vacant L d e) (hrun : Kernel.entry L e k = some k') :
    k'.abs.Lone L d := by
  rw [(h.entry_eq hor hrun).2]
  exact hlone.step h.wf hor.apart hfit (h.wf.expects (k := k) rfl (enabled_of_entry hrun)) hvacant

theorem orderly_device (hkind : e.kind = .device type reg) : k.Orderly L e := by
  have hcall : e.call = none := by simp [Event.call, hkind]
  have htrap : e.trap = none := by simp [Event.trap, hkind]
  exact orderly_of_ne (fun c hends => by simp [Event.Ends, hcall, htrap] at hends) (by simp [hcall])
    (by simp [hcall]) (by simp [hcall])

-- The interrupt of a device releases who has waited longest just when nobody else
-- waits there and the semaphore is -1, as it is where SYS8 calls do not meet.
theorem run_releases_iff (L : Layout) (p1 : State) (currentTime : Int) (k : Kernel) :
    ∃ k₁, main L p1 currentTime k = some k₁ ∧
      ∀ es k₂, Runs.Along (Kernel.entry L) (Orderly L) es k₁ → Kernel.run L es k₁ = some k₂ → ∀ d,
        (∀ e type reg k₃, e.kind = .device type reg → e.device = some d →
          entry L e k₂ = some k₃ → (Sched.Releases L d reg k₂.abs k₃.abs ↔
            (k₂.abs.procs (some (L.device d))).length = 1 ∧ k₂.sem (L.device d) = -1)) ∧
        (Runs.Along (Kernel.entry L) (Vacant L d) es k₁ →
          Runs.Along (Kernel.entry L) (DevicesFit L) es k₁ →
            k₂.abs.procs (some (L.device d)) ≠ [] →
              (k₂.abs.procs (some (L.device d))).length = 1 ∧ k₂.sem (L.device d) = -1) := by
  obtain ⟨k₁, hmain, hsound, -⟩ := main_sound L p1 currentTime k
  refine ⟨k₁, hmain, fun es k₂ hes hrun d => ⟨?_, fun hvacant hfit hne => ?_⟩⟩
  · intro e type reg k₃ hkind hd hent
    have h := Runs.run_invariant (fun _ _ _ h hor hs => (Sound.entry_eq h hor hs).1) hsound hes hrun
    rw [(h.entry_eq (orderly_device hkind) hent).2]
    exact Sched.releases_iff h.wf (h.answers hent) hkind hd
  · have hlone := Runs.run_invariant (I := fun k => k.Sound L ∧ k.abs.Lone L d)
      (fun _ _ _ h hP hs => ⟨(h.1.entry_eq hP.1 hs).1, h.1.lone h.2 hP.1 hP.2.2 hP.2.1 hs⟩)
      ⟨hsound, main_lone hmain d⟩ (hes.and (hvacant.and hfit)) hrun
    rcases hlone.2 with ⟨hq, -⟩ | ⟨a, hq, hsem⟩
    · exact absurd hq hne
    · exact ⟨by rw [hq]; rfl, hsem⟩

section Sample

open Sample

theorem run_releases_sample : ∃ k₁ k₂ k₃, main layout state 0 cold = some k₁ ∧
    Kernel.run layout [fork, locked [7], waitio 0] k₁ = some k₂ ∧
      entry layout (interrupted 0 ⟨5, 6⟩) k₂ = some k₃ ∧
        Sched.Releases layout 0 ⟨5, 6⟩ k₂.abs k₃.abs := by
  obtain ⟨k₁, hmain, hall⟩ := run_releases_iff layout state 0 cold
  have hend : ((main layout state 0 cold).bind fun k =>
      (Kernel.run layout [fork, locked [7], waitio 0] k).map fun k =>
        ((entry layout (interrupted 0 ⟨5, 6⟩) k).isSome,
          k.abs.procs (some (layout.device 0)), k.sem (layout.device 0))) =
      some (true, [1], -1) := by decide +kernel
  rw [hmain, Option.bind_some] at hend
  obtain ⟨k₂, hrun, heq⟩ := Option.map_eq_some_iff.mp hend
  obtain ⟨hsome, hq, hsem⟩ := by simpa only [Prod.mk.injEq] using heq
  obtain ⟨k₃, hent⟩ := Option.isSome_iff_exists.mp hsome
  have hd : ∀ e ∈ [fork, locked [7], waitio 0], Disciplined layout.user e := by decide
  have hes := (main_tended hmain).orderly_along (U := layout.user) (fun s hs => hs) hd
  have hiff := (hall _ k₂ hes hrun 0).1 _ _ _ k₃ rfl (by decide) hent
  exact ⟨k₁, k₂, k₃, hmain, hrun, hent, hiff.mpr ⟨by rw [hq]; rfl, hsem⟩⟩

-- Two processes wait, and the interrupt releases nobody.
theorem interrupt_releases_nobody : ∃ k₁ k₂ k₃, main layout state 0 cold = some k₁ ∧
    (∀ e ∈ [fork, waitio 0, waitio 0], Disciplined layout.user e) ∧
      Kernel.run layout [fork, waitio 0, waitio 0] k₁ = some k₂ ∧
        k₂.abs.procs (some (layout.device 0)) = [0, 1] ∧
          entry layout (interrupted 0 ⟨5, 6⟩) k₂ = some k₃ ∧
            k₃.abs.procs (some (layout.device 0)) = [0, 1] ∧ k₃.abs.procs none = [] := by
  obtain ⟨k₁, hmain, -, -⟩ := main_sound layout state 0 cold
  have hend : ((main layout state 0 cold).bind fun k =>
      (Kernel.run layout [fork, waitio 0, waitio 0] k).bind fun k =>
        (entry layout (interrupted 0 ⟨5, 6⟩) k).map fun k' =>
          (k.abs.procs (some (layout.device 0)), k'.abs.procs (some (layout.device 0)),
            k'.abs.procs none)) = some ([0, 1], [0, 1], []) := by decide +kernel
  rw [hmain, Option.bind_some] at hend
  obtain ⟨k₂, hrun, hend⟩ := Option.bind_eq_some_iff.mp hend
  obtain ⟨k₃, hent, heq⟩ := Option.map_eq_some_iff.mp hend
  simp only [Prod.mk.injEq] at heq
  obtain ⟨hq, hq', hready⟩ := heq
  exact ⟨k₁, k₂, k₃, hmain, by decide, hrun, hq, hent, hq', hready⟩

end Sample

end Kernel

end Hoca
