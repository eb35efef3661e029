import Hoca.PseudoClock

namespace Hoca

open Fifo

variable {L : Layout} {U : Set Addr} {k k' : Kernel} {e : Event} {p : ProcId}

namespace Kernel

-- Who is ready and not running is behind the head.
theorem Sound.mem_waiting (h : k.Sound L) (hp : p ∈ k.abs.procs none) (hr : k.running ≠ some p) :
    p ∈ k.waiting none := by
  rw [h.running_eq, Sched.running, ← List.head?_map] at hr
  have hhead := List.head?_eq_some_head (List.ne_nil_of_mem hp)
  refine Sched.mem_tail_of_ne hp hhead fun heq => hr ?_
  rw [heq]
  exact hhead

theorem Paced.place_pos (h : k.Paced L) (hp : p ∈ k.waiting none) :
    0 < (k.abs.procs none).idxOf p := by
  have hhead : (k.abs.procs none).head? ≠ some p := fun hhead =>
    Sched.not_mem_tail (h.wf.distinct none) hhead hp
  have htail := idxOf_tail (List.mem_of_mem_tail hp) hhead
  omega

-- No entry sends a waiting process back, and every interrupt of the clock brings it
-- one place forward.
theorem Paced.place (h : k.Paced L) (hU : ∀ s ∈ U, ¬ L.Reserved s) (hd : Disciplined U e)
    (hrun : Kernel.entry L e k = some k') (hp : p ∈ k.waiting none) (hp' : p ∈ k'.waiting none) :
    (k'.abs.procs none).idxOf p + (if e.isClock then 1 else 0) ≤ (k.abs.procs none).idxOf p := by
  have hnodup := h.wf.distinct none
  have hturn := idxOf_rotate hnodup hp
  have hready := List.mem_of_mem_tail hp
  have hready' := List.mem_of_mem_tail hp'
  have hrotate : ((k.abs.procs none).rotate 1).Nodup := List.nodup_rotate.mpr hnodup
  rw [(h.entry_eq (h.orderly hU hd) hrun).2] at hready' ⊢
  by_cases hk : e.kind = .clock
  · have hle := (Sched.advances_clock (L := L) k.abs hk).idxOf_le hrotate
      (List.mem_rotate.mpr hready) hready'
    rw [if_pos (Event.isClock_iff.mpr hk)]
    omega
  · obtain ⟨mid, hmid, hadv⟩ := (Sched.InOrder.step (L := L) h.wf fun hc =>
      (hd.vector hc).distinct).ready
    rw [if_neg fun hc => hk (Event.isClock_iff.mp hc), Nat.add_zero]
    rcases hmid with rfl | rfl
    · exact hadv.idxOf_le hnodup hready hready'
    · have hle := hadv.idxOf_le hrotate (List.mem_rotate.mpr hready) hready'
      omega

theorem Paced.place_lt (h : k.Paced L) (hp : p ∈ k.abs.procs none) :
    (k.abs.procs none).idxOf p < MAXPROC := by
  have hidx := List.idxOf_lt_length_of_mem hp
  have hlen := (h.wf.distinct none).length_le_card
  rw [Fintype.card_fin] at hlen
  omega

-- A process that stays ready has the processor at the latest when the clock has
-- interrupted once for everybody ahead of it, and there are fewer than twenty of them.
theorem run_round_robin (L : Layout) (p1 : State) (currentTime : Int) (k : Kernel) :
    ∃ k₁, main L p1 currentTime k = some k₁ ∧
      ∀ es, (∀ e ∈ es, Disciplined L.user e) → ∀ k₂, Kernel.run L es k₁ = some k₂ →
        ∀ p ∈ k₂.abs.procs none, (k₂.abs.procs none).idxOf p < MAXPROC ∧
          ∀ es', (∀ e ∈ es', Disciplined L.user e) → ∀ k₃, Kernel.run L es' k₂ = some k₃ →
            (∀ bs k', bs <+: es' → Kernel.run L bs k₂ = some k' → p ∈ k'.abs.procs none) →
              (k₂.abs.procs none).idxOf p ≤ clocks es' →
                ∃ bs k', bs <+: es' ∧ Kernel.run L bs k₂ = some k' ∧ k'.running = some p := by
  obtain ⟨k₁, hmain, -, -⟩ := main_sound L p1 currentTime k
  have hres : ∀ s ∈ L.user, ¬ L.Reserved s := fun _ hs => hs
  refine ⟨k₁, hmain, fun es hes k₂ hrun p hp => ?_⟩
  have hpaced := (main_paced hmain).run hres hes hrun
  refine ⟨hpaced.place_lt hp, fun es' hes' k₃ hrun' hready hle => ?_⟩
  by_contra hnever
  have hwait : ∀ bs k', bs <+: es' → Kernel.run L bs k₂ = some k' → p ∈ k'.waiting none := by
    intro bs k' hbs hrun₁
    have hpaced' := hpaced.run hres (fun e he => hes' e (hbs.subset he)) hrun₁
    exact hpaced'.mem_waiting (hready bs k' hbs hrun₁) fun hr => hnever ⟨bs, k', hbs, hrun₁, hr⟩
  have hrank := Runs.run_ranked (I := Paced L) (P := fun _ e => Disciplined L.user e)
    (fun k => (k.abs.procs none).idxOf p) Event.isClock
    (fun k e k' hk hd hent => hk.entry hres hd hent)
    (fun k e k' hk hd hp hp' hent => hk.place hres hd hent hp hp')
    hpaced (Runs.along_of_forall (fun e he _ => hes' e he) k₂) hwait hrun'
  have hpos := (hpaced.run hres hes' hrun').place_pos (hwait es' k₃ (List.prefix_refl es') hrun')
  change _ + clocks es' ≤ _ at hrank
  omega

section Sample

open Sample

-- Three children; the first process is preempted, its first child waits on 7, and its
-- second child has the processor after two interrupts of the clock.
theorem run_round_robin_sample : ∃ k₁ k₂ k₃ k', main layout state 0 cold = some k₁ ∧
    Kernel.run layout [fork, fork, fork] k₁ = some k₂ ∧
    k₂.abs.procs none = [0, 1, 2, 3] ∧
    Kernel.run layout [clock, locked [7], clock] k₂ = some k₃ ∧ k₃.running = some 3 ∧
    ∃ bs, bs <+: [clock, locked [7], clock] ∧ Kernel.run layout bs k₂ = some k' ∧
      k'.running = some 2 := by
  obtain ⟨k₁, hmain, hall⟩ := run_round_robin layout state 0 cold
  have hmem : ∃ k ∈ main layout state 0 cold, ∃ k₂ ∈ Kernel.run layout [fork, fork, fork] k,
      ∃ k₃ ∈ Kernel.run layout [clock, locked [7], clock] k₂,
        k₂.abs.procs none = [0, 1, 2, 3] ∧ k₃.running = some 3 ∧
        ∀ bs ∈ [clock, locked [7], clock].inits, ∀ k' ∈ Kernel.run layout bs k₂,
          2 ∈ k'.abs.procs none := by
    decide +kernel
  obtain ⟨k, hk, k₂, hrun, k₃, hrun', hready, hlast, hstays⟩ := hmem
  cases hmain.symm.trans hk
  obtain ⟨-, hturn⟩ := hall _ (by decide) k₂ hrun 2 (by rw [hready]; decide)
  obtain ⟨bs, k', hbs, hk', hgoes⟩ := hturn _ (by decide) k₃ hrun'
    (fun bs k' hbs hk' => hstays bs ((List.mem_inits _ _).mpr hbs) k' hk') (by rw [hready]; decide)
  exact ⟨k₁, k₂, k₃, k', hmain, hrun, hready, hrun', hlast, bs, hbs, hk', hgoes⟩

end Sample

end Kernel

end Hoca
