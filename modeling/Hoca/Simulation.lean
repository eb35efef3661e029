import Hoca.Conservation

namespace Hoca

variable {L : Layout} {U : Set Addr} {k k' : Kernel} {v : Sched} {e : Event}

namespace Sched

-- The machine has not halted, a trap has its process and a device its number, and the
-- interrupt of a device whose semaphore says that somebody waits finds somebody.
structure Open (L : Layout) (v : Sched) (e : Event) : Prop extends Expects v e where
  on : ∀ m, v.cpu ≠ .halted m
  waiter : v.Answers L e

-- The entry finds the room that it needs in the tables and nobody behind a head with
-- another entry of p_link, and its vector leaves the kernel's semaphores alone.
structure Tolerates (L : Layout) (v : Sched) (e : Event) : Prop where
  admits : v.Admits L e
  apart : Apart L e

open Classical in
noncomputable def entry (L : Layout) (e : Event) (v : Sched) : Option Sched :=
  if v.Open L e then some (v.step L e) else none

noncomputable def run (L : Layout) : List Event → Sched → Option Sched := Runs.run (entry L)

end Sched

namespace Kernel

theorem Sound.running_none (h : k.Sound L) (hsleep : k.cpu = .asleep) : k.abs.running = none := by
  have hq := h.wf.asleep hsleep
  rw [Sched.running, hq]
  rfl

-- The kernel is entered exactly when there is something to do.
theorem Sound.open_iff (h : k.Sound L) :
    k.abs.Open L e ↔ k.Enabled e = true ∧ k.abs.Answers L e := by
  constructor
  rotate_left
  · rintro ⟨hen, hans⟩
    refine ⟨h.wf.expects rfl hen, fun m hm => ?_, hans⟩
    simp [Enabled, show k.cpu = .halted m from hm] at hen
  · intro ho
    refine ⟨?_, ho.waiter⟩
    unfold Enabled
    cases hc : k.cpu with
    | running s =>
        cases hk : e.kind with
        | device type reg => exact Option.isSome_iff_exists.mpr (ho.device type reg hk)
        | _ => rfl
    | asleep =>
        have hnone := h.running_none hc
        have htrap : ¬ (e.kind = .sys ∨ e.kind = .mm ∨ e.kind = .prog) := by
          intro hk
          obtain ⟨p, hp⟩ := ho.running hk
          rw [hnone] at hp
          cases hp
        cases hk : e.kind with
        | sys => exact absurd (Or.inl hk) htrap
        | mm => exact absurd (Or.inr (Or.inl hk)) htrap
        | prog => exact absurd (Or.inr (Or.inr hk)) htrap
        | clock => rfl
        | device type reg => exact Option.isSome_iff_exists.mpr (ho.device type reg hk)
    | halted m => exact absurd hc (ho.on m)

theorem Sound.map_entry (h : k.Sound L) (ht : k.abs.Tolerates L e) :
    (Kernel.entry L e k).map abs = k.abs.entry L e := by
  unfold Sched.entry
  by_cases ho : k.abs.Open L e
  · obtain ⟨hen, hans⟩ := h.open_iff.mp ho
    obtain ⟨k', hent, -, habs⟩ := h.entry ⟨ht.admits, ht.apart⟩ hans hen
    rw [if_pos ho, hent, ← habs]
    rfl
  · rw [if_neg ho]
    cases hent : Kernel.entry L e k with
    | none => rfl
    | some k' => exact absurd (h.open_iff.mpr ⟨enabled_of_entry hent, h.answers hent⟩) ho

theorem Sound.entry_tolerated (h : k.Sound L) (ht : k.abs.Tolerates L e)
    (hent : Kernel.entry L e k = some k') : k'.Sound L :=
  (h.entry_eq ⟨ht.admits, ht.apart⟩ hent).1

-- The kernel with its pointers does what the abstract kernel does, entry for entry:
-- it gets as far, and what it leaves stands for what the abstract one leaves. Runs
-- of disciplined processes are always tolerated.
theorem run_refines (L : Layout) (p1 : State) (currentTime : Int) (k : Kernel) :
    ∃ k₁, main L p1 currentTime k = some k₁ ∧ k₁.abs = Sched.boot L p1 currentTime k ∧
      (∀ es, Runs.Along (Sched.entry L) (Sched.Tolerates L) es k₁.abs →
        (Kernel.run L es k₁).map abs = Sched.run L es k₁.abs) ∧
      ∀ es, (∀ e ∈ es, Disciplined L.user e) →
        Runs.Along (Sched.entry L) (Sched.Tolerates L) es k₁.abs := by
  obtain ⟨k₁, hmain, hsound, habs⟩ := main_sound L p1 currentTime k
  have hres : ∀ s ∈ L.user, ¬ L.Reserved s := fun _ hs => hs
  have htolerates : ∀ k e, Paced L k → Disciplined L.user e → k.abs.Tolerates L e := fun k e hk hd =>
    ⟨(hk.orderly hres hd).admits, (hk.orderly hres hd).apart⟩
  have hsim : ∀ k e, Paced L k → Disciplined L.user e →
      (Kernel.entry L e k).map abs = k.abs.entry L e := fun k e hk hd =>
    hk.toSound.map_entry (htolerates k e hk hd)
  refine ⟨k₁, hmain, habs, fun es hes => ?_, fun es hes => ?_⟩
  · show (Runs.run (Kernel.entry L) es k₁).map abs = Runs.run (Sched.entry L) es k₁.abs
    exact Runs.run_map abs (fun k e hk ht => hk.map_entry ht)
      (fun k e k' hk ht hent => hk.entry_tolerated ht hent) hsound hes
  · exact Runs.Along.map abs hsim (fun k e k' hk hd hent => hk.entry hres hd hent) htolerates
      (main_paced hmain) (Runs.along_of_forall (fun e he _ => hes e he) k₁)

section Sample

open Sample

theorem run_refines_sample : ∃ k₁ k₂, main layout state 0 cold = some k₁ ∧
    Kernel.run layout busy k₁ = some k₂ ∧ Sched.run layout busy k₁.abs = some k₂.abs ∧
    k₂.abs.procs (some 7) = [3, 0] := by
  obtain ⟨k₁, hmain, -, hsim, htolerates⟩ := run_refines layout state 0 cold
  have hval : ((main layout state 0 cold).bind fun k => (Kernel.run layout busy k).map fun k' =>
      k'.abs.procs (some 7)) = some [3, 0] := by decide +kernel
  rw [hmain, Option.bind_some] at hval
  obtain ⟨k₂, hrun, hprocs⟩ := Option.map_eq_some_iff.mp hval
  refine ⟨k₁, k₂, hmain, hrun, ?_, hprocs⟩
  rw [← hsim busy (htolerates busy (by decide)), hrun]
  rfl

end Sample

end Kernel

end Hoca
