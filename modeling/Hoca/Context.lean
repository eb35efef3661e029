import Hoca.Conservation
import Hoca.Sched.Context

namespace Hoca

variable {L : Layout} {U : Set Addr} {k k' : Kernel} {e : Event} {g : ProcId → Left} {p1 : State}
  {currentTime : Int}

namespace Kernel

-- Keeps the notes of an entry, from what the kernel holds when it is entered.
def note (k : Kernel) (e : Event) (_ : Kernel) (g : ProcId → Left) : ProcId → Left :=
  e.noted k.running k.procFree_h (fun p => (k.procTable p).toContext) g

theorem Sound.note_eq (h : k.Sound L) :
    k.note e k' g = e.noted k.abs.running k.abs.free.head? k.abs.context g := by
  rw [note, h.running_eq, h.rep.free.chain.1]
  rfl

-- Nobody has left the processor before the first process gets it.
def unnoted (p1 : State) : ProcId → Left := fun _ => .trapped p1 []

theorem main_followed (hmain : main L p1 currentTime k = some k') :
    k'.abs.Followed L (unnoted p1) := by
  obtain ⟨k₁, hmain₁, -, habs⟩ := main_sound L p1 currentTime k
  rw [hmain] at hmain₁
  cases hmain₁
  have hzero : ∀ p : ProcId, p ∉ (List.finRange MAXPROC).tail → p = 0 := by decide
  rw [habs, Sched.boot]
  refine Sched.Stored.schedule ⟨fun p hp _ => ?_, fun d p hp => ?_⟩
    ((Sched.stable_first (L := L) p1 fun s hs => init_sem L k hs).live none) currentTime
  · obtain rfl := hzero p hp
    exact State.Agrees.refl [] p1
  · rw [Sched.first, Sched.procs_insertReady, if_neg (by simp)] at hp
    cases hp

theorem Tended.followed (h : k.Tended L) (hU : ∀ s ∈ U, ¬ L.Reserved s) (hd : Disciplined U e)
    (hf : k.abs.Followed L g) (hrun : Kernel.entry L e k = some k') :
    k'.abs.Followed L (k.note e k' g) := by
  have hexp := h.wf.expects (k := k) rfl (enabled_of_entry hrun)
  rw [(h.entry_eq (h.orderly hU hd) hrun).2, h.toSound.note_eq]
  exact hf.step h.wf hexp (hd.apart hU) hd.device

-- What holds of a run with its notes.
structure Watched (L : Layout) (r : Kernel × (ProcId → Left)) : Prop where
  tended : r.1.Tended L
  followed : r.1.abs.Followed L r.2

theorem Watched.entry {r r' : Kernel × (ProcId → Left)} (h : Watched L r)
    (hU : ∀ s ∈ U, ¬ L.Reserved s) (hd : Disciplined U e)
    (hrun : Runs.watched (Kernel.entry L) note e r = some r') : Watched L r' := by
  obtain ⟨k', hent, rfl⟩ := Option.map_eq_some_iff.mp hrun
  exact ⟨h.tended.entry hU hd hent, h.tended.followed hU hd h.followed hent⟩

-- Whoever the kernel gives the processor to goes on as it left it, but for the
-- results of its call, and in its trap handler after a trap that is passed up.
theorem run_resumes (L : Layout) (U : Set Addr) (p1 : State) (currentTime : Int) (k : Kernel)
    (hU : ∀ s ∈ U, ¬ L.Reserved s) :
    ∃ k₁, main L p1 currentTime k = some k₁ ∧
      ∀ es, (∀ e ∈ es, Disciplined U e) → ∀ k₂, Kernel.run L es k₁ = some k₂ →
        ∃ g, Runs.run (Runs.watched (Kernel.entry L) note) es (k₁, unnoted p1) = some (k₂, g) ∧
          ∀ s, k₂.cpu = .running s → ∃ p, k₂.running = some p ∧ (g p).Resumes k₂.areas s := by
  obtain ⟨k₁, hmain, -, -⟩ := main_sound L p1 currentTime k
  refine ⟨k₁, hmain, fun es hes k₂ hrun => ?_⟩
  obtain ⟨g, hg⟩ := Runs.exists_watched note (unnoted p1) hrun
  have hfirst : Watched L (k₁, unnoted p1) := ⟨main_tended hmain, main_followed hmain⟩
  have hlast : Watched L (k₂, g) :=
    Runs.run_invariant (P := fun _ e => Disciplined U e)
      (fun _ _ _ hw hd hr => hw.entry hU hd hr) hfirst
      (Runs.along_of_forall (fun e he _ => hes e he) _) hg
  refine ⟨g, hg, fun s hs => ?_⟩
  obtain ⟨p, hr, hres⟩ := hlast.followed.loaded s hs
  exact ⟨p, hlast.tended.running_eq.trans hr, hres⟩

section Sample

open Sample

theorem run_resumes_sample : ∃ k₁, main layout state 0 cold = some k₁ ∧
    ∃ k₂ g, Runs.run (Runs.watched (Kernel.entry layout) note) [fork, locked [7], clock]
      (k₁, unnoted state) = some (k₂, g) ∧
      ∀ s, k₂.cpu = .running s → ∃ p, k₂.running = some p ∧ (g p).Resumes k₂.areas s := by
  obtain ⟨k₁, hmain, hall⟩ := run_resumes layout layout.user state 0 cold
    fun s hs => hs
  have hsome : ((main layout state 0 cold).bind
      (Kernel.run layout [fork, locked [7], clock])).isSome = true := by
    decide +kernel
  rw [hmain, Option.bind_some] at hsome
  obtain ⟨k₂, hrun⟩ := Option.isSome_iff_exists.mp hsome
  obtain ⟨g, hg, hres⟩ := hall _ (fun e he => disciplined_sample e (List.mem_of_mem_dropLast he)) k₂ hrun
  exact ⟨k₁, hmain, k₂, g, hg, hres⟩

end Sample

end Kernel

end Hoca
