import Hoca.Refine.Run

namespace Hoca

variable {L : Layout} {k k' : Kernel} {v : Sched} {e : Event} {p : ProcId} {o : Vpop} {ops : List Vpop}

namespace Kernel

def HasDescriptor (k : Kernel) (s : Addr) : Prop := k.queueOf (some s) ≠ [] ∨ k.semdFree_h ≠ none

-- A P that has to wait finds an entry of p_link and a descriptor, and a V that lets
-- somebody go finds a queue whose head and tail use the same entry of p_link.
def Fits (k : Kernel) (o : Vpop) (p : ProcId) : Prop :=
  (o.op = LOCK → k.sem o.sem ≤ 0 →
      (k.procTable p).qcount < SEMMAX ∧ k.HasDescriptor o.sem) ∧
    (o.op = UNLOCK → k.sem o.sem < 0 → CleanHead (k.queueOf (some o.sem)))

def AllFit : List Vpop → ProcId → Kernel → Prop
  | [], _, _ => True
  | o :: ops, p, k => k.Fits o p ∧
      match k.semopStep o false with
      | none => True
      | some (k', _) => AllFit ops p k'

-- The entry ends nobody, and whoever it makes wait finds room in the tables.
@[mk_iff]
structure Affords (L : Layout) (k : Kernel) (e : Event) : Prop where
  mild : e.call ≠ some 2 ∧ e.call ≠ some 5 ∧ e.trap = none
  vector : ∀ p, k.running = some p → e.call = some 3 → AllFit e.vector p (k.enter e p)
  clock : e.call = some 7 → k.HasDescriptor L.PSEUDO_CLOCK_SEMAPHORE
  device : e.call = some 8 → ∃ d, deviceOf e.old.d4 = some d ∧ k.HasDescriptor (L.device d)

section Decide

instance (k : Kernel) (s : Addr) : Decidable (k.HasDescriptor s) :=
  inferInstanceAs (Decidable (_ ∨ _))

instance (k : Kernel) (o : Vpop) (p : ProcId) : Decidable (k.Fits o p) :=
  inferInstanceAs (Decidable (_ ∧ _))

instance decidableAllFit : ∀ ops p k, Decidable (AllFit ops p k)
  | [], _, _ => isTrue trivial
  | o :: ops, p, k =>
      match h : k.semopStep o false with
      | none => decidable_of_iff (k.Fits o p) (by simp [AllFit, h])
      | some (k', b) =>
          have := decidableAllFit ops p k'
          decidable_of_iff (k.Fits o p ∧ AllFit ops p k') (by simp [AllFit, h])

instance (L : Layout) (k : Kernel) (e : Event) : Decidable (Affords L k e) :=
  decidable_of_iff' _ (affords_iff L k e)

end Decide

end Kernel

theorem Core.hasDescriptor (h : Core k v) {s : Addr} (hd : k.HasDescriptor s) :
    v.HasDescriptor s := by
  have hq : k.queueOf (some s) = v.queue (some s) := congrFun h.queueOf_eq _
  exact hd.imp (fun hne => hq ▸ hne) h.active_ncard.mpr

theorem Core.fits (h : Core k v) (hfit : k.Fits o p) : v.Fits o p := by
  have hsem := h.sem_eq
  constructor
  · intro hl hz
    obtain ⟨hcount, hdesc⟩ := hfit.1 hl (by rwa [hsem])
    rw [h.queued.linked.qcount p] at hcount
    exact ⟨by exact_mod_cast hcount, h.hasDescriptor hdesc⟩
  · intro hu hz
    have hclean := hfit.2 hu (by rwa [hsem])
    rwa [show k.queueOf (some o.sem) = v.queue (some o.sem) from congrFun h.queueOf_eq _] at hclean

-- The kernel finds out what the queues that it stands for have room for.
theorem Core.allFit (h : Core k v) (hr : v.running = some p) (hfit : Kernel.AllFit ops p k) :
    Sched.AllFit ops p v := by
  induction ops generalizing k v with
  | nil => trivial
  | cons o ops ih =>
      have hone := h.fits hfit.1
      obtain ⟨k', hstep, hcore, -⟩ := semopStep_spec h hr o false hone
      have hrest := hfit.2
      rw [hstep] at hrest
      exact ⟨hone, ih hcore (Sched.running_semopStep hr o false) hrest⟩

theorem Kernel.Affords.not_ends (h : k.Affords L e) (c : Context) : ¬ e.Ends c := by
  obtain ⟨hkill, htrap, hnone⟩ := h.mild
  rintro (hc | ⟨hc, -⟩ | ⟨T, hT, -⟩)
  · exact hkill hc
  · exact htrap hc
  · simp [hnone] at hT

-- Calls that ask for no room in the tables.
theorem Kernel.orderly_of_ne (hends : ∀ c, ¬ e.Ends c) (h3 : e.call ≠ some 3) (h7 : e.call ≠ some 7)
    (h8 : e.call ≠ some 8) : k.Orderly L e :=
  ⟨⟨fun _ _ he => absurd he (hends _), fun _ _ hc => absurd hc h3, fun _ _ hc => absurd hc h7,
    fun _ _ hc => absurd hc h8⟩, fun hc => absurd hc h3, fun hc => absurd hc h3⟩

theorem Kernel.Affords.sheds (h : k.Affords L e) : k.abs.Sheds e :=
  fun _ _ hends => absurd hends (h.not_ends _)

theorem Rep.admits (h : Rep k k.abs) (ha : k.Affords L e) : k.abs.Admits L e := by
  refine ⟨fun p _ he => absurd he (ha.not_ends _), fun p hr hc => ?_, fun p _ hc => ?_,
    fun p _ hc => ?_⟩
  · exact (h.enter e p).toCore.allFit hr (ha.vector p (h.kernel_running.trans hr) hc)
  · exact h.toCore.hasDescriptor (ha.clock hc)
  · obtain ⟨d, hd, hdesc⟩ := ha.device hc
    exact ⟨d, hd, fun _ => h.toCore.hasDescriptor hdesc⟩

end Hoca
