import Hoca.Refine.Boot
import Hoca.Sched.Vector

namespace Hoca

open Links Forest

namespace Kernel

-- The nodes of a queue, followed from its tail pointer.
def nodes (t : ProcTable) (tp : ProcLink) : List Node :=
  match tp.node with
  | none => []
  | some last => lap t.succ last (MAXPROC * SEMMAX) (t.succ last)

def queueOf (k : Kernel) : QueueId → List Node
  | none => nodes k.procTable k.readyQueue
  | some s =>
      match k.getSemaphoreFromActiveList s with
      | some (some d) => nodes k.procTable (k.semdTable d).s_link
      | _ => []

-- The addresses on the ASL, in its order.
def ASL (k : Kernel) : List (Option Addr) :=
  (walk (fun d => (k.semdTable d).s_next) MAXPROC k.semd_h).map fun d => (k.semdTable d).s_semAdd

-- What the pointers of a kernel stand for.
def abs (k : Kernel) : Sched where
  toEnv := k.toEnv
  queue := k.queueOf
  free := walk (fun p => (k.procTable.link p 0).next) MAXPROC k.procFree_h
  parent p := (k.procTable p).parent_proc
  children p := walk (fun c => (k.procTable c).sibling_proc) MAXPROC (k.procTable p).children_proc
  context p := (k.procTable p).toContext

end Kernel

variable {L : Layout} {k k' : Kernel} {v : Sched} {q : QueueId → List Node} {e : Event}

section Abs

theorem nodes_handle {t : ProcTable} {nodes : List Node} (hring : Ring t.succ nodes)
    (hnodup : nodes.Nodup) : Kernel.nodes t (handle nodes) = nodes := by
  cases nodes using List.reverseRecOn with
  | nil => rfl
  | append_singleton front last =>
      rw [handle_snoc, Kernel.nodes, ProcLink.node_of]
      dsimp only
      have hl := nodes_length_le hnodup
      rw [hring.next_last]
      refine lap_eq hring hnodup ?_
      rw [List.length_append, List.length_singleton] at hl
      exact hl

theorem Core.queueOf_eq (h : Core k v) : k.queueOf = v.queue := by
  funext x
  have hnodes := nodes_handle (h.queued.linked.ring x) (h.queued.linked.nodup x)
  cases x with
  | none => rw [Kernel.queueOf, h.queued.ready, hnodes]
  | some s =>
      obtain ⟨asl, spare, ha⟩ := h.queued.active
      rw [Kernel.queueOf]
      by_cases hs : v.queue (some s) = []
      · have habsent : s ∉ asl.map Prod.snd := fun hm => (ha.complete s).mpr hm hs
        rw [ha.search_absent habsent, hs]
      · obtain ⟨e, he, rfl⟩ := List.mem_map.mp ((ha.complete s).mp hs)
        rw [ha.search_mem he]
        dsimp only
        rw [ha.tail e he, hnodes]

theorem Core.procs_eq (h : Core k v) (x : QueueId) : k.abs.procs x = v.procs x := by
  rw [Sched.procs, Sched.procs, show k.abs.queue = v.queue from h.queueOf_eq]

theorem ActiveList.ASL_eq {asl : List Active} {spare : List SemdId}
    (h : ActiveList k q asl spare) : k.ASL = (asl.map Prod.snd).map some := by
  have hlen : (asl.map Prod.fst).length ≤ MAXPROC := by
    have hl := h.length_lt
    rw [List.length_map]
    omega
  have hnext : Chain (fun d => (k.semdTable d).s_next) k.semd_h (asl.map Prod.fst) := h.doubly.1
  rw [Kernel.ASL, hnext.walk_eq hlen, List.map_map, List.map_map]
  exact List.map_congr_left h.addr

theorem ASL_spec (h : Core k v) : k.ASL.Nodup ∧ none ∉ k.ASL ∧
    ∀ s, some s ∈ k.ASL ↔ v.queue (some s) ≠ [] := by
  obtain ⟨asl, spare, ha⟩ := h.queued.active
  have hnodup : (asl.map Prod.snd).Nodup := List.Pairwise.imp (fun h => ne_of_lt h) ha.sorted
  rw [ha.ASL_eq]
  refine ⟨hnodup.map (Option.some_injective _), by simp, fun s => ?_⟩
  rw [ha.complete s, List.mem_map]
  simp

theorem Rep.parent_eq {path : ProcId → List ProcId} (h : Rep k v) (hfam : v.Rooted path)
    (p : ProcId) : (k.procTable p).parent_proc = v.parent p := by
  by_cases hp : p ∈ v.free
  · rw [(h.free.cleared p hp).kin]
    cases hv : v.parent p with
    | none => rfl
    | some a => exact absurd hp (hfam.parent_live a p hv).2
  · exact h.kin.parent p hp

theorem Rep.children_eq {path : ProcId → List ProcId} (h : Rep k v) (hfam : v.Rooted path)
    (p : ProcId) :
    walk (fun c => (k.procTable c).sibling_proc) MAXPROC (k.procTable p).children_proc =
      v.children p := by
  by_cases hp : p ∈ v.free
  · rw [(h.free.cleared p hp).kin]
    refine (List.eq_nil_iff_forall_not_mem.mpr fun c hc => ?_).symm
    exact (hfam.parent_live p c ((hfam.child p c).mp hc)).1 hp
  · refine (h.kin.chain p hp).walk_eq ?_
    have hl := (hfam.nodup p).length_le_card
    simpa using hl

-- There is one abstract kernel at most.
theorem Rep.abs_eq (h : Rep k v) (hroot : ∃ path, v.Rooted path) : k.abs = v := by
  obtain ⟨path, hfam⟩ := hroot
  have hfree : k.abs.free = v.free := h.free.chain.walk_eq h.length_free
  have hqueue : k.abs.queue = v.queue := h.queueOf_eq
  have hparent : k.abs.parent = v.parent := funext (h.parent_eq hfam)
  have hchildren : k.abs.children = v.children := funext (h.children_eq hfam)
  have hcontext : k.abs.context = v.context := funext h.context
  have henv : k.abs.toEnv = v.toEnv := h.env
  cases v
  simp only [Kernel.abs] at hfree hqueue hparent hchildren hcontext henv ⊢
  subst hfree hqueue hparent hchildren hcontext henv
  rfl

end Abs

namespace Kernel

-- The pointers are in order, and what they stand for obeys the laws.
structure Sound (L : Layout) (k : Kernel) : Prop where
  rep : Rep k k.abs
  wf : k.abs.Wf L

-- The entry meets no full table and no queue whose head and tail use different
-- entries of p_link, and its vector is disjoint from the kernel's semaphores.
structure Orderly (L : Layout) (k : Kernel) (e : Event) : Prop where
  admits : k.abs.Admits L e
  apart : Sched.Apart L e

theorem Sound.of_rep (h : Rep k v) (hw : v.Wf L) : k.Sound L ∧ k.abs = v := by
  have heq := h.abs_eq hw.rooted
  exact ⟨⟨heq ▸ h, heq ▸ hw⟩, heq⟩

theorem main_sound (L : Layout) (p1 : State) (currentTime : Int) (k : Kernel) :
    ∃ k', main L p1 currentTime k = some k' ∧ k'.Sound L ∧
      k'.abs = Sched.boot L p1 currentTime k := by
  obtain ⟨k', hmain, hrep⟩ := main_spec L p1 currentTime k
  exact ⟨k', hmain, Sound.of_rep hrep (Sched.boot_wf L p1 currentTime k)⟩

-- The kernel's entry is the abstract one.
theorem Sound.entry (h : k.Sound L) (hor : k.Orderly L e) (hans : k.abs.Answers L e)
    (hen : k.Enabled e = true) :
    ∃ k', Kernel.entry L e k = some k' ∧ k'.Sound L ∧ k'.abs = k.abs.step L e := by
  obtain ⟨k', hstep, hrep⟩ := step_spec h.rep (h.wf.except (R := ∅)) e hen hor.admits
    (h.wf.sheds hor.admits) hans
  refine ⟨k', by rw [Kernel.entry, if_pos hen, hstep], ?_⟩
  exact Sound.of_rep hrep (h.wf.step hor.admits hor.apart)

theorem enabled_of_entry (h : Kernel.entry L e k = some k') : k.Enabled e = true := by
  by_contra hen
  rw [entry, if_neg hen] at h
  cases h

theorem step_of_entry (h : Kernel.entry L e k = some k') : Kernel.step L e k = some k' := by
  rwa [entry, if_pos (enabled_of_entry h)] at h

theorem Sound.answers (h : k.Sound L) (hrun : Kernel.entry L e k = some k') :
    k.abs.Answers L e :=
  answers_of_step h.rep (step_of_entry hrun)

theorem Sound.entry_eq (h : k.Sound L) (hor : k.Orderly L e) (hrun : Kernel.entry L e k = some k') :
    k'.Sound L ∧ k'.abs = k.abs.step L e := by
  obtain ⟨k₁, hrun₁, hk₁⟩ := h.entry hor (h.answers hrun) (enabled_of_entry hrun)
  rw [hrun] at hrun₁
  cases hrun₁
  exact hk₁

theorem Sound.running_of_call (h : k.Sound L) {n : ℕ} (hcall : e.call = some n)
    (hrun : Kernel.entry L e k = some k') : ∃ p, k.abs.running = some p := by
  have hen := enabled_of_entry hrun
  obtain ⟨hkind, -, -⟩ := Sched.call_some hcall
  unfold Kernel.Enabled at hen
  cases hc : k.cpu with
  | running s => exact Sched.running_of_ready (h.wf.awake (s := s) hc)
  | asleep => simp [hc, hkind] at hen
  | halted m => simp [hc] at hen

section Blocking

-- The kernel when a system call of the process has been entered.
def enter (k : Kernel) (e : Event) (p : ProcId) : Kernel :=
  { k with areas := e.areas, SYS_TRAP_OLD_STATE := e.old }.updateTotalTimeOnProcessor e.tIn p

-- The calls of insertBlocked in an entry: with which kernel, semaphore and process.
inductive Blocking (L : Layout) (k : Kernel) (e : Event) : Kernel → Addr → ProcId → Prop
  | vector {p : ProcId} {pre post : List Vpop} {o : Vpop} {m : Kernel} {b : Bool}
      (hr : k.running = some p) (hcall : e.call = some 3) (hops : e.vector = pre ++ o :: post)
      (hrun : semopLoop pre (k.enter e p) false = some (m, b)) (hlock : o.op = LOCK)
      (hsem : m.sem o.sem ≤ 0) :
      Blocking L k e ((m.setSem o.sem (toLong (m.sem o.sem + o.op))).saveState p m.SYS_TRAP_OLD_STATE)
        o.sem p
  | kernel {p : ProcId} {s : Addr} {m : Kernel} (hr : k.running = some p) (hcall : Waits L e s)
      (hsem : k.sem s ≤ 0)
      (hrun : (((k.enter e p).saveState p e.old).setSem s (toLong (k.sem s + LOCK))).removeReady =
        some (m, some p)) :
      Blocking L k e m s p

theorem Sound.enter (h : k.Sound L) (e : Event) (p : ProcId) :
    Rep (k.enter e p) (k.abs.enter e p) :=
  h.rep.enter e p

theorem Sound.running_eq (h : k.Sound L) : k.running = k.abs.running :=
  h.rep.kernel_running

-- An orderly entry finds a descriptor whenever it blocks a process.
theorem Sound.blocking (h : k.Sound L) (hor : k.Orderly L e) {m : Kernel} {s : Addr} {p : ProcId}
    (hb : Blocking L k e m s p) :
    ∃ m', m.insertBlocked s p = some (m', false) ∧ p ∈ m'.abs.procs (some s) := by
  have hmem : ∀ {m' : Kernel} {v : Sched}, Core m' (v.insertBlocked s p) →
      p ∈ m'.abs.procs (some s) := by
    intro m' v hcore
    rw [hcore.procs_eq, Sched.procs_insertBlocked, if_pos rfl]
    simp
  cases hb with
  | @vector p pre post o m b hr hcall hops hrun hlock hsem =>
      have hr' : (k.abs.enter e p).running = some p := h.running_eq.symm.trans hr
      have hfit := hor.admits.vector p (h.running_eq ▸ hr) hcall
      rw [hops, Sched.allFit_append] at hfit
      obtain ⟨m', hloop, hcore, -⟩ := semopLoop_spec (h.enter e p).toCore hr' false hfit.1
      rw [hrun] at hloop
      cases hloop
      rw [hcore.sem_eq] at hsem
      obtain ⟨hcard, hdesc⟩ := hfit.2.1.1 hlock hsem
      have hsave := ((hcore.setSem o.sem (toLong (m.sem o.sem + o.op))).saveState p m.SYS_TRAP_OLD_STATE).1
      obtain ⟨m', hins, hcore', -⟩ := insertBlocked_core hsave
        (hcore.running_live (Sched.running_semopLoop hr' pre false)) hcard hdesc
      exact ⟨m', hins, hmem hcore'⟩
  | @kernel p s m hr hcall hsem hrun =>
      have hr' : k.abs.running = some p := h.running_eq.symm.trans hr
      have hdesc : k.abs.HasDescriptor s := by
        rcases hcall with ⟨hc, rfl⟩ | ⟨hc, d, hd, rfl⟩
        · exact hor.admits.clock p hr' hc
        · obtain ⟨d', hd', hdesc⟩ := hor.admits.device p hr' hc
          rw [hd] at hd'
          cases hd'
          rw [← h.rep.sem_eq] at hdesc
          exact hdesc hsem
      have hset := ((h.enter e p).saveState p e.old).1.setSem s (toLong (k.sem s + LOCK))
      have hneat := h.wf.tidy.neat
      obtain ⟨m', hrem, hcore, -, hlive, hempty⟩ := hset.removeReady_step
        ⟨hneat.once, hneat.ready, hneat.alone⟩ (by exact hr')
      rw [hrun] at hrem
      cases hrem
      obtain ⟨m', hins, hcore', -⟩ := insertBlocked_core (s := s) hcore hlive (by simp [hempty]) (by
        simp only [Sched.HasDescriptor, Sched.queue_removeReady]
        exact hdesc)
      exact ⟨m', hins, hmem hcore'⟩

end Blocking

end Kernel

end Hoca
