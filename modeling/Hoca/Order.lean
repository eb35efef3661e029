import Hoca.Conservation
import Hoca.Sched.Order

namespace Hoca

open Fifo

variable {L : Layout} {U : Set Addr} {k k' k₁ k₂ k₃ : Kernel} {e : Event} {es : List Event}
  {x : QueueId} {a b : ProcId}

namespace Kernel

-- Who waits on a queue: on readyQueue, everybody behind the head.
def waiting (k : Kernel) : QueueId → List ProcId
  | none => (k.abs.procs none).tail
  | some s => k.abs.procs (some s)

-- An entry serves the queues in the order of arrival. Nobody overtakes, and who
-- joins goes behind those who are there, as does the head of readyQueue when its
-- turn is over. Who leaves a queue is its head unless it is killed, and the
-- processor goes to nobody who has one ahead that stays alive.
structure FirstCome (k k' : Kernel) : Prop where
  order : ∀ x a b, Ahead (k.waiting x) a b → a ∈ k'.waiting x → b ∈ k'.waiting x →
    Ahead (k'.waiting x) a b
  joins : ∀ x a b, a ∈ k.abs.procs x → a ∈ k'.abs.procs x → b ∉ k.abs.procs x →
    b ∈ k'.abs.procs x → Ahead (k'.abs.procs x) a b
  turn : ∀ a b, a ∈ k.waiting none → a ∈ k'.abs.procs none → k.running = some b →
    b ∈ k'.waiting none → Ahead (k'.abs.procs none) a b
  left : ∀ x a, a ∈ k.abs.procs x → a ∉ k'.abs.procs x →
    a ∈ k'.abs.free ∨ (k.abs.procs x).head? = some a
  dispatch : ∀ a b, Ahead (k.waiting none) a b → k'.running = some b → a ∈ k'.abs.free

section Ready

variable {old mid new : List ProcId}

theorem advances_of_turn (h : mid = old ∨ mid = old.rotate 1) (hadv : Advances mid new)
    (hnodup : old.Nodup) (hab : Ahead old.tail a b) (ha : a ∈ new) (hb : b ∈ new) :
    Ahead new a b := by
  rcases h with rfl | rfl
  · exact hadv.ahead hnodup hab.of_tail ha hb
  · exact hadv.ahead (List.nodup_rotate.mpr hnodup) hab.rotate ha hb

theorem mem_turn (h : mid = old ∨ mid = old.rotate 1) : a ∈ mid ↔ a ∈ old := by
  rcases h with rfl | rfl
  · rfl
  · exact List.mem_rotate

-- The old head is behind the others when it stays and is not the head.
theorem ahead_turn (h : mid = old ∨ mid = old.rotate 1) (hadv : Advances mid new)
    (hnodup : old.Nodup) (hnew : new.Nodup) (ha : a ∈ old.tail) (ha' : a ∈ new)
    (hb : old.head? = some b) (hb' : b ∈ new.tail) : Ahead new a b := by
  obtain ⟨rest, rfl⟩ := List.head?_eq_some_iff.mp hb
  have hbn := List.mem_of_mem_tail hb'
  rcases h with rfl | rfl
  · obtain ⟨kept, joined, rfl, hsub, hjoined⟩ := hadv
    have hkept : b ∈ kept :=
      (List.mem_append.mp hbn).resolve_right fun hj => hjoined b hj List.mem_cons_self
    cases kept with
    | nil => cases hkept
    | cons c kept =>
        have hc : c = b := by
          rcases List.sublist_cons_iff.mp hsub with hs | ⟨r, heq, -⟩
          · exact absurd (hs.subset hkept) (List.nodup_cons.mp hnodup).1
          · exact (List.cons.inj heq).1
        subst hc
        exact absurd hb' (List.nodup_cons.mp hnew).1
  · rw [List.rotate_cons_succ, List.rotate_zero] at hadv
    have hmid : (rest ++ [b]).Nodup := by
      rw [List.nodup_append]
      have hcons := List.nodup_cons.mp hnodup
      refine ⟨hcons.2, by simp, fun c hc d hd heq => hcons.1 ?_⟩
      rw [List.mem_singleton] at hd
      exact hd ▸ heq ▸ hc
    exact hadv.ahead hmid (ahead_append rest [b] ha (by simp)) ha' hbn

end Ready

theorem firstCome (hk : k.abs.Tidy) (hk' : k'.abs.Tidy) (h : Sched.InOrder k.abs k'.abs)
    (hr : k.running = k.abs.running) (hr' : k'.running = k'.abs.running) : k.FirstCome k' := by
  obtain ⟨mid, hmid, hadv⟩ := h.ready
  have hhead : ∀ v : Sched, v.running = (v.procs none).head? := fun v => by
    rw [Sched.running, Sched.procs, List.head?_map]
  refine ⟨fun x a b hab ha hb => ?_, fun x a b ha ha' hb hb' => ?_, fun a b ha ha' hb hb' => ?_,
    h.left, fun a b hab hb => ?_⟩
  · cases x with
    | none =>
        have hnew := advances_of_turn hmid hadv (hk.distinct none) hab (List.mem_of_mem_tail ha)
          (List.mem_of_mem_tail hb)
        exact hnew.tail (hk'.distinct none) ha
    | some s => exact (h.blocked s).ahead (hk.distinct (some s)) hab ha hb
  · cases x with
    | none =>
        exact hadv.joins ((mem_turn hmid).mpr ha) ha' (fun hm => hb ((mem_turn hmid).mp hm)) hb'
    | some s => exact (h.blocked s).joins ha ha' hb hb'
  · rw [hr, hhead] at hb
    exact ahead_turn hmid hadv (hk.distinct none) (hk'.distinct none) ha ha' hb hb'
  · rw [hr', hhead] at hb
    have hb' := List.mem_of_head? hb
    by_contra hfree
    have ha : a ∈ k'.abs.procs none := by
      by_contra hn
      refine hab.of_tail.ne_head (hk.distinct none) ?_
      have ha := (h.left none a hab.of_tail.mem_left hn).resolve_left hfree
      obtain ⟨rest, hready⟩ := List.head?_eq_some_iff.mp ha
      have hnodup := hk.distinct none
      rw [waiting, hready] at hab
      rw [hready] at hnodup
      exact absurd hab.mem_left (List.nodup_cons.mp hnodup).1
    exact (advances_of_turn hmid hadv (hk.distinct none) hab ha hb').ne_head (hk'.distinct none) hb

theorem Paced.firstCome (h : k.Paced L) (hU : ∀ s ∈ U, ¬ L.Reserved s) (hd : Disciplined U e)
    (hrun : Kernel.entry L e k = some k') : k.FirstCome k' := by
  have h' := h.entry hU hd hrun
  have hord : Sched.InOrder k.abs k'.abs := by
    rw [(h.entry_eq (h.orderly hU hd) hrun).2]
    exact Sched.InOrder.step h.wf fun hc => (hd.vector hc).distinct
  exact Kernel.firstCome h.wf.tidy h'.wf.tidy hord h.running_eq h'.running_eq

-- Nobody overtakes as long as both keep waiting.
theorem Paced.ahead_run (h : k.Paced L) (hU : ∀ s ∈ U, ¬ L.Reserved s)
    (hd : ∀ e ∈ es, Disciplined U e) (hab : Ahead (k.waiting x) a b)
    (hwait : Runs.Along (Kernel.entry L) (fun k _ => a ∈ k.waiting x ∧ b ∈ k.waiting x) es k)
    (hrun : Kernel.run L es k = some k') (ha : a ∈ k'.waiting x) (hb : b ∈ k'.waiting x) :
    Ahead (k'.waiting x) a b := by
  induction es generalizing k with
  | nil =>
      cases hrun
      exact hab
  | cons e es ih =>
      obtain ⟨k₁, hent, hrun⟩ := Option.bind_eq_some_iff.mp hrun
      have hd₁ := hd e (by simp)
      have hfirst := h.firstCome hU hd₁ hent
      have hrest := hwait.2 k₁ hent
      refine ih (h.entry hU hd₁ hent) (fun e' he' => hd e' (by simp [he'])) ?_ hrest hrun
      cases es with
      | nil =>
          cases hrun
          exact hfirst.order x a b hab ha hb
      | cons e' es => exact hfirst.order x a b hab hrest.1.1 hrest.1.2

-- In every run, every entry serves the queues in the order of arrival, and of two
-- who wait the first stays ahead for as long as both wait.
theorem run_first_come (L : Layout) (p1 : State) (currentTime : Int) (k : Kernel) :
    ∃ k₁, main L p1 currentTime k = some k₁ ∧
      ∀ es, (∀ e ∈ es, Disciplined L.user e) → ∀ k₂, Kernel.run L es k₁ = some k₂ →
        (∀ e k₃, Disciplined L.user e → Kernel.entry L e k₂ = some k₃ → k₂.FirstCome k₃) ∧
          ∀ x a b, Ahead (k₂.waiting x) a b → ∀ es', (∀ e ∈ es', Disciplined L.user e) →
            Runs.Along (Kernel.entry L) (fun k _ => a ∈ k.waiting x ∧ b ∈ k.waiting x) es' k₂ →
              ∀ k₃, Kernel.run L es' k₂ = some k₃ → a ∈ k₃.waiting x → b ∈ k₃.waiting x →
                Ahead (k₃.waiting x) a b := by
  obtain ⟨k₁, hmain, -, -⟩ := main_sound L p1 currentTime k
  have hres : ∀ s ∈ L.user, ¬ L.Reserved s := fun _ hs => hs
  refine ⟨k₁, hmain, fun es hes k₂ hrun => ?_⟩
  have ht := (main_paced hmain).run hres hes hrun
  exact ⟨fun e k₃ hd hent => ht.firstCome hres hd hent,
    fun x a b hab es' hes' hwait k₃ hrun' ha hb => ht.ahead_run hres hes' hab hwait hrun' ha hb⟩

section Sample

open Sample

theorem run_first_come_sample : ∃ k₁ k₂ k₃, main layout state 0 cold = some k₁ ∧
    Kernel.run layout [fork, locked [7], clock] k₁ = some k₂ ∧
    Kernel.entry layout (locked [7]) k₂ = some k₃ ∧ k₂.FirstCome k₃ := by
  obtain ⟨k₁, hmain, hall⟩ := run_first_come layout state 0 cold
  have hsome : ((main layout state 0 cold).bind fun k =>
      (Kernel.run layout [fork, locked [7], clock] k).bind
        (Kernel.entry layout (locked [7]))).isSome = true := by
    decide +kernel
  rw [hmain, Option.bind_some] at hsome
  obtain ⟨k₃, hsome⟩ := Option.isSome_iff_exists.mp hsome
  obtain ⟨k₂, hrun, hent⟩ := Option.bind_eq_some_iff.mp hsome
  have hfirst := (hall _ (fun e he => disciplined_sample e (List.mem_of_mem_dropLast he)) k₂ hrun).1
  exact ⟨k₁, k₂, k₃, hmain, hrun, hent, hfirst _ k₃ (disciplined_sample _ (by simp)) hent⟩

end Sample

end Kernel

end Hoca
