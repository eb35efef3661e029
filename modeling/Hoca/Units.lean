import Hoca.Support.Semaphores
import Hoca.Sched.Ledger

namespace Hoca

open Semaphores

variable {L : Layout} {U W : Set Addr} {k k' : Kernel} {e : Event} {es : List Event} {p1 : State}
  {currentTime : Int} {s : Addr} {as as' : List (Act Addr ProcId)}

-- The operations that an entry issues.
def Event.ops (e : Event) : List (Op Addr) :=
  if e.call = some 3 then e.vector.map Vpop.toOp else []

-- How many P's and V's on a semaphore there have been.
def asked (es : List Event) (s : Addr) : ℕ := (es.flatMap Event.ops).count (.P s)

def returned (es : List Event) (s : Addr) : ℕ := (es.flatMap Event.ops).count (.V s)

namespace Kernel

-- What an entry is to the semaphores of the processes: a vector, or the end of some
-- of them.
def act (k : Kernel) (e : Event) (k' : Kernel) : Act Addr ProcId :=
  match k.running with
  | some p => if e.call = some 3 then .vector p e.ops else .withdraw fun a => a ∈ k'.abs.free
  | none => .withdraw fun a => a ∈ k'.abs.free

def noteAct (k : Kernel) (e : Event) (k' : Kernel) (as : List (Act Addr ProcId)) :
    List (Act Addr ProcId) :=
  as ++ [k.act e k']

theorem Tended.act_vector (h : k.Tended L) (hcall : e.call = some 3)
    (hrun : Kernel.entry L e k = some k') :
    ∃ p, k.running = some p ∧ k.act e k' = .vector p e.ops := by
  obtain ⟨p, hr⟩ := h.toSound.running_of_call hcall hrun
  have hrk := h.running_eq.trans hr
  refine ⟨p, hrk, ?_⟩
  rw [act, hrk]
  exact if_pos hcall

theorem act_withdraw (hcall : e.call ≠ some 3) :
    k.act e k' = .withdraw fun a => a ∈ k'.abs.free := by
  unfold act
  split
  · exact if_neg hcall
  · rfl

theorem Tended.act_ops (h : k.Tended L) (hrun : Kernel.entry L e k = some k') :
    (k.act e k').ops = e.ops := by
  by_cases hcall : e.call = some 3
  · obtain ⟨p, -, hact⟩ := h.act_vector hcall hrun
    rw [hact]
    rfl
  · rw [act_withdraw hcall, Event.ops, if_neg hcall]
    rfl

-- An entry that takes no word out of the range does to the semaphores of the processes
-- what it is to them.
theorem Tended.act_agree (h : k.Tended L) (hU : ∀ s ∈ U, ¬ L.Reserved s) (hd : Disciplined U e)
    (hW : ∀ s ∈ W, ¬ L.Reserved s) (hfit : k.WordsFit W e) (hb : ∀ s ∈ W, k.abs.Balanced s)
    (hrun : Kernel.entry L e k = some k') : Sems.Agree W (k.abs.sems.act (k.act e k')) k'.abs.sems := by
  by_cases hcall : e.call = some 3
  · obtain ⟨p, hr, hact⟩ := h.act_vector hcall hrun
    have hops : e.ops = e.vector.map Vpop.toOp := if_pos hcall
    rw [hact, hops]
    exact (h.sems_entry hU hd hfit hcall hr hrun).symm
  · rw [act_withdraw hcall]
    intro s hs
    have hculls := Sched.culls_step (L := L) h.wf
      (e.avoids_user (hW s hs) fun hc => absurd hc hcall) ((hb s hs).roomy (h.wf.distinct (some s)))
    rw [← (h.entry_eq (h.orderly hU hd) hrun).2] at hculls
    have hprocs := hculls.procs
    have hlevel := hculls.level
    rw [Sched.level, Sched.level, ← Sched.length_procs, ← Sched.length_procs, hprocs,
      ← List.countP_eq_length_filter] at hlevel
    have hcount := (k.abs.procs (some s)).length_eq_countP_add_countP fun a =>
      decide (a ∈ k'.abs.free)
    simp only [decide_eq_true_eq] at hcount
    constructor
    · show k.abs.sem s +
        ((k.abs.procs (some s)).countP fun a => decide (a ∈ k'.abs.free) : ℕ) = k'.abs.sem s
      omega
    · show (k.abs.procs (some s)).filter _ = k'.abs.procs (some s)
      rw [hprocs]
      exact List.filter_congr fun a _ => by simp

-- A run, and what its entries were to the semaphores.
structure Acted (L : Layout) (W : Set Addr) (m : Sems Addr ProcId)
    (r : Kernel × List (Act Addr ProcId)) : Prop where
  tended : r.1.Tended L
  balanced : ∀ s ∈ W, r.1.abs.Balanced s
  agree : Sems.Agree W (r.2.foldl Sems.act m) r.1.abs.sems

-- The notes are kept.
theorem exists_acts {r r' : Kernel × List (Act Addr ProcId)}
    (hrun : Runs.run (Runs.watched (Kernel.entry L) noteAct) es r = some r') :
    ∃ as, r'.2 = r.2 ++ as := by
  refine Runs.run_preserves (I := fun r' : Kernel × List (Act Addr ProcId) => ∃ as, r'.2 = r.2 ++ as)
    ?_ ⟨[], by simp⟩ hrun
  rintro r₁ e r₂ ⟨as, has⟩ hstep
  obtain ⟨k₂, -, rfl⟩ := Option.map_eq_some_iff.mp hstep
  exact ⟨as ++ [r₁.1.act e k₂], by simp [noteAct, has]⟩

theorem Acted.entry {m : Sems Addr ProcId} {r r' : Kernel × List (Act Addr ProcId)}
    (h : Acted L W m r) (hU : ∀ s ∈ U, ¬ L.Reserved s) (hd : Disciplined U e)
    (hW : ∀ s ∈ W, ¬ L.Reserved s) (hfit : r.1.WordsFit W e)
    (hstep : Runs.watched (Kernel.entry L) noteAct e r = some r') : Acted L W m r' := by
  obtain ⟨k', hent, rfl⟩ := Option.map_eq_some_iff.mp hstep
  refine ⟨h.tended.entry hU hd hent, fun s hs => h.tended.balanced_entry hU hd hfit hs (hW s hs)
    (h.balanced s hs) hent, ?_⟩
  simp only [noteAct, List.foldl_append, List.foldl_cons, List.foldl_nil]
  exact (h.agree.act _).trans (h.tended.act_agree hU hd hW hfit h.balanced hent)

theorem Acted.run {m : Sems Addr ProcId} {r r' : Kernel × List (Act Addr ProcId)}
    (h : Acted L W m r) (hU : ∀ s ∈ U, ¬ L.Reserved s) (hd : ∀ e ∈ es, Disciplined U e)
    (hW : ∀ s ∈ W, ¬ L.Reserved s) (hfit : Runs.Along (Kernel.entry L) (WordsFit W) es r.1)
    (hrun : Runs.run (Runs.watched (Kernel.entry L) noteAct) es r = some r') :
    Acted L W m r' ∧ r'.2.flatMap Act.ops = r.2.flatMap Act.ops ++ es.flatMap Event.ops := by
  induction es generalizing r with
  | nil =>
      cases hrun
      exact ⟨h, by simp⟩
  | cons e es ih =>
      obtain ⟨r₁, hstep, hrun⟩ := Option.bind_eq_some_iff.mp hrun
      obtain ⟨k₁, hent, rfl⟩ := Option.map_eq_some_iff.mp hstep
      obtain ⟨h', hops⟩ := ih (h.entry hU (hd e (by simp)) hW hfit.1 hstep)
        (fun e' he' => hd e' (by simp [he'])) (hfit.2 k₁ hent) hrun
      refine ⟨h', ?_⟩
      rw [hops, noteAct, List.flatMap_append, List.flatMap_cons, List.flatMap_cons,
        h.tended.act_ops hent]
      simp

theorem main_acted (hW : ∀ s ∈ W, ¬ L.Reserved s ∧ 0 ≤ k.sem s)
    (hmain : main L p1 currentTime k = some k') : Acted L W ⟨k.sem, fun _ => []⟩ (k', []) := by
  refine ⟨main_tended hmain, main_balanced hW hmain, fun s hs => ?_⟩
  obtain ⟨k₁, hmain₁, -, habs⟩ := main_sound L p1 currentTime k
  rw [hmain] at hmain₁
  cases hmain₁
  constructor
  · show k.sem s = k'.abs.sem s
    rw [habs, boot_sem L p1 currentTime k (hW s hs).1]
  · show [] = k'.abs.procs (some s)
    rw [habs, Sched.procs, boot_queue]
    rfl

-- Under the kernel the semaphores of the processes are counting semaphores with
-- first-come queues, on which SYS3 operates in one step, as long as no operation takes
-- a word out of the range of an int; and who waits on none of them, nor on the kernel's,
-- is ready.
theorem run_semaphores (L : Layout) (U : Set Addr) (p1 : State) (currentTime : Int) (k : Kernel)
    (hU : ∀ s ∈ U, ¬ L.Reserved s ∧ 0 ≤ k.sem s) :
    ∃ k₁, main L p1 currentTime k = some k₁ ∧
      ∀ es, (∀ e ∈ es, Disciplined U e) → ∀ k₂ as,
        Runs.run (Runs.watched (Kernel.entry L) noteAct) es (k₁, []) = some (k₂, as) →
          (Runs.Along (Kernel.entry L) (WordsFit U) es k₁ →
            Sems.Agree U (as.foldl Sems.act ⟨k.sem, fun _ => []⟩) k₂.abs.sems) ∧
            ∀ p ∉ k₂.abs.free, p ∈ k₂.abs.procs none ↔ ¬ k₂.abs.sems.Blocked p := by
  obtain ⟨k₁, hmain, -, -⟩ := main_sound L p1 currentTime k
  refine ⟨k₁, hmain, fun es hes k₂ as hrun => ?_⟩
  have hres := fun s hs => (hU s hs).1
  refine ⟨fun hfit => ((main_acted hU hmain).run hres hes hres hfit hrun).1.agree, fun p hp => ?_⟩
  exact ((main_tended hmain).run hres hes (Runs.run_of_watched hrun)).ready_iff hp

section Sample

open Sample

theorem exists_acted_sample (hmain : main layout state 0 cold = some k) :
    Runs.Along (Kernel.entry layout) (WordsFit layout.user) busy k ∧
      ∃ k₂ as, Runs.run (Runs.watched (Kernel.entry layout) noteAct) busy (k, []) = some (k₂, as) ∧
        k₂.sem 7 = -2 ∧ k₂.abs.procs (some 7) = [3, 0] := by
  have hval : ((main layout state 0 cold).bind fun k => (Kernel.run layout busy k).map fun k' =>
      (k'.sem 7, k'.abs.procs (some 7),
        decide (Runs.Along (Kernel.entry layout) (WordsFit layout.user) busy k))) =
      some (-2, [3, 0], true) := by decide +kernel
  rw [hmain, Option.bind_some] at hval
  obtain ⟨k₂, hrun, heq⟩ := Option.map_eq_some_iff.mp hval
  simp only [Prod.mk.injEq, decide_eq_true_eq] at heq
  obtain ⟨hsem, hprocs, hwords⟩ := heq
  obtain ⟨as, hwatched⟩ := Runs.exists_watched noteAct [] hrun
  exact ⟨hwords, k₂, as, hwatched, hsem, hprocs⟩

theorem run_semaphores_sample : ∃ k₁, main layout state 0 cold = some k₁ ∧
    ∃ k₂ as, Runs.run (Runs.watched (Kernel.entry layout) noteAct) busy (k₁, []) = some (k₂, as) ∧
      Sems.Agree layout.user (as.foldl Sems.act ⟨cold.sem, fun _ => []⟩) k₂.abs.sems ∧
      k₂.abs.procs (some 7) = [3, 0] := by
  obtain ⟨k₁, hmain, hall⟩ := run_semaphores layout layout.user state 0 cold
    fun s hs => ⟨hs, le_refl 0⟩
  obtain ⟨hwords, k₂, as, hrun, -, hprocs⟩ := exists_acted_sample hmain
  exact ⟨k₁, hmain, k₂, as, hrun, (hall busy (by decide) k₂ as hrun).1 hwords, hprocs⟩

end Sample

-- As long as no operation takes a word out of the range of an int, the word of a
-- semaphore is what the P's, the V's and the processes that were ended while they waited
-- have made of it, and as many P's have let their callers through as there have been
-- units for them.
theorem run_units (L : Layout) (U : Set Addr) (p1 : State) (currentTime : Int) (k : Kernel)
    (hU : ∀ s ∈ U, ¬ L.Reserved s ∧ 0 ≤ k.sem s) :
    ∃ k₁, main L p1 currentTime k = some k₁ ∧
      ∀ es, (∀ e ∈ es, Disciplined U e) → Runs.Along (Kernel.entry L) (WordsFit U) es k₁ → ∀ k₂ as,
        Runs.run (Runs.watched (Kernel.entry L) noteAct) es (k₁, []) = some (k₂, as) →
          ∀ s ∈ U, ∃ ended : ℕ, ended = Sems.withdrawn s as ⟨k.sem, fun _ => []⟩ ∧
            k₂.sem s = k.sem s + returned es s - asked es s + ended ∧
            (asked es s : Int) - ended - (k₂.abs.procs (some s)).length =
              min ((asked es s : Int) - ended) (k.sem s + returned es s) := by
  obtain ⟨k₁, hmain, -, -⟩ := main_sound L p1 currentTime k
  refine ⟨k₁, hmain, fun es hes hfit k₂ as hrun s hs => ⟨_, rfl, ?_⟩⟩
  obtain ⟨hacted, hops⟩ := (main_acted hU hmain).run (fun s hs => (hU s hs).1) hes
    (fun s hs => (hU s hs).1) hfit hrun
  obtain ⟨hword, hqueue⟩ := hacted.agree s hs
  have hbalanced : Sems.Balanced (⟨k.sem, fun _ => []⟩ : Sems Addr ProcId) s := by
    have hpos := (hU s hs).2
    simp [Sems.Balanced, hpos]
  have hlaw := Sems.word_acts as ⟨k.sem, fun _ => []⟩ s
  have hpassed := Sems.passed_acts hbalanced as
  simp only [List.flatMap_nil, List.nil_append] at hops
  rw [hops] at hlaw hpassed
  rw [hword] at hlaw
  rw [hqueue] at hpassed
  exact ⟨hlaw, hpassed⟩

section Sample

open Sample

theorem run_units_sample : ∃ k₁, main layout state 0 cold = some k₁ ∧
    ∃ k₂ as, Runs.run (Runs.watched (Kernel.entry layout) noteAct) busy (k₁, []) = some (k₂, as) ∧
      asked busy 7 = 3 ∧ returned busy 7 = 1 ∧ k₂.sem 7 = -2 ∧
      Sems.withdrawn 7 as ⟨cold.sem, fun _ => []⟩ = 0 := by
  obtain ⟨k₁, hmain, hall⟩ := run_units layout layout.user state 0 cold fun s hs => ⟨hs, le_refl 0⟩
  obtain ⟨hwords, k₂, as, hrun, hsem, -⟩ := exists_acted_sample hmain
  obtain ⟨ended, heq, hword, -⟩ := hall busy (by decide) hwords k₂ as hrun 7 (by decide)
  have hasked : asked busy 7 = 3 := by decide
  have hreturned : returned busy 7 = 1 := by decide
  refine ⟨k₁, hmain, k₂, as, hrun, hasked, hreturned, hsem, ?_⟩
  rw [hsem, hasked, hreturned] at hword
  change -2 = (0 : Int) + _ - _ + ended at hword
  omega

end Sample

end Kernel

end Hoca
