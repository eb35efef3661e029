import Hoca.Conservation
import Hoca.Sched.Lineage

namespace Hoca

open Links Forest

variable {L : Layout} {U : Set Addr} {k k' k₁ : Kernel} {e : Event} {es : List Event}
  {p : ProcId} {p1 : State} {currentTime : Int} {r r' : ℕ × (ProcId → ℕ)}

namespace Kernel

-- Whether a pointer of the table leads from a process to its parent.
def Under (k : Kernel) (c a : ProcId) : Prop := (k.procTable c).parent_proc = some a

-- Numbers the entries, and gives every new process the number of its birth.
def births (k : Kernel) (_ : Event) (k' : Kernel) (r : ℕ × (ProcId → ℕ)) : ℕ × (ProcId → ℕ) :=
  (r.1 + 1, k.abs.stamped k'.abs r.1 r.2)

-- The family pointers of the allocated processes form a tree, in which the
-- children of a process stand in the order of their births.
structure Lineage (k : Kernel) (stamp : ProcId → ℕ) : Prop where
  chain : ∀ a ∉ k.abs.free,
    Chain (fun c => (k.procTable c).sibling_proc) (k.procTable a).children_proc (k.abs.children a)
  child : ∀ a ∉ k.abs.free, ∀ c ∈ k.abs.children a, c ∉ k.abs.free ∧ k.Under c a
  once : ∀ c ∉ k.abs.free, ∀ a, k.Under c a →
    a ∉ k.abs.free ∧ (k.abs.children a).count c = 1 ∧ ∀ b ≠ a, c ∉ k.abs.children b
  root : ∃ r, ∀ p ∉ k.abs.free, Relation.ReflTransGen k.Under p r ∧
    ((k.procTable p).parent_proc = none ↔ p = r)
  order : ∀ a ∉ k.abs.free, (k.abs.children a).Pairwise fun c d => stamp c < stamp d

-- A pointer once the entry it may lead to has been cut out.
def bypass (k : Kernel) (p : ProcId) (link : Option ProcId) : Option ProcId :=
  if link = some p then (k.procTable p).sibling_proc else link

-- A process and its descendants have been freed, each once, and it is cut out
-- of its parent's chain.
structure Cuts (k : Kernel) (p : ProcId) (k' : Kernel) : Prop where
  freed : ∃ l : List ProcId, k'.abs.free = k.abs.free ++ l ∧ l.Nodup ∧
    ∀ x, x ∈ l ↔ x ∉ k.abs.free ∧ Relation.ReflTransGen k.Under x p
  parent : ∀ x ∉ k'.abs.free, (k'.procTable x).parent_proc = (k.procTable x).parent_proc
  children : ∀ x ∉ k'.abs.free,
    (k'.procTable x).children_proc = k.bypass p (k.procTable x).children_proc
  sibling : ∀ x ∉ k'.abs.free,
    (k'.procTable x).sibling_proc = k.bypass p (k.procTable x).sibling_proc
  apart : ∀ x ∉ k'.abs.free, ∀ y, (k'.procTable x).parent_proc = some y ∨
    (k'.procTable x).children_proc = some y ∨ (k'.procTable x).sibling_proc = some y →
      y ∉ k'.abs.free

theorem Sound.lineage (h : k.Sound L) (hone : k.abs.OneRoot) {stamp : ProcId → ℕ} {n : ℕ}
    (hage : k.abs.Aged stamp n) : k.Lineage stamp := by
  obtain ⟨path, hfam⟩ := h.wf.rooted
  refine ⟨h.rep.kin.chain, fun a _ c hc => ?_, fun c _ a hca => ?_, ?_, fun a _ => hage.order a⟩
  · have hp := (hfam.child a c).mp hc
    exact ⟨(hfam.parent_live a c hp).2, hp⟩
  · have hm := (hfam.child a c).mpr hca
    refine ⟨(hfam.parent_live a c hca).1, List.count_eq_one_of_mem (hfam.nodup a) hm,
      fun b hb hc => hb ?_⟩
    exact Option.some.inj (((hfam.child b c).mp hc).symm.trans hca)
  · by_cases hall : ∀ p, p ∈ k.abs.free
    · exact ⟨0, fun p hp => absurd (hall p) hp⟩
    · push Not at hall
      obtain ⟨p, hp⟩ := hall
      obtain ⟨r, hr, hnone⟩ := Family.exists_root hfam hp
      have hrl := hfam.path_live p hp r hr
      refine ⟨r, fun q hq => ?_⟩
      obtain ⟨r', hr', hnone'⟩ := Family.exists_root hfam hq
      have heq := hone r' (hfam.path_live q hq r' hr') r hrl hnone' hnone
      subst heq
      refine ⟨(Family.mem_path_iff hfam hq).mp hr', fun hqn => hone q hq r' hrl hqn hnone, ?_⟩
      rintro rfl
      exact hnone

-- What killproc leaves of the pointers.
theorem Sound.cuts (h : k.Sound L) (hp : p ∉ k.abs.free)
    (hkin : Kinship k'.procTable k'.abs.free k'.abs.parent k'.abs.children)
    (hfree : k'.abs.free = (k.abs.remains p).free)
    (hparent : k'.abs.parent = (k.abs.remains p).parent)
    (hchildren : k'.abs.children = (k.abs.remains p).children) : k.Cuts p k' := by
  obtain ⟨path, hfam⟩ := h.wf.rooted
  have hdead := fun x => Family.mem_progeny_iff hfam hp (hfam.within hp) (x := x)
  have hfam' := hfam.remains hp
  have hlive : ∀ x, x ∉ k'.abs.free →
      x ∉ k.abs.free ∧ x ∉ progeny k.abs.children MAXPROC p := by
    intro x hx
    rw [hfree, Sched.free_remains, List.mem_append, not_or] at hx
    exact hx
  have hup : ∀ x, x ∉ k'.abs.free → k'.abs.parent x = k.abs.parent x := by
    intro x hx
    rw [hparent, Sched.parent_remains, if_neg (hlive x hx).2]
  have hdown : ∀ x, x ∉ k'.abs.free → k'.abs.children x = (k.abs.children x).erase p := by
    intro x hx
    rw [hchildren, Sched.children_remains, if_neg (hlive x hx).2, hfam.children_unlink]
  -- a survivor's place in its parent's chain, before and after
  have hlinks : ∀ a, a ∉ k'.abs.free →
      (k'.procTable a).children_proc = k.bypass p (k.procTable a).children_proc ∧
        ∀ x ∈ (k.abs.children a).erase p,
          (k'.procTable x).sibling_proc = k.bypass p (k.procTable x).sibling_proc := by
    intro a ha
    have hafter := hkin.chain a ha
    rw [hdown a ha] at hafter
    exact (h.rep.kin.chain a (hlive a ha).1).erase_links hafter (hfam.nodup a)
  have hlives : ∀ a c, k'.abs.parent c = some a → a ∉ k'.abs.free ∧ c ∉ k'.abs.free := by
    intro a c hc
    rw [hparent] at hc
    rw [hfree]
    exact hfam'.parent_live a c hc
  have hmember : ∀ a c, c ∈ k'.abs.children a ↔ k'.abs.parent c = some a := by
    rw [hparent, hchildren]
    exact hfam'.child
  refine ⟨⟨progeny k.abs.children MAXPROC p, hfree.trans (Sched.free_remains _ p),
    Family.progeny_nodup hfam hp, fun x => ?_⟩, hup, fun x hx => (hlinks x hx).1, fun x hx => ?_,
    fun x hx y hy => ?_⟩
  · rw [hdead]
    exact and_congr_right fun hx => Family.mem_path_iff hfam hx
  · cases hpx : k'.abs.parent x with
    | none =>
        have hsib := h.rep.kin.root x (hlive x hx).1 ((hup x hx).symm.trans hpx)
        rw [hkin.root x hx hpx, hsib]
        rfl
    | some a =>
        have hal := (hlives a x hpx).1
        refine (hlinks a hal).2 x ?_
        rw [← hdown a hal]
        exact (hmember a x).mpr hpx
  · rcases hy with hy | hy | hy
    · exact (hlives y x hy).1
    · exact (hlives x y ((hmember x y).mp ((hkin.chain x hx).first_mem hy))).2
    · cases hpx : k'.abs.parent x with
      | none =>
          rw [hkin.root x hx hpx] at hy
          cases hy
      | some a =>
          have hal := (hlives a x hpx).1
          exact (hlives a y ((hmember a y).mp
            ((hkin.chain a hal).next_mem ((hmember a x).mpr hpx) hy))).2

theorem Paced.killproc (h : k.Paced L) (hr : k.running = some p) (currentTime : Int) :
    ∃ k', k.killproc L currentTime = some k' ∧ k.Cuts p k' := by
  obtain ⟨path, hfam⟩ := h.wf.rooted
  have hr' : k.abs.running = some p := h.running_eq.symm.trans hr
  obtain ⟨k', hrun, hrep⟩ := killproc_spec (L := L) h.rep h.wf.tidy.neat hfam hr' currentTime
    ((h.single.killable h.wf.toLawful p _).allTakable fun s => by
      rw [Sched.procs_unlinked]
      exact h.wf.distinct (some s))
  have hmoves : Sched.Moves L True (fun _ _ _ => False) k.abs (k.abs.killproc L currentTime p) :=
    Sched.moves_killproc hr' currentTime
  have hstable : (k.abs.killproc L currentTime p).Stable L :=
    hmoves.invariant (fun _ _ _ hv => hv.elim) (fun _ _ _ hi hm => hi.move (fun _ _ _ hv => hv.elim) hm)
      h.wf.toStable h.wf.toStable
  have habs := hrep.abs_eq hstable.rooted
  obtain ⟨hfree, hparent, hchildren⟩ :=
    Sched.tree_killproc (L := L) (v := k.abs) rfl rfl rfl currentTime p
  rw [← habs] at hfree hparent hchildren
  exact ⟨k', hrun, h.cuts (h.wf.live none p (Sched.running_mem hr')) (habs ▸ hrep.kin) hfree
    hparent hchildren⟩

theorem Paced.ends (h : k.Paced L) (hU : ∀ s ∈ U, ¬ L.Reserved s) (hr : k.running = some p)
    (hcall : e.call = some 2) (hen : k.Enabled e = true) :
    ∃ k', Kernel.entry L e k = some k' ∧ k.Cuts p k' := by
  have hr' : k.abs.running = some p := h.running_eq.symm.trans hr
  have hd : Disciplined U e := disciplined_of_ne (by simp [hcall]) (by simp [hcall])
  obtain ⟨k', hrun, hsound, habs⟩ := h.toSound.entry (h.orderly hU hd) (Sched.answers_of_call hcall) hen
  rw [Sched.step_killproc hr' hcall] at habs
  obtain ⟨hfree, hparent, hchildren⟩ :=
    Sched.tree_killproc (L := L) (v := k.abs) (u := k.abs.enter e p) rfl rfl rfl e.tOut p
  rw [← habs] at hfree hparent hchildren
  exact ⟨k', hrun, h.cuts (h.wf.live none p (Sched.running_mem hr')) hsound.rep.kin hfree hparent
    hchildren⟩

theorem main_tree (hmain : main L p1 currentTime k = some k₁) :
    k₁.abs.OneRoot ∧ k₁.abs.Aged (fun _ => 0) 0 := by
  obtain ⟨k', hmain', -, habs⟩ := main_sound L p1 currentTime k
  rw [hmain] at hmain'
  cases hmain'
  have hchildren : ∀ a, k₁.abs.children a = [] := by
    intro a
    rw [habs, Sched.boot, Sched.schedule_children]
    rfl
  have hzero : ∀ p ∉ k₁.abs.free, p = 0 := by
    intro p hp
    rw [habs, Sched.boot, Sched.schedule_free] at hp
    have hrest : ∀ p : ProcId, p ∉ (List.finRange MAXPROC).tail → p = 0 := by decide
    exact hrest p hp
  refine ⟨fun p hp q hq _ _ => (hzero p hp).trans (hzero q hq).symm, fun a => ?_, fun a c hc => ?_⟩
  · rw [hchildren a]
    exact List.Pairwise.nil
  · rw [hchildren a] at hc
    cases hc

-- What holds of a run whose births are noted.
structure Noted (L : Layout) (r : Kernel × ℕ × (ProcId → ℕ)) : Prop extends Paced L r.1 where
  oneRoot : r.1.abs.OneRoot
  aged : r.1.abs.Aged r.2.2 r.2.1

theorem Noted.entry {r r' : Kernel × ℕ × (ProcId → ℕ)} (h : Noted L r)
    (hU : ∀ s ∈ U, ¬ L.Reserved s) (hd : Disciplined U e)
    (hrun : Runs.watched (Kernel.entry L) births e r = some r') : Noted L r' := by
  obtain ⟨k', hent, rfl⟩ := Option.map_eq_some_iff.mp hrun
  have hor := h.orderly hU hd
  have habs := (h.entry_eq hor hent).2
  have hexp := h.wf.expects (k := r.1) rfl (enabled_of_entry hent)
  refine ⟨h.toPaced.entry hU hd hent, ?_, ?_⟩
  · rw [habs]
    exact h.oneRoot.step h.wf hor.apart
  · rw [births, habs]
    exact h.aged.step h.wf hor.apart hexp

-- In every run the pointers form a tree, and killproc takes away the running
-- process with its descendants and nothing else.
theorem run_lineage (L : Layout) (p1 : State) (currentTime : Int) (k : Kernel) :
    ∃ k₁, main L p1 currentTime k = some k₁ ∧
      ∀ es, (∀ e ∈ es, Disciplined L.user e) → ∀ k₂ r,
        Runs.run (Runs.watched (Kernel.entry L) births) es (k₁, 0, fun _ => 0) = some (k₂, r) →
          k₂.Lineage r.2 ∧ ∀ p, k₂.running = some p →
            (∀ currentTime, ∃ k₃, k₂.killproc L currentTime = some k₃ ∧ k₂.Cuts p k₃) ∧
              ∀ e, e.call = some 2 → k₂.Enabled e = true →
                ∃ k₃, Kernel.entry L e k₂ = some k₃ ∧ k₂.Cuts p k₃ := by
  obtain ⟨k₁, hmain, -, -⟩ := main_sound L p1 currentTime k
  have hres : ∀ s ∈ L.user, ¬ L.Reserved s := fun _ hs => hs
  refine ⟨k₁, hmain, fun es hes k₂ r hrun => ?_⟩
  obtain ⟨hone, hage⟩ := main_tree hmain
  have h : Noted L (k₂, r) :=
    Runs.run_invariant (P := fun _ e => Disciplined L.user e)
      (fun _ _ _ ht hd hs => ht.entry hres hd hs) ⟨main_paced hmain, hone, hage⟩
      (Runs.along_of_forall (fun e he _ => hes e he) _) hrun
  exact ⟨h.toSound.lineage h.oneRoot h.aged, fun p hr => ⟨h.toPaced.killproc hr,
    fun e hcall hen => h.toPaced.ends hres hr hcall hen⟩⟩

section Sample

open Sample

-- The first process has two children, the first child has one, and ends with it.
def family : List Event := [fork, fork, clock, fork]

theorem disciplined_family : ∀ e ∈ family, Disciplined layout.user e := by
  have hfork : Disciplined layout.user fork := disciplined_of_ne (by decide) (by decide)
  have hclock : Disciplined layout.user clock := disciplined_of_ne (by decide) (by decide)
  simp only [family, List.mem_cons, List.not_mem_nil, or_false]
  rintro e (rfl | rfl | rfl | rfl)
  · exact hfork
  · exact hfork
  · exact hclock
  · exact hfork

theorem run_lineage_sample : ∃ k₁ k₂ r k₃, main layout state 0 cold = some k₁ ∧
    Runs.run (Runs.watched (Kernel.entry layout) births) family (k₁, 0, fun _ => 0) =
      some (k₂, r) ∧
    k₂.running = some 1 ∧ k₂.Lineage r.2 ∧ k₂.killproc layout 0 = some k₃ ∧ k₂.Cuts 1 k₃ := by
  obtain ⟨k₁, hmain, hall⟩ := run_lineage layout state 0 cold
  have hval : ((main layout state 0 cold).bind fun k =>
      (Runs.run (Runs.watched (Kernel.entry layout) births) family (k, 0, fun _ => 0)).map
        fun r => r.1.running) = some (some 1) := by decide +kernel
  rw [hmain, Option.bind_some] at hval
  obtain ⟨⟨k₂, r⟩, hrun, hr⟩ := Option.map_eq_some_iff.mp hval
  obtain ⟨hlin, hkill⟩ := hall family disciplined_family k₂ r hrun
  obtain ⟨k₃, hk₃, hcuts⟩ := (hkill 1 hr).1 0
  exact ⟨k₁, k₂, r, k₃, hmain, hrun, hr, hlin, hk₃, hcuts⟩

end Sample

end Kernel

end Hoca
