import Hoca.Refine.Tree

namespace Hoca

open Links Forest

variable {k k' : Kernel} {v : Sched} {p : ProcId} {children : ProcId → List ProcId}

namespace Sched

-- outBlocked finds the process on every semaphore queue that it is on, and its
-- one entry there can be taken out.
def Takable (v : Sched) (p : ProcId) : Prop :=
  ∀ s, Once p (v.queue (some s)) ∧ Removable p (v.queue (some s))

def AllTakable : List ProcId → Sched → Prop
  | [], _ => True
  | p :: rest, v => v.Takable p ∧ AllTakable rest (v.killOne p)

theorem allTakable_append (l l' : List ProcId) (v : Sched) :
    AllTakable (l ++ l') v ↔ AllTakable l v ∧ AllTakable l' (v.killAll l) := by
  induction l generalizing v with
  | nil => simp [AllTakable, killAll]
  | cons p l ih => simp [AllTakable, killAll, ih, and_assoc]

theorem AllTakable.congr {l : List ProcId} {v v' : Sched} (h : AllTakable l v)
    (hq : v'.queue = v.queue) : AllTakable l v' := by
  induction l generalizing v v' with
  | nil => trivial
  | cons p l ih =>
      refine ⟨fun s => ?_, ih h.2 (by simp only [killOne, hq])⟩
      rw [hq]
      exact h.1 s

-- Where no process is twice on a queue, a clean head is all that is needed.
theorem AllKillable.allTakable {l : List ProcId} (h : AllKillable l v)
    (hd : ∀ s, (v.procs (some s)).Nodup) : AllTakable l v := by
  induction l generalizing v with
  | nil => trivial
  | cons p l ih =>
      refine ⟨fun s => ⟨once_of_distinct (hd s), removable_of_distinct (hd s) fun hs => ?_⟩,
        ih h.2 fun s => ?_⟩
      · exact h.1 s (by rwa [procs, List.head?_map])
      · rw [procs_killOne]
        exact (hd s).filter _

-- Whoever the event ends can be taken out of the queues.
def Sheds (v : Sched) (e : Event) : Prop :=
  ∀ p, v.running = some p → e.Ends (v.context p) →
    AllTakable (progeny v.children MAXPROC p) (v.unlinkChild p).removeReady

theorem Wf.sheds {L : Layout} {e : Event} (h : v.Wf L) (hadm : v.Admits L e) : v.Sheds e := by
  intro p hr hends
  refine (hadm.kill p hr hends).allTakable fun s => ?_
  rw [procs_unlinked]
  exact h.distinct (some s)

end Sched

-- killOne clears the kin of the process and of no other.
theorem killOne_spec (h : Core k v) (ht : v.Neat) (hp : p ∉ v.free) (htake : v.Takable p) :
    ∃ k', k.killOne p = some k' ∧ Core k' (v.killOne p) ∧
      ∀ a, (k'.procTable a).toKin =
        if a = p then ⟨none, none, none⟩ else (k.procTable a).toKin := by
  obtain ⟨k₁, out, hrun, hout, hq, hf⟩ := outBlocked_spec h.queued p htake
  have hcore₀ := h.mapEnv fun env => { env with sem := raise env.sem v.queue p }
  obtain ⟨hcore₁, hkin₁⟩ : Core k₁ _ ∧ SameKin _ k₁ := hcore₀.requeue hq hf
  -- the queues without the process, wherever it was
  have hfinal : ∀ k₂, Core k₂ { v with
        sem := raise v.sem v.queue p
        queue := fun x => (v.queue x).filter fun e => e.1 ≠ p } → SameKin k k₂ →
      ∃ k', k₂.freeProc p = some k' ∧ Core k' (v.killOne p) ∧
        ∀ a, (k'.procTable a).toKin =
          if a = p then ⟨none, none, none⟩ else (k.procTable a).toKin := by
    intro k₂ h₂ hkin₂
    obtain ⟨k', hfree, hcore, hkin⟩ := freeProc_spec h₂ hp (fun x i hm => by
      simpa using (List.mem_filter.mp hm).2)
    refine ⟨k', hfree, ⟨hcore.env, hcore.queued, hcore.free, hcore.context⟩, fun a => ?_⟩
    rw [hkin a, hkin₂ a]
  by_cases hb : ∃ s, p ∈ v.procs (some s)
  · obtain ⟨s, hs⟩ := hb
    obtain ⟨b, hb⟩ := Option.ne_none_iff_exists'.mp fun hn => hout.mp hn s hs
    have hnr : p ∉ (v.queue none).map Prod.fst := fun hr => ht.alone p hr s hs
    have hqueue : expel v.queue p = fun x => (v.queue x).filter fun e => e.1 ≠ p := by
      funext x
      cases x with
      | none => exact (filter_absent hnr).symm
      | some s => rfl
    rw [hqueue] at hcore₁
    obtain ⟨k', hfree, hrest⟩ := hfinal k₁ hcore₁ hkin₁
    refine ⟨k', ?_, hrest⟩
    simp only [Kernel.killOne, hrun, hb, Option.bind_eq_bind, Option.bind_some, hfree]
  · have hnone : out = none := hout.mpr fun s hs => hb ⟨s, hs⟩
    have hexpel : expel v.queue p = v.queue := by
      funext x
      cases x with
      | none => rfl
      | some s => exact filter_absent fun hs => hb ⟨s, hs⟩
    rw [hexpel] at hcore₁
    obtain ⟨t, tp, out', hrun', hcore₂, hkin₂⟩ := outReady_spec (p := p) hcore₁ ht.once ht.cleanReady
    have hqueue : withdraw v.queue none p = fun x => (v.queue x).filter fun e => e.1 ≠ p := by
      funext x
      cases x with
      | none => simp [withdraw]
      | some s => 
          rw [withdraw_of_ne (by simp)]
          exact (filter_absent fun hs => hb ⟨s, hs⟩).symm
    simp only [hqueue] at hcore₂
    obtain ⟨k', hfree, hrest⟩ := hfinal _ hcore₂ (hkin₁.trans hkin₂)
    refine ⟨k', ?_, hrest⟩
    simp only [Kernel.killOne, hrun, hnone, hrun', Option.bind_eq_bind, Option.bind_some, hfree]

-- What the recursion of killprocrecurse reads of the tree.
def Threads (k : Kernel) (children : ProcId → List ProcId) (p : ProcId) : Prop :=
  Chain (fun c => (k.procTable c).sibling_proc) (k.procTable p).children_proc (children p)

-- A run over a list of doomed processes clears the kin of these.
def Clears (k k' : Kernel) (doomed : List ProcId) : Prop :=
  ∀ a, (k'.procTable a).toKin =
    if a ∈ doomed then ⟨none, none, none⟩ else (k.procTable a).toKin

theorem Clears.trans {k k' k'' : Kernel} {l l' : List ProcId} (h : Clears k k' l)
    (h' : Clears k' k'' l') : Clears k k'' (l ++ l') := by
  intro a
  rw [h' a]
  by_cases hl' : a ∈ l'
  · simp [hl']
  · rw [if_neg hl', h a]
    by_cases hl : a ∈ l
    · simp [hl]
    · simp [hl, hl']

theorem Threads.congr {a : ProcId} {doomed : List ProcId} (h : Threads k children a)
    (hc : Clears k k' doomed) (ha : a ∉ doomed) (hcs : ∀ c ∈ children a, c ∉ doomed) :
    Threads k' children a := by
  have hkin := hc a
  rw [if_neg ha] at hkin
  rw [Threads, show (k'.procTable a).children_proc = (k.procTable a).children_proc by rw [hkin]]
  refine Chain.congr h fun c hmem => ?_
  have hkc := hc c
  rw [if_neg (hcs c hmem)] at hkc
  rw [hkc]

-- What is killed: its own list, and what the recursion does on it.
def KillsWith (kill : Kernel → ProcId → Option Kernel) (children : ProcId → List ProcId)
    (depth : ℕ) (p : ProcId) : Prop :=
  ∀ k v, Core k v → v.Neat → Sched.AllTakable (progeny children depth p) v →
    (∀ a ∈ progeny children depth p, a ∉ v.free ∧ Threads k children a) →
    ∃ k', kill k p = some k' ∧ Core k' (v.killAll (progeny children depth p)) ∧
      Clears k k' (progeny children depth p)

theorem killChildren_spec {kill : Kernel → ProcId → Option Kernel} {depth : ℕ}
    {cs : List ProcId} {first : Option ProcId} (fuel : ℕ)
    (hkill : ∀ c ∈ cs, KillsWith kill children depth c) (h : Core k v) (ht : v.Neat)
    (htake : Sched.AllTakable (cs.flatMap (progeny children depth)) v)
    (hself : ∀ c ∈ cs, c ∈ progeny children depth c)
    (hclosed : ∀ c ∈ cs, ∀ a ∈ progeny children depth c, ∀ d ∈ children a,
      d ∈ progeny children depth c)
    (hlive : ∀ a ∈ cs.flatMap (progeny children depth), a ∉ v.free ∧ Threads k children a)
    (hnodup : (cs.flatMap (progeny children depth)).Nodup)
    (hchain : Chain (fun c => (k.procTable c).sibling_proc) first cs) (hfuel : cs.length < fuel) :
    ∃ k', Kernel.killChildren kill fuel k first = some k' ∧
      Core k' (v.killAll (cs.flatMap (progeny children depth))) ∧
      Clears k k' (cs.flatMap (progeny children depth)) := by
  induction cs generalizing k v first fuel with
  | nil =>
      obtain rfl := (chain_nil first).mp hchain
      cases fuel with
      | zero => simp at hfuel
      | succ fuel => exact ⟨k, rfl, h, fun a => by simp⟩
  | cons c cs ih =>
      obtain ⟨rfl, hrest⟩ := chain_cons.mp hchain
      rw [List.flatMap_cons] at htake hlive hnodup ⊢
      rw [Sched.allTakable_append] at htake
      obtain ⟨k₁, hrun, hcore, hclears⟩ := hkill c (by simp) k v h ht htake.1
        fun a ha => hlive a (List.mem_append_left _ ha)
      have hapart : ∀ a ∈ cs.flatMap (progeny children depth), a ∉ progeny children depth c :=
        fun a ha hm => (List.nodup_append.mp hnodup).2.2 a hm a ha rfl
      have hcs : ∀ d ∈ cs, d ∈ cs.flatMap (progeny children depth) := fun d hd =>
        List.mem_flatMap.mpr ⟨d, hd, hself d (by simp [hd])⟩
      have hclosed' : ∀ a ∈ cs.flatMap (progeny children depth), ∀ d ∈ children a,
          d ∈ cs.flatMap (progeny children depth) := by
        intro a ha d hd
        obtain ⟨c', hc', hac'⟩ := List.mem_flatMap.mp ha
        exact List.mem_flatMap.mpr ⟨c', hc', hclosed c' (by simp [hc']) a hac' d hd⟩
      cases fuel with
      | zero => simp at hfuel
      | succ fuel =>
          obtain ⟨k', hrun', hcore', hclears'⟩ := ih fuel (fun d hd => hkill d (by simp [hd]))
            hcore (ht.killAll _) htake.2 (fun d hd => hself d (by simp [hd]))
            (fun d hd => hclosed d (by simp [hd])) (fun a ha => ⟨by
              rw [Sched.free_killAll, List.mem_append, not_or]
              exact ⟨(hlive a (List.mem_append_right _ ha)).1, hapart a ha⟩,
              (hlive a (List.mem_append_right _ ha)).2.congr hclears (hapart a ha)
                fun d hd => hapart d (hclosed' a ha d hd)⟩)
            (List.nodup_append.mp hnodup).2.1
            (hrest.congr fun d hd => by
              have hk := hclears d
              rw [if_neg (hapart d (hcs d hd))] at hk
              rw [hk]) (by simpa using hfuel)
          refine ⟨k', ?_, ?_, hclears.trans hclears'⟩
          · simp only [Kernel.killChildren, hrun, Option.bind_eq_bind, Option.bind_some, hrun']
          · rw [Sched.killAll_append]
            exact hcore'

variable {live : ProcId → Prop} {parent : ProcId → Option ProcId} {path : ProcId → List ProcId}

-- The recursion kills a process after its whole progeny.
theorem killprocrecurse_spec (hfam : Family live parent children path) (depth : ℕ)
    (hp : live p) (hw : Within children depth p) :
    KillsWith (Kernel.killprocrecurse depth) children depth p := by
  induction depth generalizing p with
  | zero => exact hw.elim
  | succ depth ih =>
      intro k v h ht htake hlive
      have hchild : ∀ c ∈ children p, live c := fun c hc =>
        (hfam.parent_live p c ((hfam.child p c).mp hc)).2
      have hnodup := hfam.progeny_nodup (n := depth + 1) hp
      rw [progeny] at htake hlive hnodup ⊢
      rw [Sched.allTakable_append] at htake
      have hlength : (children p).length < MAXPROC + 1 := by
        have hl := (hfam.nodup p).length_le_card
        rw [Fintype.card_fin] at hl
        omega
      obtain ⟨k₁, hrun, hcore, hclears⟩ := killChildren_spec (MAXPROC + 1)
        (fun c hc => ih (hchild c hc) (hw c hc)) h ht htake.1
        (fun c hc => Family.self_mem_progeny (hw c hc))
        (fun c hc a ha d hd => Family.child_mem_progeny (hw c hc) ha hd)
        (fun a ha => hlive a (List.mem_append_left _ ha)) (List.nodup_append.mp hnodup).1
        (hlive p (by simp)).2 hlength
      have hpnot : p ∉ (children p).flatMap (progeny children depth) := fun hm =>
        (List.nodup_append.mp hnodup).2.2 p hm p (by simp) rfl
      obtain ⟨k', hrun', hcore', hkin⟩ := killOne_spec hcore (ht.killAll _) (by
        rw [Sched.free_killAll, List.mem_append, not_or]
        exact ⟨(hlive p (by simp)).1, hpnot⟩) htake.2.1
      refine ⟨k', ?_, ?_, hclears.trans fun a => by rw [hkin a]; simp⟩
      · simp only [Kernel.killprocrecurse, Option.bind_eq_bind]
        rw [hrun, Option.bind_some, hrun']
      · rw [Sched.killAll_append]
        exact hcore'

-- killproc ends the running process with its progeny.
theorem killproc_spec {L : Layout} (h : Rep k v) (ht : v.Neat) (hfam : v.Rooted path)
    (hrun : v.running = some p) (currentTime : Int)
    (htake : Sched.AllTakable (progeny v.children MAXPROC p) (v.unlinkChild p).removeReady) :
    ∃ k', k.killproc L currentTime = some k' ∧ Rep k' (v.killproc L currentTime p) := by
  have hp : p ∉ v.free := by
    obtain ⟨e, he, rfl⟩ := Option.map_eq_some_iff.mp hrun
    exact h.queued.linked.allocated (List.mem_of_head? he)
  obtain ⟨cs, hcs⟩ := v.unlinkChild_frame p
  obtain ⟨k₁, hunlink, hcore₁, hkin₁⟩ := unlinkChild_spec h.toCore h.kin hp hfam.child
    hfam.parent_live hfam.nodup
  have htidy₁ := ht.unlinkChild p
  obtain ⟨k₂, hremove, hcore₂, hsame₂⟩ := removeReady_spec hcore₁ htidy₁.cleanReady
  have hkin₂ := hkin₁.congr hsame₂
  rw [hfam.children_unlink] at hkin₂
  have hw := hfam.within hp
  have hdead := fun x => Family.mem_progeny_iff hfam hp hw (x := x)
  have hfree₂ : (v.unlinkChild p).removeReady.free = v.free := by
    rw [hcs]
    rfl
  have hthreads : ∀ a ∈ progeny v.children MAXPROC p,
      a ∉ (v.unlinkChild p).removeReady.free ∧ Threads k₂ v.children a := by
    intro a ha
    obtain ⟨hal, hpa⟩ := (hdead a).mp ha
    refine ⟨hfree₂ ▸ hal, ?_⟩
    have hc := hkin₂.chain a hal
    rwa [List.erase_of_not_mem fun hm => Family.not_mem_path_parent hfam hm hpa] at hc
  obtain ⟨k₃, hkill, hcore₃, hclears⟩ := killprocrecurse_spec hfam MAXPROC hp hw k₂ _ hcore₂
    htidy₁.removeReady htake hthreads
  obtain ⟨k', hsched, hcore', hsame'⟩ := schedule_spec (L := L) hcore₃ currentTime
  have hkin₃ : Kinship k₃.procTable (v.remains p).free (v.remains p).parent
      (v.remains p).children := by
    have hout : ∀ x, x ∉ (v.remains p).free →
        x ∉ v.free ∧ x ∉ progeny v.children MAXPROC p := by
      intro x hx
      rw [Sched.free_remains, List.mem_append, not_or] at hx
      exact hx
    refine ⟨fun x hx => ?_, fun x hx => ?_, fun x hx hnone => ?_⟩
    · obtain ⟨hxf, hxd⟩ := hout x hx
      have hk := hclears x
      rw [if_neg hxd] at hk
      rw [hk, Sched.remains, Sched.parent_killAll, if_neg hxd, hcs]
      exact hkin₂.parent x hxf
    · obtain ⟨hxf, hxd⟩ := hout x hx
      have hk := hclears x
      rw [if_neg hxd] at hk
      rw [hk, Sched.remains, Sched.children_killAll, if_neg hxd, Sched.removeReady,
        hfam.children_unlink]
      refine (hkin₂.chain x hxf).congr fun c hc => ?_
      have hkc := hclears c
      rw [if_neg] at hkc
      · rw [hkc]
      · intro hcd
        have hcx := List.mem_of_mem_erase hc
        have hpc := ((hdead c).mp hcd).2
        rw [Family.path_child hfam hcx] at hpc
        rcases List.mem_cons.mp hpc with rfl | hpx
        · exact (hfam.nodup x).not_mem_erase hc
        · exact hxd ((hdead x).mpr ⟨hxf, hpx⟩)
    · obtain ⟨hxf, hxd⟩ := hout x hx
      have hk := hclears x
      rw [if_neg hxd] at hk
      rw [hk] at hnone ⊢
      exact hkin₂.root x hxf hnone
  refine ⟨k', ?_, ⟨hcore', ?_⟩⟩
  · simp only [Kernel.killproc, h.kernel_running, hrun, hunlink, hremove, hkill, Option.bind_eq_bind,
      Option.bind_some, hsched]
  · have hframe : (v.killproc L currentTime p).free = (v.remains p).free ∧
        (v.killproc L currentTime p).parent = (v.remains p).parent ∧
        (v.killproc L currentTime p).children = (v.remains p).children :=
      ⟨Sched.schedule_free .., Sched.schedule_parent .., Sched.schedule_children ..⟩
    rw [hframe.1, hframe.2.1, hframe.2.2]
    exact hkin₃.congr hsame'

end Hoca
