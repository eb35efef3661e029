import Hoca.Support.Isolation
import Hoca.Units

namespace Hoca.Support

open Semaphores

section Serves

variable {σ : Type} {f : σ → Addr} {g : Proc → ProcId} {U : Set Addr}

-- A vector of P and V on distinct semaphores, P on one of them at most.
def Tidy (b : Act σ Proc) : Prop := (b.ops.map Op.sem).Nodup ∧ b.ops.countP Op.isP ≤ 1

theorem sems_of_toOp {ops : List Vpop} {ops' : List (Op σ)}
    (heq : ops.map Vpop.toOp = ops'.map (Op.map f)) : ops.map Vpop.sem = (ops'.map Op.sem).map f := by
  have hleft := congrArg (List.map Op.sem) heq
  rw [List.map_map, List.map_map] at hleft
  rw [List.map_map]
  calc ops.map Vpop.sem = ops.map (Op.sem ∘ Vpop.toOp) := List.map_congr_left fun o _ => o.sem_toOp.symm
    _ = ops'.map (Op.sem ∘ Op.map f) := hleft
    _ = ops'.map (f ∘ Op.sem) := List.map_congr_left fun o _ => Op.map_sem f o

-- Such a vector is one that the kernel is to be given.
theorem Tidy.tame {b : Act σ Proc} {ops : List Vpop} (h : Tidy b) (hf : Function.Injective f)
    (hU : ∀ x, f x ∈ U) (hops : ∀ o ∈ ops, o.op = LOCK ∨ o.op = UNLOCK)
    (heq : ops.map Vpop.toOp = b.ops.map (Op.map f)) : Tame U ops := by
  have hlock : ∀ o : Vpop, o.toOp.isP = decide (o.op = LOCK) := by
    intro o
    unfold Vpop.toOp
    split
    · next h => simp [Op.isP, h]
    · next h => simp [Op.isP, h]
  have hsems := sems_of_toOp heq
  refine ⟨hops, fun o ho => ?_, ?_, ?_⟩
  · have hmem := List.mem_map_of_mem (f := Vpop.sem) ho
    rw [hsems] at hmem
    obtain ⟨x, -, hx⟩ := List.mem_map.mp hmem
    exact hx ▸ hU x
  · rw [hsems]
    exact h.1.map hf
  · have hcount := congrArg (List.countP Op.isP) heq
    simp only [List.countP_map, Function.comp_def, hlock, Op.map_isP] at hcount
    rw [Sched.locks, List.length_map, ← List.countP_eq_length_filter, hcount]
    exact h.2

section Follows

variable [DecidableEq σ] {L : Layout} {k k' : Kernel} {n : Sems σ Proc} {e : Event} {es : List Event}
  {as : List (Act Addr ProcId)} {bs cs : List (Act σ Proc)}

-- A vector of one of the processes fits when the words that it leaves do.
theorem ranged_of_follows {p : ProcId} (hd : Tame U e.vector) (hcarries : Sems.Carries f g n k.abs.sems)
    (hfollows : Sems.Follows f g n [.vector p (e.vector.map Vpop.toOp)] cs)
    (hrange : ∀ x, InRange ((cs.foldl Sems.act n).word x)) :
    Ranged (Set.range f) k.sem e.vector := by
  refine ranged_of_nodup hd.distinct ?_
  rintro o ho ⟨x, hx⟩
  have hmem := List.mem_map_of_mem (f := Vpop.toOp) ho
  generalize heq : e.vector.map Vpop.toOp = ops at hfollows hmem
  cases hfollows with
  | outside _ _ _ _ _ hops h =>
      exact absurd (o.sem_toOp.trans hx.symm) (hops o.toOp hmem x)
  | vector _ q ops _ _ h =>
      cases h
      obtain ⟨o', ho', hmap⟩ := List.mem_map.mp hmem
      have hnodup : (ops.map Op.sem).Nodup := List.Nodup.of_map f (sems_of_toOp heq ▸ hd.distinct)
      have hsem : o.sem = f o'.sem := by rw [← o.sem_toOp, ← hmap, Op.map_sem]
      have hop : o.op = o'.adds := by rw [← Vpop.adds_toOp (hd.op o ho), ← hmap, Op.map_adds]
      have hword : k.sem (f o'.sem) = n.word o'.sem := (hcarries o'.sem).1
      have hlast := hrange o'.sem
      simp only [List.foldl_cons, List.foldl_nil, Sems.act] at hlast
      rw [Sems.word_vector_of_mem hnodup ho'] at hlast
      rwa [hsem, hop, hword]

-- One entry: what it is to the semaphores happens to those of the processes.
theorem carries_entry (hf : Function.Injective f) (hU : ∀ s ∈ U, ¬ L.Reserved s) (hfU : ∀ x, f x ∈ U)
    (ht : k.Tended L) (hb : ∀ x, k.abs.Balanced (f x)) (hd : Disciplined U e)
    (hcarries : Sems.Carries f g n k.abs.sems) (hfollows : Sems.Follows f g n [k.act e k'] cs)
    (hrange : ∀ x, InRange ((cs.foldl Sems.act n).word x)) (hent : Kernel.entry L e k = some k') :
    (∀ x, k'.abs.Balanced (f x)) ∧ Sems.Carries f g (cs.foldl Sems.act n) k'.abs.sems := by
  have hW : ∀ s ∈ Set.range f, ¬ L.Reserved s := by
    rintro s ⟨x, rfl⟩
    exact hU _ (hfU x)
  have hfit : k.WordsFit (Set.range f) e := by
    intro hcall
    obtain ⟨p, -, hact⟩ := ht.act_vector hcall hent
    rw [hact, Event.ops, if_pos hcall] at hfollows
    exact ranged_of_follows (hd.vector hcall) hcarries hfollows hrange
  constructor
  · exact fun x => ht.balanced_entry hU hd hfit ⟨x, rfl⟩ (hW _ ⟨x, rfl⟩) (hb x) hent
  · have hagree := ht.act_agree hU hd hW hfit (by rintro s ⟨x, rfl⟩; exact hb x) hent
    exact (hfollows.carries hf hcarries).agree hagree

-- The semaphores of processes whose SYS3 are served by the kernel are there what they
-- are to them, as long as their words stay in the range of an int.
theorem carries_run {as₀ : List (Act Addr ProcId)} (hf : Function.Injective f)
    (hU : ∀ s ∈ U, ¬ L.Reserved s) (hfU : ∀ x, f x ∈ U) (ht : k.Tended L)
    (hb : ∀ x, k.abs.Balanced (f x)) (hes : ∀ e ∈ es, Disciplined U e)
    (hcarries : Sems.Carries f g n k.abs.sems)
    (hrun : Runs.run (Runs.watched (Kernel.entry L) Kernel.noteAct) es (k, as₀) = some (k', as₀ ++ as))
    (hfollows : Sems.Follows f g n as bs)
    (hrange : ∀ cs, cs <+: bs → ∀ x, InRange ((cs.foldl Sems.act n).word x)) :
    Sems.Carries f g (bs.foldl Sems.act n) k'.abs.sems := by
  induction es generalizing k as₀ as n bs with
  | nil =>
      obtain ⟨rfl, hnil⟩ := Prod.mk.inj (Option.some.inj hrun)
      cases List.self_eq_append_right.mp hnil
      cases hfollows
      exact hcarries
  | cons e es ih =>
      obtain ⟨r₁, hstep, hrun⟩ := Option.bind_eq_some_iff.mp hrun
      obtain ⟨k₁, hent, rfl⟩ := Option.map_eq_some_iff.mp hstep
      obtain ⟨as', has⟩ := Kernel.exists_acts hrun
      rw [Kernel.noteAct, List.append_assoc] at has
      cases List.append_cancel_left has
      obtain ⟨cs, bs', rfl, hfirst, hrest⟩ := hfollows.cons
      obtain ⟨hb₁, hcarries₁⟩ := carries_entry hf hU hfU ht hb (hes e List.mem_cons_self) hcarries hfirst
        (hrange cs (List.prefix_append cs bs')) hent
      have hrun₁ : Runs.run (Runs.watched (Kernel.entry L) Kernel.noteAct) es
          (k₁, as₀ ++ [k.act e k₁]) = some (k', (as₀ ++ [k.act e k₁]) ++ as') := by
        rw [List.append_assoc]
        exact hrun
      rw [List.foldl_append]
      refine ih (ht.entry hU (hes e List.mem_cons_self) hent) hb₁
        (fun e' he' => hes e' (List.mem_cons_of_mem e he')) hcarries₁ hrun₁ hrest
        fun ds hds x => ?_
      rw [← List.foldl_append]
      exact hrange (cs ++ ds) ((List.prefix_append_right_inj cs).mpr hds) x

end Follows

-- Entries, and the vectors of the processes that some of them are.
abbrev Script (σ : Type) := List (Event × Option (Proc × List (Op σ)))

def Script.entries (l : Script σ) : List Event := l.map Prod.fst

def Script.acts (l : Script σ) : List (Act σ Proc) :=
  l.filterMap fun x => x.2.map fun y => .vector y.1 y.2

-- The processes run when their vectors are due, and none of them is ended while it waits.
def Script.Conforms [DecidableEq σ] (f : σ → Addr) (g : Proc → ProcId) (L : Layout) :
    Script σ → Sems σ Proc → Kernel → Prop
  | [], _, _ => True
  | (e, some (q, ops)) :: l, n, k => k.running = some (g q) ∧ e.call = some 3 ∧
      e.ops = ops.map (Op.map f) ∧
      match Kernel.entry L e k with
      | none => True
      | some k' => Conforms f g L l (n.vector q ops) k'
  | (e, none) :: l, n, k => e.call ≠ some 3 ∧
      match Kernel.entry L e k with
      | none => True
      | some k' => (∀ q, g q ∈ k'.abs.free → ¬ n.Blocked q) ∧ Conforms f g L l n k'

instance Script.decidableConforms [DecidableEq σ] [Fintype σ] (f : σ → Addr) (g : Proc → ProcId)
    (L : Layout) : ∀ l n k, Decidable (Script.Conforms f g L l n k)
  | [], _, _ => isTrue trivial
  | (e, some (q, ops)) :: l, n, k =>
      match h : Kernel.entry L e k with
      | none => decidable_of_iff (k.running = some (g q) ∧ e.call = some 3 ∧ e.ops = ops.map (Op.map f))
          (by simp [Script.Conforms, h])
      | some k' =>
          have := decidableConforms f g L l (n.vector q ops) k'
          decidable_of_iff (k.running = some (g q) ∧ e.call = some 3 ∧ e.ops = ops.map (Op.map f) ∧
            Script.Conforms f g L l (n.vector q ops) k') (by simp [Script.Conforms, h])
  | (e, none) :: l, n, k =>
      match h : Kernel.entry L e k with
      | none => decidable_of_iff (e.call ≠ some 3) (by simp [Script.Conforms, h])
      | some k' =>
          have := decidableConforms f g L l n k'
          decidable_of_iff (e.call ≠ some 3 ∧ (∀ q, g q ∈ k'.abs.free → ¬ ∃ x, q ∈ n.queue x) ∧
            Script.Conforms f g L l n k') (by simp [Script.Conforms, h, Sems.Blocked])

-- What the kernel then does to its semaphores is what the processes do to theirs.
theorem Script.Conforms.follows [DecidableEq σ] {L : Layout} {l : Script σ} {n : Sems σ Proc}
    {k k' : Kernel} {as as' : List (Act Addr ProcId)} (h : l.Conforms f g L n k)
    (hrun : Runs.run (Runs.watched (Kernel.entry L) Kernel.noteAct) l.entries (k, as) = some (k', as')) :
    ∃ bs, as' = as ++ bs ∧ Sems.Follows f g n bs l.acts := by
  induction l generalizing n k as with
  | nil =>
      cases hrun
      exact ⟨[], by simp, .nil n⟩
  | cons x l ih =>
      obtain ⟨r₁, hstep, hrun⟩ := Option.bind_eq_some_iff.mp hrun
      obtain ⟨k₁, hent, rfl⟩ := Option.map_eq_some_iff.mp hstep
      obtain ⟨e, o⟩ := x
      cases o with
      | some y =>
          obtain ⟨q, ops⟩ := y
          obtain ⟨hr, hcall, hops, hrest⟩ := h
          rw [hent] at hrest
          obtain ⟨bs, has, hfollows⟩ := ih hrest hrun
          have hact : k.act e k₁ = .vector (g q) (ops.map (Op.map f)) := by
            rw [Kernel.act, hr, ← hops]
            exact if_pos hcall
          exact ⟨_ :: bs, by rw [has, Kernel.noteAct, List.append_assoc, hact]; rfl,
            .vector n q ops bs _ hfollows⟩
      | none =>
          obtain ⟨hcall, hrest⟩ := h
          rw [hent] at hrest
          obtain ⟨bs, has, hfollows⟩ := ih hrest.2 hrun
          refine ⟨_ :: bs, by rw [has, Kernel.noteAct, List.append_assoc, Kernel.act_withdraw hcall]; rfl,
            .withdraw n _ bs _ (fun q hq => hrest.1 q (of_decide_eq_true hq)) hfollows⟩

-- Who waits does not get the processor, and who waits on nothing is ready for it.
theorem waits_of_carries {L : Layout} {m : Sems σ Proc} {k : Kernel} {p : Proc} (h : k.Tended L)
    (hcarries : Sems.Carries f g m k.abs.sems) (hp : m.Blocked p) : k.running ≠ some (g p) := by
  intro hr
  obtain ⟨x, hx⟩ := hcarries.blocked hp
  have hready := Sched.running_mem (h.running_eq.symm.trans hr)
  cases h.single.single (g p) (by simp) none (some x) hready hx

theorem ready_of_carries {L : Layout} {m : Sems σ Proc} {k : Kernel} {p : Proc} (h : k.Tended L)
    (hg : Function.Injective g) (hcarries : Sems.Carries f g m k.abs.sems) (hlive : g p ∉ k.abs.free)
    (hother : ∀ a, (∀ x, a ≠ f x) → g p ∉ k.abs.procs (some a)) :
    g p ∈ k.abs.procs none ↔ ¬ m.Blocked p := by
  rw [h.ready_iff hlive]
  refine not_congr ⟨?_, hcarries.blocked⟩
  rintro ⟨a, ha⟩
  by_cases hrange : ∃ x, a = f x
  · obtain ⟨x, rfl⟩ := hrange
    rw [(hcarries x).2] at ha
    exact ⟨x, (List.mem_map_of_injective hg).mp ha⟩
  · exact absurd ha (hother a fun x hx => hrange ⟨x, hx⟩)

-- A program whose steps issue SYS3, one at a time: what a step does to its semaphores is
-- what its vector does, and the kernel may be given it.
structure Client (σ τ α : Type) [DecidableEq σ] where
  step : α → τ → Option τ
  sems : τ → Sems σ Proc
  act : τ → α → List (Act σ Proc)
  step_act : ∀ s a s', step a s = some s' → sems s' = (act s a).foldl Sems.act (sems s)
  act_tidy : ∀ s a, ∀ b ∈ act s a, Tidy b
  act_one : ∀ s a, (act s a).length ≤ 1

namespace Client

variable {τ α : Type} [DecidableEq σ] (c : Client σ τ α)

def note (s : τ) (a : α) (_ : τ) (bs : List (Act σ Proc)) : List (Act σ Proc) := bs ++ c.act s a

theorem run_acts {m : Sems σ Proc} {xs : List α} {r r' : τ × List (Act σ Proc)}
    (h : c.sems r.1 = r.2.foldl Sems.act m) (htidy : ∀ b ∈ r.2, Tidy b)
    (hrun : Runs.run (Runs.watched c.step c.note) xs r = some r') :
    c.sems r'.1 = r'.2.foldl Sems.act m ∧ ∀ b ∈ r'.2, Tidy b := by
  refine Runs.run_preserves
    (I := fun r : τ × List (Act σ Proc) => c.sems r.1 = r.2.foldl Sems.act m ∧ ∀ b ∈ r.2, Tidy b)
    ?_ ⟨h, htidy⟩ hrun
  intro r a r' hr hstep
  obtain ⟨s', hs, rfl⟩ := Option.map_eq_some_iff.mp hstep
  constructor
  · show c.sems s' = (r.2 ++ c.act r.1 a).foldl Sems.act m
    rw [List.foldl_append, ← hr.1]
    exact c.step_act _ _ _ hs
  · intro b hb
    rcases List.mem_append.mp hb with hb | hb
    · exact hr.2 b hb
    · exact c.act_tidy _ _ b hb

-- Between two vectors the words are those of a state of the run.
theorem run_ranges {m : Sems σ Proc} {xs : List α} {s s₀ : τ} {bs bs₀ : List (Act σ Proc)}
    (h : c.sems s₀ = bs₀.foldl Sems.act m)
    (hfirst : ∀ cs, cs <+: bs₀ → ∀ x, InRange ((cs.foldl Sems.act m).word x))
    (hrange : ∀ ys s', ys <+: xs → Runs.run c.step ys s₀ = some s' → ∀ x, InRange ((c.sems s').word x))
    (hrun : Runs.run (Runs.watched c.step c.note) xs (s₀, bs₀) = some (s, bs)) :
    ∀ cs, cs <+: bs → ∀ x, InRange ((cs.foldl Sems.act m).word x) := by
  refine (Runs.run_while (P := fun _ _ => True)
    (I := fun r : τ × List (Act σ Proc) => c.sems r.1 = r.2.foldl Sems.act m ∧
      ∀ cs, cs <+: r.2 → ∀ x, InRange ((cs.foldl Sems.act m).word x))
    (J := fun r => ∀ x, InRange ((c.sems r.1).word x)) ?_ ⟨h, hfirst⟩
    (Runs.along_of_forall (fun _ _ _ => trivial) _)
    (fun ys r hys hr => hrange ys r.1 hys (Runs.run_of_watched hr)) hrun).2
  rintro r a r' ⟨hsems, hprefix⟩ - - hlast hstep
  obtain ⟨s', hs, rfl⟩ := Option.map_eq_some_iff.mp hstep
  have hnext : c.sems s' = (r.2 ++ c.act r.1 a).foldl Sems.act m := by
    rw [List.foldl_append, ← hsems]
    exact c.step_act _ _ _ hs
  refine ⟨hnext, fun cs hcs => ?_⟩
  change cs <+: r.2 ++ c.act r.1 a at hcs
  have hone := c.act_one r.1 a
  cases hact : c.act r.1 a with
  | nil =>
      rw [hact, List.append_nil] at hcs
      exact hprefix cs hcs
  | cons b l =>
      rw [hact, List.length_cons] at hone
      obtain rfl : l = [] := List.eq_nil_of_length_eq_zero (by omega)
      rw [hact] at hcs hnext
      rcases List.prefix_concat_iff.mp hcs with rfl | hcs
      · exact hnext ▸ hlast
      · exact hprefix cs hcs

-- What holds when the kernel has served the SYS3 of a program.
structure Served (f : σ → Addr) (g : Proc → ProcId) (U : Set Addr) (s : τ) (bs : List (Act σ Proc))
    (k : Kernel) : Prop where
  word : ∀ x, k.sem (f x) = (c.sems s).word x
  queue : ∀ x, k.abs.procs (some (f x)) = ((c.sems s).queue x).map g
  waits : ∀ p, (c.sems s).Blocked p → k.running ≠ some (g p)
  ready : ∀ p, g p ∉ k.abs.free → (∀ a, (∀ x, a ≠ f x) → g p ∉ k.abs.procs (some a)) →
    (g p ∈ k.abs.procs none ↔ ¬ (c.sems s).Blocked p)
  tame : ∀ b ∈ bs, ∀ ops : List Vpop, (∀ o ∈ ops, o.op = LOCK ∨ o.op = UNLOCK) →
    ops.map Vpop.toOp = b.ops.map (Op.map f) → Tame U ops

theorem served {L : Layout} {p1 : State} {currentTime : Int} {k k₁ k₂ : Kernel} {m : Sems σ Proc}
    {es : List Event} {as : List (Act Addr ProcId)} {xs : List α} {s₀ s : τ} {bs₀ bs : List (Act σ Proc)}
    (hf : Function.Injective f) (hg : Function.Injective g)
    (hU : ∀ x ∈ U, ¬ L.Reserved x ∧ 0 ≤ k.sem x) (hfU : ∀ x, f x ∈ U)
    (hword : ∀ x, k.sem (f x) = m.word x) (hqueue : ∀ x, m.queue x = [])
    (hmain : Kernel.main L p1 currentTime k = some k₁) (hes : ∀ e ∈ es, Disciplined U e)
    (hrun : Runs.run (Runs.watched (Kernel.entry L) Kernel.noteAct) es (k₁, []) = some (k₂, as))
    (hfirst : c.sems s₀ = bs₀.foldl Sems.act m) (htidy : ∀ b ∈ bs₀, Tidy b)
    (hbegin : ∀ cs, cs <+: bs₀ → ∀ x, InRange ((cs.foldl Sems.act m).word x))
    (hrange : ∀ ys s', ys <+: xs → Runs.run c.step ys s₀ = some s' → ∀ x, InRange ((c.sems s').word x))
    (hxs : Runs.run (Runs.watched c.step c.note) xs (s₀, bs₀) = some (s, bs))
    (hfollows : Sems.Follows f g m as bs) : c.Served f g U s bs k₂ := by
  have hres : ∀ x ∈ U, ¬ L.Reserved x := fun x hx => (hU x hx).1
  obtain ⟨hsems, htidy'⟩ := c.run_acts hfirst htidy hxs
  have hboot := (Kernel.main_acted hU hmain).agree
  have hinit : Sems.Carries f g m k₁.abs.sems := by
    intro x
    obtain ⟨hw, hq⟩ := hboot (f x) (hfU x)
    rw [← hw, ← hq, hqueue]
    exact ⟨hword x, rfl⟩
  have htended := Kernel.main_tended hmain
  have hacts : Runs.run (Runs.watched (Kernel.entry L) Kernel.noteAct) es (k₁, []) =
      some (k₂, [] ++ as) := hrun
  have hcarries := carries_run hf hres hfU htended
    (fun x => Kernel.main_balanced hU hmain (f x) (hfU x)) hes hinit hacts hfollows
    (c.run_ranges hfirst hbegin hrange hxs)
  have htended₂ := htended.run hres hes (Runs.run_of_watched hrun)
  rw [← hsems] at hcarries
  exact ⟨fun x => (hcarries x).1, fun x => (hcarries x).2,
    fun p hp => waits_of_carries htended₂ hcarries hp,
    fun p hlive hother => ready_of_carries htended₂ hg hcarries hlive hother,
    fun b hb ops hops heq => (htidy' b hb).tame hf hfU hops heq⟩

end Client

end Serves

namespace System

variable {s s' : System} {a : Action} {xs : List Action} {i : Term} {clock : Int}

-- The SYS3 of a step.
def act (s : System) : Action → List (Act Sem Proc)
  | .cron =>
      match s.cron with
      | .first => [.vector .cron [.P .wake_up_cron_sem]]
      | .lockTable => [.vector .cron [.P .cron_table_sem]]
      | .wake i _ => [.vector .cron [.V (.sem i), .P .wake_up_cron_sem, .V .cron_table_sem]]
      | .unlockTable => [.vector .cron [.V .cron_table_sem]]
      | _ => []
  | .term i =>
      match s.term i with
      | .lockTable _ _ _ => [.vector (.term i) [.P .cron_table_sem]]
      | .block _ _ => [.vector (.term i) [.V .cron_table_sem, .P (.sem i), .V .wake_up_cron_sem]]
      | .notify => [.vector (.term i) [.V .wake_up_cron_sem]]
      | _ => []
  | _ => []

theorem cronStep_act (hs : s.cronStep = some s') :
    s'.sems = (s.act .cron).foldl Sems.act s.sems := by
  unfold cronStep at hs
  unfold act
  split at hs
  case h_5 hpc => cases hs
  all_goals cases hs
  all_goals simp only [*, List.foldl_nil, List.foldl_cons, Sems.act, Sems.vector]

theorem termStep_act (hs : s.termStep i = some s') :
    s'.sems = (s.act (.term i)).foldl Sems.act s.sems := by
  unfold termStep at hs
  unfold act
  split at hs
  case h_1 hpc => cases hs
  case h_4 hpc => cases hs
  case h_15 hpc => cases hs
  all_goals cases hs
  all_goals simp only [*, List.foldl_nil, List.foldl_cons, Sems.act, Sems.vector, setTerm]

-- A step does to the semaphores what its SYS3 does.
theorem step_act (hs : step a s = some s') : s'.sems = (s.act a).foldl Sems.act s.sems := by
  cases a with
  | tick =>
      cases hs
      rfl
  | cron =>
      rw [step] at hs
      split at hs
      · cases hs
      · exact cronStep_act hs
  | term i =>
      rw [step] at hs
      split at hs
      · cases hs
      · exact termStep_act hs
  | delay i d =>
      rw [step] at hs
      split at hs
      · cases hs
        rfl
      · cases hs
  | terminate i =>
      rw [step] at hs
      split at hs
      · cases hs
        rfl
      · cases hs

theorem act_one (s : System) (a : Action) : (s.act a).length ≤ 1 := by
  unfold act
  split
  · split <;> simp
  · split <;> simp
  · simp

theorem act_tidy {b : Act Sem Proc} (hb : b ∈ s.act a) : Tidy b := by
  unfold act at hb
  split at hb
  · split at hb
    all_goals simp only [List.mem_singleton, List.not_mem_nil] at hb
    all_goals subst hb
    all_goals simp [Tidy, Act.ops, Op.sem, Op.isP, List.countP_cons]
  · split at hb
    all_goals simp only [List.mem_singleton, List.not_mem_nil] at hb
    all_goals subst hb
    all_goals simp [Tidy, Act.ops, Op.sem, Op.isP, List.countP_cons]
  · cases hb

def client : Client Sem System Action where
  step := step
  sems := sems
  act := act
  step_act _ _ _ := step_act
  act_tidy _ _ _ := act_tidy
  act_one := act_one

-- The semaphores of cron and the T-processes, when their SYS3 are served by the
-- kernel among all that happens there and their words stay in the range of an int.
theorem run_served (L : Layout) (U : Set Addr) (p1 : State) (currentTime clock : Int) (k : Kernel)
    (f : Sem → Addr) (g : Proc → ProcId) (hf : Function.Injective f) (hg : Function.Injective g)
    (hU : ∀ x ∈ U, ¬ L.Reserved x ∧ 0 ≤ k.sem x) (hfU : ∀ x, f x ∈ U)
    (hinit : ∀ x, k.sem (f x) = (initial clock).sems.word x) :
    ∃ k₁, Kernel.main L p1 currentTime k = some k₁ ∧
      ∀ es, (∀ e ∈ es, Disciplined U e) → ∀ k₂ as,
        Runs.run (Runs.watched (Kernel.entry L) Kernel.noteAct) es (k₁, []) = some (k₂, as) →
          ∀ xs s bs, Runs.run (Runs.watched step client.note) xs (initial clock, []) = some (s, bs) →
            (∀ ys s', ys <+: xs → run ys (initial clock) = some s' → ∀ x, InRange (s'.sems.word x)) →
            Sems.Follows f g (initial clock).sems as bs → client.Served f g U s bs k₂ := by
  obtain ⟨k₁, hmain, -, -⟩ := Kernel.main_sound L p1 currentTime k
  refine ⟨k₁, hmain, fun es hes k₂ as hrun xs s bs hxs hrange hfollows => ?_⟩
  refine client.served hf hg hU hfU hinit (fun _ => rfl) hmain hes hrun rfl (by simp) ?_ hrange hxs
    hfollows
  intro cs hcs
  rw [List.prefix_nil.mp hcs]
  exact hrange [] _ List.nil_prefix rfl

section Sample

open Sample

def addr : Sem → Addr
  | .wake_up_cron_sem => 7
  | .cron_table_sem => 8
  | .sem i => 9 + i.val

def entries : Proc → ProcId
  | .cron => 0
  | .term i => ⟨i.val + 1, Nat.lt_of_lt_of_le (Nat.succ_lt_succ i.isLt) (by decide)⟩

theorem entries_injective : Function.Injective entries := by
  intro p q hpq
  cases p with
  | cron =>
      cases q with
      | cron => rfl
      | term j => cases congrArg Fin.val hpq
  | term i =>
      cases q with
      | cron => cases congrArg Fin.val hpq
      | term j => exact congrArg Proc.term (Fin.ext (Nat.succ.inj (congrArg Fin.val hpq)))

def warm : Kernel := { cold with sem := fun a => if a = 8 then 1 else 0 }

theorem forall_sem {P : Sem → Prop} (htable : P .cron_table_sem) (hwake : P .wake_up_cron_sem)
    (hzero : P (.sem 0)) (hone : P (.sem 1)) (x : Sem) : P x := by
  cases x with
  | cron_table_sem => exact htable
  | wake_up_cron_sem => exact hwake
  | sem i =>
      fin_cases i
      · exact hzero
      · exact hone

-- The root process creates the T-processes and waits on wake_up_cron_sem. T0 asks for a
-- delay of no time, T1 ends, and cron releases T0 and waits again.
def shifts : Script Sem :=
  [(fork, none), (fork, none), (locked [7], some (.cron, [.P .wake_up_cron_sem])),
    (locked [8], some (.term 0, [.P .cron_table_sem])),
    (sys3 [⟨UNLOCK, 8⟩, ⟨LOCK, 9⟩, ⟨UNLOCK, 7⟩],
      some (.term 0, [.V .cron_table_sem, .P (.sem 0), .V .wake_up_cron_sem])),
    (sys 2 0 0 0 [], none), (locked [8], some (.cron, [.P .cron_table_sem])),
    (sys3 [⟨UNLOCK, 9⟩, ⟨LOCK, 7⟩, ⟨UNLOCK, 8⟩],
      some (.cron, [.V (.sem 0), .P .wake_up_cron_sem, .V .cron_table_sem]))]

def turns : List Action :=
  [.cron, .cron, .cron, .term 0, .term 0, .delay 0 0, .term 0, .term 0, .term 0, .term 0, .term 1,
    .term 1, .terminate 1, .term 1, .term 1, .term 1, .term 1] ++ List.replicate 7 .cron

theorem run_served_sample : ∃ k₁ k₂ as s bs, Kernel.main layout state 0 warm = some k₁ ∧
    Runs.run (Runs.watched (Kernel.entry layout) Kernel.noteAct) shifts.entries (k₁, []) =
      some (k₂, as) ∧
    Runs.run (Runs.watched step client.note) turns (initial 0, []) = some (s, bs) ∧
    client.Served addr entries layout.user s bs k₂ ∧ s.term 0 = .delayed 0 0 ∧
    s.term 1 = .gone false ∧ k₂.abs.procs (some 7) = [0] ∧ k₂.running ≠ some 0 ∧
    k₂.abs.procs none = [1] := by
  have hinj : ∀ x y, addr x = addr y → x = y := by
    refine forall_sem ?_ ?_ ?_ ?_
    all_goals refine forall_sem ?_ ?_ ?_ ?_
    all_goals decide
  have hreserved : ∀ x, addr x ∈ layout.user := by
    refine forall_sem ?_ ?_ ?_ ?_
    all_goals
      show ¬ layout.Reserved _
      decide
  have hzero : ∀ a, 0 ≤ warm.sem a := by
    intro a
    show 0 ≤ if a = 8 then (1 : Int) else 0
    split
    · decide
    · decide
  obtain ⟨k₁, hmain, hall⟩ := run_served layout layout.user state 0 0 warm addr entries
    (fun x y => hinj x y) entries_injective (fun x hx => ⟨hx, hzero x⟩) hreserved (forall_sem rfl rfl rfl rfl)
  have hend : ∃ s ∈ run turns (initial 0), s.term 0 = .delayed 0 0 ∧ s.term 1 = .gone false ∧
      s.sems.queue .wake_up_cron_sem = [.cron] := by
    decide +kernel
  have hwords : ∀ ys ∈ turns.inits, ∀ s' ∈ run ys (initial 0), ∀ x, InRange (s'.sems.word x) := by
    decide +kernel
  obtain ⟨s, hxs, hzeroth, hfirst, hwake⟩ := hend
  obtain ⟨bs, hbs⟩ := Runs.exists_watched client.note [] hxs
  have hval : ((Kernel.main layout state 0 warm).bind fun k =>
      (Kernel.run layout shifts.entries k).map fun k' =>
        (k'.abs.procs none, decide (Script.Conforms addr entries layout shifts (initial 0).sems k))) =
      some ([1], true) := by decide +kernel
  rw [hmain, Option.bind_some] at hval
  obtain ⟨k₂, hrun, hval⟩ := Option.map_eq_some_iff.mp hval
  simp only [Prod.mk.injEq, decide_eq_true_eq] at hval
  obtain ⟨hready, hconforms⟩ := hval
  obtain ⟨as, has⟩ := Runs.exists_watched Kernel.noteAct [] hrun
  obtain ⟨_, rfl, hfollows⟩ := hconforms.follows has
  have hacts : (Runs.run (Runs.watched step client.note) turns (initial 0, [])).map Prod.snd =
      some shifts.acts := rfl
  rw [hbs] at hacts
  cases hacts
  have hserved := hall _ (by decide) k₂ _ has turns s _ hbs
    (fun ys s' hys hs' => hwords ys ((List.mem_inits _ _).mpr hys) s' hs') hfollows
  refine ⟨k₁, k₂, _, s, _, hmain, has, hbs, hserved, hzeroth, hfirst,
    (hserved.queue .wake_up_cron_sem).trans (congrArg (List.map entries) hwake),
    hserved.waits .cron ⟨.wake_up_cron_sem, hwake ▸ List.mem_singleton_self _⟩, hready⟩

end Sample

end System

namespace Memory

variable {s s' s₀ : Memory} {a : MmAction} {i : Term}

-- The SYS3 of a step.
def act (s : Memory) : MmAction → List (Act PageSem Proc)
  | .fault _ _ _ _ => []
  | .handle i =>
      match s.handler i with
      | .lockFrames _ => [.vector (.term i) [.P .sem_pf]]
      | .lockCounter _ => [.vector (.term i) [.P .sem_mm]]
      | .unlockCounter _ _ => [.vector (.term i) [.V .sem_mm]]
      | .lockDesc _ _ => [.vector (.term i) [.P .sem_mm]]
      | .unlockDesc _ => [.vector (.term i) [.V .sem_mm]]
      | _ => []

-- The words that the first SYS3 of p1 finds, and its SYS3. In the text sem_pf is 1; pageinit,
-- which p1 calls first, stores MAXFRAMES in it.
def firstSems : Sems PageSem Proc := ⟨fun x => if x = .sem_pf then MAXFRAMES else 1, fun _ => []⟩

def bootActs : List (Act PageSem Proc) :=
  (List.finRange MAXTPROC).flatMap fun _ =>
    [.vector .cron [.P .sem_pf], .vector .cron [.P .sem_mm], .vector .cron [.V .sem_mm]]

theorem foldl_bootPage_sems (is : List Term) (s : Memory) : (is.foldl bootPage s).sems =
    (is.flatMap fun _ => [Act.vector Proc.cron [.P .sem_pf], .vector .cron [.P .sem_mm],
      .vector .cron [.V .sem_mm]]).foldl Sems.act s.sems := by
  induction is generalizing s with
  | nil => rfl
  | cons i is ih =>
      rw [List.foldl_cons, ih, List.flatMap_cons, List.foldl_append]
      rfl

theorem p1_acts {l : Linker} (hboot : p1 l = some s₀) : s₀.sems = bootActs.foldl Sems.act firstSems := by
  obtain ⟨g, -, rfl⟩ := Option.map_eq_some_iff.mp hboot
  exact foldl_bootPage_sems _ _

theorem step_act (hs : step a s = some s') : s'.sems = (s.act a).foldl Sems.act s.sems := by
  cases a with
  | fault i typ seg pg =>
      rw [step] at hs
      split at hs
      · cases hs
        rfl
      · cases hs
  | handle i =>
      rw [step] at hs
      split at hs
      · cases hs
      · unfold handle at hs
        unfold act
        split at hs
        case h_1 hpc => cases hs
        case h_11 hpc => cases hs
        all_goals cases hs
        all_goals simp only [*, List.foldl_nil, List.foldl_cons, Sems.act, Sems.vector, setHandler]

theorem act_one (s : Memory) (a : MmAction) : (s.act a).length ≤ 1 := by
  unfold act
  split
  · simp
  · split <;> simp

theorem act_tidy {b : Act PageSem Proc} (hb : b ∈ s.act a) : Tidy b := by
  unfold act at hb
  split at hb
  · cases hb
  · split at hb
    all_goals simp only [List.mem_singleton, List.not_mem_nil] at hb
    all_goals subst hb
    all_goals simp [Tidy, Act.ops, Op.sem, Op.isP, List.countP_cons]

def client : Client PageSem Memory MmAction where
  step := step
  sems := sems
  act := act
  step_act _ _ _ := step_act
  act_tidy _ _ _ := act_tidy
  act_one := act_one

-- sem_pf has at most MAXFRAMES permits and sem_mm has one.
theorem word_bounds {l : Linker} {xs : List MmAction} (hboot : p1 l = some s₀)
    (hrun : run xs s₀ = some s) (x : PageSem) : InRange (s.sems.word x) := by
  obtain ⟨g, hg, hbooted⟩ := p1_booted hboot
  have hisolated := (hbooted.running.run hg hrun).isolated
  have hcard : ∀ t : Finset Proc, t.card ≤ 3 := fun t => t.card_le_univ
  have hpays := hcard (inside (At MmPc.Pays s.handler))
  have hlocks := hcard (inside (At MmPc.Locks s.handler))
  have hbound := hisolated.bound
  cases x with
  | sem_pf =>
      rw [hisolated.frames.word]
      simp only [MAXFRAMES] at hbound ⊢
      constructor <;> omega
  | sem_mm =>
      rw [hisolated.mutex.word]
      constructor <;> omega

theorem bootActs_bounds : ∀ cs, cs <+: bootActs → ∀ x, InRange ((cs.foldl Sems.act firstSems).word x) := by
  have hall : ∀ cs ∈ bootActs.inits, InRange ((cs.foldl Sems.act firstSems).word .sem_pf) ∧
      InRange ((cs.foldl Sems.act firstSems).word .sem_mm) := by decide
  intro cs hcs x
  have hmem := hall cs ((List.mem_inits cs bootActs).mpr hcs)
  cases x with
  | sem_pf => exact hmem.1
  | sem_mm => exact hmem.2

theorem bootActs_tidy : ∀ b ∈ bootActs, Tidy b := by
  intro b hb
  obtain ⟨i, -, hb⟩ := List.mem_flatMap.mp hb
  simp only [List.mem_cons, List.not_mem_nil, or_false] at hb
  rcases hb with rfl | rfl | rfl
  · simp [Tidy, Act.ops, Op.isP]
  · simp [Tidy, Act.ops, Op.isP]
  · simp [Tidy, Act.ops, Op.isP]

-- The same for the semaphores of p1 and the page fault handlers, whose words stay in the
-- range. That pageinit stores in sem_pf after main makes no difference: its SYS3 come later.
theorem run_faults_served (L : Layout) (U : Set Addr) (first : State) (currentTime : Int) (k : Kernel)
    (l : Linker) (f : PageSem → Addr) (g : Proc → ProcId) (hf : Function.Injective f)
    (hg : Function.Injective g) (hU : ∀ x ∈ U, ¬ L.Reserved x ∧ 0 ≤ k.sem x) (hfU : ∀ x, f x ∈ U)
    (hinit : ∀ x, k.sem (f x) = firstSems.word x) (hboot : p1 l = some s₀) :
    ∃ k₁, Kernel.main L first currentTime k = some k₁ ∧
      ∀ es, (∀ e ∈ es, Disciplined U e) → ∀ k₂ as,
        Runs.run (Runs.watched (Kernel.entry L) Kernel.noteAct) es (k₁, []) = some (k₂, as) →
          ∀ xs s bs, Runs.run (Runs.watched step client.note) xs (s₀, bootActs) = some (s, bs) →
            Sems.Follows f g firstSems as bs → client.Served f g U s bs k₂ := by
  obtain ⟨k₁, hmain, -, -⟩ := Kernel.main_sound L first currentTime k
  refine ⟨k₁, hmain, fun es hes k₂ as hrun xs s bs hxs hfollows => ?_⟩
  exact client.served hf hg hU hfU hinit (fun _ => rfl) hmain hes hrun (p1_acts hboot) bootActs_tidy
    bootActs_bounds (fun _ _ _ hys => word_bounds hboot hys) hxs hfollows

section Sample

open Sample

def pageAddr : PageSem → Addr
  | .sem_pf => 7
  | .sem_mm => 8

def stocked : Kernel := { cold with sem := fun a => if a = 7 then MAXFRAMES else 1 }

-- p1 takes the frames for the bootcode and creates the T-processes. T0 sets up its
-- handler, has a page fault and goes into the section of sem_mm. T1 has one too and waits;
-- T0 lets it go on, and waits for it in turn.
def script : Script PageSem :=
  ((List.finRange MAXTPROC).flatMap fun _ => [(locked [7], some (.cron, [.P .sem_pf])),
    (locked [8], some (.cron, [.P .sem_mm])), (sys3 [⟨UNLOCK, 8⟩], some (.cron, [.V .sem_mm]))]) ++
  [(fork, none), (fork, none), (clock, none), (sys 5 1 40 50 [], none), (event .mm state [], none),
    (locked [7], some (.term 0, [.P .sem_pf])), (locked [8], some (.term 0, [.P .sem_mm])),
    (clock, none), (sys 5 1 60 70 [], none), (event .mm state [], none),
    (locked [7], some (.term 1, [.P .sem_pf])), (locked [8], some (.term 1, [.P .sem_mm])),
    (clock, none), (sys3 [⟨UNLOCK, 8⟩], some (.term 0, [.V .sem_mm])),
    (locked [8], some (.term 0, [.P .sem_mm]))]

def pagefaults : List MmAction :=
  [.fault 0 PAGEMISS 1 30, .handle 0, .handle 0, .fault 1 PAGEMISS 2 5, .handle 1, .handle 1,
    .handle 0, .handle 0, .handle 0, .handle 0]

theorem run_faults_served_sample : ∃ k₁ k₂ as s₀ s bs, Kernel.main layout state 0 stocked = some k₁ ∧
    Runs.run (Runs.watched (Kernel.entry layout) Kernel.noteAct) script.entries (k₁, []) = some (k₂, as) ∧
    p1 small = some s₀ ∧
    Runs.run (Runs.watched step client.note) pagefaults (s₀, bootActs) = some (s, bs) ∧
    client.Served pageAddr System.entries layout.user s bs k₂ ∧ k₂.sem 7 = 16 ∧
    k₂.abs.procs (some 8) = [1] ∧ k₂.running ≠ some 1 ∧ k₂.abs.procs none = [0, 2] := by
  have hreserved : ∀ x, pageAddr x ∈ layout.user := by
    intro x
    cases x with
    | sem_pf =>
        show ¬ layout.Reserved 7
        decide
    | sem_mm =>
        show ¬ layout.Reserved 8
        decide
  have hstocked : ∀ a, 0 ≤ stocked.sem a := by
    intro a
    show 0 ≤ if a = 7 then (MAXFRAMES : Int) else 1
    split
    · decide
    · decide
  have hinj : Function.Injective pageAddr := by
    intro x y hxy
    cases x with
    | sem_pf =>
        cases y with
        | sem_pf => rfl
        | sem_mm => cases hxy
    | sem_mm =>
        cases y with
        | sem_pf => cases hxy
        | sem_mm => rfl
  have hinit : ∀ x, stocked.sem (pageAddr x) = firstSems.word x := by
    intro x
    cases x with
    | sem_pf => rfl
    | sem_mm => rfl
  have hmem : ((p1 small).bind fun s₀ => (run pagefaults s₀).map fun s =>
      (s.sems.word .sem_pf, s.sems.queue .sem_mm)) = some (16, [.term 0]) := by decide +kernel
  obtain ⟨s₀, hboot, hmem⟩ := Option.bind_eq_some_iff.mp hmem
  obtain ⟨s, hxs, hsems⟩ := Option.map_eq_some_iff.mp hmem
  obtain ⟨hpf, hmm⟩ := Prod.mk.inj hsems
  obtain ⟨bs, hbs⟩ := Runs.exists_watched client.note bootActs hxs
  obtain ⟨k₁, hmain, hall⟩ := run_faults_served layout layout.user state 0 stocked small
    pageAddr System.entries hinj System.entries_injective (fun x hx => ⟨hx, hstocked x⟩) hreserved hinit hboot
  have hval : ((Kernel.main layout state 0 stocked).bind fun k =>
      (Kernel.run layout script.entries k).map fun k' =>
        (k'.abs.procs none, decide (Script.Conforms pageAddr System.entries layout script firstSems k))) =
      some ([0, 2], true) := by decide +kernel
  rw [hmain, Option.bind_some] at hval
  obtain ⟨k₂, hrun, hval⟩ := Option.map_eq_some_iff.mp hval
  simp only [Prod.mk.injEq, decide_eq_true_eq] at hval
  obtain ⟨hready, hconforms⟩ := hval
  obtain ⟨as, has⟩ := Runs.exists_watched Kernel.noteAct [] hrun
  obtain ⟨_, rfl, hfollows⟩ := hconforms.follows has
  have hacts : ((p1 small).bind fun s₀ => (Runs.run (Runs.watched step client.note) pagefaults
      (s₀, bootActs)).map Prod.snd) = some script.acts := rfl
  rw [hboot, Option.bind_some, hbs] at hacts
  cases hacts
  have hserved := hall _ (by decide) k₂ _ has pagefaults s _ hbs hfollows
  have hword := hserved.word .sem_pf
  have hqueue := hserved.queue .sem_mm
  refine ⟨k₁, k₂, _, s₀, s, _, hmain, has, hboot, hbs, hserved, hword.trans hpf, ?_,
    hserved.waits (.term 0) ⟨.sem_mm, hmm ▸ List.mem_singleton_self _⟩, hready⟩
  exact hqueue.trans (congrArg (List.map System.entries) hmm)

end Sample

end Memory

end Hoca.Support
