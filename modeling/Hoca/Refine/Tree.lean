import Hoca.Refine.Ops

namespace Hoca

open Links Forest

-- The family pointers of the allocated processes. A process without a parent
-- has no siblings.
structure Kinship (t : ProcTable) (free : List ProcId) (parent : ProcId → Option ProcId)
    (children : ProcId → List ProcId) : Prop where
  parent : ∀ p ∉ free, (t p).parent_proc = parent p
  chain : ∀ p ∉ free, Chain (fun c => (t c).sibling_proc) (t p).children_proc (children p)
  root : ∀ p ∉ free, (t p).parent_proc = none → (t p).sibling_proc = none

-- The kernel stands for the abstract one.
structure Rep (k : Kernel) (v : Sched) : Prop extends Core k v where
  kin : Kinship k.procTable v.free v.parent v.children

variable {k k' : Kernel} {v : Sched} {t t' : ProcTable} {free : List ProcId} {p a c : ProcId}
  {parent : ProcId → Option ProcId} {children : ProcId → List ProcId} {path : ProcId → List ProcId}

theorem Kinship.congr (h : Kinship t free parent children)
    (hkin : ∀ p, (t' p).toKin = (t p).toKin) : Kinship t' free parent children where
  parent p hp := by
    rw [hkin p]
    exact h.parent p hp
  chain p hp := by
    rw [hkin p]
    exact (h.chain p hp).congr fun c _ => by rw [hkin c]
  root p hp hnone := by
    rw [hkin p] at hnone ⊢
    exact h.root p hp hnone

theorem Core.setKin (h : Core k v) (hp : p ∉ v.free) (f : Kin) : Core (k.setKin p f) v := by
  have hlink : ∀ p' i, (k.setKin p f).procTable.link p' i = k.procTable.link p' i := by
    intro p' i
    by_cases hpp : p' = p
    · subst hpp
      simp [Kernel.setKin, ProcTable.link]
    · simp [Kernel.setKin, ProcTable.link, hpp]
  have hrest : ∀ p', ((k.setKin p f).procTable p').qcount = (k.procTable p').qcount ∧
      ((k.setKin p f).procTable p').toContext = (k.procTable p').toContext ∧
      (p' ≠ p → ((k.setKin p f).procTable p').toKin = (k.procTable p').toKin) := by
    intro p'
    by_cases hpp : p' = p
    · subst hpp
      simp [Kernel.setKin]
    · simp [Kernel.setKin, hpp]
  obtain ⟨asl, spare, ha⟩ := h.queued.active
  refine ⟨h.env, ⟨h.queued.linked.congr hlink fun p' => (hrest p').1, h.queued.ready, asl, spare,
    ha.toDescriptors, ha.all, ha.tail, ha.complete⟩, ?_, fun p' => ?_⟩
  · refine h.free.congr (fun p' _ => hlink p') fun p' hp' => (hrest p').2.2 ?_
    rintro rfl
    exact hp hp'
  · exact (hrest p').2.1.trans (h.context p')

theorem setKin_self (k : Kernel) (p : ProcId) (f : Kin) :
    ((k.setKin p f).procTable p).toKin = f := by
  simp [Kernel.setKin]

theorem setKin_kin (k : Kernel) (p c : ProcId) (f : Kin) :
    ((k.setKin p f).procTable c).toKin = if c = p then f else (k.procTable c).toKin := by
  by_cases h : c = p
  · subst h
    simp [Kernel.setKin]
  · simp [Kernel.setKin, h]

-- What the write to the kin leaves as it was is the same of every process.
theorem setKin_keep {α : Type*} (get : Kin → α) {k : Kernel} {p : ProcId} {f : Kin}
    (hf : get f = get (k.procTable p).toKin) (c : ProcId) :
    get ((k.setKin p f).procTable c).toKin = get (k.procTable c).toKin := by
  rw [setKin_kin]
  split
  · next hc => rw [hc, hf]
  · rfl

-- A child belongs to one parent.
def OneParent (children : ProcId → List ProcId) : Prop :=
  ∀ a b c, c ∈ children a → c ∈ children b → a = b

-- Only the children of one process are linked anew.
theorem Kinship.relink (h : Kinship t free parent children) {cs : List ProcId}
    (hparent : ∀ p, (t' p).parent_proc = (t p).parent_proc)
    (hfirst : ∀ p, p ≠ a → (t' p).children_proc = (t p).children_proc)
    (hsibling : ∀ d, d ∉ children a → (t' d).sibling_proc = (t d).sibling_proc)
    (hone : OneParent children) (hroot : ∀ p, parent p = none → p ∉ children a)
    (hchain : Chain (fun c => (t' c).sibling_proc) (t' a).children_proc cs) :
    Kinship t' free parent (Function.update children a cs) where
  parent p hp := by
    rw [hparent p]
    exact h.parent p hp
  chain p hp := by
    by_cases hpa : p = a
    · subst hpa
      rw [Function.update_self]
      exact hchain
    · rw [Function.update_of_ne hpa, hfirst p hpa]
      exact (h.chain p hp).congr fun d hd => hsibling d fun hda => hpa (hone p a d hd hda)
  root p hp hnone := by
    rw [hparent p] at hnone
    rw [hsibling p (hroot p ((h.parent p hp).symm.trans hnone))]
    exact h.root p hp hnone

section Birth

theorem linkChild_spec (h : Core k v) (hkin : Kinship k.procTable v.free parent children)
    (ha : a ∉ v.free) (hc : (k.procTable c).sibling_proc = none) (hcc : ∀ b, c ∉ children b)
    (hone : OneParent children) (hroot : ∀ d, parent d = none → d ∉ children a)
    (hlive : ∀ d ∈ children a, d ∉ v.free) (hnodup : (children a).Nodup) :
    ∃ k', k.linkChild a c = some k' ∧ Core k' v ∧
      Kinship k'.procTable v.free parent (Function.update children a (children a ++ [c])) := by
  have hchain := hkin.chain a ha
  cases hlist : children a using List.reverseRecOn with
  | nil =>
      rw [hlist, chain_nil] at hchain
      refine ⟨_, by simp only [Kernel.linkChild, hchain]; rfl, h.setKin ha _,
        hkin.relink ?_ ?_ ?_ hone hroot ?_⟩
      · exact setKin_keep (fun f => f.parent_proc) (by rfl)
      · intro p hp
        rw [setKin_kin, if_neg hp]
      · exact fun d _ => setKin_keep (fun f => f.sibling_proc) (by rfl) d
      · have hsib : ((k.setKin a { (k.procTable a).toKin with
            children_proc := some c }).procTable c).sibling_proc = none :=
          (setKin_keep (fun f => f.sibling_proc) (by rfl) c).trans hc
        rw [List.nil_append, chain_cons, hsib, chain_nil]
        exact ⟨by rw [setKin_self], rfl⟩
  | append_singleton front b =>
      rw [hlist] at hchain hlive hnodup
      obtain ⟨first, hfirst⟩ : ∃ first, (k.procTable a).children_proc = some first := by
        rw [hchain.1]
        cases front <;> simp
      have hlength : front.length < MAXPROC := by
        have hl := hnodup.length_le_card
        simpa using hl
      have hrun : Kernel.lastSibling k.procTable MAXPROC first = some b :=
        Chain.lastCell_eq MAXPROC (hfirst ▸ hchain) hlength
      have hcb : c ≠ b := by
        rintro rfl
        exact hcc a (hlist ▸ by simp)
      refine ⟨_, by
        simp only [Kernel.linkChild, hfirst, hrun, Option.bind_eq_bind, Option.bind_some]
        rfl, h.setKin (hlive b (by simp)) _, hkin.relink ?_ ?_ ?_ hone hroot ?_⟩
      · exact setKin_keep (fun f => f.parent_proc) (by rfl)
      · exact fun p _ => setKin_keep (fun f => f.children_proc) (by rfl) p
      · intro d hd
        rw [setKin_kin, if_neg]
        rintro rfl
        exact hd (hlist ▸ by simp)
      · have hptr : ((k.setKin b { (k.procTable b).toKin with
            sibling_proc := some c }).procTable a).children_proc = (k.procTable a).children_proc :=
          setKin_keep (fun f => f.children_proc) (by rfl) a
        rw [hptr]
        refine hchain.snoc ?_ ?_ ?_
        · rw [setKin_self]
        · rw [setKin_kin, if_neg hcb]
          exact hc
        · intro d hd
          rw [setKin_kin, if_neg]
          rintro rfl
          rw [List.nodup_append] at hnodup
          exact hnodup.2.2 d hd d (by simp) rfl

end Birth

section Unlink

theorem prevSibling_eq {first : Option ProcId} {front back : List ProcId} {b : ProcId}
    (fuel : ℕ) (h : Chain (fun c => (t c).sibling_proc) first (front ++ b :: p :: back))
    (hnodup : (front ++ b :: p :: back).Nodup) (hfuel : front.length < fuel) :
    Kernel.prevSibling t p fuel first = some (some b) := by
  induction front generalizing first fuel with
  | nil =>
      obtain ⟨rfl, hn⟩ := chain_cons.mp h
      cases fuel with
      | zero => simp at hfuel
      | succ fuel => simp [Kernel.prevSibling, (chain_cons.mp hn).1]
  | cons d front ih =>
      obtain ⟨rfl, hn⟩ := chain_cons.mp h
      cases fuel with
      | zero => simp at hfuel
      | succ fuel =>
          have hne : (t d).sibling_proc ≠ some p := by
            rw [hn.1]
            have hnd := (List.nodup_cons.mp hnodup).2
            cases front with
            | nil =>
                intro heq
                simp at heq
                simp [heq] at hnd
            | cons e front =>
                intro heq
                simp at heq
                simp [heq] at hnd
          rw [Kernel.prevSibling, if_neg hne]
          exact ih fuel hn (List.nodup_cons.mp hnodup).2 (by simpa using hfuel)

theorem unlinkChild_spec (h : Core k v) (hkin : Kinship k.procTable v.free v.parent v.children)
    (hp : p ∉ v.free) (hchild : ∀ a c, c ∈ v.children a ↔ v.parent c = some a)
    (hlive : ∀ a c, v.parent c = some a → a ∉ v.free ∧ c ∉ v.free)
    (hnodup : ∀ a, (v.children a).Nodup) :
    ∃ k', k.unlinkChild p = some k' ∧ Core k' (v.unlinkChild p) ∧
      Kinship k'.procTable v.free v.parent (v.unlinkChild p).children := by
  have hparent := hkin.parent p hp
  cases hpp : v.parent p with
  | none =>
      rw [hpp] at hparent
      refine ⟨k, by simp [Kernel.unlinkChild, hparent], ?_, ?_⟩
      · rw [show v.unlinkChild p = v by simp [Sched.unlinkChild, hpp]]
        exact h
      · rw [show v.unlinkChild p = v by simp [Sched.unlinkChild, hpp]]
        exact hkin
  | some a =>
      rw [hpp] at hparent
      have hmem := (hchild a p).mpr hpp
      have hal := (hlive a p hpp).1
      have hchain := hkin.chain a hal
      have hna := hnodup a
      have hv : v.unlinkChild p =
          { v with children := Function.update v.children a ((v.children a).erase p) } := by
        simp [Sched.unlinkChild, hpp]
      obtain ⟨front, back, hsplit⟩ := List.append_of_mem hmem
      have herase : (v.children a).erase p = front ++ back := by
        rw [hsplit] at hna ⊢
        rw [List.nodup_middle, List.nodup_cons, List.mem_append, not_or] at hna
        rw [List.erase_append_right _ hna.1.1, List.erase_cons_head]
      have hone : OneParent v.children := by
        intro b b' c hb hb'
        rw [hchild] at hb hb'
        exact Option.some.inj (hb.symm.trans hb')
      have hroot : ∀ d, v.parent d = none → d ∉ v.children a := by
        intro d hd hm
        rw [hchild, hd] at hm
        cases hm
      rw [hsplit] at hchain hna
      rw [hv, herase]
      have hcore : ∀ k', Core k' v → Core k' { v with
          children := Function.update v.children a (front ++ back) } := fun k' h' =>
        ⟨h'.env, h'.queued, h'.free, h'.context⟩
      cases front using List.reverseRecOn with
      | nil =>
          have hfirst : (k.procTable a).children_proc = some p := (chain_cons.mp hchain).1
          refine ⟨_, by simp only [Kernel.unlinkChild, hparent, hfirst, if_true]; rfl,
            hcore _ (h.setKin hal _), hkin.relink ?_ ?_ ?_ hone hroot ?_⟩
          · exact setKin_keep (fun f => f.parent_proc) (by rfl)
          · intro p' hp'
            rw [setKin_kin, if_neg hp']
          · exact fun d _ => setKin_keep (fun f => f.sibling_proc) (by rfl) d
          · rw [setKin_self]
            exact (chain_cons.mp hchain).2.congr fun d _ =>
              setKin_keep (fun f => f.sibling_proc) (by rfl) d
      | append_singleton front b =>
          have hcells : front ++ [b] ++ p :: back = front ++ b :: p :: back := by simp
          rw [hcells] at hchain hna hsplit
          have hbp : b ≠ p := by
            rintro rfl
            simp [List.nodup_append] at hna
          have hne : (k.procTable a).children_proc ≠ some p := by
            rw [hchain.1]
            cases front with
            | nil => simpa using hbp
            | cons d front =>
                intro heq
                simp at heq
                simp [heq] at hna
          have hlength : front.length < MAXPROC + 1 := by
            have hl := hna.length_le_card
            simp only [List.length_append, List.length_cons, Fintype.card_fin] at hl
            omega
          have hrun := prevSibling_eq (MAXPROC + 1) hchain hna hlength
          have hbl := (hlive a b ((hchild a b).mp (hsplit ▸ by simp))).2
          refine ⟨_, by
            simp only [Kernel.unlinkChild, hparent, if_neg hne, hrun, Option.bind_eq_bind,
              Option.bind_some]
            rfl, hcore _ (h.setKin hbl _), hkin.relink ?_ ?_ ?_ hone hroot ?_⟩
          · exact setKin_keep (fun f => f.parent_proc) (by rfl)
          · exact fun p' _ => setKin_keep (fun f => f.children_proc) (by rfl) p'
          · intro d hd
            rw [setKin_kin, if_neg]
            rintro rfl
            exact hd (hsplit ▸ by simp)
          · have hrest : ∀ d, d ≠ b → ((k.setKin b { (k.procTable b).toKin with
                sibling_proc := (k.procTable p).sibling_proc }).procTable d).sibling_proc =
                (k.procTable d).sibling_proc := by
              intro d hd
              rw [setKin_kin, if_neg hd]
            have hptr : ((k.setKin b { (k.procTable b).toKin with
                sibling_proc := (k.procTable p).sibling_proc }).procTable a).children_proc =
                (k.procTable a).children_proc :=
              setKin_keep (fun f => f.children_proc) (by rfl) a
            rw [hptr]
            have hcut : front ++ [b] ++ back = front ++ b :: back := by simp
            rw [hcut]
            refine ⟨hchain.1.trans (by cases front <;> simp), Leads.cut hchain.2 ?_ ?_⟩
            · rw [setKin_self]
            · intro d hd
              refine hrest d ?_
              rintro rfl
              simp [List.nodup_append] at hna
              rcases List.mem_append.mp hd with hd | hd
              · exact (hna.2.2 _ hd).1 rfl
              · exact hna.2.1.1.2 hd

end Unlink

end Hoca
