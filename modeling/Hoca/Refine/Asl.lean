import Hoca.Asl
import Hoca.Refine.Procq

namespace Hoca

open Links

namespace Kernel

variable (k : Kernel) (d d' : SemdId) (s : Semd) (a : Addr) (v : Int) (p : ProcId)

@[simp] theorem setSemd_self : (k.setSemd d s).semdTable d = s := by simp [setSemd]

theorem setSemd_of_ne (h : d' ≠ d) : (k.setSemd d s).semdTable d' = k.semdTable d' := by
  simp [setSemd, h]

@[simp] theorem setSemd_toEnv : (k.setSemd d s).toEnv = k.toEnv := rfl

@[simp] theorem setSemd_procTable : (k.setSemd d s).procTable = k.procTable := rfl

@[simp] theorem setSemd_procFree : (k.setSemd d s).procFree_h = k.procFree_h := rfl

@[simp] theorem setSemd_readyQueue : (k.setSemd d s).readyQueue = k.readyQueue := rfl

@[simp] theorem setSemd_semd_h : (k.setSemd d s).semd_h = k.semd_h := rfl

@[simp] theorem setSemd_semdFree_h : (k.setSemd d s).semdFree_h = k.semdFree_h := rfl

end Kernel

-- A descriptor on the ASL and the semaphore it is for.
abbrev Active := SemdId × Addr

-- The two lists of descriptors: the ASL in address order and the free list.
structure Descriptors (T : SemdId → Semd) (first firstFree : Option SemdId)
    (asl : List Active) (spare : List SemdId) : Prop where
  doubly : Doubly (fun d => (T d).s_next) (fun d => (T d).s_prev) first (asl.map Prod.fst)
  chain : Chain (fun d => (T d).s_next) firstFree spare
  nodup : (asl.map Prod.fst ++ spare).Nodup
  addr : ∀ e ∈ asl, (T e.1).s_semAdd = some e.2
  sorted : (asl.map Prod.snd).Pairwise (· < ·)

-- The ASL holds the semaphores with a queue, each with the tail of its queue.
structure ActiveList (k : Kernel) (q : QueueId → List Node) (asl : List Active)
    (spare : List SemdId) : Prop
    extends Descriptors k.semdTable k.semd_h k.semdFree_h asl spare where
  all : ∀ d, d ∈ asl.map Prod.fst ++ spare
  tail : ∀ e ∈ asl, (k.semdTable e.1).s_link = handle (q (some e.2))
  complete : ∀ s, q (some s) ≠ [] ↔ s ∈ asl.map Prod.snd

-- The kernel's queues: what readyQueue and the ASL hold and where it is linked.
structure Queued (k : Kernel) (free : List ProcId) (q : QueueId → List Node) : Prop where
  linked : Linked k.procTable free q
  ready : k.readyQueue = handle (q none)
  active : ∃ asl spare, ActiveList k q asl spare

-- What the operations on the queues leave alone.
structure Framed (free : List ProcId) (k k' : Kernel) : Prop where
  env : k'.toEnv = k.toEnv
  procFree : k'.procFree_h = k.procFree_h
  table : Untouched free k.procTable k'.procTable

theorem Framed.refl (free : List ProcId) (k : Kernel) : Framed free k k :=
  ⟨rfl, rfl, Untouched.refl free k.procTable⟩

variable {k k' : Kernel} {T T' : SemdId → Semd} {free : List ProcId}
  {q : QueueId → List Node} {asl : List Active} {spare : List SemdId} {p : ProcId}

theorem Descriptors.length_lt {first firstFree : Option SemdId}
    (h : Descriptors T first firstFree asl spare) : asl.length < MAXPROC + 1 := by
  have hn := (List.nodup_append.mp h.nodup).1.length_le_card
  simp only [List.length_map, Fintype.card_fin] at hn
  exact Nat.lt_succ_of_le hn

theorem Descriptors.addr_inj {first firstFree : Option SemdId}
    (h : Descriptors T first firstFree asl spare) {e e' : Active} (he : e ∈ asl)
    (he' : e' ∈ asl) (hs : e.2 = e'.2) : e = e' :=
  List.inj_on_of_nodup_map (List.Pairwise.imp (fun h => ne_of_lt h) h.sorted) he he' hs

section Search

theorem searchASL_mem {first : Option SemdId} {e : Active} (fuel : ℕ)
    (hc : Chain (fun d => (T d).s_next) first (asl.map Prod.fst))
    (ha : ∀ e ∈ asl, (T e.1).s_semAdd = some e.2)
    (hs : (asl.map Prod.snd).Nodup) (he : e ∈ asl) (hfuel : asl.length < fuel) :
    Kernel.searchASL T e.2 fuel first = some (some e.1) := by
  induction asl generalizing fuel first with
  | nil => simp at he
  | cons b rest ih =>
      obtain ⟨rfl, hr⟩ := chain_cons.mp hc
      cases fuel with
      | zero => simp at hfuel
      | succ fuel =>
          rw [Kernel.searchASL, ha b (by simp)]
          rcases List.mem_cons.mp he with rfl | hrest
          · simp
          · have hne : b.2 ≠ e.2 := by
              rw [List.map_cons, List.nodup_cons] at hs
              exact fun heq => hs.1 (heq ▸ List.mem_map_of_mem hrest)
            rw [if_neg (by simpa using hne)]
            exact ih fuel hr (fun c hc => ha c (by simp [hc])) (List.nodup_cons.mp hs).2 hrest
              (by simpa using hfuel)

theorem searchASL_absent {first : Option SemdId} {s : Addr} (fuel : ℕ)
    (hc : Chain (fun d => (T d).s_next) first (asl.map Prod.fst))
    (ha : ∀ e ∈ asl, (T e.1).s_semAdd = some e.2) (hs : s ∉ asl.map Prod.snd)
    (hfuel : asl.length < fuel) : Kernel.searchASL T s fuel first = some none := by
  induction asl generalizing fuel first with
  | nil =>
      obtain rfl := (chain_nil first).mp hc
      cases fuel with
      | zero => simp at hfuel
      | succ fuel => rfl
  | cons b rest ih =>
      obtain ⟨rfl, hr⟩ := chain_cons.mp hc
      cases fuel with
      | zero => simp at hfuel
      | succ fuel =>
          have hne : b.2 ≠ s := by
            rintro rfl
            simp at hs
          rw [Kernel.searchASL, ha b (by simp), if_neg (by simpa using hne)]
          exact ih fuel hr (fun c hc => ha c (by simp [hc])) (fun hm => hs (by simp [hm]))
            (by simpa using hfuel)

theorem ActiveList.search_mem (h : ActiveList k q asl spare) {e : Active} (he : e ∈ asl) :
    k.getSemaphoreFromActiveList e.2 = some (some e.1) :=
  searchASL_mem _ h.doubly.1 h.addr (List.Pairwise.imp (fun h => ne_of_lt h) h.sorted) he
    h.length_lt

theorem ActiveList.search_absent (h : ActiveList k q asl spare) {s : Addr}
    (hs : s ∉ asl.map Prod.snd) : k.getSemaphoreFromActiveList s = some none :=
  searchASL_absent _ h.doubly.1 h.addr hs h.length_lt

theorem headBlocked_eq (h : Queued k free q) (s : Addr) :
    k.headBlocked s = some ((q (some s)).head?.map Prod.fst) := by
  obtain ⟨asl, spare, ha⟩ := h.active
  by_cases hs : s ∈ asl.map Prod.snd
  · obtain ⟨e, he, rfl⟩ := List.mem_map.mp hs
    simp [Kernel.headBlocked, ha.search_mem he, ha.tail e he, headQueue_eq h.linked]
  · have hq : q (some s) = [] := by
      by_contra hne
      exact hs ((ha.complete s).mp hne)
    simp [Kernel.headBlocked, ha.search_absent hs, hq]

end Search

section Semvec

theorem Linked.congr {t t' : ProcTable} (h : Linked t free q)
    (hlink : ∀ p i, t'.link p i = t.link p i) (hcount : ∀ p, (t' p).qcount = (t p).qcount) :
    Linked t' free q where
  ring x := (h.ring x).congr fun e _ => by simp only [ProcTable.succ, hlink]
  nodup := h.nodup
  apart := h.apart
  slot p hp i := by rw [hlink]; exact h.slot p hp i
  qcount p := by rw [hcount]; exact h.qcount p
  idle := h.idle

def ProcTable.setSemvec (t : ProcTable) (p : ProcId) (v : Slot → Option Addr) : ProcTable :=
  Function.update t p { t p with semvec := v }

@[simp] theorem ProcTable.semvec_setSemvec (t : ProcTable) (p p' : ProcId)
    (v : Slot → Option Addr) :
    (t.setSemvec p v p').semvec = if p' = p then v else (t p').semvec := by
  by_cases hp : p' = p
  · subst hp
    simp [setSemvec]
  · simp [setSemvec, hp]

@[simp] theorem ProcTable.qcount_setSemvec (t : ProcTable) (p p' : ProcId)
    (v : Slot → Option Addr) : (t.setSemvec p v p').qcount = (t p').qcount := by
  by_cases hp : p' = p
  · subst hp
    simp [setSemvec]
  · simp [setSemvec, hp]

@[simp] theorem ProcTable.link_setSemvec (t : ProcTable) (p p' : ProcId) (i : Slot)
    (v : Slot → Option Addr) : (t.setSemvec p v).link p' i = t.link p' i := by
  by_cases hp : p' = p
  · subst hp
    simp [link, setSemvec]
  · simp [link, setSemvec, hp]

-- The semaphore vector is not read by any queue operation.
theorem semvec_linked {t : ProcTable} (h : Linked t free q) (p : ProcId)
    (v : Slot → Option Addr) :
    Linked (t.setSemvec p v) free q ∧ Untouched free t (t.setSemvec p v) := by
  have hrest : ∀ p', (t.setSemvec p v p').toKin = (t p').toKin ∧
      (t.setSemvec p v p').toContext = (t p').toContext := by
    intro p'
    by_cases hp : p' = p
    · subst hp
      simp [ProcTable.setSemvec]
    · simp [ProcTable.setSemvec, hp]
  exact ⟨h.congr (fun p' i => by simp) fun p' => by simp, fun p' => (hrest p').1,
    fun p' => (hrest p').2, fun p' _ i => by simp⟩

-- The semaphore vector with a semaphore put in its first empty entry, and with
-- one taken out of the first entry that holds it.
def withSemaphore (v : Slot → Option Addr) (s : Addr) : Slot → Option Addr :=
  match (List.finRange SEMMAX).find? fun i => v i = none with
  | none => v
  | some i => Function.update v i (some s)

def withoutSemaphore (v : Slot → Option Addr) (s : Addr) : Slot → Option Addr :=
  match (List.finRange SEMMAX).find? fun i => v i = some s with
  | none => v
  | some i => Function.update v i none

theorem addSemaphore_eq (s : Addr) (p : ProcId) : k.addSemaphoreToProcessVector s p =
    { k with procTable :=
        k.procTable.setSemvec p (withSemaphore (k.procTable p).semvec s) } := by
  cases hf : (List.finRange SEMMAX).find? fun i => (k.procTable p).semvec i = none <;>
    simp [Kernel.addSemaphoreToProcessVector, withSemaphore, ProcTable.setSemvec, hf]

theorem removeSemaphore_eq (s : Addr) (p : ProcId) : k.removeSemaphoreFromProcessVector s p =
    { k with procTable :=
        k.procTable.setSemvec p (withoutSemaphore (k.procTable p).semvec s) } := by
  cases hf : (List.finRange SEMMAX).find? fun i => (k.procTable p).semvec i = some s <;>
    simp [Kernel.removeSemaphoreFromProcessVector, withoutSemaphore, ProcTable.setSemvec, hf]

end Semvec

section Lists

theorem Descriptors.next_cell {front back : List Active} {e : Active}
    {first firstFree : Option SemdId}
    (h : Descriptors T first firstFree (front ++ e :: back) spare) :
    (T e.1).s_next = (back.map Prod.fst).head? := by
  have hl := h.doubly.1.2
  rw [List.map_append, List.map_cons, leads_append] at hl
  simpa using hl.2.1

theorem Descriptors.first_cell {back : List Active} {e : Active}
    {first firstFree : Option SemdId} (h : Descriptors T first firstFree (e :: back) spare) :
    first = some e.1 := by
  simpa using h.doubly.1.1

-- The descriptor that was taken off is the first spare one.
theorem Descriptors.retire {front back : List Active} {e : Active}
    {first first' firstFree : Option SemdId}
    (h : Descriptors T first firstFree (front ++ e :: back) spare)
    (hd : Doubly (fun d => (T' d).s_next) (fun d => (T' d).s_prev) first'
      ((front ++ back).map Prod.fst))
    (he : (T' e.1).s_next = firstFree) (hspare : ∀ d ∈ spare, (T' d).s_next = (T d).s_next)
    (haddr : ∀ e' ∈ front ++ back, (T' e'.1).s_semAdd = (T e'.1).s_semAdd) :
    Descriptors T' first' (some e.1) (front ++ back) (e.1 :: spare) where
  doubly := hd
  chain := by
    rw [chain_cons]
    refine ⟨rfl, ?_⟩
    rw [he]
    exact h.chain.congr hspare
  nodup := by
    have hn := h.nodup
    simp only [List.map_append, List.map_cons, List.append_assoc, List.cons_append] at hn ⊢
    refine (List.Perm.nodup_iff ?_).mp hn
    exact List.perm_middle.trans (by
      rw [← List.append_assoc, ← List.append_assoc]
      exact List.perm_middle.symm)
  addr e' he' := by
    rw [haddr e' he']
    exact h.addr e' (by
      simp only [List.mem_append, List.mem_cons] at he' ⊢
      tauto)
  sorted := by
    have hs := h.sorted
    rw [List.map_append, List.map_cons] at hs
    rw [List.map_append]
    exact hs.sublist (List.Sublist.append_left (List.sublist_cons_self _ _) _)

-- The table without a descriptor of the ASL, which is the first spare one.
def unhooked (T : SemdId → Semd) (x : SemdId) (firstFree : Option SemdId) (d : SemdId) : Semd :=
  if d = x then { Kernel.resetSemaphore with s_next := firstFree }
  else { T d with
    s_next := if (T x).s_prev = some d then (T x).s_next else (T d).s_next
    s_prev := if (T x).s_next = some d then (T x).s_prev else (T d).s_prev }

theorem removeSemaphore_unhooked {x head : SemdId} (hh : k.semd_h = some head)
    (hself : (k.semdTable x).s_next ≠ some x) (hp : x = head → (k.semdTable x).s_prev = none) :
    k.removeSemaphoreFromActiveList x =
      { k with
        semdTable := unhooked k.semdTable x k.semdFree_h
        semd_h := if x = head then (k.semdTable x).s_next else some head
        semdFree_h := some x } := by
  have hreturn : ∀ m : Kernel, m = { k with semdTable := m.semdTable, semd_h := m.semd_h } →
      (∀ d, d ≠ x → m.semdTable d = unhooked k.semdTable x k.semdFree_h d) →
        m.returnSemaphoreToFreeList x =
          { k with
            semdTable := unhooked k.semdTable x k.semdFree_h
            semd_h := m.semd_h
            semdFree_h := some x } := by
    intro m hm hrest
    have htable : (m.returnSemaphoreToFreeList x).semdTable =
        unhooked k.semdTable x k.semdFree_h := by
      funext d
      by_cases hd : d = x
      · rw [hm]
        simp [Kernel.returnSemaphoreToFreeList, Kernel.setSemd, unhooked, hd]
      · rw [← hrest d hd]
        simp [Kernel.returnSemaphoreToFreeList, Kernel.setSemd, hd]
    rw [← htable, hm]
    rfl
  unfold Kernel.removeSemaphoreFromActiveList
  rw [hh]
  dsimp only
  by_cases hx : x = head
  · have hprev := hp hx
    rw [if_pos hx, if_pos hx]
    cases hnext : (k.semdTable x).s_next with
    | none => exact hreturn _ rfl fun d hd => by simp [unhooked, hd, hprev, hnext]
    | some n =>
        refine hreturn _ rfl fun d hd => ?_
        by_cases hn : n = d <;> simp [Kernel.setSemd, unhooked, hd, hprev, hnext, hn, eq_comm]
  · rw [if_neg hx, if_neg hx, ← hh]
    cases hnext : (k.semdTable x).s_next with
    | none =>
        cases hprev : (k.semdTable x).s_prev with
        | none => exact hreturn _ rfl fun d hd => by simp [unhooked, hd, hprev, hnext]
        | some a =>
            refine hreturn _ rfl fun d hd => ?_
            by_cases ha : a = d <;> simp [Kernel.setSemd, unhooked, hd, hprev, hnext, ha, eq_comm]
    | some n =>
        have hxn : x ≠ n := by
          rintro rfl
          exact hself hnext
        simp only [Kernel.setSemd_of_ne _ _ _ _ hxn]
        cases hprev : (k.semdTable x).s_prev with
        | none =>
            refine hreturn (k.setSemd n _) rfl fun d hd => ?_
            by_cases hn : n = d <;> simp [Kernel.setSemd, unhooked, hd, hprev, hnext, hn, eq_comm]
        | some a =>
            refine hreturn ((k.setSemd n _).setSemd a _) rfl fun d hd => ?_
            by_cases ha : a = d
            · by_cases hn : n = d <;>
                simp [Kernel.setSemd, unhooked, hd, hprev, hnext, ha, hn, eq_comm]
            · by_cases hn : n = d <;>
                simp [Kernel.setSemd, unhooked, hd, hprev, hnext, ha, hn, eq_comm]

theorem removeSemaphore_spec {front back : List Active} {e : Active}
    (h : Descriptors k.semdTable k.semd_h k.semdFree_h (front ++ e :: back) spare) :
    ∃ T first, k.removeSemaphoreFromActiveList e.1 =
        { k with semdTable := T, semd_h := first, semdFree_h := some e.1 } ∧
      Descriptors T first (some e.1) (front ++ back) (e.1 :: spare) ∧
      ∀ e' ∈ front ++ back, (T e'.1).s_link = (k.semdTable e'.1).s_link := by
  have hdoubly : Doubly (fun d => (k.semdTable d).s_next) (fun d => (k.semdTable d).s_prev)
      k.semd_h (front.map Prod.fst ++ e.1 :: back.map Prod.fst) := by simpa using h.doubly
  obtain ⟨hcells, -, hapart⟩ := List.nodup_append.mp h.nodup
  rw [List.map_append, List.map_cons] at hcells
  have hnext : (k.semdTable e.1).s_next = (back.map Prod.fst).head? := hdoubly.next_eq
  have hprev : (k.semdTable e.1).s_prev = (front.map Prod.fst).getLast? := hdoubly.prev_eq
  have hother : e.1 ∉ front.map Prod.fst ++ back.map Prod.fst :=
    (List.nodup_cons.mp (List.nodup_middle.mp hcells)).1
  have hkeep : ∀ b ∈ front ++ back, b.1 ≠ e.1 := by
    intro b hb heq
    rw [← List.map_append] at hother
    exact hother (heq ▸ List.mem_map_of_mem hb)
  obtain ⟨head, hhead, hfirst⟩ : ∃ head, k.semd_h = some head ∧ (e.1 = head ↔ front = []) := by
    have hh := hdoubly.1.1
    cases front with
    | nil => exact ⟨e.1, by simpa using hh, by simp⟩
    | cons c front =>
        have hc : e.1 ≠ c.1 := (hkeep c (by simp)).symm
        exact ⟨c.1, by simpa using hh, by simpa using hc⟩
  refine ⟨unhooked k.semdTable e.1 k.semdFree_h, _, removeSemaphore_unhooked hhead ?_ ?_, ?_, ?_⟩
  · intro hself
    rw [hnext] at hself
    exact hother (List.mem_append_right _ (List.mem_of_mem_head? hself))
  · intro heq
    rw [hprev, hfirst.mp heq]
    rfl
  · refine h.retire ?_ (by simp [unhooked]) ?_ ?_
    · rw [List.map_append, ← hhead]
      have hdrop : Doubly (fun d => (unhooked k.semdTable e.1 k.semdFree_h d).s_next)
          (fun d => (unhooked k.semdTable e.1 k.semdFree_h d).s_prev)
          (if front.map Prod.fst = [] then (k.semdTable e.1).s_next else k.semd_h)
          (front.map Prod.fst ++ back.map Prod.fst) := by
        refine hdoubly.drop hcells (fun d hd => ?_) fun d hd => ?_
        · have hde : d ≠ e.1 := fun heq => hother (heq ▸ hd)
          simp [unhooked, hde]
        · have hde : d ≠ e.1 := fun heq => hother (heq ▸ hd)
          simp [unhooked, hde]
      simpa [hfirst] using hdrop
    · intro d hd
      have hde : d ≠ e.1 := by
        rintro rfl
        exact hapart e.1 (by simp) e.1 hd rfl
      have hbefore : (k.semdTable e.1).s_prev ≠ some d := by
        intro heq
        rw [hprev] at heq
        have hmem := List.mem_of_getLast? heq
        exact hapart d (by simp only [List.map_append, List.mem_append]; exact Or.inl hmem) d hd rfl
      simp [unhooked, hde, hbefore]
    · intro c hc
      simp [unhooked, hkeep c hc]
  · intro c hc
    simp [unhooked, hkeep c hc]

theorem insertionPoint_eq {a : Active} {rest : List Active} {first : Option SemdId} {s : Addr}
    (fuel : ℕ) (hc : Chain (fun d => (T d).s_next) first (rest.map Prod.fst))
    (haddr : ∀ e ∈ rest, (T e.1).s_semAdd = some e.2)
    (hsorted : (rest.map Prod.snd).Pairwise (· < ·)) (hlow : a.2 < s)
    (hs : s ∉ rest.map Prod.snd) (hfuel : rest.length < fuel) :
    ∃ front b back, a :: rest = front ++ b :: back ∧
      Kernel.insertionPoint T s fuel a.1 first = some (b.1, (back.map Prod.fst).head?) ∧
      (∀ e ∈ front ++ [b], e.2 < s) ∧ ∀ e ∈ back, s < e.2 := by
  induction rest generalizing fuel a first with
  | nil =>
      obtain rfl := (chain_nil first).mp hc
      cases fuel with
      | zero => simp at hfuel
      | succ fuel => exact ⟨[], a, [], rfl, rfl, by simpa using hlow, by simp⟩
  | cons c rest ih =>
      obtain ⟨rfl, hr⟩ := chain_cons.mp hc
      rw [List.map_cons, List.pairwise_cons] at hsorted
      cases fuel with
      | zero => simp at hfuel
      | succ fuel =>
          by_cases hcs : s > c.2
          · obtain ⟨front, b, back, hsplit, hrun, hfront, hback⟩ := ih fuel hr
              (fun e he => haddr e (by simp [he])) hsorted.2 hcs (fun hm => hs (by simp [hm]))
              (by simpa using hfuel)
            refine ⟨a :: front, b, back, by rw [hsplit]; rfl, ?_, ?_, hback⟩
            · simpa [Kernel.insertionPoint, haddr c (by simp), hcs] using hrun
            · intro e he
              rcases List.mem_cons.mp he with rfl | he
              · exact hlow
              · exact hfront e he
          · have hne : s ≠ c.2 := by
              rintro rfl
              simp at hs
            have hlt : s < c.2 := lt_of_le_of_ne (not_lt.mp hcs) hne
            refine ⟨[], a, c :: rest, rfl, ?_, by simpa using hlow, ?_⟩
            · simp [Kernel.insertionPoint, haddr c (by simp), hcs]
            · intro e he
              rcases List.mem_cons.mp he with rfl | he
              · exact hlt
              · exact hlt.trans (hsorted.1 e.2 (List.mem_map_of_mem he))

-- The descriptor has its place between the lower and the higher addresses.
theorem Descriptors.enlist {front back : List Active} {e : Active}
    {first first' firstFree : Option SemdId} (h : Descriptors T first firstFree (front ++ back) spare)
    (hnew : e.1 ∉ (front ++ back).map Prod.fst ++ spare)
    (hd : Doubly (fun d => (T' d).s_next) (fun d => (T' d).s_prev) first'
      ((front ++ e :: back).map Prod.fst))
    (hspare : ∀ d ∈ spare, (T' d).s_next = (T d).s_next)
    (haddr : ∀ e' ∈ front ++ back, (T' e'.1).s_semAdd = (T e'.1).s_semAdd)
    (he : (T' e.1).s_semAdd = some e.2)
    (hlow : ∀ b ∈ front, b.2 < e.2) (hhigh : ∀ b ∈ back, e.2 < b.2) :
    Descriptors T' first' firstFree (front ++ e :: back) spare where
  doubly := hd
  chain := h.chain.congr hspare
  nodup := by
    have hn := h.nodup
    have hperm : (front ++ e :: back).map Prod.fst ++ spare |>.Perm
        (e.1 :: ((front ++ back).map Prod.fst ++ spare)) := by
      simp [List.perm_middle]
    exact hperm.nodup_iff.mpr (List.nodup_cons.mpr ⟨hnew, hn⟩)
  addr e' he' := by
    rcases List.mem_append.mp he' with hf | hb
    · rw [haddr e' (by simp [hf])]
      exact h.addr e' (by simp [hf])
    · rcases List.mem_cons.mp hb with rfl | hb
      · exact he
      · rw [haddr e' (by simp [hb])]
        exact h.addr e' (by simp [hb])
  sorted := by
    have hs := h.sorted
    rw [List.map_append, List.pairwise_append] at hs
    rw [List.map_append, List.map_cons, List.pairwise_append, List.pairwise_cons]
    refine ⟨hs.1, ⟨?_, hs.2.1⟩, ?_⟩
    · intro b hb
      obtain ⟨c, hc, rfl⟩ := List.mem_map.mp hb
      exact hhigh c hc
    intro a ha b hb
    rcases List.mem_cons.mp hb with rfl | hb
    · obtain ⟨c, hc, rfl⟩ := List.mem_map.mp ha
      exact hlow c hc
    · exact hs.2.2 a ha b hb

-- The writes that put a descriptor after another one.
theorem Descriptors.put {front back : List Active} {b e : Active} {first firstFree : Option SemdId}
    (h : Descriptors T first firstFree (front ++ b :: back) spare)
    (hnew : e.1 ∉ (front ++ b :: back).map Prod.fst ++ spare) (he : (T e.1).s_semAdd = some e.2)
    (hlow : ∀ c ∈ front ++ [b], c.2 < e.2) (hhigh : ∀ c ∈ back, e.2 < c.2)
    (hTb : T' b.1 = { T b.1 with s_next := some e.1 })
    (hTe : T' e.1 = { T e.1 with s_next := (back.map Prod.fst).head?, s_prev := some b.1 })
    (hhead : ∀ c ∈ (back.map Prod.fst).head?, T' c = { T c with s_prev := some e.1 })
    (hrest : ∀ d, d ≠ e.1 → d ≠ b.1 → d ∉ (back.map Prod.fst).head? → T' d = T d) :
    Descriptors T' first firstFree (front ++ [b] ++ e :: back) spare ∧
      ∀ c ∈ front ++ [b] ++ e :: back, (T' c.1).s_link = (T c.1).s_link := by
  have hcells : (front.map Prod.fst ++ b.1 :: back.map Prod.fst).Nodup := by
    simpa using (List.nodup_append.mp h.nodup).1
  have hsplit : front ++ b :: back = front ++ [b] ++ back := by simp
  have hold : ∀ c ∈ front ++ b :: back, c.1 ≠ e.1 := fun c hc heq =>
    hnew (List.mem_append_left _ (heq ▸ List.mem_map_of_mem hc))
  -- only the two neighbours change, and they keep their address and queue
  have hkeep : ∀ d, d ≠ e.1 → (T' d).s_semAdd = (T d).s_semAdd ∧ (T' d).s_link = (T d).s_link := by
    intro d hd
    by_cases hb : d = b.1
    · rw [hb, hTb]
      exact ⟨rfl, rfl⟩
    · by_cases hm : d ∈ (back.map Prod.fst).head?
      · rw [hhead d hm]
        exact ⟨rfl, rfl⟩
      · rw [hrest d hd hb hm]
        exact ⟨rfl, rfl⟩
  have hnext : ∀ d, d ≠ e.1 → d ≠ b.1 → (T' d).s_next = (T d).s_next := by
    intro d hd hb
    by_cases hm : d ∈ (back.map Prod.fst).head?
    · rw [hhead d hm]
    · rw [hrest d hd hb hm]
  have hmid : ∀ d ∈ front.map Prod.fst ++ back.map Prod.fst, d ≠ e.1 ∧ d ≠ b.1 := by
    intro d hd
    rw [← List.map_append] at hd
    obtain ⟨c, hc, rfl⟩ := List.mem_map.mp hd
    refine ⟨hold c (by simp only [List.mem_append, List.mem_cons] at hc ⊢; tauto), ?_⟩
    intro heq
    rw [List.nodup_middle, List.nodup_cons, ← List.map_append] at hcells
    exact hcells.1 (heq ▸ List.mem_map_of_mem hc)
  refine ⟨?_, ?_⟩
  · rw [hsplit] at h hnew
    refine h.enlist hnew ?_ ?_ ?_ (by rw [hTe]; exact he) hlow hhigh
    · have hd : Doubly (fun d => (T d).s_next) (fun d => (T d).s_prev) first
          (front.map Prod.fst ++ b.1 :: back.map Prod.fst) := by
        simpa using h.doubly
      suffices hp : Doubly (fun d => (T' d).s_next) (fun d => (T' d).s_prev) first
          (front.map Prod.fst ++ b.1 :: e.1 :: back.map Prod.fst) by simpa using hp
      refine hd.splice (by simp [hTb]) ?_ ?_ (by simp [hTe]) ?_ ?_
      · rw [hTe, show (T b.1).s_next = _ from Descriptors.next_cell (hsplit ▸ h)]
      · intro d hd
        exact hnext d (hmid d hd).1 (hmid d hd).2
      · intro c hc
        rw [hhead c hc]
      · intro d hd
        rcases List.mem_append.mp hd with hf | hb
        · have hm := hmid d (List.mem_append_left _ hf)
          rw [hrest d hm.1 hm.2 ?_]
          intro hh
          exact (List.nodup_append.mp hcells).2.2 d hf d
            (List.mem_cons_of_mem _ (List.mem_of_head? hh)) rfl
        · rcases List.mem_cons.mp hb with rfl | hb
          · rw [hTb]
          · have hm := hmid d (List.mem_append_right _ (List.mem_of_mem_tail hb))
            rw [hrest d hm.1 hm.2 ?_]
            intro hh
            have hn := (List.nodup_cons.mp (List.nodup_append.mp hcells).2.1).2
            rw [← List.cons_head?_tail hh, List.nodup_cons] at hn
            exact hn.1 hb
    · intro d hd
      refine hnext d ?_ ?_
      · rintro rfl
        exact hnew (List.mem_append_right _ hd)
      · rintro rfl
        exact (List.nodup_append.mp h.nodup).2.2 b.1 (by simp) b.1 hd rfl
    · intro c hc
      exact (hkeep c.1 (hold c (by simpa using hc))).1
  · intro c hc
    by_cases heq : c = e
    · rw [heq, hTe]
    · refine (hkeep c.1 (hold c ?_)).2
      simp only [List.mem_append, List.mem_cons, List.not_mem_nil, or_false] at hc ⊢
      tauto

-- The writes that put a descriptor in front of the list.
theorem Descriptors.putFirst {rest : List Active} {c e : Active} {firstFree : Option SemdId}
    (h : Descriptors T (some c.1) firstFree (c :: rest) spare)
    (hnew : e.1 ∉ (c :: rest).map Prod.fst ++ spare) (he : (T e.1).s_semAdd = some e.2)
    (hlt : e.2 < c.2) (hTc : T' c.1 = { T c.1 with s_prev := some e.1 })
    (hTe : T' e.1 = { T e.1 with s_next := some c.1, s_prev := none })
    (hrest : ∀ d, d ≠ e.1 → d ≠ c.1 → T' d = T d) :
    Descriptors T' (some e.1) firstFree (e :: c :: rest) spare ∧
      ∀ b ∈ e :: c :: rest, (T' b.1).s_link = (T b.1).s_link := by
  have hcells : (c.1 :: rest.map Prod.fst).Nodup := by
    simpa using (List.nodup_append.mp h.nodup).1
  have hsorted := h.sorted
  rw [List.map_cons, List.pairwise_cons] at hsorted
  have hkeep : ∀ b ∈ rest, T' b.1 = T b.1 := by
    intro b hb
    refine hrest b.1 (fun heq => hnew ?_) fun heq => ?_
    · exact heq ▸ List.mem_append_left _ (List.mem_map_of_mem (List.mem_cons_of_mem c hb))
    · exact (List.nodup_cons.mp hcells).1 (heq ▸ List.mem_map_of_mem hb)
  constructor
  · show Descriptors T' (some e.1) firstFree ([] ++ e :: c :: rest) spare
    refine h.enlist hnew ?_ ?_ ?_ (by simp [hTe, he]) (by simp) ?_
    · refine Doubly.push h.doubly (by simp [hTe]) (by simp [hTe]) (by simp [hTc]) ?_ ?_
      · intro d hd
        rcases List.mem_cons.mp hd with rfl | hd
        · simp [hTc]
        · obtain ⟨b, hb, rfl⟩ := List.mem_map.mp hd
          rw [hkeep b hb]
      · intro d hd
        obtain ⟨b, hb, rfl⟩ := List.mem_map.mp hd
        rw [hkeep b hb]
    · intro d hd
      rw [hrest d]
      · rintro rfl
        exact hnew (List.mem_append_right _ hd)
      · rintro rfl
        exact (List.nodup_append.mp h.nodup).2.2 c.1 (by simp) c.1 hd rfl
    · intro b hb
      rcases List.mem_cons.mp hb with rfl | hb
      · simp [hTc]
      · rw [hkeep b hb]
    · intro b hb
      rcases List.mem_cons.mp hb with rfl | hb
      · exact hlt
      · exact hlt.trans (hsorted.1 b.2 (List.mem_map_of_mem hb))
  · intro b hb
    simp only [List.mem_cons] at hb
    rcases hb with rfl | rfl | hb
    · simp [hTe]
    · simp [hTc]
    · rw [hkeep b hb]

theorem insertSemaphore_spec {e : Active}
    (h : Descriptors k.semdTable k.semd_h k.semdFree_h asl spare)
    (hnew : e.1 ∉ asl.map Prod.fst ++ spare) (hs : e.2 ∉ asl.map Prod.snd)
    (ha : (k.semdTable e.1).s_semAdd = some e.2) :
    ∃ T first front back, asl = front ++ back ∧
      k.insertSemaphoreIntoActiveList e.1 = some { k with semdTable := T, semd_h := first } ∧
      Descriptors T first k.semdFree_h (front ++ e :: back) spare ∧
      ∀ e' ∈ front ++ e :: back, (T e'.1).s_link = (k.semdTable e'.1).s_link := by
  have hother : ∀ b ∈ asl, b.1 ≠ e.1 := fun b hb heq =>
    hnew (List.mem_append_left _ (heq ▸ List.mem_map_of_mem hb))
  cases asl with
  | nil =>
      have hfirst : k.semd_h = none := by simpa using h.doubly
      refine ⟨Function.update k.semdTable e.1
        { k.semdTable e.1 with s_next := none, s_prev := none }, some e.1, [], [], rfl, ?_, ?_, ?_⟩
      · simp [Kernel.insertSemaphoreIntoActiveList, ha, hfirst, Kernel.setSemd]
      · refine h.enlist hnew ?_ ?_ (by simp) (by simpa using ha) (by simp) (by simp)
        · simp [Doubly, Chain]
        · intro d hd
          have hde : d ≠ e.1 := fun heq => hnew (List.mem_append_right _ (heq ▸ hd))
          rw [Function.update_of_ne hde]
      · simp
  | cons c rest =>
      have hfirst : k.semd_h = some c.1 := h.first_cell
      have hc := h.addr c (by simp)
      have hce : c.1 ≠ e.1 := hother c (by simp)
      have hsorted := h.sorted
      rw [List.map_cons, List.pairwise_cons] at hsorted
      by_cases hlt : e.2 < c.2
      · let T := Function.update (Function.update k.semdTable e.1
          { k.semdTable e.1 with s_next := some c.1, s_prev := none }) c.1
          { k.semdTable c.1 with s_prev := some e.1 }
        have hput := @Descriptors.putFirst _ T _ _ _ _ _ (hfirst ▸ h) hnew ha hlt (by simp [T])
          (by simp [T, hce.symm]) fun d hde hdc => by simp [T, hde, hdc]
        refine ⟨T, some e.1, [], c :: rest, rfl, ?_, hput⟩
        simp [Kernel.insertSemaphoreIntoActiveList, ha, hfirst, hc, hlt, hce, Kernel.setSemd, T]
      · have hne : e.2 ≠ c.2 := by
          intro heq
          simp [heq] at hs
        have hgt : c.2 < e.2 := lt_of_le_of_ne (not_lt.mp hlt) hne.symm
        obtain ⟨front, b, back, hsplit, hrun, hlow, hhigh⟩ := insertionPoint_eq (a := c) MAXPROC
          (Chain.tail h.doubly.1) (fun b hb => h.addr b (by simp [hb])) hsorted.2 hgt
          (fun hm => hs (by simp [hm])) (by simpa using h.length_lt)
        have hbc : (k.semdTable b.1).s_next = (back.map Prod.fst).head? := by
          rw [hsplit] at h
          exact h.next_cell
        rw [hsplit] at h hnew hother hs
        have hbe := hother b (by simp)
        have hpoint : Kernel.insertionPoint k.semdTable e.2 (MAXPROC + 1) c.1 (some c.1) =
            some (b.1, (back.map Prod.fst).head?) := by
          simp [Kernel.insertionPoint, hc, hgt, hrun]
        cases back with
        | nil =>
            let T := Function.update (Function.update k.semdTable b.1
              { k.semdTable b.1 with s_next := some e.1 }) e.1
              { k.semdTable e.1 with s_prev := some b.1, s_next := none }
            have hput := @Descriptors.put _ T _ _ _ _ _ _ _ h hnew ha hlow hhigh (by simp [T, hbe])
              (by simp [T]) (by simp) (fun d hde hdb _ => by simp [T, hde, hdb])
            refine ⟨T, k.semd_h, front ++ [b], [], by simpa using hsplit, ?_, by
              simpa [hfirst] using hput⟩
            simp [Kernel.insertSemaphoreIntoActiveList, ha, hfirst, hc, hlt, hpoint, hbe.symm,
              Kernel.setSemd, T]
        | cons b' back =>
            have hbb : b'.1 ≠ b.1 := by
              have hn := (List.nodup_append.mp h.nodup).1
              rw [List.map_append, List.map_cons, List.map_cons, List.nodup_append] at hn
              simp only [List.nodup_cons, List.mem_cons, not_or] at hn
              exact fun heq => hn.2.1.1.1 heq.symm
            have hbe' := hother b' (by simp)
            let T := Function.update (Function.update (Function.update k.semdTable b.1
              { k.semdTable b.1 with s_next := some e.1 }) e.1
              { k.semdTable e.1 with s_prev := some b.1, s_next := some b'.1 }) b'.1
              { k.semdTable b'.1 with s_prev := some e.1 }
            have hput := @Descriptors.put _ T _ _ _ _ _ _ _ h hnew ha hlow hhigh
              (by simp [T, hbe, hbb.symm]) (by simp [T, hbe'.symm]) (by simp [T]) (fun d hde hdb hd => by
                have hdb' : d ≠ b'.1 := fun heq => hd (by simp [heq])
                simp [T, hde, hdb, hdb'])
            refine ⟨T, k.semd_h, front ++ [b], b' :: back, by simpa using hsplit, ?_, by
              simpa [hfirst] using hput⟩
            simp [Kernel.insertSemaphoreIntoActiveList, ha, hfirst, hc, hlt, hpoint, hbe.symm, hbb, hbe',
              Kernel.setSemd, T]

theorem Descriptors.congr {first firstFree : Option SemdId}
    (h : Descriptors T first firstFree asl spare) (hnext : ∀ d, (T' d).s_next = (T d).s_next)
    (hprev : ∀ d, (T' d).s_prev = (T d).s_prev)
    (haddr : ∀ e ∈ asl, (T' e.1).s_semAdd = (T e.1).s_semAdd) :
    Descriptors T' first firstFree asl spare where
  doubly := h.doubly.congr (fun d _ => hnext d) fun d _ => hprev d
  chain := h.chain.congr fun d _ => hnext d
  nodup := h.nodup
  addr e he := (haddr e he).trans (h.addr e he)
  sorted := h.sorted

-- Taking the first spare descriptor and giving it an address.
theorem Descriptors.allocate {first firstFree : Option SemdId} {d : SemdId}
    (h : Descriptors T first firstFree asl (d :: spare))
    (hrest : ∀ d', d' ≠ d → T' d' = T d') :
    firstFree = some d ∧ d ∉ asl.map Prod.fst ++ spare ∧
      Descriptors T' first (T d).s_next asl spare := by
  obtain ⟨rfl, hchain⟩ := chain_cons.mp h.chain
  have hn := h.nodup
  rw [List.nodup_middle, List.nodup_cons] at hn
  have hold : ∀ e ∈ asl, e.1 ≠ d := fun e he heq =>
    hn.1 (List.mem_append_left _ (heq ▸ List.mem_map_of_mem he))
  have hcells : ∀ d' ∈ asl.map Prod.fst, T' d' = T d' := by
    intro d' hd'
    obtain ⟨e, he, rfl⟩ := List.mem_map.mp hd'
    exact hrest e.1 (hold e he)
  refine ⟨rfl, hn.1, ?_, ?_, hn.2, ?_, h.sorted⟩
  · exact h.doubly.congr (fun d' hd' => by rw [hcells d' hd']) fun d' hd' => by rw [hcells d' hd']
  · refine hchain.congr fun d' hd' => ?_
    rw [hrest d' fun heq => hn.1 (List.mem_append_right _ (heq ▸ hd'))]
  · intro e he
    rw [hrest e.1 (hold e he)]
    exact h.addr e he

end Lists

section Blocked

-- What a process waits for once it has been put on the queue of a semaphore.
structure Blocks (k k' : Kernel) (free : List ProcId) (q : QueueId → List Node) (s : Addr)
    (p : ProcId) (asl : List Active) (spare : List SemdId) : Prop where
  linked : Linked k'.procTable free (enqueue q (some s) p)
  ready : k'.readyQueue = k.readyQueue
  active : ActiveList k' (enqueue q (some s) p) asl spare
  framed : Framed free k k'
  semvec : ∀ p', (k'.procTable p').semvec =
    if p' = p then withSemaphore (k.procTable p).semvec s else (k.procTable p').semvec

-- The semaphore has a descriptor.
theorem insertBlocked_active (hl : Linked k.procTable free q) (ha : ActiveList k q asl spare)
    {e : Active} (he : e ∈ asl) (hp : p ∉ free) (hc : (occupied q p).card < SEMMAX) :
    ∃ k', k.insertBlocked e.2 p = some (k', false) ∧ Blocks k k' free q e.2 p asl spare := by
  have hv := addSemaphore_eq (k := k) e.2 p
  obtain ⟨hlv, huv⟩ := semvec_linked hl p (withSemaphore (k.procTable p).semvec e.2)
  obtain ⟨t, hrun, hlinked, hsame⟩ := insertProc_spec hlv (some e.2) hp hc
  rw [← ha.tail e he] at hrun
  refine ⟨{ k with procTable := t }.setSemd e.1 { k.semdTable e.1 with
    s_link := handle (enqueue q (some e.2) p (some e.2)) }, ?_, hlinked, rfl, ?_,
    ⟨rfl, rfl, huv.trans hsame⟩, ?_⟩
  · simp [Kernel.insertBlocked, ha.search_mem he, hv, Kernel.insertProcAt, hrun, Kernel.setSemd]
  · have hset : ∀ e' ∈ asl, e' ≠ e → e'.1 ≠ e.1 := by
      intro e' he' hne heq
      exact hne (List.inj_on_of_nodup_map (List.nodup_append.mp ha.nodup).1 he' he heq)
    refine ⟨ha.toDescriptors.congr ?_ ?_ ?_, ha.all, ?_, ?_⟩
    · intro d
      by_cases hde : d = e.1
      · simp [hde]
      · rw [Kernel.setSemd_of_ne _ _ _ _ hde]
    · intro d
      by_cases hde : d = e.1
      · simp [hde]
      · rw [Kernel.setSemd_of_ne _ _ _ _ hde]
    · intro e' he'
      by_cases hde : e'.1 = e.1
      · simp [hde]
      · rw [Kernel.setSemd_of_ne _ _ _ _ hde]
    · intro e' he'
      by_cases hee : e' = e
      · simp [hee]
      · have hs' : some e'.2 ≠ some e.2 := fun heq =>
          hee (ha.addr_inj he' he (Option.some.inj heq))
        rw [Kernel.setSemd_of_ne _ _ _ _ (hset e' he' hee), enqueue_of_ne hs']
        exact ha.tail e' he'
    · intro s'
      rw [enqueue_ne_nil, ← ha.complete s', Option.some.injEq]
      refine ⟨fun hor => hor.elim ?_ id, Or.inr⟩
      rintro rfl
      exact (ha.complete e.2).mpr (List.mem_map_of_mem he)
  · intro p'
    exact (insertProc_semvec hrun p').trans (by simp)

-- The semaphore takes the first free descriptor.
theorem insertBlocked_inactive {d : SemdId} {s : Addr} (hl : Linked k.procTable free q)
    (ha : ActiveList k q asl (d :: spare)) (hs : s ∉ asl.map Prod.snd) (hp : p ∉ free)
    (hc : (occupied q p).card < SEMMAX) :
    ∃ k' front back, asl = front ++ back ∧ k.insertBlocked s p = some (k', false) ∧
      Blocks k k' free q s p (front ++ (d, s) :: back) spare := by
  have hq : q (some s) = [] := by
    by_contra hne
    exact hs ((ha.complete s).mp hne)
  have hfree : k.semdFree_h = some d := (chain_cons.mp ha.chain).1
  let k₁ := ({ k with semdFree_h := (k.semdTable d).s_next }.setSemd d
    Kernel.resetSemaphore).setSemd d { Kernel.resetSemaphore with s_semAdd := some s }
  have hv := addSemaphore_eq (k := k₁) s p
  obtain ⟨hlv, huv⟩ := semvec_linked hl p (withSemaphore (k.procTable p).semvec s)
  obtain ⟨t, hrun, hlinked, hsame⟩ := insertProc_spec hlv (some s) hp hc
  let k₂ := { k₁ with procTable := t }.setSemd d { Kernel.resetSemaphore with
    s_semAdd := some s, s_link := handle (enqueue q (some s) p (some s)) }
  have hk₂ : ∀ d', d' ≠ d → k₂.semdTable d' = k.semdTable d' := by
    intro d' hd'
    simp [k₂, k₁, Kernel.setSemd, hd']
  obtain ⟨-, hnew, hdesc⟩ := ha.toDescriptors.allocate hk₂
  obtain ⟨T, first, front, back, rfl, hput, hdesc', hlinks⟩ := insertSemaphore_spec (k := k₂)
    (e := (d, s)) hdesc hnew hs (by simp [k₂])
  refine ⟨{ k₂ with semdTable := T, semd_h := first }, front, back, rfl, ?_, hlinked, rfl,
    ⟨hdesc', ?_, ?_, ?_⟩, ⟨rfl, rfl, huv.trans hsame⟩, ?_⟩
  · have hlink : (k₁.semdTable d).s_link = handle (q (some s)) := by
      simp [k₁, Kernel.resetSemaphore, hq]
    have hset : Kernel.setSemd { k₁ with procTable := t } d { k₁.semdTable d with
        s_link := handle (enqueue q (some s) p (some s)) } = k₂ := by
      simp [k₂, k₁, Kernel.setSemd]
    have hrun₁ : Kernel.insertProcAt (k₁.addSemaphoreToProcessVector s p) d p = some k₂ := by
      rw [hv]
      simp only [Kernel.insertProcAt, hlink]
      rw [show insertProc (k₁.procTable.setSemvec p (withSemaphore (k₁.procTable p).semvec s))
        (handle (q (some s))) p = _ from hrun]
      exact congrArg some hset
    have halloc : k.allocateSemaphoreFromFreeList =
        ({ k with semdFree_h := (k.semdTable d).s_next }.setSemd d Kernel.resetSemaphore, some d) := by
      simp [Kernel.allocateSemaphoreFromFreeList, hfree]
    simp only [Kernel.insertBlocked, ha.search_absent hs, halloc, Option.bind_eq_bind,
      Option.bind_some, Kernel.setSemd_self]
    rw [show Kernel.setSemd _ d { Kernel.resetSemaphore with s_semAdd := some s } = k₁ from rfl,
      hrun₁, Option.bind_some, hput]
    rfl
  · intro d'
    have hd' := ha.all d'
    simp only [List.map_append, List.map_cons, List.mem_append, List.mem_cons] at hd' ⊢
    tauto
  · intro e he
    rw [hlinks e he]
    have hcases : e = (d, s) ∨ e ∈ front ++ back := by
      simp only [List.mem_append, List.mem_cons] at he ⊢
      tauto
    rcases hcases with rfl | hold
    · simp [k₂]
    · have hed : e.1 ≠ d := fun heq =>
        hnew (List.mem_append_left _ (heq ▸ List.mem_map_of_mem hold))
      have hes : some e.2 ≠ some s := fun heq =>
        hs (Option.some.inj heq ▸ List.mem_map_of_mem hold)
      rw [hk₂ e.1 hed, enqueue_of_ne hes]
      exact ha.tail e hold
  · intro s'
    rw [enqueue_ne_nil, ha.complete s', Option.some.injEq]
    simp only [List.map_append, List.map_cons, List.mem_append, List.mem_cons]
    tauto
  · intro p'
    exact (insertProc_semvec hrun p').trans (by simp)

theorem insertBlocked_full (h : Queued k free q) {s : Addr} (hq : q (some s) = [])
    (hd : k.semdFree_h = none) : k.insertBlocked s p = some (k, true) := by
  obtain ⟨asl, spare, ha⟩ := h.active
  have hs : s ∉ asl.map Prod.snd := fun hs => (ha.complete s).mpr hs hq
  simp [Kernel.insertBlocked, ha.search_absent hs, Kernel.allocateSemaphoreFromFreeList, hd]

theorem insertBlocked_spec (h : Queued k free q) (s : Addr) (hp : p ∉ free)
    (hc : (occupied q p).card < SEMMAX) (hd : q (some s) ≠ [] ∨ k.semdFree_h ≠ none) :
    ∃ k', k.insertBlocked s p = some (k', false) ∧
      Queued k' free (enqueue q (some s) p) ∧ Framed free k k' := by
  obtain ⟨asl, spare, ha⟩ := h.active
  have hready : k.readyQueue = handle (enqueue q (some s) p none) := by
    rw [enqueue_of_ne (by simp), h.ready]
  by_cases hs : s ∈ asl.map Prod.snd
  · obtain ⟨e, he, rfl⟩ := List.mem_map.mp hs
    obtain ⟨k', hrun, hb⟩ := insertBlocked_active h.linked ha he hp hc
    exact ⟨k', hrun, ⟨hb.linked, hb.ready.trans hready, _, _, hb.active⟩, hb.framed⟩
  · obtain ⟨d, spare, rfl⟩ : ∃ d rest, spare = d :: rest := by
      cases spare with
      | nil =>
          have hne : q (some s) ≠ [] := hd.resolve_right fun hn => hn ((chain_nil _).mp ha.chain)
          exact absurd ((ha.complete s).mp hne) hs
      | cons d rest => exact ⟨d, rest, rfl⟩
    obtain ⟨k', front, back, -, hrun, hb⟩ := insertBlocked_inactive h.linked ha hs hp hc
    exact ⟨k', hrun, ⟨hb.linked, hb.ready.trans hready, _, _, hb.active⟩, hb.framed⟩

-- The descriptor of a queue that has been worked on goes when its tail pointer
-- is null.
theorem Descriptors.visit {front back : List Active} {e : Active}
    (h : Descriptors k.semdTable k.semd_h k.semdFree_h (front ++ e :: back) spare)
    (t : ProcTable) (tp : ProcLink) :
    let k₁ := { k with procTable := t }.setSemd e.1 { k.semdTable e.1 with s_link := tp }
    ∃ k' spare',
      (if tp.next = none then k₁.removeSemaphoreFromActiveList e.1 else k₁) = k' ∧
      Descriptors k'.semdTable k'.semd_h k'.semdFree_h
        (front ++ (if tp.next = none then [] else [e]) ++ back) spare' ∧
      spare' = (if tp.next = none then e.1 :: spare else spare) ∧
      (∀ e' ∈ front ++ (if tp.next = none then [] else [e]) ++ back,
        (k'.semdTable e'.1).s_link = if e' = e then tp else (k.semdTable e'.1).s_link) ∧
      k'.procTable = t ∧
      k'.toEnv = k.toEnv ∧ k'.procFree_h = k.procFree_h ∧ k'.readyQueue = k.readyQueue := by
  intro k₁
  have he : e ∈ front ++ e :: back := by simp
  have hset : ∀ e' ∈ front ++ e :: back, e' ≠ e → e'.1 ≠ e.1 := by
    intro e' he' hne heq
    exact hne (List.inj_on_of_nodup_map (List.nodup_append.mp h.nodup).1 he' he heq)
  have hsame : ∀ d, (k₁.semdTable d).s_next = (k.semdTable d).s_next ∧
      (k₁.semdTable d).s_prev = (k.semdTable d).s_prev ∧
      (k₁.semdTable d).s_semAdd = (k.semdTable d).s_semAdd := by
    intro d
    by_cases hde : d = e.1
    · simp [k₁, hde]
    · simp [k₁, Kernel.setSemd_of_ne _ _ _ _ hde]
  have hdesc : Descriptors k₁.semdTable k₁.semd_h k₁.semdFree_h (front ++ e :: back) spare :=
    h.congr (fun d => (hsame d).1) (fun d => (hsame d).2.1) fun e _ => (hsame e.1).2.2
  have hlink : ∀ e' ∈ front ++ e :: back, (k₁.semdTable e'.1).s_link =
      if e' = e then tp else (k.semdTable e'.1).s_link := by
    intro e' he'
    by_cases hee : e' = e
    · simp [k₁, hee]
    · simp only [k₁]
      rw [Kernel.setSemd_of_ne _ _ _ _ (hset e' he' hee), if_neg hee]
  by_cases hnone : tp.next = none
  · obtain ⟨T, first, hrun, hdesc', hlinks⟩ := removeSemaphore_spec hdesc
    simp only [if_pos hnone, List.append_nil]
    refine ⟨_, _, hrun, hdesc', rfl, fun e' he' => ?_, rfl, rfl, rfl, rfl⟩
    refine (hlinks e' he').trans (hlink e' ?_)
    simp only [List.mem_append, List.mem_cons] at he' ⊢
    tauto
  · simp only [if_neg hnone, List.append_assoc, List.singleton_append]
    exact ⟨k₁, spare, rfl, hdesc, rfl, hlink, rfl, rfl, rfl, rfl⟩

theorem handle_next_eq_none {nodes : List Node} : (handle nodes).next = none ↔ nodes = [] := by
  constructor
  · intro h
    by_contra hne
    exact handle_next_ne hne h
  · rintro rfl
    rfl

-- A semaphore whose queue has become shorter.
theorem ActiveList.shorten {front back : List Active} {e : Active}
    (h : ActiveList k q (front ++ e :: back) spare) (t : ProcTable) (nodes : List Node) :
    let k₁ := { k with procTable := t }.setSemd e.1 { k.semdTable e.1 with s_link := handle nodes }
    ∃ k' spare',
      (if (handle nodes).next = none then k₁.removeSemaphoreFromActiveList e.1 else k₁) = k' ∧
      ActiveList k' (Function.update q (some e.2) nodes)
        (front ++ (if nodes = [] then [] else [e]) ++ back) spare' ∧
      k'.procTable = t ∧
      k'.toEnv = k.toEnv ∧ k'.procFree_h = k.procFree_h ∧ k'.readyQueue = k.readyQueue := by
  obtain ⟨k', spare', hrun, hdesc, hspare, hlinks, hrest⟩ := h.toDescriptors.visit t (handle nodes)
  simp only [handle_next_eq_none] at hdesc hspare hlinks
  have he : e ∈ front ++ e :: back := by simp
  have hold : ∀ e' ∈ front ++ (if nodes = [] then [] else [e]) ++ back,
      e' ∈ front ++ e :: back := by
    intro e' he'
    split at he' <;> simp only [List.mem_append, List.mem_cons, List.not_mem_nil] at he' ⊢ <;> tauto
  refine ⟨k', spare', hrun, ⟨hdesc, fun d => ?_, fun e' he' => ?_, fun s => ?_⟩, hrest⟩
  · have hd := h.all d
    rw [hspare]
    split <;> simp only [List.append_nil, List.map_append, List.map_cons, List.map_nil,
      List.mem_append, List.mem_cons, List.not_mem_nil] at hd ⊢ <;> tauto
  · rw [hlinks e' he']
    by_cases hee : e' = e
    · simp [hee]
    · have hs' : some e'.2 ≠ some e.2 := fun heq =>
        hee (h.addr_inj (hold e' he') he (Option.some.inj heq))
      rw [if_neg hee, Function.update_of_ne hs']
      exact h.tail e' (hold e' he')
  · have hc := h.complete s
    by_cases hs : s = e.2
    · subst hs
      rw [Function.update_self]
      by_cases hn : nodes = []
      · have hnd := List.Pairwise.imp (fun h => ne_of_lt h) h.sorted
        rw [List.map_append, List.map_cons] at hnd
        have hout := (List.nodup_cons.mp (List.nodup_middle.mp hnd)).1
        simpa [hn] using hout
      · simp [hn]
    · rw [Function.update_of_ne (by simpa using hs), hc]
      split <;> simp [hs]

theorem removeBlocked_spec (h : Queued k free q) (s : Addr) (hclean : CleanHead (q (some s))) :
    ∃ k', k.removeBlocked s = some (k', (q (some s)).head?.map Prod.fst) ∧
      Queued k' free (dequeue q (some s)) ∧ Framed free k k' := by
  obtain ⟨asl, spare, ha⟩ := h.active
  by_cases hs : s ∈ asl.map Prod.snd
  · obtain ⟨e, he, rfl⟩ := List.mem_map.mp hs
    obtain ⟨t, hrun, hlinked, hsame⟩ := removeProc_spec h.linked (some e.2) hclean
    have hsearch := ha.search_mem he
    have htail := ha.tail e he
    have hne := (ha.complete e.2).mpr hs
    obtain ⟨front, back, rfl⟩ := List.append_of_mem he
    obtain ⟨k₁, spare', hk₁, ha', ht, henv, hfree, hready⟩ :=
      ha.shorten t (dequeue q (some e.2) (some e.2))
    obtain ⟨e₀, hhead⟩ : ∃ e₀, (q (some e.2)).head? = some e₀ :=
      ⟨_, List.head?_eq_some_head hne⟩
    have hdeq : Function.update q (some e.2) (dequeue q (some e.2) (some e.2)) =
        dequeue q (some e.2) := by simp [dequeue]
    rw [hdeq] at ha'
    have hv := removeSemaphore_eq (k := k₁) e.2 e₀.1
    let v := withoutSemaphore (k₁.procTable e₀.1).semvec e.2
    obtain ⟨hlv, huv⟩ := semvec_linked hlinked e₀.1 v
    rw [← ht] at hlv huv
    refine ⟨{ k₁ with procTable := k₁.procTable.setSemvec e₀.1 v }, ?_,
      ⟨hlv, ?_, _, spare', ha'.toDescriptors, ha'.all, ha'.tail, ha'.complete⟩, ?_⟩
    · simp only [Kernel.removeBlocked, hsearch, Option.bind_eq_bind, Option.bind_some, htail, hrun,
        hhead, Option.map_some]
      rw [hk₁, hv]
    · simp only [hready, h.ready, dequeue_of_ne (q := q) (show (none : QueueId) ≠ some e.2 by simp)]
    · exact ⟨henv, hfree, hsame.trans (ht ▸ huv)⟩
  · have hq : q (some s) = [] := by
      by_contra hne
      exact hs ((ha.complete s).mp hne)
    have hd : dequeue q (some s) = q := by
      rw [dequeue, hq, List.tail_nil, ← hq, Function.update_eq_self]
    refine ⟨k, by simp [Kernel.removeBlocked, ha.search_absent hs, hq], hd.symm ▸ h,
      Framed.refl free k⟩

-- The queues without a process, and the semaphores raised for it, as far as the
-- addresses in the list go.
def expelFrom (q : QueueId → List Node) (p : ProcId) (S : List Addr) : QueueId → List Node
  | none => q none
  | some s => if s ∈ S then (q (some s)).filter (fun e => e.1 ≠ p) else q (some s)

def raiseFrom (sem : Addr → Int) (q : QueueId → List Node) (p : ProcId) (S : List Addr) :
    Addr → Int :=
  fun s => if s ∈ S ∧ p ∈ (q (some s)).map Prod.fst then toLong (sem s + 1) else sem s

theorem expelFrom_cons {s : Addr} {S : List Addr} (hs : s ∉ S) :
    expelFrom (withdraw q (some s) p) p S = expelFrom q p (s :: S) := by
  funext x
  cases x with
  | none => simp [expelFrom, withdraw]
  | some s' =>
      by_cases heq : s' = s
      · subst heq
        simp [expelFrom, withdraw, hs]
      · simp [expelFrom, withdraw, heq]

theorem raiseFrom_cons {sem : Addr → Int} {s : Addr} {S : List Addr} (hs : s ∉ S) :
    raiseFrom (if p ∈ (q (some s)).map Prod.fst then Function.update sem s (toLong (sem s + 1)) else sem)
      (withdraw q (some s) p) p S = raiseFrom sem q p (s :: S) := by
  funext s'
  by_cases heq : s' = s
  · subst heq
    by_cases hp : p ∈ (q (some s')).map Prod.fst
    · rw [if_pos hp]
      simp [raiseFrom, hs, hp]
    · rw [if_neg hp]
      simp [raiseFrom, hs, hp]
  · have hsem : (if p ∈ (q (some s)).map Prod.fst then Function.update sem s (toLong (sem s + 1)) else sem)
        s' = sem s' := by
      split <;> simp [heq]
    simp only [raiseFrom, hsem, withdraw, List.mem_cons, heq, false_or]
    rw [Function.update_of_ne (by simpa using heq)]

-- One round of the loop of outBlocked.
theorem outBlockedLoop_absent {d : SemdId} {semAddr : Addr} {tp : ProcLink} {t : ProcTable}
    (haddr : (k.semdTable d).s_semAdd = some semAddr)
    (hrun : outProc k.procTable (k.semdTable d).s_link p = some (t, tp, none))
    (fuel : ℕ) (removed : Bool) : Kernel.outBlockedLoop p (fuel + 1) k (some d) removed =
      Kernel.outBlockedLoop p fuel k (k.semdTable d).s_next removed := by
  obtain ⟨-, rfl, rfl⟩ := (outProc_own hrun).resolve_right (by simp)
  have hsame : k.setSemd d { k.semdTable d with s_link := (k.semdTable d).s_link } = k := by
    simp [Kernel.setSemd]
  simp only [haddr] at hsame
  simp only [Kernel.outBlockedLoop, haddr, hrun, Option.bind_eq_bind, Option.bind_some]
  exact congrArg (fun m => Kernel.outBlockedLoop p fuel m _ removed) hsame

theorem outBlockedLoop_present {d : SemdId} {semAddr : Addr} {tp : ProcLink} {t : ProcTable}
    (haddr : (k.semdTable d).s_semAdd = some semAddr)
    (hrun : outProc k.procTable (k.semdTable d).s_link p = some (t, tp, some p))
    (fuel : ℕ) (removed : Bool) : Kernel.outBlockedLoop p (fuel + 1) k (some d) removed =
      let k₁ := { { k with sem := Function.update k.sem semAddr (toLong (k.sem semAddr + 1)) } with
        procTable := t.setSemvec p (withoutSemaphore (t p).semvec semAddr) }.setSemd d
          { k.semdTable d with s_link := tp }
      Kernel.outBlockedLoop p fuel
        (if tp.next = none then k₁.removeSemaphoreFromActiveList d else k₁)
        (k.semdTable d).s_next true := by
  have hv := removeSemaphore_eq (k := ({ k with procTable := t }.setSemd d
    { k.semdTable d with s_link := tp }).setSem semAddr (toLong (k.sem semAddr + 1))) semAddr p
  simp only [haddr] at hv
  simp only [Kernel.outBlockedLoop, haddr, hrun, Option.bind_eq_bind, Option.bind_some,
    Kernel.setSemd_toEnv]
  rw [hv]
  rfl

-- The descriptors whose queue the process is on, and those that stay.
def held (q : QueueId → List Node) (p : ProcId) (asl : List Active) : List Active :=
  asl.filter fun e => p ∈ (q (some e.2)).map Prod.fst

def staying (q : QueueId → List Node) (p : ProcId) (asl : List Active) : List Active :=
  asl.filter fun e => (q (some e.2)).any fun n => n.1 ≠ p

-- What outBlocked has done once the descriptors in `todo` are behind it.
structure Leaves (k k' : Kernel) (free : List ProcId) (q : QueueId → List Node) (p : ProcId)
    (front todo : List Active) (spare : List SemdId) : Prop where
  linked : Linked k'.procTable free (expelFrom q p (todo.map Prod.snd))
  ready : k'.readyQueue = k.readyQueue
  active : ActiveList k' (expelFrom q p (todo.map Prod.snd)) (front ++ staying q p todo) spare
  framed : Framed free { k with sem := raiseFrom k.sem q p (todo.map Prod.snd) } k'
  qcount : ∀ p', (k'.procTable p').qcount =
    if p' = p then (k.procTable p').qcount - (held q p todo).length else (k.procTable p').qcount
  semvec : ∀ p', (k'.procTable p').semvec = if p' = p
    then ((held q p todo).map Prod.snd).foldl withoutSemaphore (k.procTable p).semvec
    else (k.procTable p').semvec

theorem Leaves.nil (hlinked : Linked k.procTable free q) (ha : ActiveList k q asl spare) :
    Leaves k k free q p asl [] spare := by
  have hq : expelFrom q p [] = q := by
    funext x
    cases x <;> simp [expelFrom]
  have hsem : raiseFrom k.sem q p [] = k.sem := by
    funext s
    simp [raiseFrom]
  refine ⟨?_, rfl, ?_, ?_, by simp [held], fun p' => ?_⟩
  · rwa [List.map_nil, hq]
  · rw [List.map_nil, hq]
    simpa [staying] using ha
  · rw [List.map_nil, hsem]
    exact Framed.refl free k
  · by_cases hp : p' = p
    · simp [held, hp]
    · simp [hp]

-- What the loop has done once it is behind one more descriptor.
structure Round (k k₁ : Kernel) (free : List ProcId) (q : QueueId → List Node) (p : ProcId)
    (front : List Active) (e : Active) (todo : List Active) (spare : List SemdId) : Prop where
  fresh : e.2 ∉ todo.map Prod.snd
  linked : Linked k₁.procTable free (withdraw q (some e.2) p)
  active : ActiveList k₁ (withdraw q (some e.2) p)
    (front ++ (if withdraw q (some e.2) p (some e.2) = [] then [] else [e]) ++ todo) spare
  ready : k₁.readyQueue = k.readyQueue
  env : k₁.toEnv = { k.toEnv with sem := (if p ∈ (q (some e.2)).map Prod.fst
    then Function.update k.sem e.2 (toLong (k.sem e.2 + 1)) else k.sem) }
  procFree : k₁.procFree_h = k.procFree_h
  table : Untouched free k.procTable k₁.procTable
  qcount : ∀ p', (k₁.procTable p').qcount = if p' = p ∧ p ∈ (q (some e.2)).map Prod.fst
    then (k.procTable p').qcount - 1 else (k.procTable p').qcount
  semvec : ∀ p', (k₁.procTable p').semvec = if p' = p ∧ p ∈ (q (some e.2)).map Prod.fst
    then withoutSemaphore (k.procTable p').semvec e.2 else (k.procTable p').semvec

theorem Round.rest {k₁ : Kernel} {front todo : List Active} {e : Active}
    (h : Round k k₁ free q p front e todo spare) :
    ∀ e' ∈ todo, withdraw q (some e.2) p (some e'.2) = q (some e'.2) := by
  intro e' he'
  refine withdraw_of_ne fun heq => h.fresh ?_
  exact Option.some.inj heq ▸ List.mem_map_of_mem he'

theorem outBlockedLoop_round {front todo : List Active} {e : Active}
    (hlinked : Linked k.procTable free q) (ha : ActiveList k q (front ++ e :: todo) spare)
    (hone : Once p (q (some e.2))) (hrem : Removable p (q (some e.2))) :
    ∃ k₁ spare₁, (∀ fuel removed, Kernel.outBlockedLoop p (fuel + 1) k (some e.1) removed =
        Kernel.outBlockedLoop p fuel k₁ (todo.map Prod.fst).head?
          (removed || p ∈ (q (some e.2)).map Prod.fst)) ∧
      Round k k₁ free q p front e todo spare₁ := by
  obtain ⟨t, hrun, hlinked', hsame⟩ := outProc_spec hlinked (some e.2) p hone hrem
  have hnext := ha.next_cell
  have haddr := ha.addr e (by simp)
  have htail := ha.tail e (by simp)
  have hfresh : e.2 ∉ todo.map Prod.snd := by
    have hs := ha.sorted
    rw [List.map_append, List.map_cons, List.pairwise_append] at hs
    exact fun hm => lt_irrefl _ ((List.pairwise_cons.mp hs.2.1).1 _ hm)
  have hupd : Function.update q (some e.2) (withdraw q (some e.2) p (some e.2)) =
      withdraw q (some e.2) p := by simp [withdraw]
  by_cases hp : p ∈ (q (some e.2)).map Prod.fst
  · let k₀ := { k with sem := Function.update k.sem e.2 (toLong (k.sem e.2 + 1)) }
    have ha₀ : ActiveList k₀ q (front ++ e :: todo) spare :=
      ⟨ha.toDescriptors, ha.all, ha.tail, ha.complete⟩
    rw [if_pos hp, ← htail] at hrun
    obtain ⟨hlv, huv⟩ := semvec_linked hlinked' p (withoutSemaphore (t p).semvec e.2)
    obtain ⟨k₁, spare₁, hk₁, ha₁, ht, henv, hfree, hready⟩ := ha₀.shorten
      (t.setSemvec p (withoutSemaphore (t p).semvec e.2)) (withdraw q (some e.2) p (some e.2))
    rw [hupd] at ha₁
    refine ⟨k₁, spare₁, fun fuel removed => ?_, hfresh, ht ▸ hlv, ha₁, hready, ?_, hfree,
      ht ▸ hsame.trans huv, fun p' => ?_, fun p' => ?_⟩
    · rw [outBlockedLoop_present haddr hrun]
      dsimp only [k₀] at hk₁ ⊢
      rw [hk₁, hnext]
      simp only [hp, decide_true, Bool.or_true]
    · rw [henv, if_pos hp]
    · have hcount := (outProc_own hrun).resolve_left (by simp)
      rw [ht, ProcTable.qcount_setSemvec, hcount.2.2]
      simp [hp]
    · have hvec := outProc_semvec hrun
      rw [ht, ProcTable.semvec_setSemvec]
      by_cases hpp : p' = p
      · simp [hpp, hp, hvec]
      · simp [hpp, hvec]
  · have hkeep : withdraw q (some e.2) p = q := by
      rw [withdraw, filter_absent hp, Function.update_eq_self]
    have hne : q (some e.2) ≠ [] := (ha.complete e.2).mpr (List.mem_map_of_mem (by simp))
    rw [if_neg hp, ← htail] at hrun
    refine ⟨k, spare, fun fuel removed => ?_, hfresh, ?_, ?_, rfl, ?_, rfl,
      Untouched.refl free _, fun p' => by simp [hp], fun p' => by simp [hp]⟩
    · rw [outBlockedLoop_absent haddr hrun, hnext]
      simp only [hp, decide_false, Bool.or_false]
    · rw [hkeep]
      exact hlinked
    · rw [hkeep, if_neg hne, List.append_assoc, List.singleton_append]
      exact ha
    · rw [if_neg hp]

-- One descriptor behind, and then the others.
theorem Leaves.cons {k₁ : Kernel} {front todo : List Active} {e : Active}
    {spare₁ spare' : List SemdId} (h₁ : Round k k₁ free q p front e todo spare₁)
    (h : Leaves k₁ k' free (withdraw q (some e.2) p) p
      (front ++ if withdraw q (some e.2) p (some e.2) = [] then [] else [e]) todo spare') :
    Leaves k k' free q p front (e :: todo) spare' := by
  have hheld : held (withdraw q (some e.2) p) p todo = held q p todo :=
    List.filter_congr fun e' he' => by rw [h₁.rest e' he']
  have hstay : staying (withdraw q (some e.2) p) p todo = staying q p todo :=
    List.filter_congr fun e' he' => by rw [h₁.rest e' he']
  have hcons : held q p (e :: todo) =
      if p ∈ (q (some e.2)).map Prod.fst then e :: held q p todo else held q p todo := by
    simp only [held, List.filter_cons, decide_eq_true_eq]
  have hempty : withdraw q (some e.2) p (some e.2) = [] ↔
      (q (some e.2)).any (fun n => n.1 ≠ p) = false := by
    rw [withdraw, Function.update_self, List.filter_eq_nil_iff, List.any_eq_false]
  have hexpel := expelFrom_cons (q := q) (p := p) h₁.fresh
  refine ⟨?_, h.ready.trans h₁.ready, ?_, ?_, fun p' => ?_, fun p' => ?_⟩
  · rw [List.map_cons, ← hexpel]
    exact h.linked
  · have hstays : staying q p (e :: todo) =
        (if withdraw q (some e.2) p (some e.2) = [] then [] else [e]) ++ staying q p todo := by
      by_cases hw : withdraw q (some e.2) p (some e.2) = []
      · rw [if_pos hw, staying, List.filter_cons, hempty.mp hw]
        rfl
      · have hany := Bool.eq_true_of_not_eq_false fun hf => hw (hempty.mpr hf)
        rw [if_neg hw, staying, List.filter_cons, hany]
        rfl
    rw [List.map_cons, ← hexpel, hstays, ← List.append_assoc, ← hstay]
    exact h.active
  · rw [List.map_cons, ← raiseFrom_cons h₁.fresh]
    refine ⟨?_, h.framed.procFree.trans h₁.procFree, h₁.table.trans h.framed.table⟩
    rw [h.framed.env, h₁.env]
  · rw [h.qcount, h₁.qcount, hheld, hcons]
    by_cases hp : p' = p
    · by_cases hin : p ∈ (q (some e.2)).map Prod.fst
      · simp only [hp, hin, and_self, if_true, List.length_cons]
        push_cast
        ring
      · simp [hp, hin]
    · simp [hp]
  · rw [h.semvec, h₁.semvec, h₁.semvec, hheld, hcons]
    by_cases hp : p' = p
    · by_cases hin : p ∈ (q (some e.2)).map Prod.fst
      · simp [hp, hin]
      · simp [hp, hin]
    · simp [hp]

theorem outBlockedLoop_spec {front todo : List Active} (fuel : ℕ) (removed : Bool)
    (hlinked : Linked k.procTable free q) (ha : ActiveList k q (front ++ todo) spare)
    (hone : ∀ e ∈ todo, Once p (q (some e.2))) (hrem : ∀ e ∈ todo, Removable p (q (some e.2)))
    (hfuel : todo.length < fuel) :
    ∃ k' spare', Kernel.outBlockedLoop p fuel k (todo.map Prod.fst).head? removed =
        some (k', removed || todo.any fun e => p ∈ (q (some e.2)).map Prod.fst) ∧
      Leaves k k' free q p front todo spare' := by
  induction todo generalizing k q front spare fuel removed with
  | nil =>
      cases fuel with
      | zero => simp at hfuel
      | succ fuel =>
          rw [List.append_nil] at ha
          exact ⟨k, spare, by simp [Kernel.outBlockedLoop], Leaves.nil hlinked ha⟩
  | cons e todo ih =>
      obtain ⟨k₁, spare₁, hround, h₁⟩ := outBlockedLoop_round hlinked ha (hone e (by simp))
        (hrem e (by simp))
      have hany : (todo.any fun e' => p ∈ (withdraw q (some e.2) p (some e'.2)).map Prod.fst) =
          todo.any fun e' => p ∈ (q (some e'.2)).map Prod.fst := by
        rw [Bool.eq_iff_iff, List.any_eq_true, List.any_eq_true]
        exact exists_congr fun e' => and_congr_right fun he' => by rw [h₁.rest e' he']
      cases fuel with
      | zero => simp at hfuel
      | succ fuel =>
          obtain ⟨k', spare', hloop, hleaves⟩ :=
            ih fuel (removed || p ∈ (q (some e.2)).map Prod.fst) h₁.linked h₁.active
              (fun e' he' => by rw [h₁.rest e' he']; exact hone e' (by simp [he']))
              (fun e' he' => by rw [h₁.rest e' he']; exact hrem e' (by simp [he']))
              (by simpa using hfuel)
          refine ⟨k', spare', ?_, hleaves.cons h₁⟩
          rw [List.map_cons, List.head?_cons, hround, hloop, hany, List.any_cons, Bool.or_assoc]

-- outBlocked takes the process out of every semaphore queue and raises those semaphores.
theorem outBlocked_leaves (hlinked : Linked k.procTable free q) (ha : ActiveList k q asl spare)
    (hone : ∀ e ∈ asl, Once p (q (some e.2))) (hrem : ∀ e ∈ asl, Removable p (q (some e.2))) :
    ∃ k' spare', k.outBlocked p = some (k', if held q p asl = [] then none else some p) ∧
      Leaves k k' free q p [] asl spare' := by
  have hfirst : k.semd_h = (asl.map Prod.fst).head? := ha.doubly.1.1
  have hwhole : ActiveList k q ([] ++ asl) spare := ha
  obtain ⟨k', spare', hrun, hleaves⟩ := outBlockedLoop_spec (MAXPROC + 1) false hlinked hwhole
    hone hrem ha.length_lt
  refine ⟨k', spare', ?_, hleaves⟩
  have hany : (asl.any fun e => p ∈ (q (some e.2)).map Prod.fst) = true ↔ held q p asl ≠ [] := by
    rw [held, ne_eq, List.filter_eq_nil_iff, List.any_eq_true]
    push Not
    rfl
  simp only [Kernel.outBlocked, hfirst, hrun, Option.bind_eq_bind, Option.bind_some,
    Bool.false_or, hany]
  by_cases hh : held q p asl = []
  · simp [hh]
  · simp [hh]

theorem ActiveList.mem_of_queued (ha : ActiveList k q asl spare) {s : Addr}
    (hp : p ∈ (q (some s)).map Prod.fst) : s ∈ asl.map Prod.snd :=
  (ha.complete s).mp fun hq => by simp [hq] at hp

theorem ActiveList.expelFrom_eq (ha : ActiveList k q asl spare) (p : ProcId) :
    expelFrom q p (asl.map Prod.snd) = expel q p := by
  funext x
  cases x with
  | none => rfl
  | some s =>
      simp only [expelFrom, expel]
      split
      · rfl
      · next hs => exact (filter_absent fun hp => hs (ha.mem_of_queued hp)).symm

theorem ActiveList.raiseFrom_eq (ha : ActiveList k q asl spare) (sem : Addr → Int) (p : ProcId) :
    raiseFrom sem q p (asl.map Prod.snd) = raise sem q p := by
  funext s
  simp only [raiseFrom, raise]
  by_cases hp : p ∈ (q (some s)).map Prod.fst
  · rw [if_pos hp, if_pos ⟨ha.mem_of_queued hp, hp⟩]
  · rw [if_neg hp, if_neg fun hm => hp hm.2]

theorem ActiveList.held_eq_nil (ha : ActiveList k q asl spare) (p : ProcId) :
    held q p asl = [] ↔ ∀ s, p ∉ (q (some s)).map Prod.fst := by
  rw [held, List.filter_eq_nil_iff]
  constructor
  · intro h s hp
    obtain ⟨e, he, rfl⟩ := List.mem_map.mp (ha.mem_of_queued hp)
    exact h e he (by simpa using hp)
  · intro h e _ hp
    exact h e.2 (by simpa using hp)

theorem outBlocked_spec (h : Queued k free q) (p : ProcId)
    (htake : ∀ s, Once p (q (some s)) ∧ Removable p (q (some s))) :
    ∃ k' out, k.outBlocked p = some (k', out) ∧
      (out = none ↔ ∀ s, p ∉ (q (some s)).map Prod.fst) ∧ Queued k' free (expel q p) ∧
      Framed free { k with sem := raise k.sem q p } k' := by
  obtain ⟨asl, spare, ha⟩ := h.active
  obtain ⟨k', spare', hrun, hl⟩ := outBlocked_leaves (p := p) h.linked ha
    (fun e _ => (htake e.2).1) (fun e _ => (htake e.2).2)
  have hlinked := hl.linked
  have hactive := hl.active
  have hframed := hl.framed
  rw [ha.expelFrom_eq] at hlinked hactive
  rw [ha.raiseFrom_eq] at hframed
  refine ⟨k', _, hrun, ?_, ⟨hlinked, hl.ready.trans h.ready, _, _, hactive⟩, hframed⟩
  rw [← ha.held_eq_nil]
  split <;> simp_all

end Blocked

end Hoca
