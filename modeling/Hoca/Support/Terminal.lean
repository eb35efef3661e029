import Hoca.Support.Isolation

namespace Hoca.Support

abbrev BEGINDEVREG : ℕ := 0x1400

abbrev IOWRITE : BitVec 32 := 1

abbrev NORMAL : BitVec 32 := 0

abbrev ENDOFINPUT : BitVec 32 := 7

-- Physical memory.
abbrev Bytes : Type := ℕ → BitVec 8

namespace Bytes

variable {m : Bytes} {a b : ℕ} {w : BitVec 32}

def set (m : Bytes) (a : ℕ) (c : BitVec 8) : Bytes := fun b => if b = a then c else m b

-- The high byte comes first.
def word (m : Bytes) (a : ℕ) : BitVec 32 := m a ++ m (a + 1) ++ m (a + 2) ++ m (a + 3)

def setWord (m : Bytes) (a : ℕ) (w : BitVec 32) : Bytes :=
  (((m.set a (w.extractLsb' 24 8)).set (a + 1) (w.extractLsb' 16 8)).set (a + 2)
    (w.extractLsb' 8 8)).set (a + 3) (w.extractLsb' 0 8)

@[simp]
theorem set_self {c : BitVec 8} : m.set a c a = c := if_pos rfl

theorem set_of_ne {c : BitVec 8} (h : b ≠ a) : m.set a c b = m b := if_neg h

theorem setWord_of_outside (h : b < a ∨ a + 4 ≤ b) : m.setWord a w b = m b := by
  unfold setWord
  rw [set_of_ne (by omega), set_of_ne (by omega), set_of_ne (by omega), set_of_ne (by omega)]

theorem word_congr {m' : Bytes} (h : ∀ b, a ≤ b → b < a + 4 → m b = m' b) :
    m.word a = m'.word a := by
  unfold word
  rw [h a (by omega) (by omega), h (a + 1) (by omega) (by omega), h (a + 2) (by omega) (by omega),
    h (a + 3) (by omega) (by omega)]

theorem word_setWord : (m.setWord a w).word a = w := by
  have h0 : m.setWord a w a = w.extractLsb' 24 8 := by
    unfold setWord
    rw [set_of_ne (by omega), set_of_ne (by omega), set_of_ne (by omega), set_self]
  have h1 : m.setWord a w (a + 1) = w.extractLsb' 16 8 := by
    unfold setWord
    rw [set_of_ne (by omega), set_of_ne (by omega), set_self]
  have h2 : m.setWord a w (a + 2) = w.extractLsb' 8 8 := by
    unfold setWord
    rw [set_of_ne (by omega), set_self]
  have h3 : m.setWord a w (a + 3) = w.extractLsb' 0 8 := set_self
  have high : w.extractLsb' 24 8 ++ w.extractLsb' 16 8 = w.extractLsb' 16 16 :=
    BitVec.extractLsb'_append_extractLsb'_eq_extractLsb' rfl
  have most : w.extractLsb' 16 16 ++ w.extractLsb' 8 8 = w.extractLsb' 8 24 :=
    BitVec.extractLsb'_append_extractLsb'_eq_extractLsb' rfl
  have all : w.extractLsb' 8 24 ++ w.extractLsb' 0 8 = w.extractLsb' 0 32 :=
    BitVec.extractLsb'_append_extractLsb'_eq_extractLsb' rfl
  unfold word
  rw [h0, h1, h2, h3, high, most]
  exact all.trans BitVec.extractLsb'_eq_self

end Bytes

-- The sizes of the records, and where the fields of runnable_process_t lie in it.
abbrev sizeof_pd_t : ℕ := 4

abbrev sizeof_sd_t : ℕ := 8

abbrev sizeof_state_t : ℕ := 17 * 4 + 2 + 2 + 4

abbrev sizeof_devreg_t : ℕ := 16

namespace RunnableProcess

abbrev user_mode_sd_table : ℕ := 0

abbrev kernel_mode_sd_table : ℕ := user_mode_sd_table + 32 * sizeof_sd_t

abbrev user_mode_pd_table : ℕ := kernel_mode_sd_table + 32 * sizeof_sd_t

abbrev kernel_mode_pd_table : ℕ := user_mode_pd_table + 32 * sizeof_pd_t

abbrev SUPPORT_SYS_TRAP_OLD_STATE : ℕ := kernel_mode_pd_table + KERNEL_PAGES * sizeof_pd_t

abbrev SUPPORT_SYS_TRAP_NEW_STATE : ℕ := SUPPORT_SYS_TRAP_OLD_STATE + sizeof_state_t

abbrev SUPPORT_PROG_TRAP_OLD_STATE : ℕ := SUPPORT_SYS_TRAP_NEW_STATE + sizeof_state_t

abbrev SUPPORT_PROG_TRAP_NEW_STATE : ℕ := SUPPORT_PROG_TRAP_OLD_STATE + sizeof_state_t

abbrev SUPPORT_MM_TRAP_OLD_STATE : ℕ := SUPPORT_PROG_TRAP_NEW_STATE + sizeof_state_t

abbrev SUPPORT_MM_TRAP_NEW_STATE : ℕ := SUPPORT_MM_TRAP_OLD_STATE + sizeof_state_t

abbrev io_buffer : ℕ := SUPPORT_MM_TRAP_NEW_STATE + sizeof_state_t

abbrev size : ℕ := io_buffer + 512

end RunnableProcess

-- Where the linker puts the table: among the variables of the support level, and
-- these lie above the device registers.
structure Image extends Linker where
  terminal_processes : ℕ
  table_begin : startb1 ≤ terminal_processes
  table_end : terminal_processes + MAXTPROC * RunnableProcess.size ≤ end_
  registers : BEGINDEVREG + PAGESIZE ≤ terminal_processes

namespace Image

variable (p : Image) (i : Term)

def process : ℕ := p.terminal_processes + i * RunnableProcess.size

-- The registers in the old state of the last SYS.
def s_r (n : ℕ) : ℕ := p.process i + RunnableProcess.SUPPORT_SYS_TRAP_OLD_STATE + 4 * n

def io_buffer : ℕ := p.process i + RunnableProcess.io_buffer

def terminal : ℕ := BEGINDEVREG + i * sizeof_devreg_t

-- Segment 0 maps the page to itself where it is present. A miss there ends the
-- T-process.
def Mapped (g : Frames) (a : ℕ) : Prop :=
  ∃ h : a / PAGESIZE < KERNEL_PAGES, (Memory.kernelPage p.toLinker g i ⟨a / PAGESIZE, h⟩).pd_p = true

instance (g : Frames) (a : ℕ) : Decidable (p.Mapped i g a) :=
  inferInstanceAs (Decidable (∃ _, _))

-- The rest of the copy loop. The memory is final where a miss ends the T-process.
def copy (g : Frames) (load : Bytes → BitVec 32 → Option (BitVec 8)) (virtualAddr : BitVec 32) :
    ℕ → ℕ → Bytes → Except Bytes Bytes
  | 0, _, m => .ok m
  | n + 1, j, m =>
      match load m (virtualAddr + BitVec.ofNat 32 j) with
      | none => .error m
      | some c =>
          if p.Mapped i g (p.io_buffer i + j) then
            copy g load virtualAddr n (j + 1) (m.set (p.io_buffer i + j) c)
          else .error m

-- load is what the processor finds in the virtual memory of the T-process, if
-- slmmhandler does not end it there. wait is what the others do until SYS8 returns.
def writetoterminal (g : Frames) (load : Bytes → BitVec 32 → Option (BitVec 8))
    (wait : Bytes → Bytes) (m : Bytes) : Except Bytes Bytes :=
  let virtualAddr := m.word (p.s_r i 3)
  let length := m.word (p.s_r i 4)
  (copy p i g load virtualAddr length.toInt.toNat 0 m).map fun m =>
    let terminal := terminal i
    let m := m.setWord (terminal + 4) length
    let m := m.setWord (terminal + 8) (BitVec.ofNat 32 (p.io_buffer i))
    let m := m.setWord terminal IOWRITE
    let m := wait m
    let terminalStatus := m.word (terminal + 12)
    let expectedLength := m.word (terminal + 4)
    m.setWord (p.s_r i 2)
      (if terminalStatus = NORMAL then
        if expectedLength = 0 then -ENDOFINPUT else expectedLength
      else -terminalStatus)

-- The memory that SYS10 is to write.
def Own (a : ℕ) : Prop :=
  p.io_buffer i ≤ a ∧ a < p.io_buffer i + 512 ∨ p.s_r i 2 ≤ a ∧ a < p.s_r i 2 + 4 ∨
    terminal i ≤ a ∧ a < terminal i + sizeof_devreg_t

end Image

def left : Except Bytes Bytes → Bytes
  | .ok m => m
  | .error m => m

namespace Image

variable {p : Image} {i : Term} {g : Frames} {load : Bytes → BitVec 32 → Option (BitVec 8)}
  {wait : Bytes → Bytes} {virtualAddr : BitVec 32} {m m' : Bytes} {n n' j a : ℕ}

-- The loop writes a stretch of memory from the buffer on.
theorem copy_outside (h : a < p.io_buffer i + j ∨ p.io_buffer i + j + n ≤ a) :
    left (copy p i g load virtualAddr n j m) a = m a := by
  induction n generalizing j m with
  | zero => rfl
  | succ n ih =>
      rw [copy]
      split
      · rfl
      · next c hc =>
        split
        · rw [ih (by omega), Bytes.set_of_ne (by omega)]
        · rfl

theorem writetoterminal_outside (hwait : ∀ m a, ¬ p.Own i a → wait m a = m a)
    (ha : ¬ p.Own i a) : left (writetoterminal p i g load wait m) a =
      left (copy p i g load (m.word (p.s_r i 3)) (m.word (p.s_r i 4)).toInt.toNat 0 m) a := by
  unfold writetoterminal
  dsimp only
  cases hc : copy p i g load (m.word (p.s_r i 3)) (m.word (p.s_r i 4)).toInt.toNat 0 m with
  | error m' => rfl
  | ok m' =>
      have hregister : a < p.s_r i 2 ∨ p.s_r i 2 + 4 ≤ a := by
        unfold Own at ha
        omega
      have hterminal : a < terminal i ∨ terminal i + 16 ≤ a := by
        unfold Own at ha
        simp only [sizeof_devreg_t] at ha
        omega
      show Bytes.setWord _ _ _ a = m' a
      rw [Bytes.setWord_of_outside hregister, hwait _ _ ha, Bytes.setWord_of_outside (by omega),
        Bytes.setWord_of_outside (by omega), Bytes.setWord_of_outside (by omega)]

theorem writetoterminal_confined (hlength : (m.word (p.s_r i 4)).toInt ≤ 512)
    (hwait : ∀ m a, ¬ p.Own i a → wait m a = m a) (ha : ¬ p.Own i a) :
    left (writetoterminal p i g load wait m) a = m a := by
  rw [writetoterminal_outside hwait ha]
  apply copy_outside
  unfold Own at ha
  omega

-- A byte that the loop gets to.
theorem copy_reaches {c : BitVec 8} {k : ℕ} (hj : j ≤ k) (hk : k < j + n)
    (hload : ∀ b m, b ≤ k → load m (virtualAddr + BitVec.ofNat 32 b) = some c)
    (hmapped : ∀ b, b ≤ k → p.Mapped i g (p.io_buffer i + b)) :
    left (copy p i g load virtualAddr n j m) (p.io_buffer i + k) = c := by
  induction n generalizing j m with
  | zero => omega
  | succ n ih =>
      rw [copy, hload j m hj]
      dsimp only
      rw [if_pos (hmapped j hj)]
      by_cases heq : j = k
      · subst heq
        rw [copy_outside (by omega)]
        exact Bytes.set_self
      · exact ih (by omega) (by omega)

theorem io_buffer_eq : p.io_buffer i = p.terminal_processes + i * 2632 + 2120 := rfl

theorem s_r_eq : p.s_r i n = p.terminal_processes + i * 2632 + 1664 + 4 * n := rfl

theorem buffer_end (p : Image) (i : Term) :
    p.startb1 ≤ p.io_buffer i ∧ p.io_buffer i + 512 ≤ p.end_ := by
  have hbegin := p.table_begin
  have hend : p.terminal_processes + 2 * 2632 ≤ p.end_ := p.table_end
  have hi : i.val < 2 := i.isLt
  rw [io_buffer_eq]
  omega

theorem mapped_bss (hg : pageinit p.toLinker = some g) (hbegin : p.startb1 ≤ a)
    (hend : a ≤ p.end_) : p.Mapped i g a := by
  obtain ⟨hmax, -⟩ : p.end_ / PAGESIZE ≤ 220 ∧ True := by
    unfold pageinit at hg
    dsimp only at hg
    split at hg
    · cases hg
    · exact ⟨by omega, trivial⟩
  have hlow : p.startb1 / PAGESIZE ≤ a / PAGESIZE := Nat.div_le_div_right hbegin
  have hhigh : a / PAGESIZE ≤ p.end_ / PAGESIZE := Nat.div_le_div_right hend
  refine ⟨by simp only [KERNEL_PAGES]; omega, ?_⟩
  simp only [Memory.kernelPage, hlow, hhigh, and_self, if_true]
  split_ifs
  all_goals rfl

-- The byte after the buffer is not the T-process's to write.
theorem not_own_past (p : Image) (i : Term) : ¬ p.Own i (p.io_buffer i + 512) := by
  have hregisters : 0x1400 + 512 ≤ p.terminal_processes := p.registers
  have hi : i.val < 2 := i.isLt
  unfold Own
  rw [s_r_eq, io_buffer_eq]
  simp only [terminal, BEGINDEVREG, sizeof_devreg_t]
  omega

-- A call for a line that fills the last two pages of segment 1.
def lineAddr : BitVec 32 := 0x83c00

def line (_ : Bytes) (virtualAddr : BitVec 32) : Option (BitVec 8) :=
  if lineAddr ≤ virtualAddr ∧ virtualAddr < 0x84000 then some 1 else none

def call (p : Image) (i : Term) (length : BitVec 32) : Bytes :=
  (Bytes.setWord (fun _ => 0) (p.s_r i 3) lineAddr).setWord (p.s_r i 4) length

theorem line_eq {b : ℕ} (hb : b ≤ 512) (m : Bytes) :
    line m (lineAddr + BitVec.ofNat 32 b) = some 1 := by
  have hnat : (lineAddr + BitVec.ofNat 32 b).toNat = 0x83c00 + b := by
    rw [BitVec.toNat_add, BitVec.toNat_ofNat]
    show (0x83c00 + b % 2 ^ 32) % 2 ^ 32 = _
    omega
  apply if_pos
  rw [BitVec.le_def, BitVec.lt_def, hnat]
  constructor
  · show 0x83c00 ≤ _
    omega
  · show _ < 0x84000
    omega

theorem call_addr (length : BitVec 32) : (call p i length).word (p.s_r i 3) = lineAddr := by
  have hcongr : (call p i length).word (p.s_r i 3) =
      (Bytes.setWord (fun _ => 0) (p.s_r i 3) lineAddr).word (p.s_r i 3) := by
    apply Bytes.word_congr
    intro b hb hb'
    apply Bytes.setWord_of_outside
    rw [s_r_eq] at hb hb' ⊢
    omega
  exact hcongr.trans Bytes.word_setWord

theorem writetoterminal_overflows (hg : pageinit p.toLinker = some g) {length : BitVec 32}
    (hlength : 512 < length.toInt) : left (writetoterminal p i g line id (call p i length))
      (p.io_buffer i + 512) ≠ call p i length (p.io_buffer i + 512) := by
  have hnew : left (writetoterminal p i g line id (call p i length)) (p.io_buffer i + 512) = 1 := by
    have houtside : ∀ m, left (writetoterminal p i g line id m) (p.io_buffer i + 512) =
        left (copy p i g line (m.word (p.s_r i 3)) (m.word (p.s_r i 4)).toInt.toNat 0 m)
          (p.io_buffer i + 512) :=
      fun _ => writetoterminal_outside (fun _ _ _ => rfl) (not_own_past p i)
    rw [houtside, call_addr]
    have hword : (call p i length).word (p.s_r i 4) = length := Bytes.word_setWord
    rw [hword]
    apply copy_reaches (Nat.zero_le _) (by omega)
    · exact fun b m hb => line_eq hb m
    · intro b hb
      have hbuffer := buffer_end p i
      apply mapped_bss hg
      · omega
      · omega
  have hold : call p i length (p.io_buffer i + 512) = 0 := by
    unfold call
    rw [Bytes.setWord_of_outside, Bytes.setWord_of_outside]
    · rw [s_r_eq, io_buffer_eq]
      omega
    · rw [s_r_eq, io_buffer_eq]
      omega
  rw [hnew, hold]
  decide

-- SYS10 writes only its own memory just when the line fits in the buffer.
theorem writetoterminal_own_iff (hg : pageinit p.toLinker = some g) (i : Term)
    (length : BitVec 32) :
    (∀ load wait m, m.word (p.s_r i 4) = length → (∀ m a, ¬ p.Own i a → wait m a = m a) →
      ∀ a, ¬ p.Own i a → left (writetoterminal p i g load wait m) a = m a) ↔
    length.toInt ≤ 512 := by
  constructor
  · intro hall
    by_contra hlong
    apply writetoterminal_overflows (i := i) hg (Int.not_le.mp hlong)
    exact hall line id (call p i length) Bytes.word_setWord (fun _ _ _ => rfl) _ (not_own_past p i)
  · intro hshort load wait m hm hwait a ha
    rw [← hm] at hshort
    exact writetoterminal_confined hshort hwait ha

def image : Image where
  startt1 := 0x3000
  etext := 0x4800
  startd1 := 0x4800
  edata := 0x5000
  startb1 := 0x5000
  end_ := 0x6a00
  text := Memory.small.text
  text_data := Memory.small.text_data
  data := Memory.small.data
  data_bss := Memory.small.data_bss
  bss := Memory.small.bss
  terminal_processes := 0x5010
  table_begin := by decide
  table_end := by decide
  registers := by decide

theorem writetoterminal_own_sample : ∃ g, pageinit image.toLinker = some g ∧
    ∀ m, m.word (image.s_r 1 4) = 512 → ∀ a, ¬ image.Own 1 a →
      left (writetoterminal image 1 g line id m) a = m a := by
  obtain ⟨g, hg⟩ := Option.isSome_iff_exists.mp (by decide : (pageinit image.toLinker).isSome = true)
  have hown := (writetoterminal_own_iff hg 1 512).mpr (by decide)
  exact ⟨g, hg, fun m hm => hown line id m hm fun _ _ _ => rfl⟩

-- A line of 513 bytes of T-process 0 ends in the segment table of T-process 1.
theorem table_overwritten : ∃ g, pageinit image.toLinker = some g ∧
    left (writetoterminal image 0 g line id (call image 0 513))
        (image.process 1 + RunnableProcess.user_mode_sd_table) ≠
      call image 0 513 (image.process 1 + RunnableProcess.user_mode_sd_table) := by
  obtain ⟨g, hg⟩ := Option.isSome_iff_exists.mp (by decide : (pageinit image.toLinker).isSome = true)
  exact ⟨g, hg, writetoterminal_overflows hg (by decide)⟩

end Image

end Hoca.Support
