import Mathlib.Tactic.IntervalCases
import Toystar.Scheduler.Sched

/-!
# The entry stubs

`syscall_entry`, `reschedule_handler`, `context_switch` and the `prologue` and
`epilogue` macros, as lists of instructions with a small interpreter.  All their
memory accesses are words of eight bytes at multiples of eight from `rsp`, so
memory is a map from addresses to words.

Pushing a list of registers and popping the reverse list restores them, whatever
the handler between did to registers and to memory outside the frame
(`run_save_restore`).  The stubs are instances; `prologue` overwrites `rdi`
before it is pushed and restores that.
-/

namespace Toystar.X86

open Toystar.Scheduler (Context)

/-! ## Instructions -/

/-- The general-purpose registers but `rsp`. -/
inductive Gpr
  | rax | rbx | rcx | rdx | rsi | rdi | rbp
  | r8 | r9 | r10 | r11 | r12 | r13 | r14 | r15
deriving DecidableEq, Repr

/-- Registers and memory of a core. -/
structure Cpu where
  gpr : Gpr → UInt64
  rsp : UInt64
  mem : UInt64 → UInt64

inductive Instr
  | push (r : Gpr)
  | pop (r : Gpr)
  /-- `mov rdi, rsp` -/
  | movRdiRsp
  /-- `mov rsp, rdi` -/
  | movRspRdi
  | cld
  | sti
  /-- `call` of the handler -/
  | call
deriving DecidableEq

/-- One instruction; `handler` is what a call does, up to its return. -/
def Instr.exec (handler : Cpu → Cpu) (s : Cpu) : Instr → Cpu
  | .push r =>
      { s with rsp := s.rsp - 8, mem := Function.update s.mem (s.rsp - 8) (s.gpr r) }
  | .pop r =>
      { s with rsp := s.rsp + 8, gpr := Function.update s.gpr r (s.mem s.rsp) }
  | .movRdiRsp => { s with gpr := Function.update s.gpr .rdi s.rsp }
  | .movRspRdi => { s with rsp := s.gpr .rdi }
  | .cld | .sti => s
  | .call => handler s

def run (handler : Cpu → Cpu) (s : Cpu) (code : List Instr) : Cpu :=
  code.foldl (Instr.exec handler) s

/-! ## The stubs -/

/-- `push r15` down to `push rax`, in every stub. -/
def pushAll : List Instr :=
  [.push .r15, .push .r14, .push .r13, .push .r12, .push .r11, .push .r10, .push .r9,
    .push .r8, .push .rbp, .push .rdi, .push .rsi, .push .rdx, .push .rcx, .push .rbx,
    .push .rax]

/-- `pop rax` up to `pop r15`. -/
def popAll : List Instr :=
  [.pop .rax, .pop .rbx, .pop .rcx, .pop .rdx, .pop .rsi, .pop .rdi, .pop .rbp, .pop .r8,
    .pop .r9, .pop .r10, .pop .r11, .pop .r12, .pop .r13, .pop .r14, .pop .r15]

/-- `syscall_entry` up to the call. -/
def syscallSave : List Instr := [.sti] ++ pushAll ++ [.cld, .movRdiRsp]

/-- `syscall_entry`, up to `iretq`. -/
def syscallEntry : List Instr := syscallSave ++ [.call] ++ popAll

/-- `reschedule_handler` up to the call. -/
def rescheduleSave : List Instr := [.cld] ++ pushAll ++ [.movRdiRsp]

/-- `reschedule_handler`, up to `iretq`. -/
def rescheduleHandler : List Instr := rescheduleSave ++ [.call] ++ popAll

/-- `context_switch`, up to `iretq`. -/
def contextSwitch : List Instr := [.movRspRdi] ++ popAll

/-- The macro `prologue`. -/
def prologue : List Instr := [.movRdiRsp] ++ pushAll ++ [.cld]

/-- The macro `epilogue`, up to `iretq`. -/
def epilogue : List Instr := popAll

/-- `_isr_keyboard`. -/
def isrKeyboard : List Instr := prologue ++ [.call] ++ epilogue

/-! ## Frames -/

/-- The address of word `i` above `a`. -/
def slot (a : UInt64) (i : Nat) : UInt64 := a + UInt64.ofNat (8 * i)

/-- The words at `a` as a `struct context`. -/
def readContext (mem : UInt64 → UInt64) (a : UInt64) : Context :=
  { rax := mem (slot a 0)
    rbx := mem (slot a 1)
    rcx := mem (slot a 2)
    rdx := mem (slot a 3)
    rsi := mem (slot a 4)
    rdi := mem (slot a 5)
    rbp := mem (slot a 6)
    r8 := mem (slot a 7)
    r9 := mem (slot a 8)
    r10 := mem (slot a 9)
    r11 := mem (slot a 10)
    r12 := mem (slot a 11)
    r13 := mem (slot a 12)
    r14 := mem (slot a 13)
    r15 := mem (slot a 14)
    rip := mem (slot a 15)
    cs := mem (slot a 16)
    rflags := mem (slot a 17)
    rsp := mem (slot a 18)
    ss := mem (slot a 19) }

/-- The field of `struct context` for a register. -/
def contextField (ctx : Context) : Gpr → UInt64
  | .rax => ctx.rax
  | .rbx => ctx.rbx
  | .rcx => ctx.rcx
  | .rdx => ctx.rdx
  | .rsi => ctx.rsi
  | .rdi => ctx.rdi
  | .rbp => ctx.rbp
  | .r8 => ctx.r8
  | .r9 => ctx.r9
  | .r10 => ctx.r10
  | .r11 => ctx.r11
  | .r12 => ctx.r12
  | .r13 => ctx.r13
  | .r14 => ctx.r14
  | .r15 => ctx.r15

/-- The handler returns and leaves the saved registers and the processor's frame
of five words as they are. -/
def LeavesFrame (handler : Cpu → Cpu) : Prop :=
  ∀ s, (handler s).rsp = s.rsp ∧
    ∀ i < 20, (handler s).mem (slot s.rsp i) = s.mem (slot s.rsp i)

/-- All registers are those of `s`. -/
def Restored (s s' : Cpu) : Prop := ∀ r, s'.gpr r = s.gpr r

/-! ## Saving and restoring a list of registers -/

theorem slot_zero (a : UInt64) : slot a 0 = a := by
  simp [slot]

theorem slot_succ (a : UInt64) (i : Nat) : slot a (i + 1) = slot (a + 8) i := by
  unfold slot
  rw [show 8 * (i + 1) = 8 + 8 * i by omega, UInt64.ofNat_add, ← UInt64.add_assoc]
  rfl

/-- The words of a frame are apart. -/
theorem slot_ne {a : UInt64} {i j : Nat} (hi : i < 2 ^ 61) (hj : j < 2 ^ 61)
    (hne : i ≠ j) : slot a i ≠ slot a j := by
  intro h
  have hoff : UInt64.ofNat (8 * i) = UInt64.ofNat (8 * j) := by
    exact (UInt64.add_right_inj a).mp h
  have hnat := congrArg UInt64.toNat hoff
  rw [UInt64.toNat_ofNat', UInt64.toNat_ofNat', Nat.mod_eq_of_lt (by omega),
    Nat.mod_eq_of_lt (by omega)] at hnat
  omega

variable {handler : Cpu → Cpu} {s : Cpu}

theorem run_append (code code' : List Instr) :
    run handler s (code ++ code') = run handler (run handler s code) code' :=
  List.foldl_append

/-- After pushing `rs` the frame holds them in reverse, and the words above are
untouched. -/
theorem run_push (rs : List Gpr) :
    (run handler s (rs.map .push)).gpr = s.gpr ∧
    slot (run handler s (rs.map .push)).rsp rs.length = s.rsp ∧
    (∀ i, i + rs.length < 2 ^ 61 → (run handler s (rs.map .push)).mem (slot s.rsp i) =
      s.mem (slot s.rsp i)) ∧
    (rs.length < 2 ^ 61 → ∀ i r, rs.reverse[i]? = some r →
      (run handler s (rs.map .push)).mem
        (slot (run handler s (rs.map .push)).rsp i) = s.gpr r) := by
  induction rs generalizing s with
  | nil => exact ⟨rfl, slot_zero _, fun i _ => rfl, fun _ i r h => by simp at h⟩
  | cons r rs ih =>
      have hrun : run handler s ((r :: rs).map .push) =
          run handler (Instr.exec handler s (.push r)) (rs.map .push) := rfl
      have htop : (Instr.exec handler s (.push r)).rsp + 8 = s.rsp :=
        UInt64.sub_add_cancel s.rsp 8
      have hword : (Instr.exec handler s (.push r)).mem
          (slot (Instr.exec handler s (.push r)).rsp 0) = s.gpr r := by
        rw [slot_zero]
        exact Function.update_self ..
      rcases ih (s := Instr.exec handler s (.push r)) with ⟨hgpr, hrsp, hframe, hsaved⟩
      rw [hrun]
      refine ⟨hgpr, ?_, ?_, ?_⟩
      · -- one word more than the rest has pushed
        rw [List.length_cons, ← htop, ← hrsp, slot_succ]
        unfold slot
        rw [UInt64.add_assoc, UInt64.add_comm 8, ← UInt64.add_assoc]
      · intro i hi
        rw [List.length_cons] at hi
        rw [← htop, ← slot_succ, hframe (i + 1) (by omega)]
        refine Function.update_of_ne ?_ _ _
        rw [← slot_zero (s.rsp - 8)]
        exact slot_ne (by omega) (by omega) (by omega)
      · intro hlen i q hq
        rw [List.length_cons] at hlen
        rw [List.reverse_cons] at hq
        rcases Nat.lt_trichotomy i rs.length with hi | hi | hi
        · rw [List.getElem?_append_left (by simpa using hi)] at hq
          exact hsaved (by omega) i q hq
        · subst hi
          have hqr : r = q := by
            rw [List.getElem?_append_right (by simp)] at hq
            simpa using hq
          rw [hrsp, ← slot_zero (Instr.exec handler s (.push r)).rsp,
            hframe 0 (by omega), hword, hqr]
        · rw [List.getElem?_eq_none (by simp; omega)] at hq
          cases hq

/-- Popping registers reads them from the frame. -/
theorem run_pop (rs : List Gpr) (hnodup : rs.Nodup) :
    (∀ i r, rs[i]? = some r → (run handler s (rs.map .pop)).gpr r =
      s.mem (slot s.rsp i)) ∧
    (∀ r, r ∉ rs → (run handler s (rs.map .pop)).gpr r = s.gpr r) := by
  induction rs generalizing s with
  | nil => exact ⟨fun i r h => by simp at h, fun r _ => rfl⟩
  | cons r rs ih =>
      rw [List.nodup_cons] at hnodup
      have hrun : run handler s ((r :: rs).map .pop) =
          run handler (Instr.exec handler s (.pop r)) (rs.map .pop) := rfl
      rcases ih (s := Instr.exec handler s (.pop r)) hnodup.2 with ⟨hget, hkeep⟩
      rw [hrun]
      constructor
      · intro i q hq
        cases i with
        | zero =>
            have hqr : r = q := by simpa using hq
            subst hqr
            rw [hkeep r hnodup.1, slot_zero]
            exact Function.update_self ..
        | succ i =>
            rw [slot_succ]
            exact hget i q (by simpa using hq)
      · intro q hq
        rw [List.mem_cons, not_or] at hq
        rw [hkeep q hq.2]
        exact Function.update_of_ne hq.1 ..

/-! ## The stubs restore -/

/-- The registers in the order of the pushes. -/
def savedRegs : List Gpr :=
  [.r15, .r14, .r13, .r12, .r11, .r10, .r9, .r8, .rbp, .rdi, .rsi, .rdx, .rcx, .rbx, .rax]

theorem pushAll_eq : pushAll = savedRegs.map .push := rfl

theorem popAll_eq : popAll = savedRegs.reverse.map .pop := rfl

/-- Every register has its word in the frame. -/
theorem exists_index (r : Gpr) : ∃ i < 15, savedRegs.reverse[i]? = some r := by
  cases r <;> decide

theorem savedRegs_nodup : savedRegs.reverse.Nodup := by decide

/-- Popping the registers from a frame that holds those of `s`. -/
theorem restored_of_frame {t : Cpu}
    (hframe : ∀ i r, savedRegs.reverse[i]? = some r → t.mem (slot t.rsp i) = s.gpr r) :
    Restored s (run handler t popAll) := by
  intro r
  rcases exists_index r with ⟨i, _, hi⟩
  rw [popAll_eq, (run_pop savedRegs.reverse savedRegs_nodup).1 i r hi, hframe i r hi]

/-- The frame after the pushes. -/
theorem pushAll_frame (s : Cpu) : ∀ i r, savedRegs.reverse[i]? = some r →
    (run handler s pushAll).mem (slot (run handler s pushAll).rsp i) = s.gpr r := by
  rw [pushAll_eq]
  exact (run_push savedRegs).2.2.2 (by decide)

/-- Pushes, a handler that leaves the frame, and pops. -/
theorem run_save_restore (hh : LeavesFrame handler) {t : Cpu}
    (hrsp : t.rsp = (run handler s pushAll).rsp)
    (hmem : t.mem = (run handler s pushAll).mem) :
    Restored s (run handler (handler t) popAll) := by
  apply restored_of_frame
  intro i r hi
  have hlt : i < 15 := by
    have hsome := (List.getElem?_eq_some_iff.mp hi).1
    simpa [savedRegs] using hsome
  rw [(hh t).1, (hh t).2 i (by omega), hrsp, hmem]
  exact pushAll_frame s i r hi

theorem run_call (t : Cpu) : run handler t [.call] = handler t := rfl

theorem run_movRdiRsp (t : Cpu) :
    run handler t [.movRdiRsp] = { t with gpr := Function.update t.gpr .rdi t.rsp } := rfl

theorem run_cld_movRdiRsp (t : Cpu) : run handler t [.cld, .movRdiRsp] =
    { t with gpr := Function.update t.gpr .rdi t.rsp } := rfl

theorem run_cld (t : Cpu) : run handler t [.cld] = t := rfl

theorem run_sti (t : Cpu) : run handler t [.sti] = t := rfl

theorem syscallEntry_restores (hh : LeavesFrame handler) (s : Cpu) :
    Restored s (run handler s syscallEntry) := by
  unfold syscallEntry syscallSave
  rw [run_append, run_append, run_append, run_append, run_sti, run_call,
    run_cld_movRdiRsp]
  apply run_save_restore hh
  · rfl
  · rfl

theorem rescheduleHandler_restores (hh : LeavesFrame handler) (s : Cpu) :
    Restored s (run handler s rescheduleHandler) := by
  unfold rescheduleHandler rescheduleSave
  rw [run_append, run_append, run_append, run_append, run_cld, run_call, run_movRdiRsp]
  apply run_save_restore hh
  · rfl
  · rfl

/-- The macros restore what `prologue` pushed, where `rdi` is the stack pointer
already. -/
theorem isrKeyboard_restores (hh : LeavesFrame handler) (s : Cpu) :
    Restored { s with gpr := Function.update s.gpr .rdi s.rsp }
      (run handler s isrKeyboard) := by
  unfold isrKeyboard prologue epilogue
  rw [run_append, run_append, run_append, run_append, run_movRdiRsp, run_cld, run_call]
  apply run_save_restore hh
  · rfl
  · rfl

/-! ## Frames as contexts -/

/-- The order of the pushes is the order of the fields of `struct context`. -/
theorem contextField_readContext (mem : UInt64 → UInt64) (a : UInt64) {i : Nat} {r : Gpr}
    (hi : savedRegs.reverse[i]? = some r) :
    contextField (readContext mem a) r = mem (slot a i) := by
  have hlt : i < 15 := by
    have hsome := (List.getElem?_eq_some_iff.mp hi).1
    simpa [savedRegs] using hsome
  have hr : r = savedRegs.reverse.get ⟨i, hlt⟩ := by
    rw [List.getElem?_eq_getElem hlt] at hi
    exact (Option.some.inj hi).symm
  subst hr
  interval_cases i <;> rfl

/-- The frame that a handler gets in `rdi`, read as a `struct context`. -/
theorem contextField_pushAll (s : Cpu) (r : Gpr) :
    contextField (readContext (run handler s pushAll).mem (run handler s pushAll).rsp) r =
      s.gpr r := by
  rcases exists_index r with ⟨i, _, hi⟩
  rw [contextField_readContext _ _ hi]
  exact pushAll_frame s i r hi

/-- `context_switch` loads the registers of the `struct context` it is given. -/
theorem contextSwitch_loads (t : Cpu) (r : Gpr) :
    (run handler t contextSwitch).gpr r =
      contextField (readContext t.mem (t.gpr .rdi)) r := by
  have hmov : run handler t [.movRspRdi] = { t with rsp := t.gpr .rdi } := rfl
  rcases exists_index r with ⟨i, _, hi⟩
  rw [contextField_readContext _ _ hi, contextSwitch, run_append, hmov, popAll_eq]
  exact (run_pop savedRegs.reverse savedRegs_nodup).1 i r hi

/-! ## All stubs -/

/-- The pointer to the frame and the frame itself, as a handler gets them. -/
def passedContext (s : Cpu) : Context := readContext s.mem (s.gpr .rdi)

theorem syscallSave_context (s : Cpu) (r : Gpr) :
    contextField (passedContext (run handler s syscallSave)) r = s.gpr r := by
  unfold syscallSave passedContext
  rw [run_append, run_append, run_sti, run_cld_movRdiRsp]
  simp only [Function.update_self]
  exact contextField_pushAll s r

theorem rescheduleSave_context (s : Cpu) (r : Gpr) :
    contextField (passedContext (run handler s rescheduleSave)) r = s.gpr r := by
  unfold rescheduleSave passedContext
  rw [run_append, run_append, run_cld, run_movRdiRsp]
  simp only [Function.update_self]
  exact contextField_pushAll s r

/-- Every stub gives the interrupted code its registers back, and the frames read
as `struct context` have its order, exactly when `rdi` was the address at which
the keyboard's handler starts: that is what `prologue` leaves of `rdi`. -/
theorem stubs_restore_iff (hh : LeavesFrame handler) (s : Cpu) :
    (Restored s (run handler s syscallEntry) ∧
      Restored s (run handler s rescheduleHandler) ∧
      (∀ t : Cpu, passedContext t = passedContext (run handler s rescheduleSave) →
        Restored s (run handler t contextSwitch)) ∧
      Restored s (run handler s isrKeyboard) ∧
      (∀ r, contextField (passedContext (run handler s syscallSave)) r = s.gpr r) ∧
      ∀ r, contextField (passedContext (run handler s rescheduleSave)) r = s.gpr r) ↔
    s.gpr .rdi = s.rsp := by
  have hkeyboard := isrKeyboard_restores hh s
  constructor
  · intro hall
    have hrdi := hkeyboard .rdi
    rw [hall.2.2.2.1 .rdi] at hrdi
    simpa using hrdi
  · intro hrdi
    refine ⟨syscallEntry_restores hh s, rescheduleHandler_restores hh s, ?_, ?_,
      syscallSave_context s, rescheduleSave_context s⟩
    · intro t ht r
      rw [contextSwitch_loads t r]
      show contextField (passedContext t) r = s.gpr r
      rw [ht, rescheduleSave_context]
    · intro r
      rw [hkeyboard r, ← hrdi]
      exact congrFun (Function.update_eq_self ..) r

/-- A core whose `rdi` is the stack pointer, and a handler that returns at once. -/
theorem stubs_restore_iff_same :
    (Restored ⟨fun _ => 0x2000, 0x2000, fun _ => 0⟩
        (run id ⟨fun _ => 0x2000, 0x2000, fun _ => 0⟩ syscallEntry) ∧
      Restored ⟨fun _ => 0x2000, 0x2000, fun _ => 0⟩
        (run id ⟨fun _ => 0x2000, 0x2000, fun _ => 0⟩ isrKeyboard)) := by
  have h := (stubs_restore_iff (fun s => ⟨rfl, fun _ _ => rfl⟩ : LeavesFrame id)
    ⟨fun _ => 0x2000, 0x2000, fun _ => 0⟩).mpr rfl
  exact ⟨h.1, h.2.2.2.1⟩

/-- The keyboard interrupts code whose `rdi` is 1; it goes on with the address of
its frame. -/
theorem keyboard_clobbers_rdi :
    LeavesFrame id ∧
    (run id ⟨fun _ => 1, 0x2000, fun _ => 0⟩ isrKeyboard).gpr .rdi = 0x2000 := by
  have hid : LeavesFrame id := fun s => ⟨rfl, fun _ _ => rfl⟩
  refine ⟨hid, ?_⟩
  rw [isrKeyboard_restores hid ⟨fun _ => 1, 0x2000, fun _ => 0⟩ .rdi]
  rfl

end Toystar.X86
