import Mathlib.Logic.Function.Basic

/-!
# A fragment of the x86-64 instruction set

Registers, the six segment registers, the flags, one stack and a read-only view of data memory, with the instructions that
straight-line save and restore code is made of. The stack is the list of quadwords from `rsp` upward: `push` conses, `pop`
takes the head. A block is a list of instructions and `run` executes it in order.
-/

namespace X86

open List Function

/-- A 64-bit machine word. -/
abbrev Word := BitVec 64

/-- A segment selector. -/
abbrev Selector := BitVec 16

/-- The general registers. -/
inductive Reg where
  | rax | rbx | rcx | rdx | rdi | rsi | rbp | rsp
  | r8 | r9 | r10 | r11 | r12 | r13 | r14 | r15
deriving DecidableEq, Repr

/-- The segment registers. -/
inductive Seg where
  | cs | ss | ds | es | fs | gs
deriving DecidableEq, Repr

/-- The state of one processor: what an instruction reads and writes. -/
structure Cpu where
  reg : Reg → Word
  seg : Seg → Selector
  rip : Word
  rflags : Word
  /-- The quadwords of the stack, from `rsp` upward. -/
  stack : List Word
  /-- The quadword at a data address. -/
  mem : Word → Word

/-- The interrupt flag of `rflags`. -/
def flagIF : Word := 0x200

/-- The instructions of the fragment. -/
inductive Instr where
  /-- `cld`: the direction flag is not read by any instruction of the fragment. -/
  | cld
  | cli
  | sti
  | push (r : Reg)
  | pop (r : Reg)
  /-- `push qword imm`. -/
  | pushImm (v : Word)
  /-- `push qword [r + off]`. -/
  | pushMem (r : Reg) (off : Word)
  /-- `mov d, s`. -/
  | mov (d s : Reg)
  /-- `mov d16, imm16`: the upper bits of the register stay. -/
  | movImm16 (d : Reg) (v : Selector)
  /-- `mov d, [r + off]`. -/
  | load (d r : Reg) (off : Word)
  /-- `mov d16, [r + off]`: the upper bits of the register stay. -/
  | load16 (d r : Reg) (off : Word)
  /-- `mov d16, s`, `s` a segment register: the upper bits of the register stay. -/
  | movFromSeg (d : Reg) (s : Seg)
  /-- `mov s, r16`. -/
  | movToSeg (s : Seg) (r : Reg)
  /-- `xor r, r`. -/
  | zero (r : Reg)
  /-- `or r, imm`. -/
  | orImm (r : Reg) (v : Word)
  /-- `add rsp, 8 * n`. -/
  | dropStack (n : Nat)
  | iretq
deriving DecidableEq, Repr

namespace Cpu

/-- Write a general register. -/
def setReg (c : Cpu) (r : Reg) (v : Word) : Cpu := { c with reg := update c.reg r v }

/-- Write a segment register. -/
def setSeg (c : Cpu) (s : Seg) (v : Selector) : Cpu := { c with seg := update c.seg s v }

/-- Replace the low 16 bits of a register and keep the others. -/
def setReg16 (c : Cpu) (r : Reg) (v : Selector) : Cpu :=
  c.setReg r ((c.reg r &&& 0xFFFFFFFFFFFF0000#64) ||| v.zeroExtend 64)

/-- Push a quadword: `rsp` goes down by eight. -/
def pushWord (c : Cpu) (v : Word) : Cpu :=
  { c.setReg .rsp (c.reg .rsp - 8) with stack := v :: c.stack }

/-- Take the top quadword off: `rsp` goes up by eight. -/
def popWord (c : Cpu) : Word × Cpu :=
  (c.stack.headD 0, { c.setReg .rsp (c.reg .rsp + 8) with stack := c.stack.tail })

end Cpu

/-- One instruction. -/
def Instr.exec : Instr → Cpu → Cpu
  | .cld, c => c
  | .cli, c => { c with rflags := c.rflags &&& ~~~flagIF }
  | .sti, c => { c with rflags := c.rflags ||| flagIF }
  | .push r, c => c.pushWord (c.reg r)
  | .pop r, c => c.popWord.2.setReg r c.popWord.1
  | .pushImm v, c => c.pushWord v
  | .pushMem r off, c => c.pushWord (c.mem (c.reg r + off))
  | .mov d s, c => c.setReg d (c.reg s)
  | .movImm16 d v, c => c.setReg16 d v
  | .load d r off, c => c.setReg d (c.mem (c.reg r + off))
  | .load16 d r off, c => c.setReg16 d ((c.mem (c.reg r + off)).setWidth 16)
  | .movFromSeg d s, c => c.setReg16 d (c.seg s)
  | .movToSeg s r, c => c.setSeg s ((c.reg r).setWidth 16)
  | .zero r, c => c.setReg r 0
  | .orImm r v, c => c.setReg r (c.reg r ||| v)
  | .dropStack n, c => { c.setReg .rsp (c.reg .rsp + 8 * n) with stack := c.stack.drop n }
  | .iretq, c =>
    -- the frame is rip, cs, rflags, rsp, ss from the top of the stack
    { c with
      rip := c.stack.getD 0 0
      rflags := c.stack.getD 2 0
      reg := update c.reg .rsp (c.stack.getD 3 0)
      seg := update (update c.seg .cs ((c.stack.getD 1 0).setWidth 16)) .ss
        ((c.stack.getD 4 0).setWidth 16)
      stack := c.stack.drop 5 }

/-- A block of instructions, executed in order. -/
def run (is : List Instr) (c : Cpu) : Cpu := is.foldl (fun c i => i.exec c) c

@[simp] theorem run_nil (c : Cpu) : run [] c = c := rfl

@[simp] theorem run_cons (i : Instr) (is : List Instr) (c : Cpu) : run (i :: is) c = run is (i.exec c) := rfl

theorem run_append (is js : List Instr) (c : Cpu) : run (is ++ js) c = run js (run is c) := by
  simp [run, foldl_append]

/-! ## Saving and restoring registers -/

/-- A run of pushes leaves the values of the registers, the last one pushed on top, and changes no register but `rsp`. -/
theorem run_pushes (rs : List Reg) (hrs : .rsp ∉ rs) (c : Cpu) : (run (rs.map .push) c).stack = (rs.map c.reg).reverse ++ c.stack ∧
      (∀ r, r ≠ .rsp → (run (rs.map .push) c).reg r = c.reg r) ∧
      (run (rs.map .push) c).seg = c.seg := by
  induction rs generalizing c with
  | nil => simp
  | cons q rs ih =>
    have hrs' : .rsp ∉ rs := fun h => hrs (.tail q h)
    obtain ⟨hst, hreg, hseg⟩ := ih hrs' (c.pushWord (c.reg q))
    have hkeep : ∀ r, r ≠ .rsp → (c.pushWord (c.reg q)).reg r = c.reg r := by
      intro r hr
      simp [Cpu.pushWord, Cpu.setReg, update_of_ne hr]
    have hmap := map_congr_left fun r hr => hkeep r fun h => hrs' (h ▸ hr)
    simp only [map_cons, run_cons, Instr.exec]
    refine ⟨?_, fun r hr => (hreg r hr).trans (hkeep r hr), hseg⟩
    rw [hst, hmap]
    simp [Cpu.pushWord]

/-- What a run of pops leaves in a register: the last value popped into it, or its old value. -/
def lastPopped : List Reg → List Word → Reg → Word → Word
  | q :: rs, v :: vs, r, old => lastPopped rs vs r (if r = q then v else old)
  | _, _, _, old => old

/-- A run of pops takes as many quadwords off the stack, each into its register. -/
theorem run_pops (rs : List Reg) (hrs : .rsp ∉ rs) (vs rest : List Word) (hlen : vs.length = rs.length) (c : Cpu)
    (hst : c.stack = vs ++ rest) :
    (run (rs.map .pop) c).stack = rest ∧ (∀ r, r ≠ .rsp → (run (rs.map .pop) c).reg r = lastPopped rs vs r (c.reg r)) ∧
      (run (rs.map .pop) c).seg = c.seg := by
  induction rs generalizing vs c with
  | nil =>
    have hvs : vs = [] := length_eq_zero_iff.mp hlen
    subst hvs
    exact ⟨hst, fun _ _ => rfl, rfl⟩
  | cons q rs ih =>
    obtain _ | ⟨v, vs⟩ := vs
    · simp at hlen
    have hrs' : .rsp ∉ rs := fun h => hrs (.tail q h)
    have hst' : (Instr.exec (.pop q) c).stack = vs ++ rest := by
      simp [Instr.exec, Cpu.popWord, Cpu.setReg, hst]
    obtain ⟨h1, h2, h3⟩ := ih hrs' vs (by simpa using hlen) (Instr.exec (.pop q) c) hst'
    simp only [map_cons, run_cons]
    refine ⟨h1, fun r hr => ?_, h3⟩
    have hone : (Instr.exec (.pop q) c).reg r = if r = q then v else c.reg r := by
      by_cases hrq : r = q
      · subst hrq
        simp [Instr.exec, Cpu.popWord, Cpu.setReg, hst]
      · simp [Instr.exec, Cpu.popWord, Cpu.setReg, update_of_ne hr, hrq]
    rw [h2 r hr, lastPopped, hone]

/-- Replacing the low half-word of a zeroed register leaves the half-word, zero-extended. -/
theorem setReg16_zero (v : Selector) : ((0 : Word) &&& 0xFFFFFFFFFFFF0000#64) ||| v.zeroExtend 64 = v.zeroExtend 64 := by
  simp

end X86
