import FishOS.Lib.Memory
import Mathlib.Data.BitVec
import Mathlib.Logic.Relation

/-!
# An x86-64 machine

The instructions that hand-written entry code and string routines are made of. An address holds
one instruction: encodings are left out, and so are AF, PF, and the protection checks.
-/

namespace X86

inductive Reg where
  | rax | rbx | rcx | rdx | rsi | rdi | rbp | rsp | r8 | r9 | r10 | r11 | r12 | r13 | r14 | r15
  deriving DecidableEq

inductive Seg where
  | ds | es | ss
  deriving DecidableEq

inductive Flag where
  | cf | zf | sf | if_ | df | of
  deriving DecidableEq

def Flag.bit : Flag → Nat
  | .cf => 0
  | .zf => 6
  | .sf => 7
  | .if_ => 9
  | .df => 10
  | .of => 11

/-- `[base + index * scale + disp]`, from `gs` on when `gs` is set. -/
structure Addr where
  gs : Bool := false
  base : Option Reg := none
  index : Option (Reg × UInt64) := none
  disp : UInt64 := 0

inductive Operand where
  | reg (r : Reg)
  | imm (value : UInt64)
  | mem (a : Addr)

inductive Cond where
  | always | e | ne | a | ae
  deriving DecidableEq

/-- The jumps inside a routine go ahead by a number of instructions. -/
inductive Instr where
  | mov (dst src : Operand)
  | movByte (dst : Reg) (src : Addr)
  | subByte (dst : Reg) (src : Addr)
  | movsxByte (dst src : Reg)
  | movFromSeg (dst : Reg) (src : Seg)
  | movToSeg (dst : Seg) (src : Reg)
  | lea (dst : Reg) (src : Addr)
  | xchg (r : Reg) (a : Addr)
  | push (src : Operand)
  | pop (dst : Reg)
  | add (dst : Reg) (value : UInt64)
  | sub (dst : Reg) (value : UInt64)
  | cmp (lhs rhs : Operand)
  | xor (dst src : Reg)
  | set (flag : Flag) (value : Bool)
  | swapgs
  | repMovsb
  | repStosb
  | repeCmpsb
  | jcc (cond : Cond) (ahead : Nat)
  | jmp (target : Nat)
  | call (target : Nat)
  | callMem (target : Addr)
  | ret
  | iretq
  | sysret

namespace Instr

abbrev cld : Instr := .set .df false

abbrev std : Instr := .set .df true

abbrev cli : Instr := .set .if_ false

abbrev sti : Instr := .set .if_ true

end Instr

structure State where
  regs : Reg → UInt64
  segs : Seg → UInt16
  cs : UInt16
  rflags : UInt64
  rip : Nat
  gsBase : UInt64
  kernelGsBase : UInt64
  star : UInt64
  fmask : UInt64
  lstar : UInt64
  mem : Mem

instance : Inhabited State where
  default :=
    { regs := fun _ => 0, segs := fun _ => 0, cs := 0, rflags := 2, rip := 0, gsBase := 0, kernelGsBase := 0, star := 0
      fmask := 0, lstar := 0, mem := fun _ => 0 }

namespace State

variable (s : State)

def set (r : Reg) (value : UInt64) : State := { s with regs := Function.update s.regs r value }

def setSeg (seg : Seg) (value : UInt16) : State := { s with segs := Function.update s.segs seg value }

def goto (rip : Nat) : State := { s with rip := rip }

def store64 (address value : UInt64) : State := { s with mem := s.mem.write64 address.toNat value.toNat }

def load64 (address : UInt64) : UInt64 := UInt64.ofNat (s.mem.read64 address.toNat)

def flag (f : Flag) : Bool := s.rflags.toBitVec.getLsbD f.bit

def setFlag (f : Flag) (value : Bool) : State :=
  let mask := BitVec.twoPow 64 f.bit
  { s with rflags := .ofBitVec (if value then s.rflags.toBitVec ||| mask else s.rflags.toBitVec &&& ~~~mask) }

def setFlags (flags : List (Flag × Bool)) : State := flags.foldl (fun s f => s.setFlag f.1 f.2) s

def ea (a : Addr) : UInt64 :=
  (if a.gs then s.gsBase else 0) + (a.base.map s.regs).getD 0 + (a.index.map fun i => s.regs i.1 * i.2).getD 0 + a.disp

def read : Operand → UInt64
  | .reg r => s.regs r
  | .imm value => value
  | .mem a => s.load64 (s.ea a)

def write (dst : Operand) (value : UInt64) : Option State :=
  match dst with
  | .reg r => some (s.set r value)
  | .imm _ => none
  | .mem a => some (s.store64 (s.ea a) value)

def push (value : UInt64) : State := (s.set .rsp (s.regs .rsp - 8)).store64 (s.regs .rsp - 8) value

def swapgs : State := { s with gsBase := s.kernelGsBase, kernelGsBase := s.gsBase }

def holds : Cond → Bool
  | .always => true
  | .e => s.flag .zf
  | .ne => !s.flag .zf
  | .a => !s.flag .cf && !s.flag .zf
  | .ae => !s.flag .cf

end State

/-- The flags of `a - b`. -/
def subFlags {w : Nat} (a b : BitVec w) : List (Flag × Bool) :=
  [(.cf, a.ult b), (.zf, a == b), (.sf, (a - b).msb), (.of, a.msb != b.msb && (a - b).msb != a.msb)]

def addFlags {w : Nat} (a b : BitVec w) : List (Flag × Bool) :=
  [(.cf, (a + b).ult a), (.zf, a + b == 0), (.sf, (a + b).msb), (.of, a.msb == b.msb && (a + b).msb != a.msb)]

def xorFlags {w : Nat} (a b : BitVec w) : List (Flag × Bool) :=
  [(.cf, false), (.zf, a == b), (.sf, (a ^^^ b).msb), (.of, false)]

def lowByte (word : UInt64) : UInt8 := word.toUInt8

def withLowByte (word : UInt64) (byte : UInt8) : UInt64 := (word &&& 0xFFFFFFFFFFFFFF00) ||| byte.toUInt64

def signExtend (byte : UInt8) : UInt64 := .ofBitVec (byte.toBitVec.signExtend 64)

namespace State

variable (s : State)

/-- What `DF` adds to a string pointer. -/
def stride : UInt64 := if s.flag .df then -1 else 1

def advance (r : Reg) : State := s.set r (s.regs r + s.stride)

def next : State := s.goto (s.rip + 1)

/-- An iteration of a `rep` prefix counts `rcx` down, and the instruction is left when it is zero. -/
def rep (iteration : State → State) : State :=
  if s.regs .rcx = 0 then s.next else (iteration s).set .rcx (s.regs .rcx - 1)

def movsb : State :=
  (({ s with mem := s.mem.write8 (s.regs .rdi).toNat (s.mem (s.regs .rsi).toNat) }).advance .rsi).advance .rdi

def stosb : State := ({ s with mem := s.mem.write8 (s.regs .rdi).toNat (lowByte (s.regs .rax)) }).advance .rdi

def cmpsb : State :=
  ((s.setFlags (subFlags (s.mem (s.regs .rsi).toNat).toBitVec (s.mem (s.regs .rdi).toNat).toBitVec)).advance .rsi).advance .rdi

/-- `repe` also leaves when the last iteration has cleared `ZF`. -/
def repe : State :=
  if s.regs .rcx = 0 then s.next
  else
    let t := s.cmpsb.set .rcx (s.regs .rcx - 1)
    if t.flag .zf then t else t.next

def word (i : Nat) : UInt64 := s.load64 (s.regs .rsp + 8 * UInt64.ofNat i)

end State

def exec (s : State) : Instr → Option State
  | .mov dst src => (s.write dst (s.read src)).map .next
  | .movByte dst src => some (s.set dst (withLowByte (s.regs dst) (s.mem (s.ea src).toNat))).next
  | .subByte dst src =>
    let byte := s.mem (s.ea src).toNat
    let t := s.setFlags (subFlags (lowByte (s.regs dst)).toBitVec byte.toBitVec)
    some (t.set dst (withLowByte (s.regs dst) (lowByte (s.regs dst) - byte))).next
  | .movsxByte dst src => some (s.set dst (signExtend (lowByte (s.regs src)))).next
  | .movFromSeg dst src => some (s.set dst (s.segs src).toUInt64).next
  | .movToSeg dst src => some (s.setSeg dst (s.regs src).toUInt16).next
  | .lea dst src => some (s.set dst (s.ea src)).next
  | .xchg r a => some ((s.store64 (s.ea a) (s.regs r)).set r (s.load64 (s.ea a))).next
  | .push src => some (s.push (s.read src)).next
  | .pop dst => some ((s.set .rsp (s.regs .rsp + 8)).set dst (s.load64 (s.regs .rsp))).next
  | .add dst value =>
    some ((s.setFlags (addFlags (s.regs dst).toBitVec value.toBitVec)).set dst (s.regs dst + value)).next
  | .sub dst value =>
    some ((s.setFlags (subFlags (s.regs dst).toBitVec value.toBitVec)).set dst (s.regs dst - value)).next
  | .cmp lhs rhs => some (s.setFlags (subFlags (s.read lhs).toBitVec (s.read rhs).toBitVec)).next
  | .xor dst src =>
    some ((s.setFlags (xorFlags (s.regs dst).toBitVec (s.regs src).toBitVec)).set dst (s.regs dst ^^^ s.regs src)).next
  | .set flag value => some (s.setFlag flag value).next
  | .swapgs => some s.swapgs.next
  | .repMovsb => some (s.rep .movsb)
  | .repStosb => some (s.rep .stosb)
  | .repeCmpsb => some s.repe
  | .jcc cond ahead => some (s.goto (if s.holds cond then s.rip + 1 + ahead else s.rip + 1))
  | .jmp target => some (s.goto target)
  | .call target => some ((s.push (UInt64.ofNat (s.rip + 1))).goto target)
  | .callMem target => some ((s.push (UInt64.ofNat (s.rip + 1))).goto (s.load64 (s.ea target)).toNat)
  | .ret => some ((s.set .rsp (s.regs .rsp + 8)).goto (s.word 0).toNat)
  | .iretq => some
    { s with
      rip := (s.word 0).toNat, cs := (s.word 1).toUInt16, rflags := s.word 2
      regs := Function.update s.regs .rsp (s.word 3)
      segs := Function.update s.segs .ss (s.word 4).toUInt16 }
  | .sysret => some
    { s with
      rip := (s.regs .rcx).toNat, rflags := (s.regs .r11 &&& 0x3C7FD7) ||| 2
      cs := ((s.star >>> 48) + 16).toUInt16 ||| 3
      segs := Function.update s.segs .ss (((s.star >>> 48) + 8).toUInt16 ||| 3) }

/-- What the processor does on `syscall`. -/
def syscall (s : State) : State :=
  { s with
    regs := Function.update (Function.update s.regs .rcx (UInt64.ofNat (s.rip + 1))) .r11 s.rflags
    rip := s.lstar.toNat, rflags := s.rflags &&& ~~~s.fmask
    cs := (s.star >>> 32).toUInt16 &&& 0xFFFC
    segs := Function.update s.segs .ss ((s.star >>> 32) + 8).toUInt16 }

/-- What the processor does when it takes an interrupt through a gate to `target`, on the stack that
ends at `stack`. It clears `TF`, `IF`, `NT`, `RF` and `VM`. -/
def interrupt (s : State) (target : Nat) (selector : UInt16) (stack : UInt64) (err : Option UInt64) : State :=
  let pushed := (((((s.set .rsp (stack &&& ~~~15)).push (s.segs .ss).toUInt64).push (s.regs .rsp)).push s.rflags).push
    s.cs.toUInt64).push (UInt64.ofNat s.rip)
  let pushed := match err with
    | some code => pushed.push code
    | none => pushed
  { pushed with
    cs := selector, rip := target, rflags := s.rflags &&& ~~~0x34300
    segs := if s.cs &&& 3 = selector &&& 3 then s.segs else Function.update s.segs .ss (selector &&& 3) }

def step (code : Nat → Option Instr) (s : State) : Option State := (code s.rip).bind (exec s)

def Steps (code : Nat → Option Instr) : State → State → Prop := Relation.ReflTransGen fun s t => step code s = some t

namespace State

variable {s : State}

theorem toNat_word_zero : (s.word 0).toNat = s.mem.read64 (s.regs .rsp).toNat := by
  have address : s.regs .rsp + 8 * UInt64.ofNat 0 = s.regs .rsp := UInt64.add_zero _
  unfold word load64
  rw [address]
  exact UInt64.toNat_ofNat_of_lt' (Mem.read64_lt _ _)

@[simp] theorem regs_set (r q : Reg) (value : UInt64) : (s.set r value).regs q = if q = r then value else s.regs q := by
  change Function.update s.regs r value q = _
  rw [Function.update_apply]

@[simp] theorem mem_set (r : Reg) (value : UInt64) : (s.set r value).mem = s.mem := by cases s; rfl

@[simp] theorem rip_set (r : Reg) (value : UInt64) : (s.set r value).rip = s.rip := by cases s; rfl

@[simp] theorem regs_push (word : UInt64) (q : Reg) :
    (s.push word).regs q = if q = .rsp then s.regs .rsp - 8 else s.regs q := regs_set .rsp q (s.regs .rsp - 8)

@[simp] theorem regs_goto (rip : Nat) : (s.goto rip).regs = s.regs := by cases s; rfl

@[simp] theorem regs_next : s.next.regs = s.regs := by cases s; rfl

theorem flag_congr {t : State} (same : t.rflags = s.rflags) (f : Flag) : t.flag f = s.flag f := by
  unfold flag
  rw [same]

@[simp] theorem flag_set (r : Reg) (value : UInt64) (f : Flag) : (s.set r value).flag f = s.flag f := by
  cases f <;> rfl

@[simp] theorem rip_setFlag (f : Flag) (value : Bool) : (s.setFlag f value).rip = s.rip := by cases s; rfl

@[simp] theorem regs_setFlag (f : Flag) (value : Bool) : (s.setFlag f value).regs = s.regs := by cases s; rfl

@[simp] theorem mem_setFlag (f : Flag) (value : Bool) : (s.setFlag f value).mem = s.mem := by cases s; rfl

@[simp] theorem mem_push (word : UInt64) : (s.push word).mem = s.mem.write64 (s.regs .rsp - 8).toNat word.toNat := by cases s; rfl

@[simp] theorem mem_goto (rip : Nat) : (s.goto rip).mem = s.mem := by cases s; rfl

@[simp] theorem mem_next : s.next.mem = s.mem := by cases s; rfl

@[simp] theorem rip_next : s.next.rip = s.rip + 1 := by cases s; rfl

@[simp] theorem flag_goto (rip : Nat) (f : Flag) : (s.goto rip).flag f = s.flag f := by cases f <;> rfl

@[simp] theorem flag_next (f : Flag) : s.next.flag f = s.flag f := by cases f <;> rfl

@[simp] theorem setFlags_nil : s.setFlags [] = s := rfl

theorem setFlags_cons (f : Flag) (value : Bool) (flags : List (Flag × Bool)) :
    s.setFlags ((f, value) :: flags) = (s.setFlag f value).setFlags flags := rfl

theorem Flag.bit_injective : Function.Injective Flag.bit := by
  intro f g same
  cases f <;> cases g <;> first | rfl | exact absurd same (by decide)

@[simp] theorem flag_setFlag (f g : Flag) (value : Bool) :
    (s.setFlag f value).flag g = if g = f then value else s.flag g := by
  have bound : g.bit < 64 := by cases g <;> decide
  unfold flag setFlag
  by_cases same : g = f
  · subst same
    cases value <;> simp [bound]
  · have apart : g.bit ≠ f.bit := fun bits => same (Flag.bit_injective bits)
    cases value <;> simp [bound, same, apart]

@[simp] theorem regs_setFlags (flags : List (Flag × Bool)) : (s.setFlags flags).regs = s.regs := by
  induction flags generalizing s with
  | nil => rfl
  | cons f flags ih => exact ih

@[simp] theorem mem_setFlags (flags : List (Flag × Bool)) : (s.setFlags flags).mem = s.mem := by
  induction flags generalizing s with
  | nil => rfl
  | cons f flags ih => exact ih

@[simp] theorem rip_setFlags (flags : List (Flag × Bool)) : (s.setFlags flags).rip = s.rip := by
  induction flags generalizing s with
  | nil => rfl
  | cons f flags ih => exact ih

theorem setFlags_eq (flags : List (Flag × Bool)) : ∃ rflags, s.setFlags flags = { s with rflags := rflags } := by
  induction flags generalizing s with
  | nil => exact ⟨s.rflags, rfl⟩
  | cons f flags ih =>
    obtain ⟨rflags, same⟩ := ih (s := s.setFlag f.1 f.2)
    exact ⟨rflags, same⟩

theorem flag_setFlags_other {flags : List (Flag × Bool)} {g : Flag} (apart : ∀ f ∈ flags, g ≠ f.1) :
    (s.setFlags flags).flag g = s.flag g := by
  induction flags generalizing s with
  | nil => rfl
  | cons f flags ih =>
    rw [setFlags_cons f.1 f.2, ih fun f member => apart f (List.mem_cons_of_mem _ member), flag_setFlag,
      if_neg (apart f List.mem_cons_self)]

@[simp] theorem df_subFlags {w : Nat} (a b : BitVec w) : (s.setFlags (subFlags a b)).flag .df = s.flag .df :=
  flag_setFlags_other (by simp [subFlags])

@[simp] theorem if_subFlags {w : Nat} (a b : BitVec w) : (s.setFlags (subFlags a b)).flag .if_ = s.flag .if_ :=
  flag_setFlags_other (by simp [subFlags])

@[simp] theorem df_xorFlags {w : Nat} (a b : BitVec w) : (s.setFlags (xorFlags a b)).flag .df = s.flag .df :=
  flag_setFlags_other (by simp [xorFlags])

@[simp] theorem if_xorFlags {w : Nat} (a b : BitVec w) : (s.setFlags (xorFlags a b)).flag .if_ = s.flag .if_ :=
  flag_setFlags_other (by simp [xorFlags])

@[simp] theorem holds_goto (rip : Nat) (c : Cond) : (s.goto rip).holds c = s.holds c := by
  cases c <;> rfl

@[simp] theorem holds_next (c : Cond) : s.next.holds c = s.holds c := s.holds_goto _ c

theorem flag_zf_cmp (a b : UInt64) : (s.setFlags (subFlags a.toBitVec b.toBitVec)).flag .zf = decide (a = b) := by
  simp only [subFlags, setFlags_cons, setFlags_nil, flag_setFlag, reduceIte, reduceCtorEq]
  exact (Bool.eq_iff_iff.mpr (by simp [UInt64.toBitVec_inj]))

theorem flag_cf_cmp (a b : UInt64) : (s.setFlags (subFlags a.toBitVec b.toBitVec)).flag .cf = decide (a < b) := by
  simp only [subFlags, setFlags_cons, setFlags_nil, flag_setFlag, reduceIte, reduceCtorEq]
  exact decide_eq_decide.mpr UInt64.lt_iff_toNat_lt.symm

/-- The comparisons that a conditional jump makes after `cmp`. -/
theorem holds_ne_cmp (a b : UInt64) : (s.setFlags (subFlags a.toBitVec b.toBitVec)).holds .ne = decide (a ≠ b) := by
  rw [holds, flag_zf_cmp, decide_not]

theorem holds_a_cmp (a b : UInt64) : (s.setFlags (subFlags a.toBitVec b.toBitVec)).holds .a = decide (b < a) := by
  have order : b < a ↔ ¬a < b ∧ a ≠ b := by
    rw [UInt64.lt_iff_toNat_lt, UInt64.lt_iff_toNat_lt, Ne, ← UInt64.toNat_inj]
    omega
  rw [holds, flag_zf_cmp, flag_cf_cmp, ← decide_not, ← decide_not, ← Bool.decide_and]
  exact decide_eq_decide.mpr order.symm

theorem holds_ae_cmp (a b : UInt64) : (s.setFlags (subFlags a.toBitVec b.toBitVec)).holds .ae = decide (b ≤ a) := by
  rw [holds, flag_cf_cmp, ← decide_not]
  exact decide_eq_decide.mpr UInt64.not_lt

end State

/-- Arithmetic changes its register, and of the flags none that matters to a caller. -/
theorem exec_sub (s : State) (r : Reg) (value : UInt64) : ∃ rflags,
    exec s (.sub r value) = some (({ s with rflags := rflags }.set r (s.regs r - value)).next) ∧
      ({ s with rflags := rflags } : State).flag .df = s.flag .df ∧
      ({ s with rflags := rflags } : State).flag .if_ = s.flag .if_ := by
  obtain ⟨rflags, same⟩ := s.setFlags_eq (subFlags (s.regs r).toBitVec value.toBitVec)
  refine ⟨rflags, ?_, ?_, ?_⟩
  · rw [← same]
    rfl
  · rw [← same, State.df_subFlags]
  · rw [← same, State.if_subFlags]

theorem exec_add (s : State) (r : Reg) (value : UInt64) : ∃ rflags,
    exec s (.add r value) = some (({ s with rflags := rflags }.set r (s.regs r + value)).next) := by
  obtain ⟨rflags, same⟩ := s.setFlags_eq (addFlags (s.regs r).toBitVec value.toBitVec)
  refine ⟨rflags, ?_⟩
  rw [← same]
  rfl

theorem exec_xor_self (s : State) (r : Reg) : ∃ rflags,
    exec s (.xor r r) = some (({ s with rflags := rflags }.set r 0).next) ∧
      ({ s with rflags := rflags } : State).flag .df = s.flag .df ∧
      ({ s with rflags := rflags } : State).flag .if_ = s.flag .if_ := by
  obtain ⟨rflags, same⟩ := s.setFlags_eq (xorFlags (s.regs r).toBitVec (s.regs r).toBitVec)
  refine ⟨rflags, ?_, ?_, ?_⟩
  · rw [← same, ← UInt64.xor_self (a := s.regs r)]
    rfl
  · rw [← same, State.df_xorFlags]
  · rw [← same, State.if_xorFlags]

/-- A routine lies at an address. -/
def At (code : Nat → Option Instr) (base : Nat) (routine : List Instr) : Prop :=
  ∀ i instr, routine[i]? = some instr → code (base + i) = some instr

end X86
