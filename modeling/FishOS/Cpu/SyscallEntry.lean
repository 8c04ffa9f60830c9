import FishOS.Cpu.Interrupts
import FishOS.Lib.X86.Routine

/-!
# The system call entry as machine code

`syscall_entry.asm`, run by a machine: the function that is called, its arguments, and what the
caller continues with. `IA32_KERNEL_GS_BASE` points to the task, which has its kernel stack at 8
and a place for its user stack at 16.
-/

namespace FishOS.Cpu.SyscallEntry

open X86

def saved : List Reg := [.rax, .rbx, .rcx, .rdx, .rsi, .rdi, .rbp, .r8, .r9, .r10, .r11, .r12, .r13, .r14, .r15]

def restored : List Reg := [.r15, .r14, .r13, .r12, .r11, .r10, .r9, .r8, .rbp, .rdi, .rsi, .rdx, .rcx, .rbx, .rax]

def switchStack : List Instr := [
  .swapgs,
  .mov (.mem { gs := true, disp := 16 }) (.reg .rsp),
  .mov (.reg .rsp) (.mem { gs := true, disp := 8 })]

def prepare : List Instr := [
  .cld,
  .mov (.reg .rax) (.imm 0x10),
  .movToSeg .ds .rax,
  .movToSeg .es .rax,
  .xor .rbp .rbp,
  .mov (.reg .rcx) (.reg .r10),
  .mov (.reg .rax) (.mem { base := some .rsp, disp := 128 })]

def dispatch (table : UInt64) : List Instr := [
  .cmp (.reg .rax) (.imm 12),
  .jcc .ae 4,
  .sti,
  .callMem { index := some (.rax, 8), disp := table },
  .cli,
  .jcc .always 1,
  -- .out_of_bounds
  .mov (.reg .rax) (.imm (-1051))]

/-- `.end` -/
def leave : List Instr :=
  [.mov (.mem { base := some .rsp, disp := 128 }) (.reg .rax), .pop .rax, .movToSeg .ds .rax, .pop .rax, .movToSeg .es .rax] ++
  restored.map .pop ++
  [.mov (.reg .rsp) (.mem { gs := true, disp := 16 }), .swapgs, .sysret]

/-- `__syscall_entry`. -/
def entry (table : UInt64) : List Instr :=
  switchStack ++ saved.map (fun r => .push (.reg r)) ++
  [.movFromSeg .rax .es, .push (.reg .rax), .movFromSeg .rax .ds, .push (.reg .rax)] ++
  prepare ++ dispatch table ++ leave

variable {code : Nat → Option Instr} {s t u : State} {top base : Nat} {m : Mem} {table : UInt64}

/-- A task that makes a system call with its kernel stack at `top`, at the first instruction of the entry. -/
structure Callable (s : State) (top : Nat) : Prop where
  task : s.kernelGsBase.toNat + 24 ≤ 2 ^ 64
  stack : s.mem.read64 (s.kernelGsBase.toNat + 8) = top
  room : 8 * 18 ≤ top
  apart : top ≤ s.kernelGsBase.toNat + 16 ∨ s.kernelGsBase.toNat + 24 ≤ top - 8 * 18

theorem Callable.toNat_add {offset : UInt64} (callable : Callable s top) (within : offset.toNat < 24) :
    (s.kernelGsBase + offset).toNat = s.kernelGsBase.toNat + offset.toNat := by
  have task := callable.task
  rw [UInt64.toNat_add]
  exact Nat.mod_eq_of_lt (by omega)

/-- The memory with the user stack put away. -/
def kept (s : State) : Mem := s.mem.write64 (s.kernelGsBase.toNat + 16) (s.regs .rsp).toNat

def onKernelStack (s : State) (top : Nat) : State :=
  ({ s.swapgs with mem := kept s }.set .rsp (UInt64.ofNat top)).goto (s.rip + 3)

theorem ea_gs (s : State) (offset : UInt64) : s.ea { gs := true, disp := offset } = s.gsBase + offset := by
  simp [State.ea]

theorem exec_storeGs (s : State) (offset : UInt64) (r : Reg) : exec s (.mov (.mem { gs := true, disp := offset }) (.reg r)) =
    some (s.store64 (s.gsBase + offset) (s.regs r)).next := by
  rw [← ea_gs]
  rfl

theorem exec_loadGs (s : State) (offset : UInt64) (r : Reg) : exec s (.mov (.reg r) (.mem { gs := true, disp := offset })) =
    some (s.set r (s.load64 (s.gsBase + offset))).next := by
  rw [← ea_gs]
  rfl

theorem switches (here : At code s.rip switchStack) (callable : Callable s top) : Steps code s (onKernelStack s top) := by
  let v : State := { s.swapgs.next with mem := kept s }.next
  have first : exec s.swapgs.next (.mov (.mem { gs := true, disp := 16 }) (.reg .rsp)) = some v := by
    rw [exec_storeGs]
    change some (State.next { s.swapgs.next with mem := s.mem.write64 (s.kernelGsBase + 16).toNat _ }) = _
    rw [callable.toNat_add (by decide)]
    rfl
  have second : exec v (.mov (.reg .rsp) (.mem { gs := true, disp := 8 })) = some (onKernelStack s top) := by
    have value : v.load64 (v.gsBase + 8) = UInt64.ofNat top := by
      change UInt64.ofNat ((kept s).read64 (s.kernelGsBase + 8).toNat) = _
      rw [callable.toNat_add (by decide), ← callable.stack]
      exact congrArg UInt64.ofNat (Mem.read64_write64_other _ (.inl (Nat.le_refl _)))
    rw [exec_loadGs, value]
    rfl
  exact .cons (here 0 _ rfl) rfl (.cons (here 1 _ rfl) first (.one (here 2 _ rfl) second))

/-- The frame of a system call, from the lowest word up. -/
def frame (s : State) : List UInt64 := (s.segs .ds).toUInt64 :: (s.segs .es).toUInt64 :: saved.reverse.map s.regs

/-- Just before the number of the call is looked at. -/
structure Prepared (s t : State) (top : Nat) : Prop where
  stacked : Stacked t top (kept s) (frame s)
  rax : t.regs .rax = s.regs .rax
  rcx : t.regs .rcx = s.regs .r10
  rbp : t.regs .rbp = 0
  regs : ∀ r, r ≠ .rax → r ≠ .rcx → r ≠ .rbp → r ≠ .rsp → t.regs r = s.regs r
  ds : t.segs .ds = 0x10
  es : t.segs .es = 0x10
  ss : t.segs .ss = s.segs .ss
  cs : t.cs = s.cs
  df : t.flag .df = false
  if_ : t.flag .if_ = s.flag .if_
  gs : (t.gsBase, t.kernelGsBase) = (s.kernelGsBase, s.gsBase)
  star : t.star = s.star

/-- Up to the last push. -/
structure Saved (s t : State) (top : Nat) : Prop where
  stacked : Stacked t top (kept s) (frame s)
  regs : ∀ r, r ≠ .rax → r ≠ .rsp → t.regs r = s.regs r
  rest : { t with regs := s.regs, mem := s.mem } = { s.swapgs with rip := s.rip + 22 }

theorem saves (here : At code s.rip (entry table)) (callable : Callable s top) (fits : top < 2 ^ 64) :
    ∃ t, Steps code s t ∧ Saved s t top := by
  have room := callable.room
  have base : ((onKernelStack s top).regs .rsp).toNat = top := by
    simp only [onKernelStack, State.regs_goto, State.regs_set, if_true]
    exact UInt64.toNat_ofNat_of_lt' fits
  have regsK : ∀ r, r ≠ .rsp → (onKernelStack s top).regs r = s.regs r := by
    intro r apart
    simp only [onKernelStack, State.regs_goto, State.regs_set, if_neg apart]
    rfl
  have onK : Stacked (onKernelStack s top) top (kept s) [] := ⟨base, trivial, fun _ _ => rfl⟩
  obtain ⟨p, pushes, pushed⟩ := Steps.pushes (s := onKernelStack s top) saved (here.part 3 15) (by decide)
    (by rw [base]; exact Nat.le_trans (by decide) room)
  have onP := (onK.goto _).pushed pushed
  rw [List.append_nil] at onP
  have ripP : p.rip = s.rip + 18 := congrArg State.rip pushed.rest
  obtain ⟨q, pushesEs, onQ, rspQ, regsQ, restQ⟩ := Steps.pushSeg .es (ripP ▸ here.part 18 2) onP
    (Nat.le_trans (show 8 * 16 ≤ 8 * 18 by decide) room)
  have ripQ : q.rip = s.rip + 20 := (congrArg State.rip restQ).trans (congrArg (· + 2) ripP)
  obtain ⟨t, pushesDs, onT, rspT, regsT, restT⟩ := Steps.pushSeg .ds (ripQ ▸ here.part 20 2) onQ
    (Nat.le_trans (show 8 * 17 ≤ 8 * 18 by decide) room)
  refine ⟨t, (switches (here.part 0 3) callable).trans (pushes.trans (pushesEs.trans pushesDs)), ?_, ?_, ?_⟩
  · have segsP := congrArg State.segs pushed.rest
    have segsQ := congrArg State.segs restQ
    have same : saved.reverse.map (onKernelStack s top).regs = saved.reverse.map s.regs := by
      apply List.map_congr_left
      intro r member
      exact regsK r (by revert member; cases r <;> decide)
    have es : p.segs .es = s.segs .es := congrFun segsP .es
    have ds : q.segs .ds = s.segs .ds := (congrFun segsQ .ds).trans (congrFun segsP .ds)
    rw [same, es, ds] at onT
    exact onT
  · intro r rax rsp
    rw [regsT r rax rsp, regsQ r rax rsp, pushed.regs r rsp]
    exact regsK r rsp
  · calc { t with regs := s.regs, mem := s.mem }
        = { ({ t with regs := q.regs, mem := q.mem } : State) with regs := s.regs, mem := s.mem } := rfl
      _ = { ({ q with regs := p.regs, mem := p.mem } : State) with regs := s.regs, mem := s.mem, rip := s.rip + 22 } := by
        rw [restT, ripQ]
        rfl
      _ = { p with regs := s.regs, mem := s.mem, rip := s.rip + 22 } := by
        rw [restQ]
        rfl
      _ = { ({ p with regs := (onKernelStack s top).regs, mem := (onKernelStack s top).mem } : State) with
            regs := s.regs, mem := s.mem, rip := s.rip + 22 } := rfl
      _ = _ := by
        have fields : { p with regs := (onKernelStack s top).regs, mem := (onKernelStack s top).mem } =
          (onKernelStack s top).goto _ := pushed.rest
        rw [fields]
        rfl

theorem loadsSegments (here : At code s.rip (prepare.take 4)) :
    ∃ t, Steps code s t ∧ t.rip = s.rip + 4 ∧ t.segs .ds = 0x10 ∧ t.segs .es = 0x10 ∧ t.segs .ss = s.segs .ss ∧
      (∀ r, r ≠ .rax → t.regs r = s.regs r) ∧ t.flag .df = false ∧ t.flag .if_ = s.flag .if_ ∧ t.mem = s.mem ∧
      t.cs = s.cs ∧ (t.gsBase, t.kernelGsBase) = (s.gsBase, s.kernelGsBase) ∧ t.star = s.star := by
  obtain ⟨steps, rip⟩ := Steps.block here (by decide) rfl
  refine ⟨_, steps, rip, rfl, rfl, rfl, ?_, ?_, ?_, rfl, rfl, rfl, rfl⟩
  · intro r rax
    change (State.set _ .rax _).regs r = _
    rw [State.regs_set, if_neg rax]
    rfl
  · change (s.setFlag .df false).flag .df = false
    rw [State.flag_setFlag, if_pos rfl]
  · change (s.setFlag .df false).flag .if_ = _
    rw [State.flag_setFlag, if_neg (by decide)]

theorem prepares (here : At code s.rip (entry table)) (callable : Callable s top) (fits : top < 2 ^ 64) :
    ∃ t, Steps code s t ∧ t.rip = s.rip + 29 ∧ Prepared s t top := by
  obtain ⟨u, pushes, saved⟩ := saves here callable fits
  have rest := saved.rest
  have ripU : u.rip = s.rip + 22 := congrArg State.rip rest
  obtain ⟨y, loads, ripY, ds, es, ss, regsY, dfY, ifY, memY, csY, gsY, starY⟩ := loadsSegments (s := u) (ripU ▸ here.part 22 4)
  obtain ⟨rflags, clears, dfX, ifX⟩ := exec_xor_self y .rbp
  let x := ({ y with rflags := rflags }.set .rbp 0).next
  let w := (x.set .rcx (x.regs .r10)).next
  have regsX : ∀ r, r ≠ .rax → r ≠ .rbp → x.regs r = u.regs r := by
    intro r rax rbp
    change (State.set _ .rbp 0).regs r = _
    rw [State.regs_set, if_neg rbp]
    exact regsY r rax
  have regsW : ∀ r, r ≠ .rcx → w.regs r = x.regs r := by
    intro r rcx
    change (State.set _ .rcx _).regs r = _
    rw [State.regs_set, if_neg rcx]
  have onW : Stacked w top (kept s) (frame s) := by
    refine saved.stacked.of_same ?_ memY
    rw [regsW .rsp (by decide), regsX .rsp (by decide) (by decide)]
  have value : w.load64 (w.ea { base := some .rsp, disp := 128 }) = s.regs .rax := by
    have address : w.ea { base := some .rsp, disp := 128 } = w.regs .rsp + 8 * UInt64.ofNat 16 := by simp [State.ea]
    rw [address]
    exact onW.word (i := 16) (Nat.le_of_lt fits) rfl
  let z := (w.set .rax (s.regs .rax)).next
  have loadsRax : exec w (.mov (.reg .rax) (.mem { base := some .rsp, disp := 128 })) = some z := by
    rw [show z = (w.set .rax (w.load64 (w.ea { base := some .rsp, disp := 128 }))).next by rw [value]]
    rfl
  have regsZ : ∀ r, r ≠ .rax → z.regs r = w.regs r := by
    intro r rax
    change (State.set _ .rax _).regs r = _
    rw [State.regs_set, if_neg rax]
  have ripX : x.rip = s.rip + 27 := congrArg (· + 1) (ripY.trans (congrArg (· + 4) ripU))
  have ripW : w.rip = s.rip + 28 := congrArg (· + 1) ripX
  refine ⟨z, ?_, congrArg (· + 1) ripW, ?_⟩
  · apply pushes.trans
    apply loads.trans
    apply Steps.cons (by rw [ripY, ripU]; exact here 26 _ rfl) clears
    exact .cons (ripX ▸ here 27 _ rfl) rfl (.one (ripW ▸ here 28 _ rfl) loadsRax)
  · have segsU := congrArg (fun s => s.segs .ss) rest
    have csU := congrArg State.cs rest
    have flagsU := congrArg State.rflags rest
    have gsU := congrArg (fun s => (s.gsBase, s.kernelGsBase)) rest
    have starU := congrArg State.star rest
    refine ⟨onW.of_same (regsZ .rsp (by decide)) rfl, ?_, ?_, ?_, ?_, ds, es, ss.trans segsU, csY.trans csU, dfX.trans dfY, ?_,
      gsY.trans gsU, starY.trans starU⟩
    · simp [z]
    · rw [regsZ .rcx (by decide), ← saved.regs .r10 (by decide) (by decide), ← regsX .r10 (by decide) (by decide)]
      simp [w]
    · rw [regsZ .rbp (by decide), regsW .rbp (by decide)]
      simp [x]
    · intro r rax rcx rbp rsp
      rw [regsZ r rax, regsW r rcx, regsX r rax rbp, saved.regs r rax rsp]
    · exact ifX.trans (ifY.trans (State.flag_congr flagsU .if_))

/-- The caller continues behind its `syscall` with a result in `rax`. -/
structure Answered (s t u : State) (top : Nat) : Prop where
  regs : u.regs = Function.update s.regs .rax (t.regs .rax)
  rip : u.rip = (s.regs .rcx).toNat
  rflags : u.rflags = (s.regs .r11 &&& 0x3C7FD7) ||| 2
  ds : u.segs .ds = s.segs .ds
  es : u.segs .es = s.segs .es
  ss : u.segs .ss = ((t.star >>> 48) + 8).toUInt16 ||| 3
  cs : u.cs = ((t.star >>> 48) + 16).toUInt16 ||| 3
  gs : (u.gsBase, u.kernelGsBase) = (t.kernelGsBase, t.gsBase)
  mem : ∀ x, x < top - 8 * 17 ∨ top ≤ x → u.mem x = t.mem x

/-- The answer goes to the place of `rax` in the frame. -/
theorem storesAnswer (here : code t.rip = some (.mov (.mem { base := some .rsp, disp := 128 }) (.reg .rax)))
    (fits : (t.regs .rsp).toNat + 128 < 2 ^ 64) :
    ∃ u, Steps code t u ∧ u.rip = t.rip + 1 ∧ u.regs = t.regs ∧ u.segs = t.segs ∧
      u.mem = t.mem.write64 ((t.regs .rsp).toNat + 8 * 16) (t.regs .rax).toNat ∧
      (u.gsBase, u.kernelGsBase) = (t.gsBase, t.kernelGsBase) ∧ u.star = t.star := by
  have address : t.ea { base := some .rsp, disp := 128 } = t.regs .rsp + 128 := by simp [State.ea]
  have slot : (t.regs .rsp + 128).toNat = (t.regs .rsp).toNat + 8 * 16 := by
    rw [UInt64.toNat_add]
    exact Nat.mod_eq_of_lt fits
  refine ⟨_, .one here rfl, rfl, rfl, rfl, ?_, rfl, rfl⟩
  rw [← slot, ← address]
  rfl

theorem leaves (here : At code base (entry table)) (rip : t.rip = base + 36) (callable : Callable s top) (fits : top < 2 ^ 64)
    (room : (t.regs .rsp).toNat + 8 * 17 = top) (stack : Stack t.mem (t.regs .rsp).toNat (frame s))
    (gsBase : t.gsBase = s.kernelGsBase) (user : t.mem.read64 (s.kernelGsBase.toNat + 16) = (s.regs .rsp).toNat) :
    ∃ u, Steps code t u ∧ Answered s t u top := by
  have apart := callable.apart
  have answer : (frame s).set 16 (t.regs .rax) = (s.segs .ds).toUInt64 :: (s.segs .es).toUInt64 ::
      (restored.map (Function.update s.regs .rax (t.regs .rax)) ++ []) := rfl
  obtain ⟨y, stores, nextY, regsY, segsY, memY, gsY, starY⟩ := storesAnswer (t := t) (rip ▸ here 36 _ rfl)
    (by change _ + 8 * 16 < _; omega)
  have topY : y.regs .rsp = t.regs .rsp := congrFun regsY .rsp
  have stackY := stack.set (i := 16) (show 16 < 17 by decide) (t.regs .rax)
  rw [answer, ← memY, ← topY] at stackY
  have ripY : y.rip = base + 37 := nextY.trans (congrArg (· + 1) rip)
  obtain ⟨p, popsDs, rspP, stackP, regsP, segsP, restP⟩ := Steps.popSeg .ds (ripY ▸ here.part 37 2) stackY
    (by rw [topY]; omega)
  have ripP : p.rip = base + 39 := (congrArg State.rip restP).trans (congrArg (· + 2) ripY)
  obtain ⟨q, popsEs, rspQ, stackQ, regsQ, segsQ, restQ⟩ := Steps.popSeg .es (ripP ▸ here.part 39 2) stackP
    (by rw [rspP, topY]; omega)
  have ripQ : q.rip = base + 41 := (congrArg State.rip restQ).trans (congrArg (· + 2) ripP)
  obtain ⟨registers, -⟩ := stack_append.mp stackQ
  obtain ⟨v, pops, popped⟩ := Steps.pops restored _ (ripQ ▸ here.part 41 15) (by decide) registers
    (by rw [rspQ, rspP, topY]; change _ + 8 * 15 < _; omega)
  have restV := popped.rest
  have ripV : v.rip = base + 56 := (congrArg State.rip restV).trans (congrArg (· + 15) ripQ)
  have memP := congrArg State.mem restP
  have memQ := congrArg State.mem restQ
  have memV : v.mem = y.mem := (congrArg State.mem restV).trans (memQ.trans memP)
  have gsP := congrArg (fun s => (s.gsBase, s.kernelGsBase)) restP
  have gsQ := congrArg (fun s => (s.gsBase, s.kernelGsBase)) restQ
  have gsV : (v.gsBase, v.kernelGsBase) = (t.gsBase, t.kernelGsBase) :=
    (congrArg (fun s => (s.gsBase, s.kernelGsBase)) restV).trans (gsQ.trans (gsP.trans gsY))
  have starP := congrArg State.star restP
  have starQ := congrArg State.star restQ
  have starV : v.star = t.star := (congrArg State.star restV).trans (starQ.trans (starP.trans starY))
  have segsV : v.segs = Function.update (Function.update t.segs .ds (s.segs .ds).toUInt64.toUInt16) .es
      (s.segs .es).toUInt64.toUInt16 := by
    have same := congrArg State.segs restV
    refine Eq.trans same ?_
    change q.segs = _
    rw [segsQ, segsP, segsY]
  let w := (v.set .rsp (s.regs .rsp)).next
  have back : exec v (.mov (.reg .rsp) (.mem { gs := true, disp := 16 })) = some w := by
    have value : v.load64 (v.gsBase + 16) = s.regs .rsp := by
      unfold State.load64
      rw [(Prod.mk.inj gsV).1, gsBase, callable.toNat_add (by decide), memV, memY]
      rw [Mem.read64_write64_other _ (by change _ + 16 + 8 ≤ _ ∨ _ ≤ _ + 16; omega)]
      exact (congrArg UInt64.ofNat user).trans UInt64.ofNat_toNat
    rw [exec_loadGs, value]
  have ripW : w.rip = base + 57 := congrArg (· + 1) ripV
  have regsW : w.regs = Function.update s.regs .rax (t.regs .rax) := by
    funext r
    change (v.set .rsp _).regs r = _
    rw [State.regs_set]
    split
    · rename_i rsp
      rw [rsp]
      rfl
    · rename_i rsp
      exact popped.loaded r (by revert rsp; cases r <;> decide)
  have run : Steps code t w := by
    apply stores.trans
    apply popsDs.trans
    apply popsEs.trans
    exact pops.trans (.one (ripV ▸ here 56 _ rfl) back)
  refine ⟨_, run.trans (.cons (ripW ▸ here 57 _ rfl) rfl (.one (i := .sysret) ?_ rfl)), ?_, ?_, ?_, ?_, ?_, ?_, ?_, ?_, ?_⟩
  · change code (w.rip + 1) = _
    rw [ripW]
    exact here 58 _ rfl
  · exact regsW
  · change (w.regs .rcx).toNat = _
    rw [regsW]
    rfl
  · change (w.regs .r11 &&& 0x3C7FD7) ||| 2 = _
    rw [regsW]
    rfl
  · change Function.update v.segs .ss (((v.star >>> 48) + 8).toUInt16 ||| 3) .ds = _
    rw [segsV]
    exact UInt16.toUInt16_toUInt64 _
  · change Function.update v.segs .ss (((v.star >>> 48) + 8).toUInt16 ||| 3) .es = _
    rw [segsV]
    exact UInt16.toUInt16_toUInt64 _
  · change Function.update v.segs .ss (((v.star >>> 48) + 8).toUInt16 ||| 3) .ss = _
    rw [Function.update_self, starV]
  · change ((v.star >>> 48) + 16).toUInt16 ||| 3 = _
    rw [starV]
  · obtain ⟨gs, kernel⟩ := Prod.mk.inj gsV
    exact Prod.ext kernel gs
  · intro x outside
    change v.mem x = _
    rw [memV, memY]
    exact Mem.write64_other _ (by omega)

theorem tests (here : At code base (entry table)) (rip : t.rip = base + 29) :
    ∃ u, Steps code t u ∧ u.rip = (if 12 ≤ t.regs .rax then base + 35 else base + 31) ∧
      u.flag .df = t.flag .df ∧ u.flag .if_ = t.flag .if_ ∧ { u with rflags := t.rflags, rip := t.rip } = t := by
  obtain ⟨rflags, flags⟩ := t.setFlags_eq (subFlags (t.regs .rax).toBitVec (12 : UInt64).toBitVec)
  have df : (t.setFlags (subFlags (t.regs .rax).toBitVec (12 : UInt64).toBitVec)).flag .df = t.flag .df :=
    State.df_subFlags _ _
  have if_ : (t.setFlags (subFlags (t.regs .rax).toBitVec (12 : UInt64).toBitVec)).flag .if_ = t.flag .if_ :=
    State.if_subFlags _ _
  have decides := t.holds_ae_cmp (t.regs .rax) 12
  rw [flags] at df if_ decides
  let v : State := { t with rflags := rflags }.next
  have compares : exec t (.cmp (.reg .rax) (.imm 12)) = some v := by
    unfold v
    rw [← flags]
    rfl
  have ripV : v.rip = base + 30 := congrArg (· + 1) rip
  have jumps : exec v (.jcc .ae 4) = some (v.goto (if 12 ≤ t.regs .rax then base + 35 else base + 31)) := by
    have holds : v.holds .ae = decide (12 ≤ t.regs .rax) := (State.holds_next _).trans decides
    change some (v.goto (if v.holds .ae then v.rip + 1 + 4 else v.rip + 1)) = _
    rw [holds, ripV]
    by_cases large : 12 ≤ t.regs .rax
    · rw [if_pos large, if_pos (decide_eq_true large)]
    · rw [if_neg large, if_neg (by rw [decide_eq_true_iff]; exact large)]
  exact ⟨_, .cons (rip ▸ here 29 _ rfl) compares (.one (ripV ▸ here 30 _ rfl) jumps), rfl, df, if_, rfl⟩

/-- The function of a system call is called with the arguments of the caller. -/
structure Dispatched (s t : State) (top function ret : Nat) : Prop where
  rip : t.rip = function
  stacked : Stacked t top (kept s) (UInt64.ofNat ret :: frame s)
  rcx : t.regs .rcx = s.regs .r10
  rbp : t.regs .rbp = 0
  regs : ∀ r, r ≠ .rax → r ≠ .rcx → r ≠ .rbp → r ≠ .rsp → t.regs r = s.regs r
  ds : t.segs .ds = 0x10
  es : t.segs .es = 0x10
  ss : t.segs .ss = s.segs .ss
  cs : t.cs = s.cs
  df : t.flag .df = false
  if_ : t.flag .if_ = true
  gs : (t.gsBase, t.kernelGsBase) = (s.kernelGsBase, s.gsBase)
  star : t.star = s.star

/-- `__syscall_table`. -/
structure Table (s : State) (table : UInt64) (top : Nat) (functions : List UInt64) : Prop where
  words : Stack s.mem table.toNat functions
  length : functions.length = 12
  fits : table.toNat + 8 * 12 ≤ 2 ^ 64
  stack : table.toNat + 8 * 12 ≤ top - 8 * 18 ∨ top ≤ table.toNat
  task : table.toNat + 8 * 12 ≤ s.kernelGsBase.toNat + 16 ∨ s.kernelGsBase.toNat + 24 ≤ table.toNat

/-- The functions and the place of the user stack lie apart from what the entry pushes. -/
theorem Table.function {functions : List UInt64} {function : UInt64} (entries : Table s table top functions)
    (prepared : Prepared s t top) (same : u.mem = t.mem) {number : UInt64} (small : number < 12)
    (found : functions[number.toNat]? = some function) : (u.load64 (number * 8 + table)).toNat = function.toNat := by
  have low : number.toNat < 12 := UInt64.lt_iff_toNat_lt.mp small
  have fits := entries.fits
  have stack := entries.stack
  have task := entries.task
  have room : _ + 8 * 17 = top := prepared.stacked.room
  have address : (number * 8 + table).toNat = table.toNat + 8 * number.toNat := by
    rw [UInt64.toNat_add, UInt64.toNat_mul]
    change (number.toNat * 8 % 2 ^ 64 + table.toNat) % 2 ^ 64 = _
    omega
  have read : u.mem.read64 (table.toNat + 8 * number.toNat) = function.toNat := by
    rw [← entries.words.get found, same]
    apply Mem.read64_congr
    intro x lower upper
    rw [prepared.stacked.mem x (by omega)]
    exact Mem.write64_other _ (by omega)
  unfold State.load64
  rw [address, read]
  exact UInt64.toNat_ofNat_of_lt' function.toNat_lt

theorem dispatches {functions : List UInt64} {function : UInt64} (here : At code s.rip (entry table))
    (callable : Callable s top) (fits : top < 2 ^ 64) (entries : Table s table top functions) (small : s.regs .rax < 12)
    (found : functions[(s.regs .rax).toNat]? = some function) :
    ∃ t, Steps code s t ∧ Dispatched s t top function.toNat (s.rip + 33) := by
  have room := callable.room
  obtain ⟨p, prepare, ripP, prepared⟩ := prepares here callable fits
  obtain ⟨q, compares, ripQ, dfQ, ifQ, restQ⟩ := tests here ripP
  rw [prepared.rax, if_neg (by rw [UInt64.not_le]; exact small)] at ripQ
  have regsQ := congrArg State.regs restQ
  have memQ := congrArg State.mem restQ
  change q.regs = p.regs at regsQ
  change q.mem = p.mem at memQ
  let v := (q.setFlag .if_ true).next
  have ripV : v.rip = s.rip + 32 := congrArg (· + 1) ripQ
  have target : (v.load64 (v.ea { index := some (.rax, 8), disp := table })).toNat = function.toNat := by
    have address : v.ea { index := some (.rax, 8), disp := table } = s.regs .rax * 8 + table := by
      simp [State.ea, v, regsQ, prepared.rax]
    rw [address]
    exact entries.function prepared memQ small found
  let w := (v.push (UInt64.ofNat (v.rip + 1))).goto function.toNat
  have calls : exec v (.callMem { index := some (.rax, 8), disp := table }) = some w := by
    unfold w
    rw [← target]
    rfl
  have onV : Stacked v top (kept s) (frame s) := prepared.stacked.of_same (congrFun regsQ .rsp) memQ
  have onW : Stacked w top (kept s) _ := (onV.push (UInt64.ofNat (v.rip + 1)) room).goto function.toNat
  have regsW : ∀ r, r ≠ .rsp → w.regs r = p.regs r := by
    intro r rsp
    simp [w, v, rsp, regsQ]
  have segs := congrArg State.segs restQ
  have cs := congrArg State.cs restQ
  have gs := congrArg (fun s => (s.gsBase, s.kernelGsBase)) restQ
  have star := congrArg State.star restQ
  refine ⟨w, ?_, rfl, ?_, ?_, ?_, ?_, ?_, ?_, ?_, cs.trans prepared.cs, ?_, ?_, gs.trans prepared.gs, star.trans prepared.star⟩
  · apply prepare.trans
    apply compares.trans
    exact .cons (ripQ ▸ here 31 _ rfl) rfl (.one (ripV ▸ here 32 _ rfl) calls)
  · rw [show v.rip + 1 = s.rip + 33 from congrArg (· + 1) ripV] at onW
    exact onW
  · rw [regsW .rcx (by decide), prepared.rcx]
  · rw [regsW .rbp (by decide), prepared.rbp]
  · intro r rax rcx rbp rsp
    rw [regsW r rsp, prepared.regs r rax rcx rbp rsp]
  · exact (congrFun segs .ds).trans prepared.ds
  · exact (congrFun segs .es).trans prepared.es
  · exact (congrFun segs .ss).trans prepared.ss
  · change (q.setFlag .if_ true).flag .df = false
    rw [State.flag_setFlag, if_neg (by decide), dfQ, prepared.df]
  · change (q.setFlag .if_ true).flag .if_ = true
    rw [State.flag_setFlag, if_pos rfl]

/-- The caller behind its `syscall`: only `rax`, `rcx` and `r11` are not as they were. -/
structure Continued (s t : State) (answer : UInt64) : Prop where
  rip : t.rip = s.rip + 1
  rax : t.regs .rax = answer
  regs : ∀ r, r ≠ .rax → r ≠ .rcx → r ≠ .r11 → t.regs r = s.regs r
  rflags : t.rflags = (s.rflags &&& 0x3C7FD7) ||| 2
  ds : t.segs .ds = s.segs .ds
  es : t.segs .es = s.segs .es
  ss : t.segs .ss = userData.toUInt16
  cs : t.cs = userCode.toUInt16
  gs : (t.gsBase, t.kernelGsBase) = (s.gsBase, s.kernelGsBase)

/-- `IA32_STAR` as `cpu::init` sets it. -/
def star : UInt64 := (kernelCode <<< 32) ||| ((0x20 - 16 : UInt64) <<< 48)

theorem Answered.continued {answer : UInt64} (answered : Answered (syscall s) t u top) (small : s.rip + 1 < 2 ^ 64)
    (stars : t.star = star) (gs : (t.gsBase, t.kernelGsBase) = (s.kernelGsBase, s.gsBase)) (rax : t.regs .rax = answer) :
    Continued s u answer := by
  obtain ⟨gsBase, kernel⟩ := Prod.mk.inj gs
  have regs : ∀ r, u.regs r = Function.update (syscall s).regs .rax (t.regs .rax) r := congrFun answered.regs
  refine ⟨?_, ?_, ?_, ?_, answered.ds, answered.es, ?_, ?_, ?_⟩
  · exact answered.rip.trans (UInt64.toNat_ofNat_of_lt' small)
  · rw [regs, Function.update_self, rax]
  · intro r rax rcx r11
    rw [regs, Function.update_of_ne rax]
    exact (Function.update_of_ne r11 _ _).trans (Function.update_of_ne rcx _ _)
  · exact answered.rflags
  · rw [answered.ss, stars]
    decide
  · rw [answered.cs, stars]
    decide
  · rw [answered.gs, gsBase, kernel]

/-- A task whose kernel stack ends at `0x9000`, and a table of functions that only return. -/
def image : Mem := fun x => if x = 0x5009 then 0x90 else if 0x6000 ≤ x ∧ x % 8 = 0 then 59 else 0

def caller (number : UInt64) : State :=
  { (default : State) with
    regs := Function.update (fun _ => 0) .rax number
    kernelGsBase := 0x5000, star := star, mem := image }

def program : List Instr := entry 0x6000 ++ [.ret]

theorem program_entry : At (fun a => program[a]?) 0 (entry 0x6000) := by
  intro i instr found
  rw [Nat.zero_add]
  exact (List.getElem?_append_left (List.getElem?_eq_some_iff.mp found).1).trans found

theorem caller_callable (number : UInt64) : Callable (syscall (caller number)) 0x9000 := by
  refine ⟨show 0x5000 + 24 ≤ 2 ^ 64 by decide, ?_, by decide, .inr (show 0x5000 + 24 ≤ 0x9000 - 8 * 18 by decide)⟩
  change image.read64 0x5008 = 0x9000
  decide +kernel

theorem caller_table (number : UInt64) : Table (syscall (caller number)) 0x6000 0x9000 (List.replicate 12 59) := by
  refine ⟨?_, rfl, by decide, .inl (by decide), .inr (show 0x5000 + 24 ≤ 0x6000 by decide)⟩
  change Stack image 0x6000 _
  simp only [List.replicate, Stack]
  decide +kernel

variable {function : UInt64} {functions : List UInt64} {f : State → State}

/-- A function keeps what the entry has put away. -/
structure KeepsCall (s : State) (top : Nat) (function : UInt64) (f : State → State) : Prop where
  gsBase : ∀ t, t.rip = function.toNat → (f t).gsBase = t.gsBase
  kernelGsBase : ∀ t, t.rip = function.toNat → (f t).kernelGsBase = t.kernelGsBase
  star : ∀ t, t.rip = function.toNat → (f t).star = t.star
  mem : ∀ t, t.rip = function.toNat → ∀ x, (top - 8 * 17 ≤ x ∧ x < top) ∨
    (s.kernelGsBase.toNat + 16 ≤ x ∧ x < s.kernelGsBase.toNat + 24) → (f t).mem x = t.mem x

theorem returns_to_leave (here : At code s.rip (entry table)) (short : s.rip + 59 ≤ 2 ^ 64) (callable : Callable s top)
    (fits : top < 2 ^ 64) (dispatched : Dispatched s t top function.toNat (s.rip + 33)) (returns : Returns code function.toNat f)
    (keeps : KeepsCall s top function f) : ∃ u, Steps code t u ∧ Answered s (f t) u top := by
  have apart := callable.apart
  have room : (t.regs .rsp).toNat + 8 * 18 = top := dispatched.stacked.room
  have rip : (f t).rip = s.rip + 33 := by
    rw [returns.rip t dispatched.rip, dispatched.stacked.stack.1]
    exact UInt64.toNat_ofNat_of_lt' (by change s.rip + 33 < 2 ^ 64; omega)
  have rsp : ((f t).regs .rsp).toNat = (t.regs .rsp).toNat + 8 := by
    rw [returns.rsp t dispatched.rip, UInt64.toNat_add]
    exact Nat.mod_eq_of_lt (by change _ + 8 < 2 ^ 64; omega)
  let v := (((f t).setFlag .if_ false).next).goto (s.rip + 36)
  have ends : Steps code (f t) v := by
    refine .cons (rip ▸ here 33 _ rfl) rfl (.one (i := .jcc .always 1) ?_ ?_)
    · change code ((f t).rip + 1) = _
      rw [rip]
      exact here 34 _ rfl
    · change some (((f t).setFlag .if_ false).next.goto ((f t).rip + 1 + 1 + 1)) = _
      rw [rip]
  have stack : Stack v.mem (v.regs .rsp).toNat (frame s) := by
    change Stack (f t).mem ((f t).regs .rsp).toNat _
    rw [rsp]
    refine dispatched.stacked.stack.2.congr fun x lower upper => keeps.mem t dispatched.rip x (.inl ?_)
    change x < _ + 8 * 17 at upper
    omega
  have user : v.mem.read64 (s.kernelGsBase.toNat + 16) = (s.regs .rsp).toNat := by
    change (f t).mem.read64 _ = _
    rw [Mem.read64_congr fun x lower upper => keeps.mem t dispatched.rip x (.inr ⟨lower, by omega⟩),
      Mem.read64_congr fun x lower upper => dispatched.stacked.mem x (by omega)]
    exact (Mem.read64_write64 _ _ _).trans (Nat.mod_eq_of_lt (s.regs .rsp).toNat_lt)
  obtain ⟨u, leave, answered⟩ := leaves here (t := v) rfl callable fits (by change ((f t).regs .rsp).toNat + _ = _; omega) stack
    ((keeps.gsBase t dispatched.rip).trans (Prod.mk.inj dispatched.gs).1) user
  refine ⟨u, (returns.runs t dispatched.rip).trans (ends.trans leave), ?_⟩
  exact ⟨answered.regs, answered.rip, answered.rflags, answered.ds, answered.es, answered.ss, answered.cs, answered.gs, answered.mem⟩

/-- A system call with a number in the table calls its function, and the caller continues with
what the function has returned. -/
theorem syscall_continues (here : At code s.lstar.toNat (entry table)) (short : s.lstar.toNat + 59 ≤ 2 ^ 64)
    (callable : Callable (syscall s) top) (fits : top < 2 ^ 64) (entries : Table (syscall s) table top functions)
    (number : s.regs .rax < 12) (found : functions[(s.regs .rax).toNat]? = some function)
    (returns : Returns code function.toNat f) (keeps : KeepsCall (syscall s) top function f) (stars : s.star = star)
    (small : s.rip + 1 < 2 ^ 64) :
    ∃ c t, Steps code (syscall s) c ∧ Dispatched (syscall s) c top function.toNat (s.lstar.toNat + 33) ∧
      Steps code c t ∧ Continued s t ((f c).regs .rax) := by
  obtain ⟨c, calls, dispatched⟩ := dispatches (s := syscall s) here callable fits entries number found
  obtain ⟨t, back, answered⟩ := returns_to_leave here short callable fits dispatched returns keeps
  have gs : ((f c).gsBase, (f c).kernelGsBase) = (s.kernelGsBase, s.gsBase) := by
    rw [keeps.gsBase c dispatched.rip, keeps.kernelGsBase c dispatched.rip, dispatched.gs]
    rfl
  have stays : (f c).star = star := by
    rw [keeps.star c dispatched.rip, dispatched.star]
    exact stars
  exact ⟨c, t, calls, dispatched, back, answered.continued small stays gs rfl⟩

theorem syscall_continues_returned : ∃ c t, Steps (fun a => program[a]?) (syscall (caller 3)) c ∧ c.rip = 59 ∧
    Steps (fun a => program[a]?) c t ∧ t.rip = 1 := by
  obtain ⟨c, t, calls, dispatched, back, continued⟩ := syscall_continues program_entry (by decide) (caller_callable 3) (by decide)
    (caller_table 3) (by decide) rfl (leaf_returns rfl) ⟨fun _ _ => rfl, fun _ _ => rfl, fun _ _ => rfl, fun _ _ _ _ => rfl⟩
    rfl (by decide)
  exact ⟨c, t, calls, dispatched.rip, back, continued.rip⟩

/-- Any other number is answered with `-ENOSYS`, and only the kernel stack and the place of the user
stack are written. -/
theorem syscall_refused (here : At code s.lstar.toNat (entry table)) (callable : Callable (syscall s) top) (fits : top < 2 ^ 64)
    (number : 12 ≤ s.regs .rax) (stars : s.star = star) (small : s.rip + 1 < 2 ^ 64) :
    ∃ t, Steps code (syscall s) t ∧ Continued s t (-1051) ∧
      ∀ x, (x < top - 8 * 17 ∨ top ≤ x) → (x < s.kernelGsBase.toNat + 16 ∨ s.kernelGsBase.toNat + 24 ≤ x) → t.mem x = s.mem x := by
  have apart := callable.apart
  obtain ⟨p, prepare, ripP, prepared⟩ := prepares (s := syscall s) here callable fits
  obtain ⟨q, compares, ripQ, -, -, restQ⟩ := tests here ripP
  rw [prepared.rax, if_pos (show 12 ≤ (syscall s).regs .rax from number)] at ripQ
  have regsQ := congrArg State.regs restQ
  have memQ := congrArg State.mem restQ
  have gsQ := congrArg (fun s => (s.gsBase, s.kernelGsBase)) restQ
  have starQ := congrArg State.star restQ
  change q.regs = p.regs at regsQ
  change q.mem = p.mem at memQ
  let v := (q.set .rax (-1051)).next
  have answers : Steps code q v := .one (ripQ ▸ here 35 _ rfl) rfl
  have onV : Stacked v top (kept (syscall s)) (frame (syscall s)) := by
    refine prepared.stacked.of_same ?_ memQ
    simp [v, regsQ]
  have room : _ + 8 * 17 = top := onV.room
  have gs : (v.gsBase, v.kernelGsBase) = (s.kernelGsBase, s.gsBase) := gsQ.trans prepared.gs
  have user : v.mem.read64 (s.kernelGsBase.toNat + 16) = ((syscall s).regs .rsp).toNat := by
    change _ ≤ s.kernelGsBase.toNat + 16 ∨ s.kernelGsBase.toNat + 24 ≤ _ at apart
    rw [Mem.read64_congr fun x lower upper => onV.mem x (by omega)]
    exact (Mem.read64_write64 _ _ _).trans (Nat.mod_eq_of_lt (UInt64.toNat_lt _))
  obtain ⟨t, leave, answered⟩ := leaves here (congrArg (· + 1) ripQ) callable fits room onV.stack (Prod.mk.inj gs).1 user
  have stays : v.star = star := starQ.trans (prepared.star.trans stars)
  refine ⟨t, prepare.trans (compares.trans (answers.trans leave)), answered.continued small stays gs (by simp [v]), ?_⟩
  intro x stack task
  rw [answered.mem x stack, onV.mem x (by omega)]
  exact Mem.write64_other _ (by change _ < s.kernelGsBase.toNat + 16 ∨ s.kernelGsBase.toNat + 16 + 8 ≤ _; omega)

theorem syscall_refused_twelve : ∃ t, Steps (fun a => program[a]?) (syscall (caller 12)) t ∧ t.regs .rax = -1051 := by
  obtain ⟨t, steps, continued, -⟩ := syscall_refused program_entry (caller_callable 12) (by decide) (by decide) rfl (by decide)
  exact ⟨t, steps, continued.rax⟩

end FishOS.Cpu.SyscallEntry
