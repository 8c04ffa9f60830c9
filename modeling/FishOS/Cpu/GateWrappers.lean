import FishOS.Cpu.Interrupts
import FishOS.Lib.X86.Routine

/-!
# The interrupt wrappers as machine code

`gate_wrappers.asm`, run by a machine: what the handler finds in memory, and what the processor
continues with when the handler has returned.
-/

namespace FishOS.Cpu.GateWrappers

open X86

/-- `__idt_wrapper_<v>`. -/
def wrapper (v common : Nat) : List Instr :=
  (if hasErrcode v then [] else [.push (.imm 0)]) ++ [.push (.imm (UInt64.ofNat v)), .jmp common]

/-- `cmp QWORD [rsp + offset], 0x23`, and a `swapgs` when it is user code. -/
def swapIfUser (offset : UInt64) : List Instr := [
  .cmp (.mem { base := some .rsp, disp := offset }) (.imm 0x23),
  .jcc .ne 1,
  .swapgs]

def saved : List Reg := [.rbx, .rcx, .rdx, .rsi, .rdi, .rbp, .r8, .r9, .r10, .r11, .r12, .r13, .r14, .r15]

def restored : List Reg := [.r15, .r14, .r13, .r12, .r11, .r10, .r9, .r8, .rbp, .rdi, .rsi, .rdx, .rcx, .rbx, .rax]

/-- Between the last of the pushes and the call. -/
def prepare : List Instr := [
  .mov (.reg .rdi) (.reg .rax),
  .mov (.reg .rsi) (.reg .rsp),
  .movFromSeg .rax .es,
  .push (.reg .rax),
  .movFromSeg .rax .ds,
  .push (.reg .rax),
  .sub .rsi 16,
  .cld,
  .mov (.reg .rax) (.imm 0x10),
  .movToSeg .ds .rax,
  .movToSeg .es .rax,
  .movToSeg .ss .rax,
  .xor .rbp .rbp]

def restoreSegments : List Instr := [.pop .rax, .movToSeg .ds .rax, .pop .rax, .movToSeg .es .rax]

def enter (handler : Nat) : List Instr :=
  swapIfUser 16 ++ [.xchg .rax { base := some .rsp }] ++ saved.map (fun r => .push (.reg r)) ++ prepare ++ [.call handler]

def leave : List Instr :=
  restoreSegments ++ restored.map .pop ++ [.add .rsp 8] ++ swapIfUser 8 ++ [.iretq]

/-- `__idt_wrapper_common`. -/
def common (handler : Nat) : List Instr := enter handler ++ leave

end FishOS.Cpu.GateWrappers

namespace FishOS.Cpu

/-- The fields in the order of the structure, from its address up. -/
def InterruptState.words (state : InterruptState) : List UInt64 :=
  [state.ds, state.es, state.r15, state.r14, state.r13, state.r12, state.r11, state.r10, state.r9, state.r8, state.rbp,
    state.rdi, state.rsi, state.rdx, state.rcx, state.rbx, state.rax, state.err, state.rip, state.cs, state.rflags,
    state.rsp, state.ss]

/-- The fields that `pop` takes into registers. -/
def InterruptState.reg (state : InterruptState) : X86.Reg → UInt64
  | .rax => state.rax
  | .rbx => state.rbx
  | .rcx => state.rcx
  | .rdx => state.rdx
  | .rsi => state.rsi
  | .rdi => state.rdi
  | .rbp => state.rbp
  | .rsp => state.rsp
  | .r8 => state.r8
  | .r9 => state.r9
  | .r10 => state.r10
  | .r11 => state.r11
  | .r12 => state.r12
  | .r13 => state.r13
  | .r14 => state.r14
  | .r15 => state.r15

/-- The state of a machine that an interrupt with the error code `err` comes into. -/
def InterruptState.of (s : X86.State) (err : UInt64) : InterruptState where
  ds := (s.segs .ds).toUInt64
  es := (s.segs .es).toUInt64
  r15 := s.regs .r15
  r14 := s.regs .r14
  r13 := s.regs .r13
  r12 := s.regs .r12
  r11 := s.regs .r11
  r10 := s.regs .r10
  r9 := s.regs .r9
  r8 := s.regs .r8
  rbp := s.regs .rbp
  rdi := s.regs .rdi
  rsi := s.regs .rsi
  rdx := s.regs .rdx
  rcx := s.regs .rcx
  rbx := s.regs .rbx
  rax := s.regs .rax
  err := err
  rip := UInt64.ofNat s.rip
  cs := s.cs.toUInt64
  rflags := s.rflags
  rsp := s.regs .rsp
  ss := (s.segs .ss).toUInt64

end FishOS.Cpu

namespace FishOS.Cpu.GateWrappers

open X86

variable {code : Nat → Option Instr} {s t u : State} {top : Nat} {m : Mem} {words : List UInt64}

/-- What `swapIfUser` leaves as it was. -/
structure Tested (s t : State) (user : Bool) : Prop where
  rip : t.rip = s.rip + 3
  regs : t.regs = s.regs
  segs : t.segs = s.segs
  cs : t.cs = s.cs
  mem : t.mem = s.mem
  if_ : t.flag .if_ = s.flag .if_
  gs : (t.gsBase, t.kernelGsBase) = if user then (s.kernelGsBase, s.gsBase) else (s.gsBase, s.kernelGsBase)

theorem swapIfUser_tests {offset : UInt64} (here : At code s.rip (swapIfUser offset)) :
    ∃ t, Steps code s t ∧ Tested s t (s.load64 (s.regs .rsp + offset) == 0x23) := by
  let found := s.load64 (s.regs .rsp + offset)
  have address : s.read (.mem { base := some .rsp, disp := offset }) = found := by
    simp [State.read, State.ea, found]
  obtain ⟨rflags, flags⟩ := s.setFlags_eq (subFlags found.toBitVec (0x23 : UInt64).toBitVec)
  have compares : exec s (.cmp (.mem { base := some .rsp, disp := offset }) (.imm 0x23)) =
      some (s.setFlags (subFlags found.toBitVec (0x23 : UInt64).toBitVec)).next := by
    rw [← address]
    rfl
  have if_ : (s.setFlags (subFlags found.toBitVec (0x23 : UInt64).toBitVec)).flag .if_ = s.flag .if_ := State.if_subFlags _ _
  have decides := s.holds_ne_cmp found 0x23
  rw [flags] at compares if_ decides
  let v : State := { s with rflags := rflags }
  by_cases user : found = 0x23
  · have stays : exec v.next (.jcc .ne 1) = some v.next.next := by
      refine congrArg (fun rip => some (v.next.goto rip)) (if_neg ?_)
      rw [State.holds_next, decides, user]
      decide
    refine ⟨v.next.next.swapgs.next, .cons (here 0 _ rfl) compares (.cons (here 1 _ rfl) stays (.one (here 2 _ rfl) rfl)), ?_⟩
    refine ⟨rfl, rfl, rfl, rfl, rfl, if_, ?_⟩
    rw [if_pos (beq_iff_eq.mpr user)]
    rfl
  · have jumps : exec v.next (.jcc .ne 1) = some (v.next.goto (v.next.rip + 1 + 1)) := by
      refine congrArg (fun rip => some (v.next.goto rip)) (if_pos ?_)
      rw [State.holds_next, decides, decide_eq_true_iff]
      exact user
    refine ⟨v.next.goto (v.next.rip + 1 + 1), .cons (here 0 _ rfl) compares (.one (here 1 _ rfl) jumps), ?_⟩
    refine ⟨rfl, rfl, rfl, rfl, rfl, if_, ?_⟩
    rw [if_neg (by rw [beq_iff_eq]; exact user)]
    rfl

/-- An interrupt that has come into `s`, at the entry of `__idt_wrapper_<v>`. -/
def arrive (s : State) (entry v : Nat) (stack err : UInt64) : State :=
  interrupt s entry 8 stack (if hasErrcode v then some err else none)

/-- What is true before the common code. -/
structure Delivered (s t : State) (v top : Nat) (err : UInt64) : Prop where
  stacked : Stacked t top s.mem (wrapperPush v (hardwarePush v (.of s err)))
  regs : ∀ r, r ≠ .rsp → t.regs r = s.regs r
  ds : t.segs .ds = s.segs .ds
  es : t.segs .es = s.segs .es
  cs : t.cs = 8
  if_ : t.flag .if_ = false
  gs : (t.gsBase, t.kernelGsBase) = (s.gsBase, s.kernelGsBase)

theorem wrapper_delivers (s : State) {entry v common : Nat} {stack : UInt64} (err : UInt64) (here : At code entry (wrapper v common))
    (room : 8 * 7 ≤ (stack &&& ~~~15).toNat) :
    ∃ t, Steps code (arrive s entry v stack err) t ∧ t.rip = common ∧
      Delivered s t v (stack &&& ~~~15).toNat err := by
  have arrived : Interrupted s (arrive s entry v stack err) _ _ := interrupt_interrupted (by omega)
  have rip : (arrive s entry v stack err).rip = entry := rfl
  have cs : (arrive s entry v stack err).cs = 8 := rfl
  unfold wrapper at here
  generalize arrive s entry v stack err = i at arrived rip cs ⊢
  generalize (stack &&& ~~~15).toNat = top at room arrived ⊢
  subst rip
  cases coded : hasErrcode v with
  | true =>
    rw [coded] at here arrived
    have frame := arrived.stacked.push (UInt64.ofNat v) room
    refine ⟨_, .cons (here 0 _ rfl) rfl (.one (i := .jmp common) (here 1 _ rfl) rfl), rfl, ?_⟩
    refine ⟨?_, ?_, arrived.ds, arrived.es, cs, arrived.if_, arrived.gs⟩
    · unfold wrapperPush hardwarePush
      rw [coded]
      exact frame.of_same rfl rfl
    · intro r apart
      rw [← arrived.regs r apart]
      simp [apart]
  | false =>
    rw [coded] at here arrived
    have frame := (arrived.stacked.push 0 (show 8 * 6 ≤ top by omega)).push (UInt64.ofNat v) room
    refine ⟨_, .cons (here 0 _ rfl) rfl (.cons (here 1 _ rfl) rfl (.one (i := .jmp common)
      (here 2 _ rfl) rfl)), rfl, ?_⟩
    refine ⟨?_, ?_, arrived.ds, arrived.es, cs, arrived.if_, arrived.gs⟩
    · unfold wrapperPush hardwarePush
      rw [coded]
      exact frame.of_same rfl rfl
    · intro r apart
      rw [← arrived.regs r apart]
      simp [apart]

/-- The frame for the handler. -/
def frame (s : State) (v : Nat) (err : UInt64) : InterruptState :=
  savedState (wrapperPush v (hardwarePush v (.of s err))) (.of s err)

/-- What the handler finds when it is called. -/
structure Entered (s t : State) (v top handler ret : Nat) (err : UInt64) : Prop where
  rip : t.rip = handler
  stacked : Stacked t top s.mem (UInt64.ofNat ret :: (frame s v err).words)
  rdi : t.regs .rdi = UInt64.ofNat v
  rsi : t.regs .rsi = t.regs .rsp + 8
  rbp : t.regs .rbp = 0
  segs : ∀ seg, t.segs seg = 0x10
  cs : t.cs = 8
  df : t.flag .df = false
  if_ : t.flag .if_ = false
  gs : (t.gsBase, t.kernelGsBase) =
    if entryTest (wrapperPush v (hardwarePush v (.of s err))) then (s.kernelGsBase, s.gsBase) else (s.gsBase, s.kernelGsBase)

/-- `xchg rax, [rsp]`. -/
theorem exec_xchg {above : UInt64} (stacked : Stacked s top m (above :: words)) :
    ∃ t, exec s (.xchg .rax { base := some .rsp }) = some t ∧ Stacked t top m (s.regs .rax :: words) ∧ t.rip = s.rip + 1 ∧
      t.regs .rax = above ∧ (∀ r, r ≠ .rax → t.regs r = s.regs r) ∧ t.segs = s.segs ∧ t.cs = s.cs ∧ t.rflags = s.rflags ∧
      (t.gsBase, t.kernelGsBase) = (s.gsBase, s.kernelGsBase) := by
  refine ⟨((s.store64 (s.regs .rsp) (s.regs .rax)).set .rax (s.load64 (s.regs .rsp))).next, ?_, ?_, rfl, ?_, ?_, rfl, rfl, rfl, rfl⟩
  · simp [exec, State.ea]
  · exact (stacked.replace (s.regs .rax)).of_same (by simp) (by simp)
  · simp [stacked.stack.load64]
  · intro r apart
    simp [apart]
    rfl

/-- Up to the last push of the common code. -/
structure Saved (s t : State) (v top : Nat) (err : UInt64) : Prop where
  stacked : Stacked t top s.mem
    (saved.reverse.map s.regs ++ s.regs .rax :: (wrapperPush v (hardwarePush v (.of s err))).tail)
  rax : t.regs .rax = UInt64.ofNat v
  ds : t.segs .ds = s.segs .ds
  es : t.segs .es = s.segs .es
  cs : t.cs = 8
  if_ : t.flag .if_ = false
  gs : (t.gsBase, t.kernelGsBase) =
    if entryTest (wrapperPush v (hardwarePush v (.of s err))) then (s.kernelGsBase, s.gsBase) else (s.gsBase, s.kernelGsBase)

theorem enter_saves {v handler : Nat} {err : UInt64} (here : At code t.rip (common handler)) (delivered : Delivered s t v top err)
    (fits : top < 2 ^ 64) (room : 8 * 24 ≤ top) :
    ∃ u, Steps code t u ∧ u.rip = t.rip + 18 ∧ Saved s u v top err := by
  have stacked := delivered.stacked
  obtain ⟨a, tests, tested⟩ := swapIfUser_tests (here.part 0 3)
  have user : (t.load64 (t.regs .rsp + 16) == 0x23) = entryTest (wrapperPush v (hardwarePush v (.of s err))) := by
    rw [entryTest_eq]
    rw [entry_stack] at stacked
    exact congrArg (· == 0x23) (stacked.word (i := 2) (Nat.le_of_lt fits) rfl)
  rw [user] at tested
  obtain ⟨below, shape⟩ : ∃ below, wrapperPush v (hardwarePush v (.of s err)) = UInt64.ofNat v :: below := ⟨_, rfl⟩
  have length : below.length = 6 := by
    rw [entry_stack] at shape
    rw [← (List.cons.inj shape).2]
    rfl
  rw [shape] at stacked
  obtain ⟨b, swaps, onB, ripB, raxB, regsB, segsB, csB, flagsB, gsB⟩ :=
    exec_xchg (stacked.of_same (t := a) (congrFun tested.regs _) tested.mem)
  rw [tested.rip] at ripB
  rw [tested.regs, delivered.regs .rax (by decide)] at onB
  have deep := onB.room
  rw [List.length_cons, length] at deep
  have there : At code b.rip (saved.map fun r => .push (.reg r)) := ripB ▸ here.part 4 14
  obtain ⟨u, pushes, pushed⟩ := Steps.pushes _ there (by decide) (by change 8 * 14 ≤ _; omega)
  have same : saved.reverse.map b.regs = saved.reverse.map s.regs := by
    apply List.map_congr_left
    intro r member
    have apart : r ≠ .rsp ∧ r ≠ .rax := by
      revert member
      cases r <;> decide
    rw [regsB r apart.2, tested.regs, delivered.regs r apart.1]
  rw [same] at pushed
  have exchanges : Steps code a b := .one (tested.rip ▸ here 3 _ rfl) swaps
  refine ⟨u, (tests.trans exchanges).trans pushes, ?_, ?_⟩
  · have rip := congrArg State.rip pushed.rest
    exact rip.trans (by rw [ripB]; rfl)
  · have segs : u.segs = t.segs := (congrArg State.segs pushed.rest).trans (segsB.trans tested.segs)
    have rflags : u.rflags = a.rflags := (congrArg State.rflags pushed.rest).trans flagsB
    refine ⟨?_, ?_, ?_, ?_, ?_, ?_, ?_⟩
    · rw [shape]
      exact (onB.goto _).pushed pushed
    · exact (pushed.regs .rax (by decide)).trans raxB
    · rw [segs]
      exact delivered.ds
    · rw [segs]
      exact delivered.es
    · exact (congrArg State.cs pushed.rest).trans (csB.trans (tested.cs.trans delivered.cs))
    · rw [State.flag_congr rflags, tested.if_, delivered.if_]
    · have gs := congrArg (fun s => (s.gsBase, s.kernelGsBase)) pushed.rest
      obtain ⟨base, kernel⟩ := Prod.mk.inj delivered.gs
      rw [← base, ← kernel]
      exact gs.trans (gsB.trans tested.gs)

/-- The words that the common code and the processor have pushed are the fields of the frame. -/
theorem frame_words (s : State) (v : Nat) (err : UInt64) : (frame s v err).words =
    (s.segs .ds).toUInt64 :: (s.segs .es).toUInt64 ::
      (saved.reverse.map s.regs ++ s.regs .rax :: (wrapperPush v (hardwarePush v (.of s err))).tail) := by
  unfold frame
  rw [entry_stack]
  rfl

/-- The kernel's data segments, and the direction that compiled code expects. -/
theorem loadsSegments (here : At code s.rip ((prepare.drop 7).take 5)) :
    ∃ t, Steps code s t ∧ t.rip = s.rip + 5 ∧ (∀ seg, t.segs seg = 0x10) ∧ (∀ r, r ≠ .rax → t.regs r = s.regs r) ∧
      t.flag .df = false ∧ t.flag .if_ = s.flag .if_ ∧ t.mem = s.mem ∧ t.cs = s.cs ∧
      (t.gsBase, t.kernelGsBase) = (s.gsBase, s.kernelGsBase) := by
  obtain ⟨steps, rip⟩ := Steps.block here (by decide) rfl
  refine ⟨_, steps, rip, ?_, ?_, ?_, ?_, rfl, rfl, rfl⟩
  · intro seg
    cases seg <;> rfl
  · intro r rax
    change (State.set _ .rax _).regs r = _
    rw [State.regs_set, if_neg rax]
    rfl
  · change (s.setFlag .df false).flag .df = false
    rw [State.flag_setFlag, if_pos rfl]
  · change (s.setFlag .df false).flag .if_ = _
    rw [State.flag_setFlag, if_neg (by decide)]

theorem enter_calls {v handler base : Nat} {err : UInt64} (here : At code base (common handler)) (rip : t.rip = base + 18)
    (saves : Saved s t v top err) (room : 8 * 24 ≤ top) :
    ∃ u, Steps code t u ∧ Entered s u v top handler (base + 32) err := by
  have words := frame_words s v err
  have length : (frame s v err).words.length = 23 := rfl
  rw [words, List.length_cons, List.length_cons] at length
  let p := ((t.set .rdi (t.regs .rax)).next.set .rsi (t.regs .rsp)).next
  have ripP : p.rip = base + 20 := by change t.rip + 1 + 1 = _; rw [rip]
  have moves : Steps code t p := .cons (rip ▸ here 18 _ rfl) rfl (.one (i := .mov (.reg .rsi) (.reg .rsp))
    (by change code (t.rip + 1) = _; rw [rip]; exact here 19 _ rfl) (by simp [exec, State.read, State.write, p]))
  have onP : Stacked p top s.mem _ := saves.stacked.of_same (by simp [p]) (by simp [p])
  obtain ⟨q, pushesEs, onQ, rspQ, regsQ, restQ⟩ := Steps.pushSeg .es (ripP ▸ here.part 20 2) onP (by omega)
  have ripQ : q.rip = base + 22 := (congrArg State.rip restQ).trans (congrArg (· + 2) ripP)
  obtain ⟨r, pushesDs, onR, rspR, regsR, restR⟩ := Steps.pushSeg .ds (ripQ ▸ here.part 22 2) onQ
    (by rw [List.length_cons]; omega)
  have ripR : r.rip = base + 24 := (congrArg State.rip restR).trans (congrArg (· + 2) ripQ)
  obtain ⟨rflags, subtracts, -, ifX⟩ := exec_sub r .rsi 16
  let x := ({ r with rflags := rflags }.set .rsi (r.regs .rsi - 16)).next
  have ripX : x.rip = base + 25 := congrArg (· + 1) ripR
  obtain ⟨y, loads, ripY, segsY, regsY, dfY, ifY, memY, csY, gsY⟩ := loadsSegments (s := x) (ripX ▸ here.part 25 5)
  obtain ⟨rflags', clears, dfZ, ifZ⟩ := exec_xor_self y .rbp
  let z := ({ y with rflags := rflags' }.set .rbp 0).next
  have ripZ : z.rip = base + 31 := by change y.rip + 1 = _; rw [ripY, ripX]
  have regsZ : ∀ g, g ≠ .rax → g ≠ .rbp → g ≠ .rsi → z.regs g = r.regs g := by
    intro g rax rbp rsi
    change (State.set _ .rbp 0).regs g = _
    rw [State.regs_set, if_neg rbp]
    refine (regsY g rax).trans ?_
    change (State.set _ .rsi _).regs g = _
    rw [State.regs_set, if_neg rsi]
  have es : (p.segs .es).toUInt64 = (s.segs .es).toUInt64 := congrArg UInt16.toUInt64 saves.es
  have ds : (q.segs .ds).toUInt64 = (s.segs .ds).toUInt64 := by
    rw [← saves.ds]
    exact congrArg (fun s => (s.segs .ds).toUInt64) restQ
  rw [ds, es, ← words] at onR
  have onZ : Stacked z top s.mem (frame s v err).words :=
    onR.of_same (regsZ .rsp (by decide) (by decide) (by decide)) memY
  have enough : 8 * ((frame s v err).words.length + 1) ≤ top := room
  have onU := (onZ.push (UInt64.ofNat (z.rip + 1)) enough).goto handler
  have run : Steps code t z := by
    apply moves.trans
    apply pushesEs.trans
    apply pushesDs.trans
    apply Steps.cons (ripR ▸ here 24 _ rfl) subtracts
    exact loads.trans (.one (by rw [ripY, ripX]; exact here 30 _ rfl) clears)
  have top_z : (z.push (UInt64.ofNat (z.rip + 1))).regs .rsp + 8 = z.regs .rsp := by
    rw [State.regs_push, if_pos rfl]
    exact UInt64.sub_add_cancel _ _
  refine ⟨(z.push (UInt64.ofNat (z.rip + 1))).goto handler, run.trans (.one (ripZ ▸ here 31 _ rfl) rfl), rfl, ?_, ?_, ?_, ?_, segsY, ?_,
    dfZ.trans dfY, ?_, ?_⟩
  · rw [ripZ] at onU ⊢
    exact onU
  · rw [State.regs_goto, State.regs_push, if_neg (by decide), regsZ .rdi (by decide) (by decide) (by decide),
      regsR .rdi (by decide) (by decide), regsQ .rdi (by decide) (by decide), ← saves.rax]
    simp [p]
  · rw [State.regs_goto, top_z, regsZ .rsp (by decide) (by decide) (by decide), rspR, rspQ, State.regs_push,
      if_neg (by decide)]
    have frame : r.regs .rsi = p.regs .rsp := by
      rw [regsR .rsi (by decide) (by decide), regsQ .rsi (by decide) (by decide)]
      simp [p]
    calc z.regs .rsi = y.regs .rsi := by simp [z]
      _ = r.regs .rsi - 16 := by
        rw [regsY .rsi (by decide)]
        simp [x]
      _ = p.regs .rsp - 8 - 8 := by
        rw [frame]
        grind
  · rw [State.regs_goto, State.regs_push, if_neg (by decide)]
    simp [z]
  · have csQ := congrArg State.cs restQ
    have csR := congrArg State.cs restR
    exact csY.trans (csR.trans (csQ.trans saves.cs))
  · have flagsQ := congrArg State.rflags restQ
    have flagsR := congrArg State.rflags restR
    exact ifZ.trans (ifY.trans (ifX.trans ((State.flag_congr (flagsR.trans flagsQ) .if_).trans saves.if_)))
  · have gsQ := congrArg (fun s => (s.gsBase, s.kernelGsBase)) restQ
    have gsR := congrArg (fun s => (s.gsBase, s.kernelGsBase)) restR
    exact gsY.trans (gsR.trans (gsQ.trans saves.gs))

/-- The processor continues with the frame that the handler has left. -/
structure Resumed (s t : State) (state : InterruptState) : Prop where
  rip : t.rip = state.rip.toNat
  regs : ∀ r, t.regs r = state.reg r
  ds : t.segs .ds = state.ds.toUInt16
  es : t.segs .es = state.es.toUInt16
  ss : t.segs .ss = state.ss.toUInt16
  cs : t.cs = state.cs.toUInt16
  rflags : t.rflags = state.rflags
  mem : t.mem = s.mem
  gs : (t.gsBase, t.kernelGsBase) =
    if exitTest (iretStack state) then (s.kernelGsBase, s.gsBase) else (s.gsBase, s.kernelGsBase)

theorem leave_resumes {handler base : Nat} {state : InterruptState} (here : At code base (common handler))
    (rip : s.rip = base + 32) (stack : Stack s.mem (s.regs .rsp).toNat state.words)
    (fits : (s.regs .rsp).toNat + 8 * 23 < 2 ^ 64) :
    ∃ t, Steps code s t ∧ Resumed s t state := by
  have words : state.words = state.ds :: state.es :: (restored.map state.reg ++ state.err :: iretStack state) := rfl
  rw [words] at stack
  obtain ⟨p, popsDs, rspP, stackP, regsP, segsP, restP⟩ := Steps.popSeg .ds (rip ▸ here.part 32 2) stack (by omega)
  have ripP : p.rip = base + 34 := (congrArg State.rip restP).trans (congrArg (· + 2) rip)
  obtain ⟨q, popsEs, rspQ, stackQ, regsQ, segsQ, restQ⟩ := Steps.popSeg .es (ripP ▸ here.part 34 2) stackP (by omega)
  have ripQ : q.rip = base + 36 := (congrArg State.rip restQ).trans (congrArg (· + 2) ripP)
  obtain ⟨registers, below⟩ := stack_append.mp stackQ
  obtain ⟨u, pops, popped⟩ := Steps.pops restored state.reg (ripQ ▸ here.part 36 15) (by decide) registers
    (by change _ + 8 * 15 < _; omega)
  have topU : (u.regs .rsp).toNat = (q.regs .rsp).toNat + 8 * 15 := popped.top
  have restU := popped.rest
  have ripU : u.rip = base + 51 := (congrArg State.rip restU).trans (congrArg (· + 15) ripQ)
  have memP := congrArg State.mem restP
  have memQ := congrArg State.mem restQ
  have memU := congrArg State.mem restU
  obtain ⟨rflags, skips⟩ := exec_add u .rsp 8
  let x := ({ u with rflags := rflags }.set .rsp (u.regs .rsp + 8)).next
  have ripX : x.rip = base + 52 := congrArg (· + 1) ripU
  obtain ⟨y, tests, tested⟩ := swapIfUser_tests (s := x) (ripX ▸ here.part 52 3)
  have ripY : y.rip = base + 55 := tested.rip.trans (congrArg (· + 3) ripX)
  have topY : (y.regs .rsp).toNat = (q.regs .rsp).toNat + 8 * 15 + 8 := by
    rw [tested.regs, State.regs_next, State.regs_set, if_pos rfl, UInt64.toNat_add, topU]
    exact Nat.mod_eq_of_lt (by change _ + 8 < 2 ^ 64; omega)
  have stackY : Stack y.mem (y.regs .rsp).toNat (iretStack state) := by
    rw [topY, tested.mem]
    change Stack u.mem _ _
    have same : u.mem = q.mem := memU
    rw [same]
    exact below.2
  have word : ∀ i value, (iretStack state)[i]? = some value → y.word i = value :=
    fun i value found => stackY.word (by change _ + 8 * 5 ≤ _; omega) found
  have user : (x.load64 (x.regs .rsp + 8) == 0x23) = exitTest (iretStack state) := by
    have cs := word 1 state.cs rfl
    unfold State.word State.load64 at cs
    rw [tested.regs, tested.mem] at cs
    exact congrArg (· == 0x23) cs
  rw [user] at tested
  have segsY : y.segs = Function.update (Function.update s.segs .ds state.ds.toUInt16) .es state.es.toUInt16 := by
    have segsU := congrArg State.segs restU
    rw [← segsP, ← segsQ]
    exact tested.segs.trans segsU
  have run : Steps code s y := by
    apply popsDs.trans
    apply popsEs.trans
    apply pops.trans
    exact .cons (ripU ▸ here 51 _ rfl) skips tests
  refine ⟨_, run.trans (.one (ripY ▸ here 55 _ rfl) rfl), ?_, ?_, ?_, ?_, ?_, ?_, ?_, ?_, ?_⟩
  · exact congrArg UInt64.toNat (word 0 state.rip rfl)
  · intro r
    change Function.update y.regs .rsp (y.word 3) r = _
    rw [Function.update_apply, word 3 state.rsp rfl]
    split
    · rename_i rsp
      rw [rsp]
      rfl
    · rename_i apart
      rw [tested.regs, State.regs_next, State.regs_set, if_neg apart]
      exact popped.loaded r (by revert apart; cases r <;> decide)
  · change Function.update y.segs .ss (y.word 4).toUInt16 .ds = state.ds.toUInt16
    rw [Function.update_of_ne (by decide), segsY]
    rfl
  · change Function.update y.segs .ss (y.word 4).toUInt16 .es = state.es.toUInt16
    rw [Function.update_of_ne (by decide), segsY]
    rfl
  · change Function.update y.segs .ss (y.word 4).toUInt16 .ss = state.ss.toUInt16
    rw [Function.update_self, word 4 state.ss rfl]
  · exact congrArg UInt64.toUInt16 (word 1 state.cs rfl)
  · exact word 2 state.rflags rfl
  · exact tested.mem.trans (memU.trans (memQ.trans memP))
  · have gsP := congrArg (fun s => (s.gsBase, s.kernelGsBase)) restP
    have gsQ := congrArg (fun s => (s.gsBase, s.kernelGsBase)) restQ
    have gsU := congrArg (fun s => (s.gsBase, s.kernelGsBase)) restU
    have gs : (x.gsBase, x.kernelGsBase) = (s.gsBase, s.kernelGsBase) := gsU.trans (gsQ.trans gsP)
    obtain ⟨base, kernel⟩ := Prod.mk.inj gs
    rw [← base, ← kernel]
    exact tested.gs

/-- Where the wrappers lie. -/
structure Layout (code : Nat → Option Instr) (entry v base handler : Nat) : Prop where
  wrapper : At code entry (wrapper v base)
  common : At code base (common handler)
  small : base + 56 ≤ 2 ^ 64

variable {entry v base handler : Nat} {stack err : UInt64} {f : State → State}

theorem calls_handler (s : State) (err : UInt64) (layout : Layout code entry v base handler) (room : 8 * 24 ≤ (stack &&& ~~~15).toNat) :
    ∃ c, Steps code (arrive s entry v stack err) c ∧ Entered s c v (stack &&& ~~~15).toNat handler (base + 32) err := by
  have fits := (stack &&& ~~~15).toNat_lt
  obtain ⟨t, wraps, rip, delivered⟩ := wrapper_delivers s err layout.wrapper (Nat.le_trans (by decide) room)
  obtain ⟨u, saves, rip', saved⟩ := enter_saves (rip ▸ layout.common) delivered fits room
  obtain ⟨c, calls, entered⟩ := enter_calls layout.common (rip'.trans (congrArg (· + 18) rip)) saved room
  exact ⟨c, wraps.trans (saves.trans calls), entered⟩

theorem Entered.frame_above {ret : Nat} (entered : Entered s t v top handler ret err) (fits : top < 2 ^ 64) :
    (t.regs .rsi).toNat + 8 * 23 = top ∧ Stack t.mem (t.regs .rsi).toNat (frame s v err).words := by
  have room := entered.stacked.room
  change _ + 8 * 24 = top at room
  have above : (t.regs .rsi).toNat = (t.regs .rsp).toNat + 8 := by
    rw [entered.rsi, UInt64.toNat_add]
    exact Nat.mod_eq_of_lt (by change _ + 8 < 2 ^ 64; omega)
  rw [above]
  exact ⟨by omega, entered.stacked.stack.2⟩

theorem handler_returns (layout : Layout code entry v base handler) (returns : Returns code handler f)
    (fits : top < 2 ^ 64) (entered : Entered s t v top handler (base + 32) err) {state : InterruptState}
    (left : Stack (f t).mem (t.regs .rsi).toNat state.words) : ∃ u, Steps code t u ∧ Resumed (f t) u state := by
  have small := layout.small
  have rip : (f t).rip = base + 32 := by
    rw [returns.rip t entered.rip, entered.stacked.stack.1]
    exact UInt64.toNat_ofNat_of_lt' (by change base + 32 < 2 ^ 64; omega)
  have rsp : (f t).regs .rsp = t.regs .rsi := by rw [returns.rsp t entered.rip, entered.rsi]
  have above := (entered.frame_above fits).1
  obtain ⟨u, leaves, resumed⟩ := leave_resumes layout.common rip (rsp ▸ left) (by rw [rsp]; omega)
  exact ⟨u, (returns.runs t entered.rip).trans leaves, resumed⟩

/-- The common code, a handler that does nothing, and the wrapper of the page fault. -/
def image : List Instr := common 56 ++ [.ret] ++ wrapper 14 0

theorem image_layout : Layout (fun a => image[a]?) 57 14 0 56 :=
  ⟨(At.self image).part 57 2, (At.self image).part 0 56, by decide⟩

theorem image_returns : Returns (fun a => image[a]?) 56 leaf := leaf_returns rfl

/-- The handler is given the vector and the interrupted state, and the processor continues with
whatever state the handler leaves in its place. -/
theorem handler_frame_resumed (s : State) (err : UInt64) (layout : Layout code entry v base handler) (returns : Returns code handler f)
    (room : 8 * 24 ≤ (stack &&& ~~~15).toNat) :
    ∃ c, Steps code (arrive s entry v stack err) c ∧ Entered s c v (stack &&& ~~~15).toNat handler (base + 32) err ∧
      ∀ state, Stack (f c).mem (c.regs .rsi).toNat state.words → ∃ t, Steps code c t ∧ Resumed (f c) t state := by
  obtain ⟨c, calls, entered⟩ := calls_handler s err layout room
  exact ⟨c, calls, entered, fun state left => handler_returns layout returns (stack &&& ~~~15).toNat_lt entered left⟩

theorem handler_frame_resumed_pageFault : ∃ c t, Steps (fun a => image[a]?) (arrive default 57 14 0x9000 2) c ∧
    c.regs .rdi = 14 ∧ Steps (fun a => image[a]?) c t ∧ t.rip = 0 := by
  obtain ⟨c, calls, entered, resumes⟩ := handler_frame_resumed default 2 image_layout
    image_returns (show 8 * 24 ≤ ((0x9000 : UInt64) &&& ~~~15).toNat by decide)
  obtain ⟨t, steps, resumed⟩ := resumes _ (entered.frame_above (by decide)).2
  exact ⟨c, t, calls, entered.rdi, steps, resumed.rip⟩

theorem swapped_twice {P Q : Prop} [Decidable P] [Decidable Q] {a b c d e f : UInt64}
    (entry : (c, d) = if P then (b, a) else (a, b)) (exit : (e, f) = if Q then (d, c) else (c, d)) :
    (e, f) = if (P ↔ Q) then (a, b) else (b, a) := by
  by_cases p : P <;> by_cases q : Q <;> simp_all

/-- An interrupt whose handler leaves the frame and the GS bases as it has found them. -/
theorem interrupt_transparent (s : State) (err : UInt64) (layout : Layout code entry v base handler) (returns : Returns code handler f)
    (room : 8 * 24 ≤ (stack &&& ~~~15).toNat) (rip : s.rip < 2 ^ 64)
    (keeps : ∀ c, c.rip = handler → (f c).gsBase = c.gsBase ∧ (f c).kernelGsBase = c.kernelGsBase ∧
      ∀ x, (c.regs .rsi).toNat ≤ x → x < (c.regs .rsi).toNat + 8 * 23 → (f c).mem x = c.mem x) :
    ∃ c t, Steps code (arrive s entry v stack err) c ∧ Steps code c t ∧ t.mem = (f c).mem ∧ t.rip = s.rip ∧
      t.regs = s.regs ∧ t.segs = s.segs ∧ t.cs = s.cs ∧ t.rflags = s.rflags ∧
      (t.gsBase, t.kernelGsBase) =
        if (s.rip = 0x23 ↔ s.cs = 0x23) then (s.gsBase, s.kernelGsBase) else (s.kernelGsBase, s.gsBase) := by
  obtain ⟨c, calls, entered⟩ := calls_handler s err layout room
  obtain ⟨base', kernel, same⟩ := keeps c entered.rip
  have left := (entered.frame_above (stack &&& ~~~15).toNat_lt).2.congr same
  obtain ⟨t, resumes, resumed⟩ := handler_returns layout returns (stack &&& ~~~15).toNat_lt entered left
  have words : frame s v err = { InterruptState.of s err with err := if hasErrcode v then err else 0 } :=
    savedState_eq v (.of s err)
  rw [words] at resumed
  refine ⟨c, t, calls, resumes, resumed.mem, ?_, ?_, ?_, ?_, resumed.rflags, ?_⟩
  · exact resumed.rip.trans (UInt64.toNat_ofNat_of_lt' rip)
  · funext r
    rw [resumed.regs r]
    cases r <;> rfl
  · funext seg
    cases seg with
    | ds => exact resumed.ds.trans (by simp [InterruptState.of])
    | es => exact resumed.es.trans (by simp [InterruptState.of])
    | ss => exact resumed.ss.trans (by simp [InterruptState.of])
  · exact resumed.cs.trans (by simp [InterruptState.of])
  · have entry := entered.gs
    have exit := resumed.gs
    have user : (UInt64.ofNat s.rip == 0x23) = true ↔ s.rip = 0x23 := by
      rw [beq_iff_eq, ← UInt64.toNat_inj, UInt64.toNat_ofNat_of_lt' rip]
      rfl
    have user' : (s.cs.toUInt64 == 0x23) = true ↔ s.cs = 0x23 := by
      rw [beq_iff_eq, ← UInt64.toNat_inj, ← UInt16.toNat_inj, UInt16.toNat_toUInt64]
      rfl
    rw [entryTest_eq] at entry
    rw [exitTest_eq, base', kernel] at exit
    change _ = if (UInt64.ofNat s.rip == 0x23) = true then _ else _ at entry
    change _ = if (s.cs.toUInt64 == 0x23) = true then _ else _ at exit
    simp only [user] at entry
    simp only [user'] at exit
    exact swapped_twice entry exit

theorem interrupt_transparent_pageFault : ∃ c t, Steps (fun a => image[a]?) (arrive default 57 14 0x9000 2) c ∧
    Steps (fun a => image[a]?) c t ∧ t.regs = (default : State).regs := by
  obtain ⟨c, t, calls, resumes, -, -, regs, -⟩ := interrupt_transparent default 2
    image_layout image_returns (show 8 * 24 ≤ ((0x9000 : UInt64) &&& ~~~15).toNat by decide) (by decide) (fun c _ => ⟨rfl, rfl, fun x _ _ => rfl⟩)
  exact ⟨c, t, calls, resumes, regs⟩

end FishOS.Cpu.GateWrappers
