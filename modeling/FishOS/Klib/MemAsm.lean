import FishOS.Lib.X86.Strings

/-!
# The memory routines

`mem.asm`, as it is run by a machine. The arguments are in `rdi`, `rsi` and `rdx`, and the return
address is on the stack.
-/

namespace FishOS.Klib.MemAsm

open X86

def memcpy : List Instr := [
  .mov (.reg .rcx) (.reg .rdx),
  .mov (.reg .rax) (.reg .rdi),
  .repMovsb,
  .ret]

def memset : List Instr := [
  .push (.reg .rdi),
  .mov (.reg .rax) (.reg .rsi),
  .mov (.reg .rcx) (.reg .rdx),
  .repStosb,
  .pop .rax,
  .ret]

def memmove : List Instr := [
  .mov (.reg .rcx) (.reg .rdx),
  .mov (.reg .rax) (.reg .rdi),
  .cmp (.reg .rdi) (.reg .rsi),
  .jcc .a 2,
  .repMovsb,
  .jcc .always 5,
  -- .copy_backwards
  .lea .rdi { base := some .rdi, index := some (.rcx, 1), disp := -1 },
  .lea .rsi { base := some .rsi, index := some (.rcx, 1), disp := -1 },
  .std,
  .repMovsb,
  .cld,
  -- .done
  .ret]

def memcmp : List Instr := [
  .mov (.reg .rcx) (.reg .rdx),
  .repeCmpsb,
  .jcc .e 4,
  .movByte .rax { base := some .rdi, disp := -1 },
  .subByte .rax { base := some .rsi, disp := -1 },
  .movsxByte .rax .rax,
  .jcc .always 1,
  -- .equal
  .xor .rax .rax,
  -- .done
  .ret]

/-- The registers that a routine returns as they were. -/
def calleeSaved : Reg → Bool
  | .rbx | .rbp | .r12 | .r13 | .r14 | .r15 => true
  | _ => false

theorem calleeSaved_apart {r : Reg} (callee : calleeSaved r) :
    r ≠ .rax ∧ r ≠ .rcx ∧ r ≠ .rdx ∧ r ≠ .rsi ∧ r ≠ .rdi ∧ r ≠ .rsp := by
  cases r <;> simp_all [calleeSaved]

/-- Back from a call, by the System V convention. -/
structure Returned (s t : State) : Prop where
  rip : t.rip = s.mem.read64 (s.regs .rsp).toNat
  rsp : t.regs .rsp = s.regs .rsp + 8
  saved : ∀ r, calleeSaved r → t.regs r = s.regs r
  df : t.flag .df = false

/-- A call with a buffer at `rdi` that is `rdx` bytes long and apart from the quadwords from
`stack` up to the return address. -/
structure Called (s : State) (stack : Nat) : Prop where
  df : s.flag .df = false
  inside : (s.regs .rdi).toNat + (s.regs .rdx).toNat ≤ 2 ^ 64
  apart : (s.regs .rdi).toNat + (s.regs .rdx).toNat ≤ stack ∨ (s.regs .rsp).toNat + 8 ≤ (s.regs .rdi).toNat

/-- A call in a memory where every byte is the low byte of its address. -/
def call (rdi rsi rdx : UInt64) : State :=
  { (((((default : State).set .rdi rdi).set .rsi rsi).set .rdx rdx).set .rsp 0x8000) with mem := fun a => UInt8.ofNat a }

variable {code : Nat → Option Instr} {s t : State}

/-- Just before the `ret` of a call that was made in `s`. -/
structure Ready (s t : State) : Prop where
  rsp : t.regs .rsp = s.regs .rsp
  saved : ∀ r, calleeSaved r → t.regs r = s.regs r
  df : t.flag .df = false
  address : t.mem.read64 (s.regs .rsp).toNat = s.mem.read64 (s.regs .rsp).toNat

theorem Ready.returned (ready : Ready s t) (here : code t.rip = some .ret) :
    ∃ u, Steps code t u ∧ Returned s u ∧ u.regs .rax = t.regs .rax ∧ u.mem = t.mem := by
  refine ⟨_, .one here rfl, ⟨?_, ?_, ?_, ready.df⟩, ?_, rfl⟩
  · change (t.word 0).toNat = _
    rw [State.toNat_word_zero, ready.rsp, ready.address]
  · simp [ready.rsp]
  · intro r callee
    rw [State.regs_goto, State.regs_set, if_neg (by rintro rfl; cases callee)]
    exact ready.saved r callee
  · simp

theorem Called.address (called : Called s (s.regs .rsp).toNat) {m : Mem}
    (outside : ∀ x, x < (s.regs .rdi).toNat ∨ (s.regs .rdi).toNat + (s.regs .rdx).toNat ≤ x → m x = s.mem x) :
    m.read64 (s.regs .rsp).toNat = s.mem.read64 (s.regs .rsp).toNat := by
  have apart := called.apart
  exact Mem.read64_congr fun x lower upper => outside x (by omega)

theorem memcpy_spec (here : At code s.rip memcpy) (called : Called s (s.regs .rsp).toNat)
    (readable : (s.regs .rsi).toNat + (s.regs .rdx).toNat ≤ 2 ^ 64) :
    ∃ t, Steps code s t ∧ Returned s t ∧ t.regs .rax = s.regs .rdi ∧
      t.mem = s.mem.memcpy (s.regs .rdi).toNat (s.regs .rsi).toNat (s.regs .rdx).toNat := by
  let v := ((s.set .rcx (s.regs .rdx)).next.set .rax (s.regs .rdi)).next
  have moves : Steps code s v := .cons (here 0 _ rfl) rfl (.one (here 1 _ rfl) rfl)
  have copies := Steps.repMovsb (s := v) (here 2 _ rfl) called.df (by simpa [v] using called.inside) (by simpa [v] using readable)
  have ready : Ready s (v.next.strings (v.regs .rdi + v.regs .rcx) (v.regs .rsi + v.regs .rcx) 0
      (v.mem.memcpy (v.regs .rdi).toNat (v.regs .rsi).toNat (v.regs .rcx).toNat)) := by
    refine ⟨by simp [State.strings, v], ?_, called.df, ?_⟩
    · intro r callee
      simp [State.strings, v, calleeSaved_apart callee]
    · apply called.address
      intro x outside
      exact Mem.memcpy_other _ (by simpa [v] using outside)
  obtain ⟨t, back, returned, rax, mem⟩ := ready.returned (here 3 _ rfl)
  refine ⟨t, (moves.trans copies).trans back, returned, ?_, ?_⟩
  · rw [rax]
    simp [State.strings, v]
  · rw [mem]
    simp [State.strings, v]

theorem memcpy_spec_call : ∃ t, Steps (fun a => memcpy[a]?) (call 0x2000 0x1001 3) t ∧ t.mem 0x2002 = 3 := by
  obtain ⟨t, steps, -, -, mem⟩ := memcpy_spec (.self memcpy) (s := call 0x2000 0x1001 3)
    ⟨by decide, by decide, by decide⟩ (by decide)
  exact ⟨t, steps, by rw [mem]; decide⟩

theorem memset_spec (here : At code s.rip memset) (room : 8 ≤ (s.regs .rsp).toNat)
    (called : Called s ((s.regs .rsp).toNat - 8)) :
    ∃ t, Steps code s t ∧ Returned s t ∧ t.regs .rax = s.regs .rdi ∧
      ∀ x, x < (s.regs .rsp).toNat - 8 ∨ (s.regs .rsp).toNat ≤ x →
        t.mem x = s.mem.memset (s.regs .rdi).toNat (lowByte (s.regs .rsi)) (s.regs .rdx).toNat x := by
  let v := (((s.push (s.regs .rdi)).next.set .rax (s.regs .rsi)).next.set .rcx (s.regs .rdx)).next
  have saves : Steps code s v := .cons (here 0 _ rfl) rfl (.cons (here 1 _ rfl) rfl (.one (here 2 _ rfl) rfl))
  have fills := Steps.repStosb (s := v) (here 3 _ rfl) called.df (by simpa [v] using called.inside)
  let w := v.next.strings (v.regs .rdi + v.regs .rcx) (v.regs .rsi) 0
    (v.mem.memset (v.regs .rdi).toNat (lowByte (v.regs .rax)) (v.regs .rcx).toNat)
  have apart := called.apart
  have pushed := pushed_push s (s.regs .rdi) room
  have slot := pushed.room
  rw [List.length_singleton] at slot
  have below : w.regs .rsp = (s.push (s.regs .rdi)).regs .rsp := by simp [w, v, State.strings]
  have filled : ∀ x, x < (s.regs .rdi).toNat ∨ (s.regs .rdi).toNat + (s.regs .rdx).toNat ≤ x →
      w.mem x = (s.push (s.regs .rdi)).mem x := fun x outside => Mem.memset_other _ (by simpa [v] using outside)
  have kept : w.load64 (w.regs .rsp) = s.regs .rdi := by
    have lone : Stack w.mem (w.regs .rsp).toNat [s.regs .rdi] := by
      rw [below]
      refine Stack.congr ?_ pushed.stack
      intro x lower upper
      rw [List.length_singleton] at upper
      exact filled x (by omega)
    exact lone.load64
  let u := ((w.set .rsp (w.regs .rsp + 8)).set .rax (w.load64 (w.regs .rsp))).next
  have pops : Steps code w u := .one (here 4 _ rfl) rfl
  have ready : Ready s u := by
    refine ⟨?_, ?_, called.df, ?_⟩
    · have top : w.regs .rsp + 8 = s.regs .rsp := by
        rw [below, State.regs_push, if_pos rfl]
        exact UInt64.sub_add_cancel _ _
      simp [u, top]
    · intro r callee
      simp [State.strings, u, w, v, calleeSaved_apart callee]
    · apply Mem.read64_congr
      intro x lower upper
      exact (filled x (by omega)).trans (pushed.mem x (.inr lower))
  obtain ⟨t, back, returned, rax, mem⟩ := ready.returned (here 5 _ rfl)
  refine ⟨t, ((saves.trans fills).trans pops).trans back, returned, ?_, ?_⟩
  · rw [rax]
    simp [u, kept]
  · intro x outside
    rw [mem]
    change Mem.memset _ _ _ _ x = _
    have same : v.mem x = s.mem x := pushed.mem x (by omega)
    unfold Mem.memset
    simp [v] at same ⊢
    rw [same]

theorem memset_spec_call : ∃ t, Steps (fun a => memset[a]?) (call 0x2000 0x155 3) t ∧ t.mem 0x2002 = 0x55 := by
  obtain ⟨t, steps, -, -, mem⟩ := memset_spec (.self memset) (s := call 0x2000 0x155 3) (by decide)
    ⟨by decide, by decide, by decide⟩
  exact ⟨t, steps, by rw [mem _ (by decide)]; decide⟩

/-- A forward copy of buffers that overlap is the copy of the old bytes when it goes downwards. -/
theorem memcpy_eq_copyIn (m : Mem) {dst src n : Nat} (below : dst ≤ src) :
    m.memcpy dst src n = m.copyIn dst (fun i => m (src + i)) n := by
  funext x
  by_cases inside : dst ≤ x ∧ x < dst + n
  · obtain ⟨i, rfl⟩ := Nat.exists_eq_add_of_le inside.1
    rw [Mem.memcpy_inside m (.inl below) (by omega), Mem.copyIn_inside m inside.1 inside.2, Nat.add_sub_cancel_left]
  · rw [Mem.memcpy_other m (by omega), Mem.copyIn_other m (by omega)]

/-- The state of `memmove` behind its comparison. -/
structure MoveStart (s t : State) : Prop where
  rip : t.rip = s.rip + 3
  above : t.holds .a = decide (s.regs .rsi < s.regs .rdi)
  df : t.flag .df = s.flag .df
  rcx : t.regs .rcx = s.regs .rdx
  rax : t.regs .rax = s.regs .rdi
  regs : ∀ r, r ≠ .rcx → r ≠ .rax → t.regs r = s.regs r
  mem : t.mem = s.mem

theorem memmove_compares (here : At code s.rip memmove) : ∃ t, Steps code s t ∧ MoveStart s t := by
  refine ⟨_, .cons (here 0 _ rfl) rfl (.cons (here 1 _ rfl) rfl (.one (here 2 _ rfl) rfl)), ?_, ?_, ?_, ?_, ?_, ?_, ?_⟩
  · simp
  · rw [State.holds_next, State.holds_a_cmp]
    simp [State.read]
  · simp only [State.flag_next, State.flag_set, State.df_subFlags]
  · simp [State.read]
  · simp [State.read]
  · intro r rcx rax
    simp [rcx, rax]
  · simp

theorem memmove_forward (here : At code s.rip memmove) (start : MoveStart s t) (called : Called s (s.regs .rsp).toNat)
    (readable : (s.regs .rsi).toNat + (s.regs .rdx).toNat ≤ 2 ^ 64) (forward : ¬s.regs .rsi < s.regs .rdi) :
    ∃ u, Steps code t u ∧ u.rip = s.rip + 11 ∧ u.flag .df = false ∧ (∀ r, r ≠ .rcx → r ≠ .rdi → r ≠ .rsi → u.regs r = t.regs r) ∧
      u.mem = s.mem.memcpy (s.regs .rdi).toNat (s.regs .rsi).toNat (s.regs .rdx).toNat := by
  have rdi := start.regs .rdi (by decide) (by decide)
  have rsi := start.regs .rsi (by decide) (by decide)
  have stays : Steps code t t.next := by
    refine .one (i := .jcc .a 2) (start.rip ▸ here 3 _ rfl) ?_
    exact congrArg (fun rip => some (t.goto rip)) (if_neg (by rw [start.above, decide_eq_true_iff]; exact forward))
  have at_rep : code t.next.rip = some .repMovsb := by
    rw [State.rip_next, start.rip]
    exact here 4 _ rfl
  have clear : t.next.flag .df = false := by rw [State.flag_next, start.df, called.df]
  have copies := Steps.repMovsb at_rep clear (by simpa [rdi, start.rcx] using called.inside)
    (by simpa [rsi, start.rcx] using readable)
  refine ⟨_, (stays.trans copies).trans (Steps.one (i := .jcc .always 5) ?_ rfl), ?_, ?_, ?_, ?_⟩
  · change code (t.rip + 1 + 1) = _
    rw [start.rip]
    exact here 5 _ rfl
  · change t.rip + 1 + 1 + 1 + 5 = _
    rw [start.rip]
  · exact clear
  · intro r rcx rdi rsi
    simp [State.strings, rcx, rdi, rsi]
  · simp [State.strings, rdi, rsi, start.rcx, start.mem]

theorem memmove_backward (here : At code s.rip memmove) (start : MoveStart s t) (called : Called s (s.regs .rsp).toNat)
    (backward : s.regs .rsi < s.regs .rdi) :
    ∃ u, Steps code t u ∧ u.rip = s.rip + 11 ∧ u.flag .df = false ∧ (∀ r, r ≠ .rcx → r ≠ .rdi → r ≠ .rsi → u.regs r = t.regs r) ∧
      u.mem = s.mem.copyIn (s.regs .rdi).toNat (fun i => s.mem ((s.regs .rsi).toNat + i)) (s.regs .rdx).toNat := by
  have rdi := start.regs .rdi (by decide) (by decide)
  have rsi := start.regs .rsi (by decide) (by decide)
  have rip := start.rip
  have jumps : exec t (.jcc .a 2) = some (t.goto (t.rip + 1 + 2)) :=
    congrArg (fun rip => some (t.goto rip)) (if_pos (by rw [start.above, decide_eq_true_iff]; exact backward))
  obtain ⟨v, ends, rip', df, last, last', count, kept, mem⟩ : ∃ v, Steps code t v ∧ v.rip = s.rip + 9 ∧ v.flag .df = true ∧
      v.regs .rdi = s.regs .rdi + v.regs .rcx - 1 ∧ v.regs .rsi = s.regs .rsi + v.regs .rcx - 1 ∧
      v.regs .rcx = s.regs .rdx ∧ (∀ r, r ≠ .rdi → r ≠ .rsi → v.regs r = t.regs r) ∧ v.mem = s.mem := by
    have there : At code (t.goto (t.rip + 1 + 2)).rip ((memmove.drop 6).take 3) := by
      change At code (t.rip + 1 + 2) _
      rw [rip]
      exact here.part 6 3
    obtain ⟨steps, end_⟩ := Steps.block there (by decide) rfl
    refine ⟨_, .cons (rip ▸ here 3 _ rfl) jumps steps, ?_, ?_, ?_, ?_, ?_, ?_, ?_⟩
    · rw [end_]
      change t.rip + 1 + 2 + 3 = _
      rw [rip]
    · simp
    · simp [State.ea, rdi, UInt64.sub_eq_add_neg]
    · simp [State.ea, rsi, UInt64.sub_eq_add_neg]
    · simp [start.rcx]
    · intro r rdi rsi
      simp [rdi, rsi]
    · simp [start.mem]
  have copies := Steps.repMovsb_down (rip' ▸ here 9 _ rfl) df last last' (UInt64.lt_iff_toNat_lt.mp backward)
    (by rw [count]; exact called.inside)
  rw [count, mem] at copies
  refine ⟨_, (ends.trans copies).trans (Steps.one (i := .cld) ?_ rfl), ?_, ?_, ?_, ?_⟩
  · change code (v.rip + 1) = _
    rw [rip']
    exact here 10 _ rfl
  · change v.rip + 1 + 1 = _
    rw [rip']
  · simp
  · intro r rcx rdi rsi
    rw [← kept r rdi rsi]
    simp [State.strings, rcx, rdi, rsi]
  · simp [State.strings]

theorem memmove_spec (here : At code s.rip memmove) (called : Called s (s.regs .rsp).toNat)
    (readable : (s.regs .rsi).toNat + (s.regs .rdx).toNat ≤ 2 ^ 64) :
    ∃ t, Steps code s t ∧ Returned s t ∧ t.regs .rax = s.regs .rdi ∧
      t.mem = s.mem.copyIn (s.regs .rdi).toNat (fun i => s.mem ((s.regs .rsi).toNat + i)) (s.regs .rdx).toNat := by
  obtain ⟨v, compares, start⟩ := memmove_compares here
  have finished : ∃ u, Steps code v u ∧ u.rip = s.rip + 11 ∧ u.flag .df = false ∧
      (∀ r, r ≠ .rcx → r ≠ .rdi → r ≠ .rsi → u.regs r = v.regs r) ∧
      u.mem = s.mem.copyIn (s.regs .rdi).toNat (fun i => s.mem ((s.regs .rsi).toNat + i)) (s.regs .rdx).toNat := by
    by_cases backward : s.regs .rsi < s.regs .rdi
    · exact memmove_backward here start called backward
    · rw [← memcpy_eq_copyIn _ (UInt64.le_iff_toNat_le.mp (UInt64.not_lt.mp backward))]
      exact memmove_forward here start called readable backward
  obtain ⟨u, copies, rip, clear, kept, copied⟩ := finished
  have ready : Ready s u := by
    refine ⟨?_, ?_, clear, ?_⟩
    · rw [kept .rsp (by decide) (by decide) (by decide), start.regs .rsp (by decide) (by decide)]
    · intro r callee
      obtain ⟨rax, rcx, -, rsi, rdi, -⟩ := calleeSaved_apart callee
      rw [kept r rcx rdi rsi, start.regs r rcx rax]
    · rw [copied]
      apply called.address
      intro x outside
      exact Mem.copyIn_other _ outside
  obtain ⟨t, back, returned, rax, mem⟩ := ready.returned (rip ▸ here 11 _ rfl)
  refine ⟨t, (compares.trans copies).trans back, returned, ?_, mem.trans copied⟩
  rw [rax, kept .rax (by decide) (by decide) (by decide), start.rax]

theorem memmove_spec_call : ∃ t, Steps (fun a => memmove[a]?) (call 0x1002 0x1000 4) t ∧ t.mem 0x1005 = 3 := by
  obtain ⟨t, steps, -, -, mem⟩ := memmove_spec (.self memmove) (s := call 0x1002 0x1000 4)
    ⟨by decide, by decide, by decide⟩ (by decide)
  exact ⟨t, steps, by rw [mem]; decide⟩

/-- The `int` that a routine returns. -/
def result (t : State) : Int := ((t.regs .rax).toBitVec.setWidth 32).toInt

/-- The difference of two bytes, as an 8-bit number with a sign. -/
def difference (a b : UInt8) : Int := ((a.toNat : Int) - b.toNat).bmod 256

theorem lowByte_withLowByte (word : UInt64) (byte : UInt8) : lowByte (withLowByte word byte) = byte := by
  unfold lowByte withLowByte
  apply UInt8.toBitVec_inj.mp
  ext i inside
  simp

theorem result_signExtend {byte : UInt8} (rax : t.regs .rax = signExtend byte) : result t = byte.toBitVec.toInt := by
  unfold result signExtend at *
  rw [rax]
  change ((byte.toBitVec.signExtend 64).setWidth 32).toInt = _
  have narrow : (byte.toBitVec.signExtend 64).setWidth 32 = byte.toBitVec.signExtend 32 := by
    ext i inside
    simp [BitVec.getElem_signExtend, show i < 64 by omega]
  rw [narrow, BitVec.toInt_signExtend_of_le (by decide)]

theorem toInt_sub (a b : UInt8) : (a - b).toBitVec.toInt = difference a b := by
  unfold difference
  rw [UInt8.toBitVec_sub, BitVec.toInt_sub, BitVec.toInt_eq_toNat_bmod, BitVec.toInt_eq_toNat_bmod]
  simp

/-- The state of `memcmp` behind `repe cmpsb`. -/
structure CompareEnd (s t : State) (k : Nat) : Prop where
  rip : t.rip = s.rip + 2
  df : t.flag .df = s.flag .df
  stops : Stops s.mem (s.regs .rdi).toNat (s.regs .rsi).toNat (s.flag .zf) (s.regs .rdx).toNat k (t.flag .zf)
  rdi : t.regs .rdi = s.regs .rdi + UInt64.ofNat k
  rsi : t.regs .rsi = s.regs .rsi + UInt64.ofNat k
  regs : ∀ r, r ≠ .rcx → r ≠ .rdi → r ≠ .rsi → t.regs r = s.regs r
  mem : t.mem = s.mem

theorem memcmp_compares (here : At code s.rip memcmp) (up : s.flag .df = false)
    (inside : (s.regs .rdi).toNat + (s.regs .rdx).toNat < 2 ^ 64)
    (readable : (s.regs .rsi).toNat + (s.regs .rdx).toNat < 2 ^ 64) :
    ∃ t k, Steps code s t ∧ CompareEnd s t k := by
  let v := (s.set .rcx (s.regs .rdx)).next
  have counts : Steps code s v := .one (here 0 _ rfl) rfl
  have rdi : v.regs .rdi = s.regs .rdi := by simp [v]
  have rsi : v.regs .rsi = s.regs .rsi := by simp [v]
  have rcx : v.regs .rcx = s.regs .rdx := by simp [v]
  have df : v.flag .df = s.flag .df := by simp only [v, State.flag_next, State.flag_set]
  have zf : v.flag .zf = s.flag .zf := by simp only [v, State.flag_next, State.flag_set]
  have mem : v.mem = s.mem := by simp [v]
  obtain ⟨t, k, compares, kept, rip, stops, last, last'⟩ := Steps.repeCmpsb (s := v) (here 1 _ rfl) (df.trans up) (congrArg _ rcx)
    (by rwa [rdi]) (by rwa [rsi])
  rw [rdi] at last
  rw [rsi] at last'
  have within : k ≤ (s.regs .rdx).toNat := stops.le
  have small := (s.regs .rdx).toNat_lt
  refine ⟨t, k, counts.trans compares, rip, kept.df.trans df, ?_, ?_, ?_, ?_, ?_⟩
  · rwa [rdi, rsi, mem, zf] at stops
  · apply UInt64.toNat_inj.mp
    rw [last, UInt64.toNat_add, UInt64.toNat_ofNat_of_lt' (by change k < 2 ^ 64; omega)]
    exact (Nat.mod_eq_of_lt (by omega)).symm
  · apply UInt64.toNat_inj.mp
    rw [last', UInt64.toNat_add, UInt64.toNat_ofNat_of_lt' (by change k < 2 ^ 64; omega)]
    exact (Nat.mod_eq_of_lt (by omega)).symm
  · intro r rcx rdi rsi
    rw [kept.regs r rdi rsi rcx]
    simp [v, rcx]
  · have fields := congrArg State.mem kept.rest
    exact fields.trans mem

/-- What `memcmp` returns when `repe cmpsb` has gone over `k` bytes. -/
def compareResult (s : State) (k : Nat) (zf : Bool) : Int :=
  if zf then 0
  else difference (s.mem (s.regs .rdi + UInt64.ofNat k - 1).toNat) (s.mem (s.regs .rsi + UInt64.ofNat k - 1).toNat)

theorem memcmp_spec (here : At code s.rip memcmp) (up : s.flag .df = false)
    (inside : (s.regs .rdi).toNat + (s.regs .rdx).toNat < 2 ^ 64)
    (readable : (s.regs .rsi).toNat + (s.regs .rdx).toNat < 2 ^ 64) :
    ∃ t k zf, Steps code s t ∧ Returned s t ∧ t.mem = s.mem ∧
      Stops s.mem (s.regs .rdi).toNat (s.regs .rsi).toNat (s.flag .zf) (s.regs .rdx).toNat k zf ∧
      result t = compareResult s k zf := by
  obtain ⟨v, k, compares, ended⟩ := memcmp_compares here up inside readable
  have rip := ended.rip
  have finished : ∃ u, Steps code v u ∧ u.rip = s.rip + 8 ∧ u.flag .df = false ∧ (∀ r, r ≠ .rax → u.regs r = v.regs r) ∧
      u.mem = s.mem ∧ result u = compareResult s k (v.flag .zf) := by
    cases zf : v.flag .zf with
    | true =>
      have jumps : exec v (.jcc .e 4) = some (v.goto (v.rip + 1 + 4)) :=
        congrArg (fun rip => some (v.goto rip)) (if_pos zf)
      refine ⟨_, .cons (rip ▸ here 2 _ rfl) jumps (.one (i := .xor .rax .rax) ?_ rfl), ?_, ?_, ?_, ?_, ?_⟩
      · change code (v.rip + 1 + 4) = _
        rw [rip]
        exact here 7 _ rfl
      · change v.rip + 1 + 4 + 1 = _
        rw [rip]
      · simp only [State.flag_next, State.flag_set, State.df_xorFlags, State.flag_goto, ended.df, up]
      · intro r rax
        simp [rax]
      · simp [ended.mem]
      · simp [result, compareResult]
    | false =>
      have stays : exec v (.jcc .e 4) = some v.next :=
        congrArg (fun rip => some (v.goto rip)) (if_neg (by change v.flag .zf ≠ true; rw [zf]; decide))
      have there : At code v.next.rip ((memcmp.drop 3).take 3) := by
        rw [State.rip_next, rip]
        exact here.part 3 3
      obtain ⟨steps, end_⟩ := Steps.block there (by decide) rfl
      refine ⟨_, .cons (rip ▸ here 2 _ rfl) stays (steps.trans (Steps.one (i := .jcc .always 1) ?_ rfl)), ?_, ?_, ?_, ?_, ?_⟩
      · rw [end_, State.rip_next, rip]
        exact here 6 _ rfl
      · change _ + 1 + 1 = _
        rw [end_, State.rip_next, rip]
        rfl
      · simp only [State.flag_goto, State.flag_next, State.flag_set, State.df_subFlags, ended.df, up]
      · intro r rax
        simp [rax]
      · simp [ended.mem]
      · rw [compareResult, if_neg Bool.false_ne_true, ← toInt_sub]
        apply result_signExtend
        simp [State.ea, lowByte_withLowByte, ended.rdi, ended.rsi, ended.mem, UInt64.sub_eq_add_neg]
  obtain ⟨u, ends, rip', df, kept, mem, value⟩ := finished
  have ready : Ready s u := by
    refine ⟨?_, ?_, df, by rw [mem]⟩
    · rw [kept .rsp (by decide), ended.regs .rsp (by decide) (by decide) (by decide)]
    · intro r callee
      obtain ⟨rax, rcx, -, rsi, rdi, -⟩ := calleeSaved_apart callee
      rw [kept r rax, ended.regs r rcx rdi rsi]
  obtain ⟨t, back, returned, rax, mem'⟩ := ready.returned (rip' ▸ here 8 _ rfl)
  refine ⟨t, k, v.flag .zf, (compares.trans ends).trans back, returned, mem'.trans mem, ended.stops, ?_⟩
  rw [← value]
  unfold result
  rw [rax]

theorem difference_eq_zero_iff (a b : UInt8) : difference a b = 0 ↔ a = b := by
  have small := a.toNat_lt
  have small' := b.toNat_lt
  rw [← UInt8.toNat_inj, difference, Int.bmod_def]
  omega

theorem difference_neg_iff (a b : UInt8) :
    (difference a b < 0 ↔ a < b) ↔ -128 ≤ (a.toNat : Int) - b.toNat ∧ (a.toNat : Int) - b.toNat ≤ 127 := by
  have small := a.toNat_lt
  have small' := b.toNat_lt
  rw [UInt8.lt_iff_toNat_lt, difference, Int.bmod_def]
  omega

theorem compareResult_differs {i : Nat} (inside : (s.regs .rdi).toNat + (s.regs .rdx).toNat < 2 ^ 64)
    (readable : (s.regs .rsi).toNat + (s.regs .rdx).toNat < 2 ^ 64) (early : i < (s.regs .rdx).toNat) :
    compareResult s (i + 1) false =
      difference (s.mem ((s.regs .rdi).toNat + i)) (s.mem ((s.regs .rsi).toNat + i)) := by
  have back : ∀ base : UInt64, base + UInt64.ofNat (i + 1) - 1 = base + UInt64.ofNat i := by
    intro base
    rw [up_succ]
    exact UInt64.add_sub_cancel _ _
  rw [compareResult, if_neg Bool.false_ne_true, back, back, toNat_up (Nat.le_of_lt inside) early,
    toNat_up (Nat.le_of_lt readable) early]

/-- An empty comparison leaves `ZF` as the caller had it. -/
theorem memcmp_tells (here : At code s.rip memcmp) (up : s.flag .df = false)
    (inside : (s.regs .rdi).toNat + (s.regs .rdx).toNat < 2 ^ 64)
    (readable : (s.regs .rsi).toNat + (s.regs .rdx).toNat < 2 ^ 64) :
    ∃ t, Steps code s t ∧ Returned s t ∧ t.mem = s.mem ∧
      (s.regs .rdx = 0 → result t = compareResult s 0 (s.flag .zf)) ∧
      (s.regs .rdx ≠ 0 → (result t = 0 ↔ ∀ i, i < (s.regs .rdx).toNat →
        s.mem ((s.regs .rdi).toNat + i) = s.mem ((s.regs .rsi).toNat + i))) ∧
      ∀ i a b, i < (s.regs .rdx).toNat → s.mem ((s.regs .rdi).toNat + i) = a → s.mem ((s.regs .rsi).toNat + i) = b →
        (∀ j, j < i → s.mem ((s.regs .rdi).toNat + j) = s.mem ((s.regs .rsi).toNat + j)) → a ≠ b →
        ((result t < 0 ↔ a < b) ↔ -128 ≤ (a.toNat : Int) - b.toNat ∧ (a.toNat : Int) - b.toNat ≤ 127) := by
  obtain ⟨t, k, zf, steps, returned, mem, stops, value⟩ := memcmp_spec here up inside readable
  refine ⟨t, steps, returned, mem, ?_, ?_, ?_⟩
  · intro none
    rw [none] at stops
    cases stops with
    | empty => exact value
    | equal some => exact absurd some (Nat.lt_irrefl 0)
    | differs inside => exact absurd inside (Nat.not_lt_zero _)
  · intro some
    have positive : (s.regs .rdx).toNat ≠ 0 := fun zero => some (UInt64.toNat_inj.mp zero)
    rcases stops.outcome with ⟨none, -, -⟩ | ⟨-, rfl, same⟩ | ⟨i, early, rfl, rfl, -, apart⟩
    · exact absurd none positive
    · exact iff_of_true value same
    · rw [compareResult_differs inside readable early] at value
      refine iff_of_false ?_ (fun same => apart (same i early))
      rw [value, difference_eq_zero_iff]
      exact apart
  · rintro i a b early rfl rfl before apart
    rcases stops.outcome with ⟨none, -, -⟩ | ⟨-, -, same⟩ | ⟨j, early', rfl, rfl, same, apart'⟩
    · omega
    · exact absurd (same i early) apart
    · obtain rfl : i = j := by
        rcases Nat.lt_trichotomy i j with less | equal | more
        · exact absurd (same i less) apart
        · exact equal
        · exact absurd (before j more) apart'
      rw [value, compareResult_differs inside readable early]
      exact difference_neg_iff _ _

theorem memcmp_tells_call : ∃ t, Steps (fun a => memcmp[a]?) (call 0x1002 0x1082 4) t ∧ ¬result t = 0 := by
  obtain ⟨t, steps, -, -, -, equal, -⟩ := memcmp_tells (.self memcmp) (s := call 0x1002 0x1082 4) (by decide) (by decide) (by decide)
  refine ⟨t, steps, fun zero => ?_⟩
  have first := (equal (by decide)).mp zero 0 (by decide)
  exact absurd first (by decide)

end FishOS.Klib.MemAsm
