import FishOS.Lib.X86.Machine
import Mathlib.Data.List.Nodup

/-!
# Runs of routines

The run of straight-line code, the stack as a list of quadwords, and what a run of pushes and
a run of pops do to it.
-/

namespace X86

variable {code : Nat → Option Instr} {s t u : State} {base : Nat} {routine : List Instr} {words : List UInt64}

/-- The instructions that are left for the next one. -/
def Instr.straight : Instr → Bool
  | .repMovsb | .repStosb | .repeCmpsb | .jcc _ _ | .jmp _ | .call _ | .callMem _ | .ret | .iretq | .sysret => false
  | _ => true

theorem write_rip {dst : Operand} {value : UInt64} (written : s.write dst value = some t) : t.rip = s.rip := by
  cases dst with
  | reg r =>
    obtain rfl := Option.some.inj written
    rfl
  | imm value => cases written
  | mem a =>
    obtain rfl := Option.some.inj written
    rfl

theorem exec_rip {i : Instr} (straight : i.straight) (ran : exec s i = some t) : t.rip = s.rip + 1 := by
  cases i with
  | mov dst src =>
    obtain ⟨u, written, rfl⟩ := Option.map_eq_some_iff.mp ran
    exact congrArg (· + 1) (write_rip written)
  | repMovsb | repStosb | repeCmpsb | jcc | jmp | call | callMem | ret | iretq | sysret => cases straight
  | _ =>
    obtain rfl := Option.some.inj ran
    rfl

theorem At.head {i : Instr} (here : At code base (i :: routine)) : code base = some i := here 0 i rfl

theorem At.tail {i : Instr} (here : At code base (i :: routine)) : At code (base + 1) routine := by
  intro k instr found
  rw [Nat.add_right_comm]
  exact here (k + 1) instr found

/-- `n` instructions of a routine, from the one at `k` on. -/
theorem At.part (here : At code base routine) (k n : Nat) : At code (base + k) ((routine.drop k).take n) := by
  intro i instr found
  rw [Nat.add_assoc]
  have early : i < n := by
    by_contra late
    rw [List.getElem?_take_eq_none (Nat.not_lt.mp late)] at found
    cases found
  rw [List.getElem?_take_of_lt early, List.getElem?_drop] at found
  exact here (k + i) instr found

theorem At.self (routine : List Instr) : At (fun a => routine[a]?) 0 routine := by
  intro i instr found
  rwa [Nat.zero_add]

theorem Steps.cons {i : Instr} (here : code s.rip = some i) (ran : exec s i = some t) (rest : Steps code t u) :
    Steps code s u := by
  apply Relation.ReflTransGen.head _ rest
  unfold step
  rw [here]
  exact ran

theorem Steps.one {i : Instr} (here : code s.rip = some i) (ran : exec s i = some t) : Steps code s t :=
  .cons here ran .refl

theorem Steps.trans (first : Steps code s t) (second : Steps code t u) : Steps code s u :=
  Relation.ReflTransGen.trans first second

theorem Steps.block (here : At code s.rip routine) (straight : ∀ i ∈ routine, i.straight)
    (ran : routine.foldlM exec s = some t) : Steps code s t ∧ t.rip = s.rip + routine.length := by
  induction routine generalizing s with
  | nil =>
    obtain rfl := Option.some.inj ran
    exact ⟨.refl, rfl⟩
  | cons i rest ih =>
    rw [List.foldlM_cons] at ran
    obtain ⟨u, first, ran⟩ := Option.bind_eq_some_iff.mp ran
    have moved := exec_rip (straight i List.mem_cons_self) first
    obtain ⟨steps, last⟩ := ih (moved ▸ here.tail) (fun i member => straight i (List.mem_cons_of_mem _ member)) ran
    refine ⟨.cons here.head first steps, ?_⟩
    rw [last, moved, List.length_cons]
    omega

/-- Quadwords that lie one above the other. -/
def Stack (m : Mem) : Nat → List UInt64 → Prop
  | _, [] => True
  | sp, word :: words => m.read64 sp = word.toNat ∧ Stack m (sp + 8) words

theorem Stack.congr {m m' : Mem} {sp : Nat} {words : List UInt64}
    (same : ∀ x, sp ≤ x → x < sp + 8 * words.length → m' x = m x) (stack : Stack m sp words) : Stack m' sp words := by
  induction words generalizing sp with
  | nil => trivial
  | cons word words ih =>
    rw [List.length_cons] at same
    constructor
    · rw [Mem.read64_congr fun x lower upper => same x lower (by omega)]
      exact stack.1
    · exact ih (fun x lower upper => same x (by omega) (by omega)) stack.2

theorem stack_append {m : Mem} {sp : Nat} {above below : List UInt64} :
    Stack m sp (above ++ below) ↔ Stack m sp above ∧ Stack m (sp + 8 * above.length) below := by
  induction above generalizing sp with
  | nil => simp [Stack]
  | cons word above ih =>
    rw [List.cons_append, Stack, Stack, ih, and_assoc, List.length_cons,
      show sp + 8 + 8 * above.length = sp + 8 * (above.length + 1) by omega]

theorem Stack.get {m : Mem} {sp i : Nat} {words : List UInt64} {word : UInt64} (stack : Stack m sp words)
    (found : words[i]? = some word) : m.read64 (sp + 8 * i) = word.toNat := by
  induction words generalizing sp i with
  | nil => cases found
  | cons first words ih =>
    cases i with
    | zero =>
      obtain rfl := Option.some.inj found
      exact stack.1
    | succ i =>
      rw [show sp + 8 * (i + 1) = sp + 8 + 8 * i by omega]
      exact ih stack.2 found

theorem Stack.set {m : Mem} {sp i : Nat} {words : List UInt64} (stack : Stack m sp words) (early : i < words.length)
    (word : UInt64) : Stack (m.write64 (sp + 8 * i) word.toNat) sp (words.set i word) := by
  induction words generalizing sp i with
  | nil => cases early
  | cons first words ih =>
    cases i with
    | zero =>
      refine ⟨(Mem.read64_write64 _ _ _).trans (Nat.mod_eq_of_lt word.toNat_lt), ?_⟩
      exact stack.2.congr fun x lower _ => Mem.write64_other _ (.inr (by omega))
    | succ i =>
      refine ⟨(Mem.read64_write64_other _ (.inl (by omega))).trans stack.1, ?_⟩
      rw [show sp + 8 * (i + 1) = sp + 8 + 8 * i by omega]
      exact ih stack.2 (Nat.lt_of_succ_lt_succ early)

/-- What pushing the words does, the last of them pushed first. -/
structure Pushed (s t : State) (words : List UInt64) : Prop where
  room : (t.regs .rsp).toNat + 8 * words.length = (s.regs .rsp).toNat
  stack : Stack t.mem (t.regs .rsp).toNat words
  regs : ∀ r, r ≠ .rsp → t.regs r = s.regs r
  mem : ∀ x, x < (t.regs .rsp).toNat ∨ (s.regs .rsp).toNat ≤ x → t.mem x = s.mem x
  rest : { t with regs := s.regs, mem := s.mem } = s

theorem Pushed.trans {first second : List UInt64} (before : Pushed s t first) (after : Pushed t u second) :
    Pushed s u (second ++ first) := by
  have room := before.room
  have room' := after.room
  refine ⟨?_, ?_, ?_, ?_, ?_⟩
  · rw [List.length_append]
    omega
  · refine stack_append.mpr ⟨after.stack, ?_⟩
    rw [room']
    exact before.stack.congr fun x lower _ => after.mem x (.inr lower)
  · intro r apart
    rw [after.regs r apart, before.regs r apart]
  · intro x outside
    rw [after.mem x (by omega), before.mem x (by omega)]
  · calc { u with regs := s.regs, mem := s.mem }
        = { ({ u with regs := t.regs, mem := t.mem } : State) with regs := s.regs, mem := s.mem } := rfl
      _ = s := by rw [after.rest, before.rest]

theorem Pushed.refl (s : State) : Pushed s s [] := ⟨rfl, trivial, fun _ _ => rfl, fun _ _ => rfl, rfl⟩

theorem pushed_push (s : State) (word : UInt64) (room : 8 ≤ (s.regs .rsp).toNat) : Pushed s (s.push word) [word] := by
  have down : (s.regs .rsp - 8).toNat + 8 = (s.regs .rsp).toNat := by
    have enough : (8 : UInt64) ≤ s.regs .rsp := UInt64.le_iff_toNat_le.mpr room
    rw [UInt64.toNat_sub_of_le _ _ enough]
    exact Nat.sub_add_cancel room
  have top : (s.push word).regs .rsp = s.regs .rsp - 8 := by simp
  refine ⟨?_, ?_, ?_, ?_, rfl⟩
  · rw [top]
    exact down
  · rw [top]
    refine ⟨?_, trivial⟩
    change (s.mem.write64 _ _).read64 _ = _
    rw [Mem.read64_write64, Nat.mod_eq_of_lt word.toNat_lt]
  · intro r apart
    rw [State.regs_push, if_neg apart]
  · intro x outside
    rw [top] at outside
    exact Mem.write64_other _ (by omega)

theorem Pushed.push (pushed : Pushed s t words) (room : 8 ≤ (t.regs .rsp).toNat) (word : UInt64) :
    Pushed s (t.push word) (word :: words) :=
  pushed.trans (pushed_push t word room)

/-- Moving on is no part of what is pushed. -/
theorem Pushed.goto (pushed : Pushed s t words) (rip : Nat) : Pushed (s.goto rip) (t.goto rip) words := by
  refine ⟨pushed.room, pushed.stack, pushed.regs, pushed.mem, ?_⟩
  exact congrArg (State.goto · rip) pushed.rest

theorem Steps.pushes (rs : List Reg) (here : At code s.rip (rs.map fun r => .push (.reg r))) (plain : .rsp ∉ rs)
    (room : 8 * rs.length ≤ (s.regs .rsp).toNat) :
    ∃ t, Steps code s t ∧ Pushed (s.goto (s.rip + rs.length)) t (rs.reverse.map s.regs) := by
  induction rs generalizing s with
  | nil => exact ⟨s, .refl, .refl s⟩
  | cons r rs ih =>
    rw [List.mem_cons, not_or] at plain
    rw [List.length_cons] at room
    have first := pushed_push s (s.regs r) (by omega)
    have top := first.room
    rw [List.length_singleton] at top
    obtain ⟨t, steps, rest⟩ := ih (s := (s.push (s.regs r)).next) here.tail plain.2
      (by rw [State.regs_next]; omega)
    refine ⟨t, .cons here.head rfl steps, ?_⟩
    have same : rs.reverse.map (s.push (s.regs r)).next.regs = rs.reverse.map s.regs := by
      apply List.map_congr_left
      intro q member
      exact first.regs q fun sp => plain.2 (List.mem_reverse.mp (sp ▸ member))
    rw [same] at rest
    rw [List.reverse_cons, List.map_append, List.length_cons]
    have moved := first.goto (s.rip + (rs.length + 1))
    apply moved.trans
    have away : ((s.push (s.regs r)).next.goto ((s.push (s.regs r)).next.rip + rs.length)) =
        (s.push (s.regs r)).goto (s.rip + (rs.length + 1)) := by
      rw [Nat.add_comm rs.length 1, ← Nat.add_assoc]
      rfl
    exact away ▸ rest

theorem Stack.load64 {word : UInt64} (stack : Stack s.mem (s.regs .rsp).toNat (word :: words)) :
    s.load64 (s.regs .rsp) = word := by
  unfold State.load64
  rw [stack.1]
  exact UInt64.ofNat_toNat

/-- What popping the registers does when the words that `words` gives them lie on the stack. -/
structure Popped (s t : State) (rs : List Reg) (words : Reg → UInt64) : Prop where
  top : (t.regs .rsp).toNat = (s.regs .rsp).toNat + 8 * rs.length
  loaded : ∀ r ∈ rs, t.regs r = words r
  others : ∀ r, r ∉ rs → r ≠ .rsp → t.regs r = s.regs r
  rest : { t with regs := s.regs } = s

theorem Steps.pops (rs : List Reg) (words : Reg → UInt64) (here : At code s.rip (rs.map .pop)) (plain : .rsp ∉ rs)
    (stack : Stack s.mem (s.regs .rsp).toNat (rs.map words)) (fits : (s.regs .rsp).toNat + 8 * rs.length < 2 ^ 64) :
    ∃ t, Steps code s t ∧ Popped (s.goto (s.rip + rs.length)) t rs words := by
  induction rs generalizing s with
  | nil => exact ⟨s, .refl, rfl, fun _ member => absurd member List.not_mem_nil, fun _ _ _ => rfl, rfl⟩
  | cons r rs ih =>
    rw [List.mem_cons, not_or] at plain
    rw [List.length_cons] at fits
    rw [List.map_cons] at here stack
    let v := ((s.set .rsp (s.regs .rsp + 8)).set r (s.load64 (s.regs .rsp))).next
    have up : (s.regs .rsp + 8).toNat = (s.regs .rsp).toNat + 8 := by
      rw [UInt64.toNat_add]
      exact Nat.mod_eq_of_lt (by change (s.regs .rsp).toNat + 8 < 2 ^ 64; omega)
    have top : (v.regs .rsp).toNat = (s.regs .rsp).toNat + 8 := by simp [v, plain.1, up]
    have loaded : v.regs r = words r := by simp [v, stack.load64]
    have others : ∀ q, q ≠ r → q ≠ .rsp → v.regs q = s.regs q := by
      intro q apart sp
      simp [v, apart, sp]
    have below : Stack v.mem (v.regs .rsp).toNat (rs.map words) := by
      rw [top]
      exact stack.2
    obtain ⟨t, steps, rest⟩ := ih (s := v) here.tail plain.2 below (by omega)
    refine ⟨t, .cons here.head rfl steps, ?_, ?_, ?_, ?_⟩
    · rw [rest.top, State.regs_goto, top, List.length_cons, State.regs_goto]
      omega
    · intro q member
      by_cases again : q ∈ rs
      · exact rest.loaded q again
      · obtain rfl : q = r := (List.mem_cons.mp member).resolve_right again
        rw [rest.others q again (Ne.symm plain.1)]
        exact loaded
    · intro q away sp
      rw [List.mem_cons, not_or] at away
      rw [rest.others q away.2 sp]
      exact others q away.1 sp
    · have fields : { t with regs := v.regs } = v.goto (v.rip + rs.length) := rest.rest
      calc { t with regs := s.regs } = { ({ t with regs := v.regs } : State) with regs := s.regs } := rfl
        _ = s.goto (s.rip + (rs.length + 1)) := by
          rw [fields, Nat.add_comm rs.length 1, ← Nat.add_assoc]
          rfl

/-- A state with words on a stack that was empty at `top`, in a memory `m` that is the same elsewhere. -/
structure Stacked (t : State) (top : Nat) (m : Mem) (words : List UInt64) : Prop where
  room : (t.regs .rsp).toNat + 8 * words.length = top
  stack : Stack t.mem (t.regs .rsp).toNat words
  mem : ∀ x, x < (t.regs .rsp).toNat ∨ top ≤ x → t.mem x = m x

variable {top : Nat} {m : Mem} {value : UInt64}

theorem Stacked.start (s : State) : Stacked s (s.regs .rsp).toNat s.mem [] := ⟨rfl, trivial, fun _ _ => rfl⟩

theorem Stacked.of_same (stacked : Stacked s top m words) (rsp : t.regs .rsp = s.regs .rsp) (mem : t.mem = s.mem) :
    Stacked t top m words := by
  refine ⟨?_, ?_, ?_⟩
  · rw [rsp]
    exact stacked.room
  · rw [rsp, mem]
    exact stacked.stack
  · rw [rsp, mem]
    exact stacked.mem

theorem Stacked.goto (stacked : Stacked s top m words) (rip : Nat) : Stacked (s.goto rip) top m words :=
  stacked.of_same rfl rfl

theorem Stacked.pushed {above : List UInt64} (stacked : Stacked s top m words) (pushed : Pushed s t above) :
    Stacked t top m (above ++ words) := by
  have room := stacked.room
  have room' := pushed.room
  refine ⟨?_, stack_append.mpr ⟨pushed.stack, ?_⟩, ?_⟩
  · rw [List.length_append]
    omega
  · rw [room']
    exact stacked.stack.congr fun x lower _ => pushed.mem x (.inr lower)
  · intro x outside
    rw [pushed.mem x (by omega), stacked.mem x (by omega)]

theorem Stacked.push (stacked : Stacked s top m words) (new : UInt64) (room : 8 * (words.length + 1) ≤ top) :
    Stacked (s.push new) top m (new :: words) := by
  have enough := stacked.room
  exact stacked.pushed (pushed_push s new (by omega))

theorem Stack.word {i : Nat} (stack : Stack s.mem (s.regs .rsp).toNat words)
    (fits : (s.regs .rsp).toNat + 8 * words.length ≤ 2 ^ 64) (found : words[i]? = some value) : s.word i = value := by
  have early := (List.getElem?_eq_some_iff.mp found).1
  have address : (s.regs .rsp + 8 * UInt64.ofNat i).toNat = (s.regs .rsp).toNat + 8 * i := by
    rw [UInt64.toNat_add, UInt64.toNat_mul, UInt64.toNat_ofNat_of_lt' (by change i < 2 ^ 64; omega)]
    change ((s.regs .rsp).toNat + 8 * i % 2 ^ 64) % 2 ^ 64 = _
    omega
  unfold State.word State.load64
  rw [address, stack.get found]
  exact UInt64.ofNat_toNat

theorem Stacked.word {i : Nat} (stacked : Stacked s top m words) (fits : top ≤ 2 ^ 64) (found : words[i]? = some value) :
    s.word i = value := by
  have room := stacked.room
  exact stacked.stack.word (by omega) found

/-- Storing over the top word. -/
theorem Stacked.replace (stacked : Stacked s top m (value :: words)) (new : UInt64) :
    Stacked (s.store64 (s.regs .rsp) new) top m (new :: words) := by
  have room := stacked.room
  rw [List.length_cons] at room
  refine ⟨?_, ⟨?_, ?_⟩, ?_⟩
  · exact stacked.room
  · exact (Mem.read64_write64 _ _ _).trans (Nat.mod_eq_of_lt new.toNat_lt)
  · exact stacked.stack.2.congr fun x lower _ => Mem.write64_other _ (.inr lower)
  · intro x outside
    change x < (s.regs .rsp).toNat ∨ top ≤ x at outside
    exact (Mem.write64_other _ (by omega)).trans (stacked.mem x outside)

/-- A compiled function: it returns to its caller, whatever else it does. -/
structure Returns (code : Nat → Option Instr) (address : Nat) (f : State → State) : Prop where
  runs : ∀ s, s.rip = address → Steps code s (f s)
  rip : ∀ s, s.rip = address → (f s).rip = s.mem.read64 (s.regs .rsp).toNat
  rsp : ∀ s, s.rip = address → (f s).regs .rsp = s.regs .rsp + 8

/-- The function that only returns. -/
def leaf (s : State) : State := (s.set .rsp (s.regs .rsp + 8)).goto (s.word 0).toNat

theorem leaf_returns {address : Nat} (here : code address = some .ret) : Returns code address leaf := by
  refine ⟨?_, fun s _ => s.toNat_word_zero, ?_⟩
  · intro s rip
    exact .one (rip ▸ here) rfl
  · intro s _
    simp [leaf]

/-- A segment register is saved by way of `rax`. -/
theorem Steps.pushSeg (seg : Seg) (here : At code s.rip [.movFromSeg .rax seg, .push (.reg .rax)])
    (stacked : Stacked s top m words) (room : 8 * (words.length + 1) ≤ top) :
    ∃ t, Steps code s t ∧ Stacked t top m ((s.segs seg).toUInt64 :: words) ∧ t.regs .rsp = s.regs .rsp - 8 ∧
      (∀ r, r ≠ .rax → r ≠ .rsp → t.regs r = s.regs r) ∧
      { t with regs := s.regs, mem := s.mem } = s.goto (s.rip + 2) := by
  let u := (s.set .rax (s.segs seg).toUInt64).next
  have value : u.regs .rax = (s.segs seg).toUInt64 := by simp [u]
  have below : u.regs .rsp = s.regs .rsp := by simp [u]
  have saved := ((stacked.of_same below (by simp [u])).push (u.regs .rax) room).goto (s.rip + 2)
  rw [value] at saved
  refine ⟨_, .cons (here 0 _ rfl) rfl (.one (here 1 _ rfl) rfl), saved, ?_, ?_, rfl⟩
  · rw [State.regs_next, State.regs_push, if_pos rfl]
    exact congrArg (· - 8) below
  · intro r rax rsp
    rw [State.regs_next, State.regs_push, if_neg rsp]
    simp [rax]

theorem Steps.popSeg (seg : Seg) {selector : UInt64} (here : At code s.rip [.pop .rax, .movToSeg seg .rax])
    (stack : Stack s.mem (s.regs .rsp).toNat (selector :: words)) (fits : (s.regs .rsp).toNat + 8 < 2 ^ 64) :
    ∃ t, Steps code s t ∧ (t.regs .rsp).toNat = (s.regs .rsp).toNat + 8 ∧ Stack t.mem (t.regs .rsp).toNat words ∧
      (∀ r, r ≠ .rax → r ≠ .rsp → t.regs r = s.regs r) ∧ t.segs = Function.update s.segs seg selector.toUInt16 ∧
      { t with regs := s.regs, segs := s.segs } = s.goto (s.rip + 2) := by
  let u := ((s.set .rsp (s.regs .rsp + 8)).set .rax (s.load64 (s.regs .rsp))).next
  have value : u.regs .rax = selector := by simp [u, stack.load64]
  have up : (u.regs .rsp).toNat = (s.regs .rsp).toNat + 8 := by
    simp only [u, State.regs_next, State.regs_set, reduceCtorEq, if_false, if_true]
    rw [UInt64.toNat_add]
    exact Nat.mod_eq_of_lt fits
  refine ⟨(u.setSeg seg (u.regs .rax).toUInt16).next, .cons (here 0 _ rfl) rfl (.one (here 1 _ rfl) rfl), up, ?_, ?_, ?_, rfl⟩
  · change Stack s.mem (u.regs .rsp).toNat words
    rw [up]
    exact stack.2
  · intro r rax rsp
    change u.regs r = _
    simp [u, rax, rsp]
  · rw [value]
    rfl

/-- What a handler's first instruction finds. -/
structure Interrupted (s t : State) (top : Nat) (err : Option UInt64) : Prop where
  stacked : Stacked t top s.mem
    (err.toList ++ [UInt64.ofNat s.rip, s.cs.toUInt64, s.rflags, s.regs .rsp, (s.segs .ss).toUInt64])
  regs : ∀ r, r ≠ .rsp → t.regs r = s.regs r
  ds : t.segs .ds = s.segs .ds
  es : t.segs .es = s.segs .es
  if_ : t.flag .if_ = false
  gs : (t.gsBase, t.kernelGsBase) = (s.gsBase, s.kernelGsBase)

theorem interrupt_interrupted {target : Nat} {selector : UInt16} {stack : UInt64} {err : Option UInt64}
    (room : 48 ≤ (stack &&& ~~~15).toNat) :
    Interrupted s (interrupt s target selector stack err) (stack &&& ~~~15).toNat err := by
  unfold interrupt
  generalize stack &&& ~~~15 = base at room
  have start := Stacked.start (s.set .rsp base)
  rw [State.regs_set, if_pos rfl, State.mem_set] at start
  have frame := ((((start.push (s.segs .ss).toUInt64 (by simp only [List.length]; omega)).push (s.regs .rsp)
    (by simp only [List.length]; omega)).push s.rflags (by simp only [List.length]; omega)).push s.cs.toUInt64
    (by simp only [List.length]; omega)).push (UInt64.ofNat s.rip) (by simp only [List.length]; omega)
  have off : ∀ rflags : UInt64, (rflags &&& ~~~0x34300).toBitVec.getLsbD 9 = false := by
    intro rflags
    simp
  have same : ∀ seg, seg ≠ .ss → (if s.cs &&& 3 = selector &&& 3 then s.segs
      else Function.update s.segs .ss (selector &&& 3)) seg = s.segs seg := by
    intro seg apart
    split
    · rfl
    · exact Function.update_of_ne apart _ _
  cases err with
  | none =>
    refine ⟨frame.of_same rfl rfl, ?_, same .ds (by decide), same .es (by decide), off s.rflags, rfl⟩
    intro r apart
    simp [apart]
  | some code =>
    refine ⟨(frame.push code (by simp only [List.length]; omega)).of_same rfl rfl, ?_, same .ds (by decide),
      same .es (by decide), off s.rflags, rfl⟩
    intro r apart
    simp [apart]

end X86
