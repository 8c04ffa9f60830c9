import FishOS.Lib.X86.Routine

/-!
# String instructions

What `rep movsb`, `rep stosb` and `repe cmpsb` do to memory, as one run each. Buffers do not
wrap around the end of the address space.
-/

namespace X86

variable {code : Nat → Option Instr} {s : State} {m : Mem} {dst src count : UInt64}

namespace State

/-- A state in the middle of a string instruction. -/
def strings (s : State) (rdi rsi rcx : UInt64) (m : Mem) : State :=
  { ((s.set .rdi rdi).set .rsi rsi).set .rcx rcx with mem := m }

theorem strings_self (s : State) : s.strings (s.regs .rdi) (s.regs .rsi) (s.regs .rcx) s.mem = s := by
  have same : (s.strings (s.regs .rdi) (s.regs .rsi) (s.regs .rcx) s.mem).regs = s.regs := by
    funext r
    cases r <;> simp [strings]
  calc s.strings (s.regs .rdi) (s.regs .rsi) (s.regs .rcx) s.mem
      = { s with regs := (s.strings (s.regs .rdi) (s.regs .rsi) (s.regs .rcx) s.mem).regs } := rfl
    _ = s := by rw [same]

theorem strings_next (m : Mem) (dst src count : UInt64) : (s.strings dst src count m).next = s.next.strings dst src count m := rfl

theorem rep_done (iteration : State → State) : (s.strings dst src 0 m).rep iteration = s.next.strings dst src 0 m := by
  have zero : (s.strings dst src 0 m).regs .rcx = 0 := by simp [strings]
  unfold rep
  rw [if_pos zero]
  rfl

theorem rep_movsb (more : count ≠ 0) : (s.strings dst src count m).rep .movsb =
    s.strings (dst + s.stride) (src + s.stride) (count - 1) (m.write8 dst.toNat (m src.toNat)) := by
  have counter : (s.strings dst src count m).regs .rcx = count := by simp [strings]
  unfold rep
  rw [counter, if_neg more]
  have same : ((s.strings dst src count m).movsb.set .rcx (count - 1)).regs =
      (s.strings (dst + s.stride) (src + s.stride) (count - 1) (m.write8 dst.toNat (m src.toNat))).regs := by
    funext r
    cases r <;> rfl
  calc (s.strings dst src count m).movsb.set .rcx (count - 1)
      = { s.strings (dst + s.stride) (src + s.stride) (count - 1) (m.write8 dst.toNat (m src.toNat)) with
          regs := ((s.strings dst src count m).movsb.set .rcx (count - 1)).regs } := rfl
    _ = _ := by rw [same]

theorem rep_stosb (more : count ≠ 0) : (s.strings dst src count m).rep .stosb =
    s.strings (dst + s.stride) src (count - 1) (m.write8 dst.toNat (lowByte (s.regs .rax))) := by
  have counter : (s.strings dst src count m).regs .rcx = count := by simp [strings]
  unfold rep
  rw [counter, if_neg more]
  have same : ((s.strings dst src count m).stosb.set .rcx (count - 1)).regs =
      (s.strings (dst + s.stride) src (count - 1) (m.write8 dst.toNat (lowByte (s.regs .rax)))).regs := by
    funext r
    cases r <;> rfl
  calc (s.strings dst src count m).stosb.set .rcx (count - 1)
      = { s.strings (dst + s.stride) src (count - 1) (m.write8 dst.toNat (lowByte (s.regs .rax))) with
          regs := ((s.strings dst src count m).stosb.set .rcx (count - 1)).regs } := rfl
    _ = _ := by rw [same]

end State

/-- A `rep` prefix makes as many rounds as `rcx` says. -/
theorem Steps.rep {i : Instr} {iteration : State → State} {n : Nat} (dst src : Nat → UInt64) (m : Nat → Mem)
    (here : code s.rip = some i) (means : ∀ t, exec t i = some (t.rep iteration)) (small : n < 2 ^ 64)
    (round : ∀ k, k < n → ∀ count, count ≠ 0 → (s.strings (dst k) (src k) count (m k)).rep iteration =
      s.strings (dst (k + 1)) (src (k + 1)) (count - 1) (m (k + 1))) :
    Steps code (s.strings (dst 0) (src 0) (UInt64.ofNat n) (m 0)) (s.next.strings (dst n) (src n) 0 (m n)) := by
  -- by the rounds that are left
  suffices left : ∀ k, k ≤ n → Steps code (s.strings (dst (n - k)) (src (n - k)) (UInt64.ofNat k) (m (n - k)))
      (s.next.strings (dst n) (src n) 0 (m n)) by
    simpa using left n (Nat.le_refl n)
  intro k
  induction k with
  | zero =>
    intro _
    exact .one here ((means _).trans (congrArg some (s.rep_done iteration)))
  | succ k ih =>
    intro within
    have more : UInt64.ofNat (k + 1) ≠ 0 := by
      intro zero
      have none := congrArg UInt64.toNat zero
      rw [UInt64.toNat_ofNat_of_lt' (by change k + 1 < 2 ^ 64; omega)] at none
      cases none
    have fewer : UInt64.ofNat (k + 1) - 1 = UInt64.ofNat k := by
      rw [UInt64.ofNat_add]
      exact UInt64.add_sub_cancel _ _
    have moved := round (n - (k + 1)) (by omega) (UInt64.ofNat (k + 1)) more
    rw [fewer, show n - (k + 1) + 1 = n - k by omega] at moved
    exact .cons here ((means _).trans (congrArg some moved)) (ih (by omega))

theorem toNat_up {base : UInt64} {n k : Nat} (fits : base.toNat + n ≤ 2 ^ 64) (inside : k < n) :
    (base + UInt64.ofNat k).toNat = base.toNat + k := by
  rw [UInt64.toNat_add, UInt64.toNat_ofNat_of_lt' (by change k < 2 ^ 64; omega)]
  exact Nat.mod_eq_of_lt (by omega)

theorem up_succ (base : UInt64) (k : Nat) : base + UInt64.ofNat (k + 1) = base + UInt64.ofNat k + 1 := by
  rw [UInt64.ofNat_add, UInt64.add_assoc]
  rfl

theorem toNat_down {base count : UInt64} {k : Nat} (fits : base.toNat + count.toNat ≤ 2 ^ 64) (inside : k < count.toNat) :
    (base + count - 1 - UInt64.ofNat k).toNat = base.toNat + (count.toNat - 1 - k) := by
  have small := count.toNat_lt
  have start := base.toNat_lt
  rw [UInt64.toNat_sub, UInt64.toNat_sub, UInt64.toNat_add, UInt64.toNat_ofNat_of_lt' (by change k < 2 ^ 64; omega)]
  change (2 ^ 64 - k + (2 ^ 64 - 1 + (base.toNat + count.toNat) % 2 ^ 64) % 2 ^ 64) % 2 ^ 64 = _
  omega

theorem down_succ (top : UInt64) (k : Nat) : top - UInt64.ofNat (k + 1) = top - UInt64.ofNat k - 1 := by
  rw [UInt64.ofNat_add, UInt64.sub_eq_add_neg, UInt64.neg_add, UInt64.sub_eq_add_neg, UInt64.sub_eq_add_neg,
    UInt64.sub_eq_add_neg, UInt64.add_assoc]
  rfl

theorem up_zero (base : UInt64) : base + UInt64.ofNat 0 = base := UInt64.add_zero base

theorem down_zero (top : UInt64) : top - UInt64.ofNat 0 = top := UInt64.sub_zero top

theorem memset_succ (m : Mem) (dst k : Nat) (value : UInt8) :
    m.memset dst value (k + 1) = (m.memset dst value k).write8 (dst + k) value := by
  funext x
  unfold Mem.write8 Mem.memset
  by_cases last : x = dst + k
  · rw [if_pos last, if_pos (by omega)]
  · rw [if_neg last]
    exact if_congr (by omega) rfl rfl

theorem Steps.repMovsb (here : code s.rip = some .repMovsb) (up : s.flag .df = false)
    (inside : (s.regs .rdi).toNat + (s.regs .rcx).toNat ≤ 2 ^ 64)
    (readable : (s.regs .rsi).toNat + (s.regs .rcx).toNat ≤ 2 ^ 64) :
    Steps code s (s.next.strings (s.regs .rdi + s.regs .rcx) (s.regs .rsi + s.regs .rcx) 0
      (s.mem.memcpy (s.regs .rdi).toNat (s.regs .rsi).toNat (s.regs .rcx).toNat)) := by
  have run := Steps.rep (fun k => s.regs .rdi + UInt64.ofNat k) (fun k => s.regs .rsi + UInt64.ofNat k)
    (s.mem.memcpy (s.regs .rdi).toNat (s.regs .rsi).toNat) here (fun _ => rfl) (s.regs .rcx).toNat_lt
    (fun k early count more => by
      have one : s.stride = 1 := if_neg (by rw [up]; decide)
      rw [s.rep_movsb more, one, toNat_up inside early, toNat_up readable early, ← up_succ, ← up_succ]
      rfl)
  simp only [UInt64.ofNat_toNat, up_zero] at run
  rwa [show Mem.memcpy s.mem _ _ 0 = s.mem from rfl, s.strings_self] at run

theorem Steps.repStosb (here : code s.rip = some .repStosb) (up : s.flag .df = false)
    (inside : (s.regs .rdi).toNat + (s.regs .rcx).toNat ≤ 2 ^ 64) :
    Steps code s (s.next.strings (s.regs .rdi + s.regs .rcx) (s.regs .rsi) 0
      (s.mem.memset (s.regs .rdi).toNat (lowByte (s.regs .rax)) (s.regs .rcx).toNat)) := by
  have run := Steps.rep (fun k => s.regs .rdi + UInt64.ofNat k) (fun _ => s.regs .rsi)
    (s.mem.memset (s.regs .rdi).toNat (lowByte (s.regs .rax))) here (fun _ => rfl) (s.regs .rcx).toNat_lt
    (fun k early count more => by
      have one : s.stride = 1 := if_neg (by rw [up]; decide)
      rw [s.rep_stosb more, one, toNat_up inside early, ← up_succ, memset_succ])
  have none : s.mem.memset (s.regs .rdi).toNat (lowByte (s.regs .rax)) 0 = s.mem := by
    funext x
    exact Mem.memset_other _ (by omega)
  simp only [UInt64.ofNat_toNat, up_zero] at run
  rwa [none, s.strings_self] at run

/-- The last `k` of the bytes copied, each as it was at first. -/
def copiedDown (m : Mem) (dst src n k : Nat) : Mem := m.copyIn (dst + (n - k)) (fun j => m (src + (n - k) + j)) k

theorem copiedDown_zero (m : Mem) (dst src n : Nat) : copiedDown m dst src n 0 = m := by
  funext x
  exact Mem.copyIn_other m (by omega)

theorem copiedDown_self (m : Mem) (dst src n : Nat) : copiedDown m dst src n n = m.copyIn dst (fun j => m (src + j)) n := by
  unfold copiedDown
  rw [Nat.sub_self, Nat.add_zero, Nat.add_zero]

/-- The source lies below the bytes that are copied already. -/
theorem copiedDown_succ (m : Mem) {dst src n k : Nat} (below : src < dst) (more : k < n) :
    copiedDown m dst src n (k + 1) =
      (copiedDown m dst src n k).write8 (dst + (n - 1 - k)) (copiedDown m dst src n k (src + (n - 1 - k))) := by
  have source : copiedDown m dst src n k (src + (n - 1 - k)) = m (src + (n - 1 - k)) := Mem.copyIn_other m (by omega)
  rw [source]
  funext x
  unfold Mem.write8 copiedDown Mem.copyIn
  by_cases last : x = dst + (n - 1 - k)
  · rw [if_pos last, if_pos (by omega)]
    exact congrArg m (by omega)
  · rw [if_neg last]
    by_cases inside : dst + (n - k) ≤ x ∧ x < dst + (n - k) + k
    · rw [if_pos inside, if_pos (by omega)]
      exact congrArg m (by omega)
    · rw [if_neg inside, if_neg (by omega)]

/-- Downwards from the ends of two buffers. -/
theorem Steps.repMovsb_down (here : code s.rip = some .repMovsb) (down : s.flag .df = true)
    (rdi : s.regs .rdi = dst + s.regs .rcx - 1) (rsi : s.regs .rsi = src + s.regs .rcx - 1)
    (below : src.toNat < dst.toNat) (inside : dst.toNat + (s.regs .rcx).toNat ≤ 2 ^ 64) :
    Steps code s (s.next.strings (dst - 1) (src - 1) 0
      (s.mem.copyIn dst.toNat (fun j => s.mem (src.toNat + j)) (s.regs .rcx).toNat)) := by
  have run := Steps.rep (fun k => s.regs .rdi - UInt64.ofNat k) (fun k => s.regs .rsi - UInt64.ofNat k)
    (copiedDown s.mem dst.toNat src.toNat (s.regs .rcx).toNat) here (fun _ => rfl) (s.regs .rcx).toNat_lt
    (fun k early count more => by
      have back : s.stride = -1 := if_pos down
      rw [s.rep_movsb more, back, ← UInt64.sub_eq_add_neg, ← UInt64.sub_eq_add_neg, ← down_succ, ← down_succ, rdi, rsi,
        toNat_down inside early, toNat_down (by omega) early, ← copiedDown_succ s.mem below early])
  have last : ∀ base : UInt64, base + s.regs .rcx - 1 - s.regs .rcx = base - 1 := by
    intro base
    grind
  simp only [UInt64.ofNat_toNat, down_zero, copiedDown_zero, copiedDown_self, s.strings_self] at run
  rwa [rdi, rsi, last, last] at run

/-- What a comparison of strings changes: the three string registers and the flags. -/
structure Compares (s t : State) : Prop where
  regs : ∀ r, r ≠ .rdi → r ≠ .rsi → r ≠ .rcx → t.regs r = s.regs r
  df : t.flag .df = s.flag .df
  if_ : t.flag .if_ = s.flag .if_
  rest : { t with regs := s.regs, rflags := s.rflags, rip := s.rip } = s

theorem Compares.trans {t u : State} (first : Compares s t) (second : Compares t u) : Compares s u := by
  refine ⟨?_, second.df.trans first.df, second.if_.trans first.if_, ?_⟩
  · intro r rdi rsi rcx
    rw [second.regs r rdi rsi rcx, first.regs r rdi rsi rcx]
  · calc { u with regs := s.regs, rflags := s.rflags, rip := s.rip }
        = { ({ u with regs := t.regs, rflags := t.rflags, rip := t.rip } : State) with
            regs := s.regs, rflags := s.rflags, rip := s.rip } := rfl
      _ = s := by rw [second.rest, first.rest]

theorem Compares.next (s : State) : Compares s s.next := ⟨fun _ _ _ _ => rfl, rfl, rfl, rfl⟩

/-- One round of `repe cmpsb`, without the move to the next instruction. -/
def compared (s : State) : State := s.cmpsb.set .rcx (s.regs .rcx - 1)

theorem compares_compared (s : State) : Compares s (compared s) := by
  refine ⟨?_, ?_, ?_, rfl⟩
  · intro r rdi rsi rcx
    simp [compared, State.cmpsb, State.advance, rdi, rsi, rcx]
  · simp [compared, State.cmpsb, State.advance]
  · simp [compared, State.cmpsb, State.advance, subFlags, State.setFlags_cons]

theorem compared_zf (s : State) :
    (compared s).flag .zf = (s.mem (s.regs .rdi).toNat == s.mem (s.regs .rsi).toNat) := by
  simp [compared, State.cmpsb, State.advance, subFlags, State.setFlags_cons, UInt8.toBitVec_inj, eq_comm]

theorem compared_rcx (s : State) : (compared s).regs .rcx = s.regs .rcx - 1 := by simp [compared]

theorem compared_rdi (up : s.flag .df = false) : (compared s).regs .rdi = s.regs .rdi + 1 := by
  simp [compared, State.cmpsb, State.advance, State.stride, up]

theorem compared_rsi (up : s.flag .df = false) : (compared s).regs .rsi = s.regs .rsi + 1 := by
  simp [compared, State.cmpsb, State.advance, State.stride, up]

/-- The number of bytes that `repe cmpsb` goes over. -/
inductive Stops (m : Mem) (dst src : Nat) (zf : Bool) : Nat → Nat → Bool → Prop where
  | empty : Stops m dst src zf 0 0 zf
  | equal {n : Nat} (some : 0 < n) (same : ∀ i, i < n → m (dst + i) = m (src + i)) : Stops m dst src zf n n true
  | differs {n i : Nat} (inside : i < n) (same : ∀ j, j < i → m (dst + j) = m (src + j))
      (apart : m (dst + i) ≠ m (src + i)) : Stops m dst src zf n (i + 1) false

theorem Stops.le {m : Mem} {dst src n k : Nat} {zf zf' : Bool} (stops : Stops m dst src zf n k zf') : k ≤ n := by
  cases stops with
  | empty => exact Nat.le_refl 0
  | equal => exact Nat.le_refl n
  | differs inside => exact inside

theorem Stops.outcome {m : Mem} {dst src n k : Nat} {zf zf' : Bool} (stops : Stops m dst src zf n k zf') :
    (n = 0 ∧ k = 0 ∧ zf' = zf) ∨ (0 < n ∧ zf' = true ∧ ∀ i, i < n → m (dst + i) = m (src + i)) ∨
      ∃ i, i < n ∧ k = i + 1 ∧ zf' = false ∧ (∀ j, j < i → m (dst + j) = m (src + j)) ∧ m (dst + i) ≠ m (src + i) := by
  cases stops with
  | empty => exact .inl ⟨rfl, rfl, rfl⟩
  | equal some same => exact .inr (.inl ⟨some, rfl, same⟩)
  | differs inside same apart => exact .inr (.inr ⟨_, inside, rfl, rfl, same, apart⟩)

theorem Stops.cons {m : Mem} {dst src n k : Nat} {zf old zf' : Bool} (stops : Stops m (dst + 1) (src + 1) zf n k zf')
    (first : m dst = m src) (set : zf = true) : Stops m dst src old (n + 1) (k + 1) zf' := by
  have shifted : ∀ {i}, (∀ j, j < i → m (dst + 1 + j) = m (src + 1 + j)) → ∀ j, j < i + 1 → m (dst + j) = m (src + j) := by
    intro i same j early
    cases j with
    | zero => exact first
    | succ j =>
      rw [show dst + (j + 1) = dst + 1 + j by omega, show src + (j + 1) = src + 1 + j by omega]
      exact same j (by omega)
  cases stops with
  | empty =>
    subst set
    exact .equal (by decide) (shifted fun j early => absurd early (Nat.not_lt_zero j))
  | equal some same => exact .equal (Nat.succ_pos n) (shifted same)
  | differs inside same apart =>
    refine .differs (Nat.succ_lt_succ inside) (shifted same) ?_
    rwa [← Nat.add_assoc, ← Nat.add_assoc, Nat.add_right_comm dst, Nat.add_right_comm src]

theorem toNat_succ {x : UInt64} {n : Nat} (fits : x.toNat + (n + 1) < 2 ^ 64) : (x + 1).toNat = x.toNat + 1 := by
  rw [UInt64.toNat_add]
  exact Nat.mod_eq_of_lt (by change x.toNat + 1 < 2 ^ 64; omega)

theorem Steps.repeCmpsb (here : code s.rip = some .repeCmpsb) (up : s.flag .df = false) {n : Nat}
    (counted : (s.regs .rcx).toNat = n) (inside : (s.regs .rdi).toNat + n < 2 ^ 64)
    (readable : (s.regs .rsi).toNat + n < 2 ^ 64) :
    ∃ t k, Steps code s t ∧ Compares s t ∧ t.rip = s.rip + 1 ∧
      Stops s.mem (s.regs .rdi).toNat (s.regs .rsi).toNat (s.flag .zf) n k (t.flag .zf) ∧
      (t.regs .rdi).toNat = (s.regs .rdi).toNat + k ∧ (t.regs .rsi).toNat = (s.regs .rsi).toNat + k := by
  induction n generalizing s with
  | zero =>
    have none : s.regs .rcx = 0 := UInt64.toNat_inj.mp counted
    refine ⟨s.next, 0, .one here ?_, .next s, rfl, .empty, rfl, rfl⟩
    exact congrArg some (if_pos none)
  | succ n ih =>
    have more : s.regs .rcx ≠ 0 := by
      intro none
      rw [none] at counted
      cases counted
    have rdi := (congrArg UInt64.toNat (compared_rdi up)).trans (toNat_succ inside)
    have rsi := (congrArg UInt64.toNat (compared_rsi up)).trans (toNat_succ readable)
    have left : ((compared s).regs .rcx).toNat = n := by
      have enough : (1 : UInt64) ≤ s.regs .rcx := UInt64.le_iff_toNat_le.mpr (by rw [counted]; exact Nat.le_add_left 1 n)
      rw [compared_rcx, UInt64.toNat_sub_of_le _ _ enough, counted]
      rfl
    have round : exec s .repeCmpsb = some (if (compared s).flag .zf then compared s else (compared s).next) :=
      congrArg some (if_neg more)
    by_cases first : s.mem (s.regs .rdi).toNat = s.mem (s.regs .rsi).toNat
    · have set : (compared s).flag .zf = true := by rw [compared_zf, first, beq_self_eq_true]
      rw [if_pos set] at round
      obtain ⟨t, k, steps, compares, rip, stops, last, last'⟩ := ih (s := compared s) here
        ((compares_compared s).df.trans up) left (by omega) (by omega)
      rw [rdi, rsi] at stops
      refine ⟨t, k + 1, .cons here round steps, (compares_compared s).trans compares, rip, stops.cons first set, ?_, ?_⟩
      · omega
      · omega
    · have clear : (compared s).flag .zf = false := by rw [compared_zf, beq_eq_false_iff_ne.mpr first]
      rw [if_neg (by rw [clear]; decide)] at round
      refine ⟨(compared s).next, 1, .one here round, (compares_compared s).trans (.next _), rfl, ?_, rdi, rsi⟩
      change Stops _ _ _ _ _ _ ((compared s).flag .zf)
      rw [clear]
      exact .differs (Nat.succ_pos n) (fun j early => absurd early (Nat.not_lt_zero j)) first

end X86
