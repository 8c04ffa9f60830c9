import FishOS.Klib.Printf
import FishOS.Lib.Fallible
import FishOS.Lib.Numerals

/-!
# What a conversion prints

Each conversion of `vprintf` in closed form: its events, and whether the count of characters is
still an `int` afterwards.
-/

namespace FishOS.Klib

open Numerals

namespace Printer

/-- Events with so many characters to count. -/
def put (p : Printer) (n : Nat) (events : List PrintEvent) : Except PrintFault Printer :=
  if n = 0 ∨ p.written + n < 2 ^ 31 then .ok { p with written := p.written + n, events := p.events ++ events }
  else .error .panic

variable {p : Printer} {a b n : Nat} {e e' : List PrintEvent}

theorem put_nil (p : Printer) : p.put 0 [] = .ok p := by
  unfold put
  rw [if_pos (.inl rfl), List.append_nil, Nat.cast_zero, Int.add_zero]

theorem put_put (p : Printer) (a b : Nat) (e e' : List PrintEvent) :
    (p.put a e >>= fun p => p.put b e') = p.put (a + b) (e ++ e') := by
  unfold put
  by_cases first : a = 0 ∨ p.written + a < 2 ^ 31
  · rw [if_pos first]
    show (if b = 0 ∨ p.written + a + b < 2 ^ 31 then _ else _) = _
    by_cases second : b = 0 ∨ p.written + a + b < 2 ^ 31
    · rw [if_pos second, if_pos (by omega), List.append_assoc, Nat.cast_add, Int.add_assoc]
    · rw [if_neg second, if_neg (by omega)]
  · rw [if_neg first, if_neg (by omega)]
    rfl

theorem put_ok {p p' : Printer} (put : p.put n e = .ok p') :
    (n = 0 ∨ p.written + n < 2 ^ 31) ∧ p' = { p with written := p.written + n, events := p.events ++ e } := by
  unfold Printer.put at put
  split at put
  · rename_i room
    exact ⟨room, (Except.ok.inj put).symm⟩
  · cases put

theorem putchar_count (p : Printer) (c : UInt8) : (p.putchar c).count 1 = p.put 1 [.putchar c] := by
  unfold putchar count put
  simp

theorem count_putchar {α : Type} (p : Printer) (c : UInt8) (rest : Printer → Except PrintFault α) :
    (p.count 1 >>= fun p => rest (p.putchar c)) = p.put 1 [.putchar c] >>= rest := by
  unfold count put
  by_cases room : p.written + (1 : Nat) < 2 ^ 31
  · rw [if_pos room, if_pos (.inr room)]
    rfl
  · rw [if_neg room, if_neg (by omega)]
    rfl

/-- What `str[i]` leaves behind. -/
def read (p : Printer) (a : Nat) : Printer := { p with events := p.events ++ [.read a] }

theorem put_read (p : Printer) (a : Nat) : p.put 0 [.read a] = .ok (p.read a) := by
  unfold put read
  rw [if_pos (.inl rfl), Nat.cast_zero, Int.add_zero]

theorem load_inside {str i : Nat} (inside : str ≠ 0 ∧ str + i < 2 ^ 64) (m : Mem) (p : Printer) :
    p.load m str i = .ok (m (str + i), p.read (str + i)) := if_pos inside

theorem load_outside {str i : Nat} (outside : ¬(str ≠ 0 ∧ str + i < 2 ^ 64)) (m : Mem) (p : Printer) :
    p.load m str i = .error .panic := if_neg outside

theorem read_putchar (p : Printer) (a : Nat) (c : UInt8) :
    ((p.read a).putchar c).count 1 = p.put 1 [.read a, .putchar c] := by
  rw [putchar_count]
  simp [read, put]

theorem read_read_putchar (p : Printer) (a : Nat) (c : UInt8) :
    (((p.read a).read a).putchar c).count 1 = p.put 1 [.read a, .read a, .putchar c] := by
  rw [read_putchar]
  simp [read, put]

theorem put_panic (p : Printer) (n : Nat) (e : List PrintEvent) :
    (p.put n e >>= fun _ => (.error .panic : Except PrintFault Printer)) = .error .panic := by
  unfold put
  split <;> rfl

end Printer

variable {args : Nat → UInt64} {base n : Nat} {used : Nat → UInt8} {f : Flags} {p : Printer} {m : Mem}

theorem divideLoop_eq (base di v : Nat) : divideLoop base di v = v / base ^ di := by
  induction di generalizing v with
  | zero => simp [divideLoop]
  | succ di ih => rw [divideLoop, ih, Nat.div_div_eq_div_mul, Nat.pow_succ']

theorem numDigitsLoop_eq (wide : 1 < base) {fuel x : Nat} (enough : x < base ^ (fuel + 1)) :
    numDigitsLoop base fuel x = Nat.log base x := by
  induction fuel generalizing x with
  | zero =>
    rw [numDigitsLoop, Nat.log_of_lt (by simpa using enough)]
  | succ fuel ih =>
    rw [numDigitsLoop]
    have rest : x / base < base ^ (fuel + 1) := by
      rw [Nat.div_lt_iff_lt_mul (by omega), ← Nat.pow_succ]
      exact enough
    rw [ih rest]
    by_cases more : x / base ≠ 0
    · have large : base ≤ x := by
        by_contra small
        exact more (Nat.div_eq_of_lt (Nat.not_le.mp small))
      rw [if_pos more, Nat.log_of_one_lt_of_le wide large]
    · rw [if_neg more, Nat.log_of_lt]
      by_contra large
      have some := Nat.div_pos (Nat.not_lt.mp large) (by omega : 0 < base)
      omega

/-- The helper counts one digit less than there are. -/
theorem numDigits_eq (wide : 1 < base) {x : Nat} (word : x < 2 ^ 64) : numDigits x base + 1 = size base x := by
  unfold numDigits size
  rw [numDigitsLoop_eq wide]
  calc x < 2 ^ 64 := word
    _ ≤ base ^ 64 := Nat.pow_le_pow_left wide 64
    _ ≤ base ^ (64 + 1) := Nat.pow_le_pow_right (by omega) (by omega)

theorem digitLoop_eq (base : Nat) (used : Nat → UInt8) (value n : Nat) (p : Printer) :
    digitLoop base used value n p = p.put n ((numeral base n value).map fun d => .putchar (used d)) := by
  induction n generalizing p with
  | zero => rw [digitLoop, numeral_zero, List.map_nil, p.put_nil]
  | succ n ih =>
    rw [digitLoop, divideLoop_eq, p.putchar_count, numeral_succ, List.map_cons, Nat.add_comm n 1]
    simp only [ih]
    exact p.put_put 1 n _ _

theorem padLoop_eq (n : Nat) (p : Printer) :
    padLoop n p = { p with events := p.events ++ List.replicate n (.putchar 0x30) } := by
  induction n generalizing p with
  | zero => rw [padLoop, List.replicate_zero, List.append_nil]
  | succ n ih =>
    rw [padLoop, ih, Printer.putchar, List.append_assoc]
    rfl

/-- The argument of a number conversion. -/
def Flags.value (f : Flags) (word : UInt64) : Nat := if f.longInt then word.toNat else word.toNat % 2 ^ 32

theorem Flags.value_lt (f : Flags) (word : UInt64) : f.value word < 2 ^ 64 := by
  have bound := word.toNat_lt
  unfold value
  split
  · exact bound
  · omega

/-- `written` behind the padding. -/
def padded (f : Flags) (base value : Nat) (written : Int) : Int :=
  if size base value ≤ f.zeroPad then (written + (f.zeroPad - size base value : Nat)).bmod (2 ^ 32) else written

/-- A number is printed with as many digits as asked for, or more if it has more. -/
theorem printNumber_eq (wide : 1 < base) (zero : used 0 = 0x30) (args : Nat → UInt64) (f : Flags) (p : Printer) :
    printNumber args base used f p =
      ({ p with written := padded f base (f.value (args p.list)) p.written, list := p.list + 1 } : Printer).put
        (size base (f.value (args p.list)))
        ((numeral base (max f.zeroPad (size base (f.value (args p.list)))) (f.value (args p.list))).map
          fun d => .putchar (used d)) := by
  have count := numDigits_eq wide (f.value_lt (args p.list))
  have value : (if f.longInt then (args p.list).toNat else (args p.list).toNat % 2 ^ 32) = f.value (args p.list) := rfl
  unfold printNumber Printer.vaArg
  dsimp only
  rw [value]
  generalize f.value (args p.list) = v at count ⊢
  rw [count, digitLoop_eq, numeral_max wide, List.map_append, List.map_replicate, zero]
  by_cases wider : f.zeroPad ≠ 0 ∧ f.zeroPad > numDigits v base
  · have room : size base v ≤ f.zeroPad := by omega
    have same : f.zeroPad - numDigits v base - 1 = f.zeroPad - size base v := by omega
    rw [if_pos wider, padLoop_eq, same]
    unfold Printer.put padded
    dsimp only
    rw [if_pos room, List.append_assoc]
  · have none : f.zeroPad - size base v = 0 := by omega
    rw [if_neg wider, none, List.replicate_zero, List.nil_append]
    unfold padded
    rw [if_neg (by omega)]

/-- What `#` puts in front of a number. -/
def Flags.front (f : Flags) : List UInt8 := if f.altForm then [0x30, 0x78] else []

theorem printHex_eq (args : Nat → UInt64) (used : List UInt8) (f : Flags) (p : Printer) : printHex args used f p =
    p.put f.front.length (f.front.map .putchar) >>= printNumber args 16 (used.getD · 0) f := by
  have two : ((p.putchar 0x30).putchar 0x78).count 2 = p.put 2 [.putchar 0x30, .putchar 0x78] := by
    simp [Printer.putchar, Printer.count, Printer.put]
  unfold printHex Flags.front
  cases f.altForm with
  | false => exact congrArg (· >>= printNumber args 16 (used.getD · 0) f) p.put_nil.symm
  | true => exact congrArg (· >>= printNumber args 16 (used.getD · 0) f) two

/-! ### Strings -/

/-- The distance to the first NUL among so many bytes. -/
def nulDistance (m : Mem) : Nat → Nat → Option Nat
  | 0, _ => none
  | limit + 1, a => if m a = 0 then some 0 else (nulDistance m limit (a + 1)).map (· + 1)

/-- The number of characters that `%s` prints, if their bytes lie inside the address space. A length
of zero counts as none given. -/
def stringLength (m : Mem) (length str : Nat) : Option Nat :=
  if str = 0 then none
  else if length ≠ 0 then if str + length ≤ 2 ^ 64 then some length else none
  else nulDistance m (2 ^ 64 - str) str

theorem stringLength_given {m : Mem} {length str : Nat} (given : length ≠ 0) :
    stringLength m length str = some n ↔ n = length ∧ str ≠ 0 ∧ str + length ≤ 2 ^ 64 := by
  unfold stringLength
  by_cases null : str = 0
  · simp [null]
  · rw [if_neg null, if_pos given]
    by_cases room : str + length ≤ 2 ^ 64
    · rw [if_pos room, Option.some_inj]
      exact ⟨fun same => ⟨same.symm, null, room⟩, fun same => same.1.symm⟩
    · rw [if_neg room]
      exact ⟨nofun, fun same => absurd same.2.2 room⟩

/-- With a length each byte is read once. -/
def lengthEvents (m : Mem) (str i : Nat) : List PrintEvent := [.read (str + i), .putchar (m (str + i))]

/-- Without one it is read again after the comparison with the NUL. -/
def nulEvents (m : Mem) (str i : Nat) : List PrintEvent :=
  [.read (str + i), .read (str + i), .putchar (m (str + i))]

def stringEvents (m : Mem) (length str n : Nat) : List PrintEvent :=
  if length ≠ 0 then (List.range' 0 n).flatMap (lengthEvents m str)
  else (List.range' 0 n).flatMap (nulEvents m str) ++ [.read (str + n)]

/-- The character that goes to the console. -/
def PrintEvent.printed : PrintEvent → Option UInt8
  | putchar c => some c
  | read _ => none

theorem printed_stringEvents (m : Mem) (length str n : Nat) :
    (stringEvents m length str n).filterMap PrintEvent.printed = (List.range n).map fun i => m (str + i) := by
  unfold stringEvents
  rw [List.range_eq_range']
  by_cases given : length ≠ 0
  · rw [if_pos given, List.filterMap_flatMap, List.map_eq_flatMap]
    rfl
  · rw [if_neg given, List.filterMap_append, List.filterMap_flatMap, List.map_eq_flatMap]
    exact List.append_nil _

theorem read_stringEvents {m : Mem} {length str n a : Nat} (given : length ≠ 0)
    (read : .read a ∈ stringEvents m length str n) : str ≤ a ∧ a < str + n := by
  unfold stringEvents at read
  rw [if_pos given] at read
  obtain ⟨i, inside, member⟩ := List.mem_flatMap.mp read
  obtain ⟨-, below⟩ := List.mem_range'_1.mp inside
  obtain rfl : a = str + i := by simpa [lengthEvents] using member
  omega

/-- The NUL is read. -/
theorem nul_stringEvents (m : Mem) (str n : Nat) : .read (str + n) ∈ stringEvents m 0 str n := by
  unfold stringEvents
  rw [if_neg (not_not.mpr rfl)]
  exact List.mem_append_right _ (.head _)

theorem lengthLoop_eq (m : Mem) (str n i : Nat) (p : Printer) : lengthLoop m str n i p =
    if n = 0 ∨ (str ≠ 0 ∧ str + i + n ≤ 2 ^ 64) then p.put n ((List.range' i n).flatMap (lengthEvents m str))
    else .error .panic := by
  induction n generalizing i p with
  | zero =>
    rw [lengthLoop, if_pos (.inl rfl), List.range'_zero, List.flatMap_nil, p.put_nil]
  | succ n ih =>
    rw [lengthLoop]
    by_cases inside : str ≠ 0 ∧ str + i < 2 ^ 64
    · rw [p.load_inside inside, Except.ok_bind]
      dsimp only
      rw [p.read_putchar]
      simp only [ih]
      by_cases rest : n = 0 ∨ (str ≠ 0 ∧ str + (i + 1) + n ≤ 2 ^ 64)
      · simp only [if_pos rest]
        rw [if_pos (by omega), p.put_put, Nat.add_comm 1 n]
        rfl
      · simp only [if_neg rest]
        rw [if_neg (by omega), p.put_panic]
    · rw [p.load_outside inside, if_neg (by omega)]
      rfl

theorem nulLoop_null (m : Mem) {str : Nat} (null : str = 0) (limit i : Nat) (p : Printer) :
    nulLoop m str limit i p = .error .panic := by
  cases limit with
  | zero => rfl
  | succ limit =>
    rw [nulLoop, p.load_outside fun inside => inside.1 null]
    rfl

theorem nulLoop_eq (m : Mem) {str limit i : Nat} (some : str ≠ 0) (enough : 2 ^ 64 ≤ str + i + limit) (p : Printer) :
    nulLoop m str limit i p = (nulDistance m (2 ^ 64 - (str + i)) (str + i)).elim (.error .panic) fun n =>
      p.put n ((List.range' i n).flatMap (nulEvents m str) ++ [.read (str + (i + n))]) := by
  induction limit generalizing i p with
  | zero =>
    have none : 2 ^ 64 - (str + i) = 0 := by omega
    rw [nulLoop, none, nulDistance, Option.elim_none]
  | succ limit ih =>
    rw [nulLoop]
    by_cases inside : str ≠ 0 ∧ str + i < 2 ^ 64
    · obtain ⟨left, more⟩ : ∃ left, 2 ^ 64 - (str + i) = left + 1 := ⟨2 ^ 64 - (str + i) - 1, by omega⟩
      have next : 2 ^ 64 - (str + (i + 1)) = left := by omega
      rw [p.load_inside inside, Except.ok_bind, more, nulDistance]
      dsimp only
      by_cases nul : m (str + i) = 0
      · rw [if_neg (not_not.mpr nul), if_pos nul]
        exact (p.put_read (str + i)).symm
      · rw [if_pos nul, if_neg nul, (p.read _).load_inside inside, Except.ok_bind, p.read_read_putchar]
        simp only [ih (i := i + 1) (by omega), next]
        rw [Nat.add_assoc str i 1]
        cases nulDistance m left (str + (i + 1)) with
        | none => exact p.put_panic 1 _
        | some n =>
          show (p.put 1 (nulEvents m str i) >>= fun p => p.put n _) = p.put (n + 1) _
          rw [p.put_put, Nat.add_comm 1 n, ← List.append_assoc, Nat.add_right_comm i 1 n, Nat.add_assoc i n 1]
          rfl
    · have none : 2 ^ 64 - (str + i) = 0 := by omega
      rw [p.load_outside inside, none]
      rfl

theorem printString_eq (m : Mem) (args : Nat → UInt64) (f : Flags) (p : Printer) : printString m args f p =
    (stringLength m f.sLength (args p.list).toNat).elim (.error .panic) fun n =>
      ({ p with list := p.list + 1 } : Printer).put n (stringEvents m f.sLength (args p.list).toNat n) := by
  unfold printString Printer.vaArg stringLength stringEvents
  dsimp only
  generalize (args p.list).toNat = str
  by_cases length : f.sLength ≠ 0
  · simp only [if_pos length, lengthLoop_eq]
    by_cases inside : str ≠ 0 ∧ str + f.sLength ≤ 2 ^ 64
    · rw [if_pos (.inr inside), if_neg inside.1, if_pos inside.2]
      rfl
    · rw [if_neg (by omega)]
      by_cases null : str = 0
      · rw [if_pos null]
        rfl
      · rw [if_neg null, if_neg (by omega)]
        rfl
  · simp only [if_neg length]
    by_cases null : str = 0
    · rw [if_pos null, nulLoop_null m null]
      rfl
    · rw [if_neg null, nulLoop_eq m null (Nat.le_add_left (2 ^ 64) (str + 0))]
      simp only [Nat.add_zero, Nat.zero_add]

end FishOS.Klib
