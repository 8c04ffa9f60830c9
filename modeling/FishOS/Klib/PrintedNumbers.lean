import FishOS.Klib.PrintfReturns

/-!
# Numbers that vprintf prints

A format that is one conversion of a number: what the call prints, against the digits of the number.
-/

namespace FishOS.Klib

open Numerals

inductive Switch where
  | alt
  | long
  deriving DecidableEq

def Switch.flag : Switch → Flag
  | alt => .alt
  | long => .long

/-- `%0N` or `%0NN` -/
structure Width where
  first : Digit
  second : Option Digit

namespace Width

def flag (width : Width) : Flag := .pad width.first width.second

def value (width : Width) : Nat :=
  match width.second with
  | none => width.first.1.toNat - 0x30
  | some second => (width.first.1.toNat - 0x30) * 10 + (second.1.toNat - 0x30)

end Width

/-- The flags of one conversion: `#` and `l` in any places but not twice, and a width or none. -/
structure NumberFormat where
  front : List Switch
  width : Option Width
  back : List Switch
  once : (front ++ back).Nodup

namespace NumberFormat

def has (format : NumberFormat) (switch : Switch) : Bool := switch ∈ format.front ++ format.back

def widthValue (format : NumberFormat) : Nat := (format.width.map Width.value).getD 0

def flags (format : NumberFormat) : List Flag :=
  format.front.map Switch.flag ++ (format.width.map Width.flag).toList ++ format.back.map Switch.flag

/-- The argument: 64 bits with `l`, the lower 32 without. -/
def argument (format : NumberFormat) (word : UInt64) : Nat :=
  if format.has .long then word.toNat else word.toNat % 2 ^ 32

end NumberFormat

variable {args : Nat → UInt64} {base n : Nat} {used : Nat → UInt8} {f : Flags} {p : Printer} {m : Mem}

theorem charValue_digit (d : Digit) : charValue d = (d.1.toNat - 0x30 : Nat) ∧ d.1.toNat - 0x30 < 10 := by
  obtain ⟨d, lower, upper⟩ := d
  have low : 0x30 ≤ d.toNat := UInt8.le_iff_toNat_le.mp lower
  have high : d.toNat ≤ 0x39 := UInt8.le_iff_toNat_le.mp upper
  have signed : d.toInt8.toInt = d.toNat := by
    show d.toBitVec.toInt = d.toBitVec.toNat
    rw [BitVec.toInt_eq_toNat_cond, if_pos]
    show 2 * d.toNat < 2 ^ 8
    omega
  unfold charValue
  dsimp only
  rw [signed]
  omega

theorem toUsize_nat {n : Nat} (small : n < 2 ^ 64) : toUsize n = n := by
  unfold toUsize
  omega

theorem Width.flag_set (width : Width) (f : Flags) (list : Nat) :
    width.flag.set args (f, list) = ({ f with zeroPad := width.value }, list) := by
  obtain ⟨first, second⟩ := width
  obtain ⟨tens, small⟩ := charValue_digit first
  cases second with
  | none =>
    unfold flag value Flag.set
    dsimp only
    rw [tens, toUsize_nat (by omega)]
  | some second =>
    obtain ⟨ones, small'⟩ := charValue_digit second
    unfold flag value Flag.set
    dsimp only
    rw [tens, ones]
    congr 2
    exact toUsize_nat (n := (first.1.toNat - 0x30) * 10 + (second.1.toNat - 0x30)) (by omega)

theorem switches_set (switches : List Switch) (f : Flags) (list : Nat) :
    (switches.map Switch.flag).foldl (Flag.set args) (f, list) =
      ({ f with altForm := f.altForm || .alt ∈ switches, longInt := f.longInt || .long ∈ switches }, list) := by
  induction switches generalizing f with
  | nil => simp
  | cons switch switches ih =>
    rw [List.map_cons, List.foldl_cons]
    cases switch with
    | alt => simp [Switch.flag, Flag.set, ih]
    | long => simp [Switch.flag, Flag.set, ih]

theorem Width.value_le (width : Width) : width.value ≤ 99 := by
  obtain ⟨first, second⟩ := width
  have tens := (charValue_digit first).2
  cases second with
  | none =>
    show first.1.toNat - 0x30 ≤ 99
    omega
  | some second =>
    have ones := (charValue_digit second).2
    show (first.1.toNat - 0x30) * 10 + (second.1.toNat - 0x30) ≤ 99
    omega

namespace NumberFormat

theorem widthValue_le (format : NumberFormat) : format.widthValue ≤ 99 := by
  unfold widthValue
  cases format.width with
  | none => exact Nat.zero_le 99
  | some width => exact width.value_le

/-- Only the width is a padding, so nothing runs into it. -/
theorem flags_apart (format : NumberFormat) : format.flags.IsChain Flag.Before := by
  have switches : ∀ (switches : List Switch) (rest : List Flag), rest.IsChain Flag.Before →
      (switches.map Switch.flag ++ rest).IsChain Flag.Before := by
    intro switches rest apart
    induction switches with
    | nil => exact apart
    | cons switch switches ih =>
      refine List.isChain_cons.mpr ⟨fun next _ => ?_, ih⟩
      cases switch <;> exact False.elim
  have back := switches format.back [] .nil
  rw [List.append_nil] at back
  unfold flags
  rw [List.append_assoc]
  apply switches
  cases format.width with
  | none => exact back
  | some width =>
    refine List.isChain_cons.mpr ⟨fun next head _ => ?_, back⟩
    obtain ⟨switch, -, rfl⟩ := List.mem_map.mp (List.mem_of_mem_head? head)
    cases switch <;> exact not_false

/-- The variables that its flags set. -/
def settings (format : NumberFormat) : Flags :=
  { altForm := format.has .alt, longInt := format.has .long, zeroPad := format.widthValue, sLength := 0 }

theorem flags_set (format : NumberFormat) (args : Nat → UInt64) (list : Nat) :
    format.flags.foldl (Flag.set args) (noFlags, list) = (format.settings, list) := by
  unfold flags settings has widthValue
  rw [List.foldl_append, List.foldl_append, switches_set]
  cases format.width with
  | none => simp [switches_set, noFlags]
  | some width => simp [switches_set, noFlags, Width.flag_set]

theorem mem_flags {format : NumberFormat} {flag : Flag} (member : flag ∈ format.flags) :
    (∃ switch, flag = Switch.flag switch) ∨ ∃ width, flag = Width.flag width := by
  unfold flags at member
  rcases List.mem_append.mp member with front | back
  · rcases List.mem_append.mp front with front | padding
    · obtain ⟨switch, -, rfl⟩ := List.mem_map.mp front
      exact .inl ⟨switch, rfl⟩
    · obtain ⟨width, -, rfl⟩ := Option.map_eq_some_iff.mp (Option.mem_toList.mp padding)
      exact .inr ⟨width, rfl⟩
  · obtain ⟨switch, -, rfl⟩ := List.mem_map.mp back
    exact .inl ⟨switch, rfl⟩

theorem noNul (format : NumberFormat) (letter : Letter) :
    0 ∉ 0x25 :: (format.flags.flatMap Flag.bytes ++ [letter.byte]) := by
  have digit : ∀ d : Digit, 0 ≠ d.1 := by
    rintro ⟨d, lower, upper⟩ rfl
    exact absurd lower (by decide)
  have plain : ∀ flag ∈ format.flags, 0 ∉ Flag.bytes flag := by
    intro flag within
    rcases mem_flags within with ⟨switch, rfl⟩ | ⟨⟨first, second⟩, rfl⟩
    · cases switch <;> decide
    · cases second with
      | none => simp [Width.flag, Flag.bytes, digit]
      | some second => simp [Width.flag, Flag.bytes, digit]
  intro member
  rcases List.mem_cons.mp member with percent | member
  · cases percent
  rcases List.mem_append.mp member with flags | last
  · obtain ⟨flag, within, zero⟩ := List.mem_flatMap.mp flags
    exact plain flag within zero
  · have same := List.mem_singleton.mp last
    cases letter <;> cases same

/-- The format in characters. -/
def toCString (format : NumberFormat) (letter : Letter) : CString where
  chars := 0x25 :: (format.flags.flatMap Flag.bytes ++ [letter.byte])
  noNul := format.noNul letter

theorem length_toCString (format : NumberFormat) (letter : Letter) : (format.toCString letter).chars.length ≤ 7 := by
  have switches : format.front.length + format.back.length ≤ 2 := by
    have every : format.front ++ format.back ⊆ [.alt, .long] := by
      intro switch _
      cases switch <;> decide
    have few := format.once.length_le_of_subset every
    rwa [List.length_append] at few
  have one : ∀ switches : List Switch, ((switches.map Switch.flag).flatMap Flag.bytes).length = switches.length := by
    intro switches
    induction switches with
    | nil => rfl
    | cons switch switches ih =>
      rw [List.map_cons, List.flatMap_cons, List.length_append, ih, List.length_cons]
      cases switch <;> exact Nat.add_comm 1 _
  have width : ((format.width.map Width.flag).toList.flatMap Flag.bytes).length ≤ 3 := by
    cases format.width with
    | none => exact Nat.zero_le 3
    | some width =>
      obtain ⟨first, second⟩ := width
      cases second <;> simp [Width.flag, Flag.bytes]
  unfold toCString flags
  simp only [List.length_cons, List.length_append, List.flatMap_append, List.length_nil, one]
  omega

/-- The call is the printing of one letter. -/
theorem vprintf_eq {Lock : Type} [DecidableEq Lock] {core : Core Lock} {print_lock : Lock} {bound : Nat}
    (free : core.locked print_lock = false) (m : Mem) (args : Nat → UInt64) (format : NumberFormat) (letter : Letter)
    (enough : 7 < bound) : vprintf bound core print_lock m args (format.toCString letter) =
      letter.print m args format.settings .start >>= fun p =>
        .ok ((core.cli.setLocked print_lock true).unlock print_lock, p) := by
  have short := format.length_toCString letter
  have made : (format.toCString letter).chars =
      [Directive.convert format.flags format.flags_apart letter].flatMap Directive.bytes := by
    rw [List.flatMap_singleton]
    rfl
  rw [vprintf_directives free (by omega) made (by omega), List.foldlM_cons]
  have set := format.flags_set args Printer.start.list
  simp only [List.foldlM_nil, bind_pure, Directive.print, set]

end NumberFormat

/-- A number in a field of a usual width, printed at the start of a call. -/
theorem printNumber_field (wide : 1 < base) (zero : used 0 = 0x30) (args : Nat → UInt64) {f : Flags} (field : f.zeroPad ≤ 99)
    {p : Printer} {k : Nat} (few : p.written = k) (start : k ≤ 2) : printNumber args base used f p = .ok
      { written := k + max f.zeroPad (size base (f.value (args p.list))), list := p.list + 1,
        events := p.events ++ (numeral base (max f.zeroPad (size base (f.value (args p.list)))) (f.value (args p.list))).map
          fun d => .putchar (used d) } := by
  have short : size base (f.value (args p.list)) ≤ 64 := by
    apply size_le (by decide)
    calc f.value (args p.list) < 2 ^ 64 := f.value_lt _
      _ ≤ base ^ 64 := Nat.pow_le_pow_left wide 64
  rw [printNumber_eq wide zero]
  generalize f.value (args p.list) = v at short ⊢
  have sum : padded f base v p.written = (k + (f.zeroPad - size base v) : Nat) := by
    unfold padded
    rw [few]
    split
    · rw [← Nat.cast_add]
      apply Int.bmod_eq_of_le <;> omega
    · congr 1
      omega
  unfold Printer.put
  dsimp only
  rw [sum, if_pos (.inr (by omega))]
  congr 2
  omega

/-! ### Hexadecimal -/

/-- What a character counts as a hexadecimal digit. -/
def hexValue (upper : Bool) (c : UInt8) : Option Nat :=
  let ten := if upper then 0x41 else 0x61
  if 0x30 ≤ c ∧ c ≤ 0x39 then some (c.toNat - 0x30)
  else if ten ≤ c ∧ c < ten + 6 then some (c.toNat - ten.toNat + 10)
  else none

/-- The characters are digits of `v`, as many as it has, or more up to the width. -/
def IsHex (upper : Bool) (width v : Nat) (chars : List UInt8) : Prop :=
  chars.length = max width (max 1 (Nat.digits 16 v).length) ∧
  ∃ digits : List Nat, chars.map (hexValue upper) = digits.map some ∧ Nat.ofDigits 16 digits.reverse = v

def hexLetter (upper : Bool) : Letter := if upper then .X else .x

theorem hexValue_used (upper : Bool) {d : Nat} (digit : d < 16) :
    hexValue upper ((if upper then high else low).getD d 0) = some d := by
  have all : ∀ upper : Bool, ∀ d < 16, hexValue upper ((if upper then high else low).getD d 0) = some d := by decide
  exact all upper d digit

theorem numeral_isHex (upper : Bool) (width v : Nat) : IsHex upper width v
    ((numeral 16 (max width (size 16 v)) v).map ((if upper then high else low).getD · 0)) := by
  have wide : 1 < 16 := by decide
  refine ⟨?_, numeral 16 (max width (size 16 v)) v, ?_, ofDigits_numeral_max wide width v⟩
  · rw [List.length_map, length_numeral, size_eq_length wide]
  · rw [List.map_map]
    apply List.map_congr_left
    intro d member
    exact hexValue_used upper (lt_of_mem_numeral (by decide) member)

/-- `x` and `X` print `0x` if it is asked for and then the digits of their argument. -/
theorem hex_faithful {Lock : Type} [DecidableEq Lock] {core : Core Lock} {print_lock : Lock}
    (free : core.locked print_lock = false) (m : Mem) (args : Nat → UInt64) (format : NumberFormat) (upper : Bool) :
    ∃ enough, ∀ bound ≥ enough, ∃ core' p chars,
      vprintf bound core print_lock m args (format.toCString (hexLetter upper)) = .ok (core', p) ∧
      p.events = ((if format.has .alt then [0x30, 0x78] else []) ++ chars).map .putchar ∧
      IsHex upper format.widthValue (format.argument (args 0)) chars ∧
      p.written = p.events.length := by
  refine ⟨8, fun bound enough => ?_⟩
  have print : (hexLetter upper).print m args format.settings .start =
      printHex args (if upper then high else low) format.settings .start := by
    cases upper <;> rfl
  have zero : (if upper then high else low).getD 0 0 = 0x30 := by cases upper <;> rfl
  have two : format.settings.front.length ≤ 2 := by
    unfold Flags.front
    split <;> decide
  have front : Printer.start.put format.settings.front.length (format.settings.front.map .putchar) =
      .ok { written := format.settings.front.length, list := 0, events := format.settings.front.map .putchar } := by
    have room : Printer.start.written + format.settings.front.length < 2 ^ 31 := by
      show (0 : Int) + format.settings.front.length < 2 ^ 31
      omega
    exact (if_pos (.inr room)).trans (by simp [Printer.start])
  rw [format.vprintf_eq free m args _ enough, print, printHex_eq, front, Except.ok_bind,
    printNumber_field (by decide) zero args format.widthValue_le rfl two]
  refine ⟨_, _, _, rfl, ?_, numeral_isHex upper _ _, ?_⟩
  · rw [List.map_append, List.map_map]
    rfl
  · simp

/-- `"%#08lx"` -/
def sharpWideLong : NumberFormat where
  front := [.alt]
  width := some { first := ⟨0x38, by decide⟩, second := none }
  back := [.long]
  once := by decide

theorem hex_faithful_sharpWideLong : ∃ enough, ∀ bound ≥ enough, ∃ core' p chars,
    vprintf bound idle () (fun _ => 0) (fun _ => 0xFF) (sharpWideLong.toCString .x) = .ok (core', p) ∧
    p.events = ([0x30, 0x78] ++ chars).map .putchar ∧ IsHex false 8 0xFF chars ∧ p.written = p.events.length :=
  hex_faithful rfl (fun _ => 0) (fun _ => 0xFF) sharpWideLong false

/-! ### Decimal -/

def decimalDigits (n : Nat) : List UInt8 := if n = 0 then [0x30] else (Nat.digits 10 n).reverse.map (0x30 + UInt8.ofNat ·)

/-- The digits behind the sign, and zeros between them up to the width. -/
def signedDecimal (width : Nat) (x : Int) : List UInt8 :=
  let sign := if x < 0 then [0x2D] else []
  let digits := decimalDigits x.natAbs
  sign ++ List.replicate (width - sign.length - digits.length) 0x30 ++ digits

/-- The argument as the `long` or the `int` that its conversion is for. -/
def NumberFormat.signed (format : NumberFormat) (word : UInt64) : Int :=
  if format.has .long then (word.toNat : Int).bmod (2 ^ 64) else (word.toNat : Int).bmod (2 ^ 32)

/-- The call returns and has printed its argument in decimal. -/
def PrintsSigned {Lock : Type} [DecidableEq Lock] (core : Core Lock) (print_lock : Lock) (m : Mem)
    (args : Nat → UInt64) (format : NumberFormat) : Prop :=
  ∃ enough, ∀ bound ≥ enough, ∃ core' p, vprintf bound core print_lock m args (format.toCString .d) = .ok (core', p) ∧
    p.events = (signedDecimal format.widthValue (format.signed (args 0))).map .putchar ∧ p.written = p.events.length

theorem numeral_decimal (width v : Nat) :
    (numeral 10 (max width (size 10 v)) v).map (0x30 + UInt8.ofNat ·) =
      List.replicate (width - (decimalDigits v).length) 0x30 ++ decimalDigits v := by
  have wide : 1 < 10 := by decide
  have digits : (numeral 10 (size 10 v) v).map (0x30 + UInt8.ofNat ·) = decimalDigits v := by
    unfold decimalDigits
    by_cases zero : v = 0
    · subst zero
      decide
    · rw [if_neg zero, numeral_size wide zero]
  rw [numeral_max wide, List.map_append, digits, List.map_replicate, ← digits, List.length_map, length_numeral]
  rfl

/-- The unsigned reading of the argument is the signed one as long as that is not negative. -/
theorem NumberFormat.argument_signed {format : NumberFormat} {word : UInt64} (positive : 0 ≤ format.signed word) :
    format.signed word = format.argument word := by
  have bound := word.toNat_lt
  unfold signed at positive ⊢
  unfold argument
  split at positive
  · rename_i long
    rw [if_pos long, if_pos long]
    rw [Int.bmod_def] at positive ⊢
    omega
  · rename_i short
    rw [if_neg short, if_neg short]
    rw [Int.bmod_def] at positive ⊢
    omega

theorem printDecimal_start (args : Nat → UInt64) (format : NumberFormat) :
    printDecimal args format.settings .start = .ok
      { written := (max format.widthValue (size 10 (format.argument (args 0))) : Nat), list := 1,
        events := ((numeral 10 (max format.widthValue (size 10 (format.argument (args 0)))) (format.argument (args 0))).map
          (0x30 + UInt8.ofNat ·)).map .putchar } := by
  have zero : 0x30 + UInt8.ofNat 0 = 0x30 := rfl
  unfold printDecimal
  rw [printNumber_field (by decide) zero args format.widthValue_le (k := 0) rfl (by decide), List.map_map]
  simp only [Printer.start, Nat.cast_zero, Int.zero_add, List.nil_append]
  rfl

theorem numeral_unsigned (k v : Nat) : 0x2D ∉ (numeral 10 k v).map (0x30 + UInt8.ofNat ·) := by
  have all : ∀ d < 10, 0x30 + UInt8.ofNat d ≠ 0x2D := by decide
  intro member
  obtain ⟨d, digit, same⟩ := List.mem_map.mp member
  exact all d (lt_of_mem_numeral (by decide) digit) same

variable {Lock : Type} [DecidableEq Lock] {core : Core Lock} {print_lock : Lock}

theorem vprintf_decimal (free : core.locked print_lock = false) (m : Mem) (args : Nat → UInt64) (format : NumberFormat)
    {bound : Nat} (enough : 7 < bound) : vprintf bound core print_lock m args (format.toCString .d) = .ok
      ((core.cli.setLocked print_lock true).unlock print_lock,
        { written := (max format.widthValue (size 10 (format.argument (args 0))) : Nat), list := 1,
          events := ((numeral 10 (max format.widthValue (size 10 (format.argument (args 0)))) (format.argument (args 0))).map
            (0x30 + UInt8.ofNat ·)).map .putchar }) := by
  have print : Letter.d.print m args format.settings .start = printDecimal args format.settings .start := rfl
  rw [format.vprintf_eq free m args .d enough, print, printDecimal_start]
  rfl

/-- There is no sign in what is printed. -/
theorem negative_not_printed (free : core.locked print_lock = false) {m : Mem} {args : Nat → UInt64} {format : NumberFormat}
    (negative : format.signed (args 0) < 0) : ¬PrintsSigned core print_lock m args format := by
  rintro ⟨enough, returns⟩
  obtain ⟨core', p, returned, events, -⟩ := returns (max enough 8) (Nat.le_max_left _ _)
  rw [vprintf_decimal free m args format (by omega)] at returned
  obtain ⟨-, rfl⟩ := Prod.mk.inj (Except.ok.inj returned)
  have same := List.map_injective_iff.mpr (fun _ _ => PrintEvent.putchar.inj) events
  have minus : 0x2D ∈ signedDecimal format.widthValue (format.signed (args 0)) := by
    unfold signedDecimal
    rw [if_pos negative]
    simp
  exact numeral_unsigned _ _ (same ▸ minus)

/-- Decimal output is that of the argument if and only if the argument is not negative. -/
theorem decimal_signed_iff (free : core.locked print_lock = false) (m : Mem) (args : Nat → UInt64)
    (format : NumberFormat) : PrintsSigned core print_lock m args format ↔ 0 ≤ format.signed (args 0) := by
  constructor
  · intro prints
    by_contra negative
    exact negative_not_printed free (Int.not_le.mp negative) prints
  · intro positive
    have value := NumberFormat.argument_signed positive
    refine ⟨8, fun bound enough => ⟨_, _, vprintf_decimal free m args format enough, ?_, ?_⟩⟩
    · rw [numeral_decimal, value]
      unfold signedDecimal
      rw [if_neg (by omega), Int.natAbs_natCast]
      rfl
    · simp

/-- `"%05d"` -/
def wideDecimal : NumberFormat where
  front := []
  width := some { first := ⟨0x35, by decide⟩, second := none }
  back := []
  once := by decide

theorem decimal_signed_iff_wide : PrintsSigned idle () (fun _ => 0) (fun _ => 42) wideDecimal :=
  (decimal_signed_iff rfl (fun _ => 0) (fun _ => 42) wideDecimal).mpr (by decide)

/-- `"%d"` -/
def plainDecimal : NumberFormat where
  front := []
  width := none
  back := []
  once := .nil

/-- `-1` comes out as `4294967295`. -/
theorem negative_unsigned : plainDecimal.signed 0xFFFFFFFF = -1 ∧
    (vprintf 8 idle () (fun _ => 0) (fun _ => 0xFFFFFFFF) (plainDecimal.toCString .d)).toOption.map (fun r => r.2.events) =
      some ([0x34, 0x32, 0x39, 0x34, 0x39, 0x36, 0x37, 0x32, 0x39, 0x35].map .putchar) ∧
    ¬PrintsSigned idle () (fun _ => 0) (fun _ => 0xFFFFFFFF) plainDecimal := by
  refine ⟨by decide, by decide +kernel, negative_not_printed rfl ?_⟩
  decide

end FishOS.Klib
