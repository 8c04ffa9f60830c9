import FishOS.Klib.Conversions

/-!
# Formats that vprintf understands

A format as a sequence of directives. `vprintf` gets through the formats that are such a sequence,
and prints their directives one after the other.
-/

namespace FishOS.Klib

/-- `'0'` to `'9'` -/
abbrev Digit : Type := { d : UInt8 // 0x30 ≤ d ∧ d ≤ 0x39 }

/-- What may stand between `%` and the letter. The character behind `0` is taken for a digit whatever
it is. A point means nothing without the star. -/
inductive Flag where
  | alt
  | long
  | point
  | star
  | pad (c : UInt8) (digit : Option Digit)

namespace Flag

def bytes : Flag → List UInt8
  | alt => [0x23]
  | long => [0x6C]
  | point => [0x2E]
  | star => [0x2E, 0x2A]
  | pad c digit => 0x30 :: c :: digit.toList.map Subtype.val

/-- A padding of one digit. A digit behind it belongs to it. -/
def IsShort : Flag → Prop
  | pad _ none => True
  | _ => False

def IsPad : Flag → Prop
  | pad _ _ => True
  | _ => False

def Before (flag next : Flag) : Prop := flag.IsShort → ¬next.IsPad

/-- The variables, and the index of the next argument. -/
def set (args : Nat → UInt64) (s : Flags × Nat) : Flag → Flags × Nat
  | alt => ({ s.1 with altForm := true }, s.2)
  | long => ({ s.1 with longInt := true }, s.2)
  | point => s
  | star => ({ s.1 with sLength := (args s.2).toNat }, s.2 + 1)
  | pad c none => ({ s.1 with zeroPad := toUsize (charValue c) }, s.2)
  | pad c (some digit) => ({ s.1 with zeroPad := toUsize (charValue c * 10 + charValue digit) }, s.2)

end Flag

/-- The conversions. -/
inductive Letter where
  | x
  | X
  | d
  | s
  deriving DecidableEq

namespace Letter

def byte : Letter → UInt8
  | x => 0x78
  | X => 0x58
  | d => 0x64
  | s => 0x73

def print (m : Mem) (args : Nat → UInt64) (f : Flags) (p : Printer) : Letter → Except PrintFault Printer
  | x => printHex args low f p
  | X => printHex args high f p
  | d => printDecimal args f p
  | s => printString m args f p

end Letter

inductive Directive where
  | char (c : UInt8) (plain : c ≠ 0x25)
  | convert (flags : List Flag) (apart : flags.IsChain Flag.Before) (letter : Letter)

namespace Directive

def bytes : Directive → List UInt8
  | char c _ => [c]
  | convert flags _ letter => 0x25 :: (flags.flatMap Flag.bytes ++ [letter.byte])

def print (m : Mem) (args : Nat → UInt64) (p : Printer) : Directive → Except PrintFault Printer
  | char c _ => p.put 1 [.putchar c]
  | convert flags _ letter =>
    let (f, list) := flags.foldl (Flag.set args) (noFlags, p.list)
    letter.print m args f { p with list := list }

end Directive

variable {m : Mem} {args : Nat → UInt64} {format : CString} {i bound : Nat} {f : Flags} {p : Printer}
  {c : UInt8} {rest : List UInt8}

/-! ### Where the index stands -/

namespace CString

/-- The characters from the index on, and the NUL. -/
def behind (format : CString) (i : Nat) : List UInt8 := (format.chars ++ [0]).drop i

theorem behind_zero (format : CString) : format.behind 0 = format.chars ++ [0] := rfl

theorem charAt_cons (here : format.behind i = c :: rest) : charAt format i = .ok c := by
  have head := congrArg List.head? here
  unfold behind at head
  rw [List.head?_drop] at head
  unfold charAt
  rw [head]
  rfl

theorem behind_append {before : List UInt8} (here : format.behind i = before ++ rest) :
    format.behind (i + before.length) = rest := by
  unfold behind at here ⊢
  rw [← List.drop_drop, here, List.drop_left]

theorem behind_succ (here : format.behind i = c :: rest) : format.behind (i + 1) = rest :=
  behind_append (show format.behind i = [c] ++ rest from here)

theorem length_behind (here : format.behind i = rest) (some : rest ≠ []) : i + rest.length = format.chars.length + 1 := by
  unfold behind at here
  subst here
  have inside := List.length_pos_iff.mpr some
  rw [List.length_drop, List.length_append, List.length_singleton] at inside ⊢
  omega

theorem behind_nul (here : format.behind i = 0 :: rest) : rest = [] := by
  have length := length_behind here (List.cons_ne_nil 0 rest)
  rw [List.length_cons] at length
  by_contra more
  have inside : i < format.chars.length := by
    have positive := List.length_pos_iff.mpr more
    omega
  unfold behind at here
  have head := congrArg List.head? here
  rw [List.head?_drop, List.getElem?_append_left inside] at head
  exact format.noNul (List.mem_of_getElem? head)

end CString

theorem advance_lt (inside : i + 1 < 2 ^ 31) : advance i = .ok (i + 1) := if_pos inside

/-! ### From directives to a run -/

open CString

/-- A flag is followed by another flag or by the letter, so what follows is not the star, and not a
digit behind a padding of one digit. -/
theorem switchRound_flag (small : format.chars.length < 2 ^ 31) (flag : Flag) {next : UInt8}
    (here : format.behind i = flag.bytes ++ next :: rest) (noStar : next ≠ 0x2A)
    (noDigit : flag.IsShort → ¬(0x30 ≤ next ∧ next ≤ 0x39)) :
    switchRound m args format i f p = .ok (.more (i + flag.bytes.length) (flag.set args (f, p.list)).1
      { p with list := (flag.set args (f, p.list)).2 }) := by
  have length := length_behind here (by simp)
  cases flag with
  | alt =>
    have room : i + 1 < 2 ^ 31 := by simp [Flag.bytes] at length; omega
    simp [switchRound, charAt_cons here, advance_lt room, Except.ok_bind, Flag.set, Flag.bytes]
  | long =>
    have room : i + 1 < 2 ^ 31 := by simp [Flag.bytes] at length; omega
    simp [switchRound, charAt_cons here, advance_lt room, Except.ok_bind, Flag.set, Flag.bytes]
  | point =>
    have room : i + 1 < 2 ^ 31 := by simp [Flag.bytes] at length; omega
    have second : charAt format (i + 1) = .ok next := charAt_cons (behind_succ here)
    simp [switchRound, charAt_cons here, second, advance_lt room, Except.ok_bind, Flag.set, Flag.bytes, noStar]
  | star =>
    have room : i + 1 + 1 < 2 ^ 31 := by simp [Flag.bytes] at length; omega
    have second : charAt format (i + 1) = .ok 0x2A := charAt_cons (behind_succ here)
    simp [switchRound, charAt_cons here, second, advance_lt room, advance_lt (Nat.lt_of_succ_lt room), Except.ok_bind,
      Flag.set, Flag.bytes, Printer.vaArg]
  | pad c digit =>
    have second : charAt format (i + 1) = .ok c := charAt_cons (behind_succ here)
    cases digit with
    | none =>
      have room : i + 1 + 1 < 2 ^ 31 := by simp [Flag.bytes] at length; omega
      have third : charAt format (i + 1 + 1) = .ok next := charAt_cons (behind_succ (behind_succ here))
      have other : ¬(0x30 ≤ next ∧ next ≤ 0x39) := noDigit trivial
      simp [switchRound, charAt_cons here, second, third, advance_lt room, advance_lt (Nat.lt_of_succ_lt room),
        Except.ok_bind, Flag.set, Flag.bytes, other]
    | some digit =>
      have room : i + 1 + 1 + 1 < 2 ^ 31 := by simp [Flag.bytes] at length; omega
      have third : charAt format (i + 1 + 1) = .ok digit := charAt_cons (behind_succ (behind_succ here))
      simp [switchRound, charAt_cons here, second, third, advance_lt room, advance_lt (Nat.lt_of_succ_lt room),
        advance_lt (Nat.lt_of_succ_lt (Nat.lt_of_succ_lt room)), Except.ok_bind, Flag.set, Flag.bytes, digit.2]

theorem switchRound_letter (letter : Letter) (here : format.behind i = letter.byte :: rest) :
    switchRound m args format i f p = letter.print m args f p >>= fun p => .ok (.done i p) := by
  unfold switchRound
  rw [charAt_cons here, Except.ok_bind]
  cases letter <;> rfl

/-- Of what may follow a flag, only another padding begins with a digit. -/
theorem behind_flag (flags : List Flag) (letter : Letter) (rest : List UInt8) :
    ∃ next rest', flags.flatMap Flag.bytes ++ letter.byte :: rest = next :: rest' ∧ next ≠ 0x2A ∧
      (0x30 ≤ next ∧ next ≤ 0x39 → ∃ pad ∈ flags.head?, pad.IsPad) := by
  cases flags with
  | nil =>
    refine ⟨letter.byte, rest, rfl, ?_⟩
    cases letter <;> exact ⟨by decide, fun digit => absurd digit (by decide)⟩
  | cons flag flags =>
    cases flag with
    | alt => exact ⟨0x23, _, rfl, by decide, fun digit => absurd digit (by decide)⟩
    | long => exact ⟨0x6C, _, rfl, by decide, fun digit => absurd digit (by decide)⟩
    | point => exact ⟨0x2E, _, rfl, by decide, fun digit => absurd digit (by decide)⟩
    | star => exact ⟨0x2E, _, rfl, by decide, fun digit => absurd digit (by decide)⟩
    | pad c digit => exact ⟨0x30, _, rfl, by decide, fun _ => ⟨_, rfl, trivial⟩⟩

theorem length_flags (flags : List Flag) : flags.length ≤ (flags.flatMap Flag.bytes).length := by
  induction flags with
  | nil => exact Nat.le_refl 0
  | cons flag flags ih =>
    have positive : 1 ≤ flag.bytes.length := by cases flag <;> simp [Flag.bytes]
    rw [List.flatMap_cons, List.length_append, List.length_cons]
    omega

/-- The flags set the variables one after the other, and then the letter prints. -/
theorem conversionLoop_flags (small : format.chars.length < 2 ^ 31) {flags : List Flag}
    (apart : flags.IsChain Flag.Before) (letter : Letter)
    (here : format.behind i = flags.flatMap Flag.bytes ++ letter.byte :: rest) (enough : flags.length < bound) :
    conversionLoop m args format bound i f p =
      letter.print m args (flags.foldl (Flag.set args) (f, p.list)).1
          { p with list := (flags.foldl (Flag.set args) (f, p.list)).2 } >>= fun p =>
        .ok (i + (flags.flatMap Flag.bytes).length, p) := by
  obtain ⟨bound, rfl⟩ : ∃ b, bound = b + 1 := ⟨bound - 1, by omega⟩
  induction flags generalizing i f p bound with
  | nil =>
    rw [conversionLoop, switchRound_letter letter here]
    show (letter.print m args f p >>= fun p => Except.ok (Switched.done i p)) >>= _ =
      letter.print m args f p >>= fun p => Except.ok (i, p)
    cases letter.print m args f p <;> rfl
  | cons flag flags ih =>
    rw [List.flatMap_cons, List.append_assoc] at here
    obtain ⟨next, rest', follows, noStar, digit⟩ := behind_flag flags letter rest
    have noDigit : flag.IsShort → ¬(0x30 ≤ next ∧ next ≤ 0x39) := by
      intro short isDigit
      obtain ⟨pad, head, isPad⟩ := digit isDigit
      obtain ⟨flags', rfl⟩ : ∃ flags', flags = pad :: flags' := List.head?_eq_some_iff.mp head
      exact (List.isChain_cons_cons.mp apart).1 short isPad
    rw [conversionLoop, switchRound_flag small flag (follows ▸ here) noStar noDigit, Except.ok_bind]
    rw [List.length_cons] at enough
    obtain ⟨bound, rfl⟩ : ∃ b, bound = b + 1 := ⟨bound - 1, by omega⟩
    show conversionLoop m args format (bound + 1) _ _ _ = _
    rw [ih apart.tail (behind_append here) bound (by omega), List.flatMap_cons, List.length_append, ← Nat.add_assoc]
    rfl

/-- A run through the format prints its directives. -/
theorem formatLoop_directives (small : format.chars.length < 2 ^ 31) {directives : List Directive}
    (here : format.behind i = directives.flatMap Directive.bytes ++ [0])
    (enough : (directives.flatMap Directive.bytes).length < bound) :
    formatLoop m args format bound i p = directives.foldlM (Directive.print m args) p := by
  induction directives generalizing i p bound with
  | nil =>
    obtain ⟨bound, rfl⟩ : ∃ b, bound = b + 1 := ⟨bound - 1, by omega⟩
    rw [formatLoop, charAt_cons here]
    rfl
  | cons directive directives ih =>
    rw [List.flatMap_cons, List.append_assoc] at here
    rw [List.flatMap_cons, List.length_append] at enough
    have next := behind_append here
    have length := length_behind here (by simp)
    rw [List.length_append, List.length_append, List.length_singleton] at length
    obtain ⟨bound, rfl⟩ : ∃ b, bound = b + 1 := ⟨bound - 1, by omega⟩
    rw [formatLoop, List.foldlM_cons]
    cases directive with
    | char c plain =>
      have room : i + 1 < 2 ^ 31 := by simp only [Directive.bytes, List.length_singleton] at length; omega
      have other : c ≠ 0 := by
        rintro rfl
        have last := behind_nul here
        simp at last
      rw [charAt_cons here, Except.ok_bind, if_neg other, if_neg plain]
      show (p.count 1 >>= fun p => advance i >>= fun i => formatLoop m args format bound i (p.putchar c)) = _
      rw [advance_lt room]
      simp only [Except.ok_bind]
      rw [p.count_putchar c (formatLoop m args format bound (i + 1))]
      simp only [Directive.bytes, List.length_singleton] at enough next
      exact congrArg (p.put 1 [.putchar c] >>= ·) (funext fun p => ih next (by omega))
    | convert flags apart letter =>
      have start : format.behind (i + 1) =
          flags.flatMap Flag.bytes ++ letter.byte :: (directives.flatMap Directive.bytes ++ [0]) :=
        (behind_succ here).trans (List.append_assoc _ _ _)
      have fewer := length_flags flags
      simp only [Directive.bytes, List.length_cons, List.length_append, List.length_nil] at enough next length
      rw [charAt_cons here, Except.ok_bind, if_neg (by decide), if_pos rfl, advance_lt (by omega), Except.ok_bind,
        conversionLoop_flags small apart letter start (by omega)]
      have following : ∀ p, formatLoop m args format bound (i + 1 + (flags.flatMap Flag.bytes).length + 1) p =
          directives.foldlM (Directive.print m args) p := by
        intro p
        apply ih _ (by omega)
        rw [← next]
        congr 1
        omega
      show (letter.print m args _ _ >>= _) >>= _ = letter.print m args _ _ >>= _
      cases letter.print m args (flags.foldl (Flag.set args) (noFlags, p.list)).1
        { p with list := (flags.foldl (Flag.set args) (noFlags, p.list)).2 } with
      | error fault => rfl
      | ok p =>
        rw [Except.ok_bind, Except.ok_bind, Except.ok_bind]
        dsimp only
        rw [advance_lt (by omega), Except.ok_bind]
        exact following p

/-! ### From a run to directives -/

theorem charAt_bind_ok {α : Type} {next : UInt8 → Except PrintFault α} {result : α}
    (returned : charAt format i >>= next = .ok result) :
    ∃ c rest, format.behind i = c :: rest ∧ next c = .ok result := by
  unfold charAt at returned
  cases found : (format.chars ++ [0])[i]? with
  | none =>
    rw [found] at returned
    cases returned
  | some c =>
    rw [found] at returned
    obtain ⟨inside, same⟩ := List.getElem?_eq_some_iff.mp found
    refine ⟨c, format.behind (i + 1), ?_, returned⟩
    unfold CString.behind
    rw [List.drop_eq_getElem_cons inside, same]

theorem advance_bind_ok {α : Type} {next : Nat → Except PrintFault α} {result : α}
    (returned : advance i >>= next = .ok result) : i + 1 < 2 ^ 31 ∧ next (i + 1) = .ok result := by
  unfold advance at returned
  split at returned
  · rename_i room
    exact ⟨room, returned⟩
  · cases returned

/-- A round that returns has read a flag or a letter, or it changes nothing. -/
theorem switchRound_ok {result : Switched} (returned : switchRound m args format i f p = .ok result) :
    result = .more i f p ∨
    (∃ flag rest f' p', format.behind i = Flag.bytes flag ++ rest ∧
      (flag.IsShort → ∀ next ∈ rest.head?, ¬(0x30 ≤ next ∧ next ≤ 0x39)) ∧
      result = .more (i + flag.bytes.length) f' p') ∨
    ∃ letter rest p', format.behind i = Letter.byte letter :: rest ∧ result = .done i p' := by
  unfold switchRound at returned
  obtain ⟨c, rest, here, returned⟩ := charAt_bind_ok returned
  split at returned
  · rename_i hash
    subst hash
    obtain ⟨-, returned⟩ := advance_bind_ok returned
    obtain rfl := Except.ok.inj returned
    exact .inr (.inl ⟨.alt, rest, _, _, here, False.elim, rfl⟩)
  split at returned
  · rename_i zero
    obtain ⟨-, returned⟩ := advance_bind_ok returned
    obtain ⟨c', rest', second, returned⟩ := charAt_bind_ok returned
    obtain ⟨-, returned⟩ := advance_bind_ok returned
    obtain ⟨d, rest'', third, returned⟩ := charAt_bind_ok returned
    have whole : format.behind i = 0x30 :: c' :: d :: rest'' := by
      have first := behind_succ here
      rw [here, zero, ← first, second, ← behind_succ second, third]
    split at returned
    · rename_i digit
      obtain ⟨-, returned⟩ := advance_bind_ok returned
      obtain rfl := Except.ok.inj returned
      exact .inr (.inl ⟨.pad c' (some ⟨d, digit⟩), rest'', _, _, whole, False.elim, rfl⟩)
    · rename_i other
      obtain rfl := Except.ok.inj returned
      refine .inr (.inl ⟨.pad c' none, d :: rest'', _, _, whole, ?_, rfl⟩)
      intro _ next head
      obtain rfl := Option.some.inj head
      exact other
  split at returned
  · rename_i l
    subst l
    obtain ⟨-, returned⟩ := advance_bind_ok returned
    obtain rfl := Except.ok.inj returned
    exact .inr (.inl ⟨.long, rest, _, _, here, False.elim, rfl⟩)
  split at returned
  · rename_i point
    subst point
    obtain ⟨-, returned⟩ := advance_bind_ok returned
    obtain ⟨c', rest', second, returned⟩ := charAt_bind_ok returned
    split at returned
    · rename_i star
      obtain ⟨-, returned⟩ := advance_bind_ok returned
      obtain rfl := Except.ok.inj returned
      have whole : format.behind i = 0x2E :: 0x2A :: rest' := by
        rw [here, ← behind_succ here, second, star]
      exact .inr (.inl ⟨.star, rest', _, _, whole, False.elim, rfl⟩)
    · obtain rfl := Except.ok.inj returned
      exact .inr (.inl ⟨.point, rest, _, _, here, False.elim, rfl⟩)
  split at returned
  · rename_i hex
    obtain ⟨p', printed, returned⟩ := Except.bind_ok returned
    obtain rfl := Except.ok.inj returned
    rcases hex with rfl | rfl
    · exact .inr (.inr ⟨.x, rest, p', here, rfl⟩)
    · exact .inr (.inr ⟨.X, rest, p', here, rfl⟩)
  split at returned
  · rename_i d
    subst d
    obtain ⟨p', printed, returned⟩ := Except.bind_ok returned
    obtain rfl := Except.ok.inj returned
    exact .inr (.inr ⟨.d, rest, p', here, rfl⟩)
  split at returned
  · rename_i s
    subst s
    obtain ⟨p', printed, returned⟩ := Except.bind_ok returned
    obtain rfl := Except.ok.inj returned
    exact .inr (.inr ⟨.s, rest, p', here, rfl⟩)
  · exact .inl (Except.ok.inj returned).symm

/-- A conversion that is printed is a sequence of flags and a letter. -/
theorem conversionLoop_ok {i' : Nat} {p' : Printer}
    (returned : conversionLoop m args format bound i f p = .ok (i', p')) :
    ∃ (flags : List Flag) (letter : Letter) (rest : List UInt8), flags.IsChain Flag.Before ∧
      format.behind i = flags.flatMap Flag.bytes ++ letter.byte :: rest ∧
      i' = i + (flags.flatMap Flag.bytes).length := by
  induction bound generalizing i f p with
  | zero => cases returned
  | succ bound ih =>
    rw [conversionLoop] at returned
    obtain ⟨result, round, returned⟩ := Except.bind_ok returned
    rcases switchRound_ok round with rfl | ⟨flag, rest, f', p₁, here, short, rfl⟩ | ⟨letter, rest, p₁, here, rfl⟩
    · exact ih returned
    · obtain ⟨flags, letter, rest', apart, follows, rfl⟩ := ih returned
      rw [behind_append here] at follows
      refine ⟨flag :: flags, letter, rest', ?_, ?_, ?_⟩
      · cases flags with
        | nil => exact .singleton flag
        | cons next flags =>
          refine List.isChain_cons_cons.mpr ⟨fun isShort isPad => ?_, apart⟩
          cases next with
          | pad c digit => exact short isShort 0x30 (by rw [follows]; rfl) (by decide)
          | _ => exact isPad
      · rw [here, follows, List.flatMap_cons, List.append_assoc]
      · rw [List.flatMap_cons, List.length_append, Nat.add_assoc]
    · obtain ⟨rfl, rfl⟩ := Prod.mk.inj (Except.ok.inj returned)
      exact ⟨[], letter, rest, .nil, here, rfl⟩

/-- A format that the loop gets through is a sequence of directives. -/
theorem formatLoop_ok {p' : Printer} (inside : i < 2 ^ 31) (returned : formatLoop m args format bound i p = .ok p') :
    format.chars.length < 2 ^ 31 ∧
      ∃ directives : List Directive, format.behind i = directives.flatMap Directive.bytes ++ [0] := by
  induction bound generalizing i p with
  | zero => cases returned
  | succ bound ih =>
    rw [formatLoop] at returned
    obtain ⟨c, rest, here, returned⟩ := charAt_bind_ok returned
    split at returned
    · rename_i nul
      subst nul
      obtain rfl := behind_nul here
      have length := length_behind here (by simp)
      rw [List.length_singleton] at length
      exact ⟨by omega, [], here⟩
    split at returned
    · rename_i percent
      subst percent
      obtain ⟨-, returned⟩ := advance_bind_ok returned
      obtain ⟨⟨j, p₁⟩, converted, returned⟩ := Except.bind_ok returned
      obtain ⟨room, returned⟩ := advance_bind_ok returned
      obtain ⟨small, directives, next⟩ := ih room returned
      obtain ⟨flags, letter, rest', apart, follows, rfl⟩ := conversionLoop_ok converted
      refine ⟨small, .convert flags apart letter :: directives, ?_⟩
      rw [behind_succ (behind_append follows)] at next
      rw [here, ← behind_succ here, follows, next, List.flatMap_cons, Directive.bytes]
      simp
    · rename_i plain
      obtain ⟨p₁, counted, returned⟩ := Except.bind_ok returned
      obtain ⟨room, returned⟩ := advance_bind_ok returned
      obtain ⟨small, directives, next⟩ := ih room returned
      refine ⟨small, .char c plain :: directives, ?_⟩
      rw [here, ← behind_succ here, next]
      rfl

end FishOS.Klib
