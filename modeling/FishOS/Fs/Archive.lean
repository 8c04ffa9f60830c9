import FishOS.Fs.Initramfs
import Mathlib.Tactic.IntervalCases

/-!
# Archives

What a well-formed ustar archive of files and directories is, and what the loader reads from the
header of an entry.
-/

namespace FishOS.Fs

open Klib Initramfs

/-- An entry for the path of `names` below the directory that the archive is unpacked in. The path may
begin with `./` and, for a directory, end with a slash. `mode` is the first byte of the mode field. -/
structure Entry where
  dotSlash : Bool
  names : List CString
  trailing : Bool
  type : NodeType
  mode : UInt8
  data : List UInt8

namespace Entry

def components (e : Entry) : List CString := (if e.dotSlash then [dotName] else []) ++ e.names

def name (e : Entry) : List UInt8 := joinPath e.components e.trailing

structure Ok (e : Entry) : Prop where
  named : e.components ≠ []
  length : e.name.length ≤ 100
  names : ∀ name ∈ e.names, Vfs.NameOk name
  type : e.type = .file ∨ e.type = .directory
  file : e.type = .file → e.names ≠ [] ∧ e.trailing = false
  directory : e.type = .directory → e.data = []

/-- The name does not run on into the mode field, or only behind a slash. -/
def NameEnds (e : Entry) : Prop := e.name.length = 100 → e.trailing = true ∨ e.mode = 0

/-- The nodes that the entry takes. -/
def taken (e : Entry) : Nat := if e.names = [] then 0 else Vfs.nodesFor e.type

end Entry

/-- A byte of a number field. -/
def NumberByte (c : UInt8) : Prop := c = 0 ∨ c = 0x20 ∨ (0x30 ≤ c ∧ c < 0x38)

instance : DecidablePred NumberByte := fun c => inferInstanceAs (Decidable (c = 0 ∨ c = 0x20 ∨ (0x30 ≤ c ∧ c < 0x38)))

def octalValue (digits : List Nat) : Nat := digits.foldl (fun value digit => value * 8 + digit) 0

def BytesAt (m : Nat → Option UInt8) (a : Nat) (bytes : List UInt8) : Prop :=
  ∀ i c, bytes[i]? = some c → m (a + i) = some c

/-- The header of an entry, and its data behind it. -/
structure HeaderAt (m : Nat → Option UInt8) (a : Nat) (e : Entry) : Prop where
  name : ∀ i, i < 100 → m (a + i) = some (e.name.getD i 0)
  mode : m (a + modeField) = some e.mode
  numbers : ∀ i, modeField ≤ i → i < sizeField → ∃ c, m (a + i) = some c ∧ NumberByte c
  size : ∃ digits : List Nat, digits.length < 12 ∧ (∀ i d, digits[i]? = some d → d < 8 ∧
    m (a + sizeField + i) = some (UInt8.ofNat (0x30 + d))) ∧ m (a + sizeField + digits.length) = some 0 ∧
    octalValue digits = e.data.length
  typeflag : ∃ c, m (a + typeflagField) = some c ∧ if e.type = .file then c = 0x30 ∨ c = 0 else c = 0x35
  magic : BytesAt m (a + magicField) magic
  namePrefix : ∀ i, i < 155 → m (a + prefixField + i) = some 0
  data : BytesAt m (a + headerSize) e.data

/-- The entries of the archive from `a` on, up to a block of zeros or to the end of the file. -/
inductive Archive (m : Nat → Option UInt8) (stop : Nat) : Nat → List Entry → Prop where
  | done : Archive m stop stop []
  | zeros {a : Nat} (room : a + headerSize ≤ stop) (zero : ∀ i, i < headerSize → m (a + i) = some 0) : Archive m stop a []
  | entry {a : Nat} {e : Entry} {entries : List Entry} (ok : e.Ok) (header : HeaderAt m a e)
      (rest : Archive m stop (a + headerSize + alignUp e.data.length) entries) : Archive m stop a (e :: entries)

/-- No path occurs twice, and the directory that an entry lies in comes before it. -/
structure Ordered (entries : List Entry) : Prop where
  unique : (entries.map Entry.names).Nodup
  parents : ∀ before e after, entries = before ++ e :: after → e.names.dropLast ≠ [] →
    ∃ d ∈ before, d.type = .directory ∧ d.names = e.names.dropLast

variable {m : Nat → Option UInt8} {a limit stop : Nat} {e : Entry}

theorem bytesAt_append {before after : List UInt8} (bytes : BytesAt m a (before ++ after)) :
    BytesAt m a before ∧ BytesAt m (a + before.length) after := by
  constructor
  · intro i c here
    obtain ⟨inside, _⟩ := List.getElem?_eq_some_iff.mp here
    exact bytes i c ((List.getElem?_append_left inside).trans here)
  · intro i c here
    rw [Nat.add_assoc]
    apply bytes
    rw [List.getElem?_append_right (Nat.le_add_right _ _), Nat.add_sub_cancel_left]
    exact here

theorem bytesAt_module (file_addr : Nat) (archive : List UInt8) :
    BytesAt (moduleBytes file_addr archive) file_addr archive := by
  intro i c here
  unfold moduleBytes
  rw [if_pos (Nat.le_add_right _ _), Nat.add_sub_cancel_left]
  exact here

theorem readBytes_eq {bytes : List UInt8} (found : BytesAt m a bytes) :
    readBytes m a bytes.length = some bytes := by
  induction bytes generalizing a with
  | nil => rfl
  | cons c bytes ih =>
    have first := found 0 c rfl
    have rest := ih (a := a + 1) fun i c here => by
      have next := found (i + 1) c here
      have place : a + (i + 1) = a + 1 + i := by omega
      rwa [place] at next
    rw [Nat.add_zero] at first
    rw [List.length_cons, readBytes, first, Option.bind_eq_bind, Option.bind_some, rest]
    rfl

theorem stringAt_append {chars rest : List UInt8} (noNul : 0 ∉ chars) (found : BytesAt m a chars)
    (behind : stringAt m limit (a + chars.length) = some rest) :
    stringAt m (limit + chars.length) a = some (chars ++ rest) := by
  induction chars generalizing a with
  | nil => exact behind
  | cons c chars ih =>
    obtain ⟨nonzero, noNul⟩ := List.ne_and_not_mem_of_not_mem_cons noNul
    have first := found 0 c rfl
    have place : a + 1 + chars.length = a + (c :: chars).length := by rw [List.length_cons]; omega
    rw [← place] at behind
    have tail := ih noNul (fun i c here => by
      have next := found (i + 1) c here
      have place : a + (i + 1) = a + 1 + i := by omega
      rwa [place] at next) behind
    rw [Nat.add_zero] at first
    rw [List.length_cons, ← Nat.add_assoc, stringAt, first, Option.bind_eq_bind, Option.bind_some, if_pos (Ne.symm nonzero),
      tail]
    rfl

theorem stringAt_exists {P : UInt8 → Prop} {n : Nat} (before : ∀ i, i < n → ∃ c, m (a + i) = some c ∧ P c)
    (nul : m (a + n) = some 0) (enough : n < limit) :
    ∃ chars, stringAt m limit a = some chars ∧ 0 ∉ chars ∧ (∀ c ∈ chars, P c) ∧
      (chars = [] ↔ m a = some 0) := by
  induction n generalizing a limit with
  | zero =>
    obtain ⟨limit, rfl⟩ : ∃ k, limit = k + 1 := ⟨limit - 1, by omega⟩
    rw [Nat.add_zero] at nul
    refine ⟨[], ?_, List.not_mem_nil, nofun, iff_of_true rfl nul⟩
    rw [stringAt, nul]
    rfl
  | succ n ih =>
    obtain ⟨limit, rfl⟩ : ∃ k, limit = k + 1 := ⟨limit - 1, by omega⟩
    obtain ⟨c, first, holds⟩ := before 0 (by omega)
    rw [Nat.add_zero] at first
    rw [stringAt, first, Option.bind_eq_bind, Option.bind_some]
    split
    · rename_i nonzero
      have shift : ∀ i, a + 1 + i = a + (i + 1) := by omega
      have shorter : n < limit := by omega
      obtain ⟨chars, read, noNul, all, _⟩ :=
        ih (fun i small => by rw [shift]; exact before (i + 1) (by omega)) (by rw [shift]; exact nul) shorter
      refine ⟨c :: chars, by rw [read]; rfl, List.not_mem_cons_of_ne_of_not_mem (Ne.symm nonzero) noNul, ?_, ?_⟩
      · intro c' member
        rcases List.mem_cons.mp member with rfl | member
        · exact holds
        · exact all c' member
      · refine iff_of_false (List.cons_ne_nil _ _) fun zero => nonzero (Option.some.inj zero)
    · rename_i zero
      have zero : c = 0 := by simpa using zero
      exact ⟨[], rfl, List.not_mem_nil, nofun, iff_of_true rfl (by rw [zero])⟩

theorem toInt8_digit {d : Nat} (small : d < 8) : (UInt8.ofNat (0x30 + d)).toInt8.toInt = 0x30 + d := by
  interval_cases d <;> rfl

theorem octalDigit_eq {value d : Nat} (small : d < 8) (bounded : value * 8 + d < 2 ^ 64) :
    octalDigit value (UInt8.ofNat (0x30 + d)) = value * 8 + d := by
  unfold octalDigit
  rw [toInt8_digit small]
  omega

theorem octalLoop_eq {digits : List Nat} {value k : Nat}
    (found : ∀ i d, digits[i]? = some d → d < 8 ∧ m (a + i) = some (UInt8.ofNat (0x30 + d)))
    (nul : m (a + digits.length) = some 0) (bounded : (value + 1) * 8 ^ digits.length ≤ 2 ^ 64) :
    octalLoop m a value (digits.length + k) =
      some (digits.foldl (fun value digit => value * 8 + digit) value) := by
  induction digits generalizing a value with
  | nil =>
    rw [List.length_nil, Nat.add_zero] at nul
    cases k with
    | zero =>
      rw [List.length_nil, octalLoop, nul]
      rfl
    | succ k =>
      rw [List.length_nil, Nat.zero_add, octalLoop, nul]
      rfl
  | cons d digits ih =>
    obtain ⟨small, first⟩ := found 0 d rfl
    have shift : ∀ i, a + 1 + i = a + (i + 1) := by omega
    have nonzero : UInt8.ofNat (0x30 + d) ≠ 0 := by interval_cases d <;> decide
    rw [List.length_cons] at nul bounded
    have step : (value * 8 + d + 1) * 8 ^ digits.length ≤ 2 ^ 64 := by
      have grow : (value * 8 + d + 1) * 8 ^ digits.length ≤ (value + 1) * 8 * 8 ^ digits.length :=
        Nat.mul_le_mul_right _ (by omega)
      rw [Nat.pow_succ] at bounded
      have same : (value + 1) * 8 * 8 ^ digits.length = (value + 1) * (8 ^ digits.length * 8) := by ring
      omega
    have below : value * 8 + d < 2 ^ 64 := by
      have positive : 1 ≤ 8 ^ digits.length := Nat.one_le_pow _ _ (by decide)
      have wide := Nat.mul_le_mul_left (value * 8 + d + 1) positive
      omega
    rw [Nat.add_zero] at first
    have rest := ih (a := a + 1) (fun i d here => by rw [shift]; exact found (i + 1) d here) (by rw [shift]; exact nul) step
    have length : (d :: digits).length + k = digits.length + k + 1 := by rw [List.length_cons]; omega
    rw [length, octalLoop, first, Option.bind_eq_bind, Option.bind_some, if_pos nonzero, octalDigit_eq small below, rest]
    rfl

theorem HeaderAt.octal (header : HeaderAt m a e) : octalToBin m (a + sizeField) 12 = some e.data.length := by
  obtain ⟨digits, short, found, nul, value⟩ := header.size
  have bounded : (0 + 1) * 8 ^ digits.length ≤ 2 ^ 64 := by
    have wide : 8 ^ digits.length ≤ 8 ^ 11 := Nat.pow_le_pow_right (by decide) (by omega)
    omega
  have read := octalLoop_eq (k := 12 - digits.length) found nul bounded
  have length : digits.length + (12 - digits.length) = 12 := by omega
  rw [length] at read
  unfold octalToBin
  rw [read, ← value]
  rfl

theorem foldl_octal_lt {digits : List Nat} (small : ∀ d ∈ digits, d < 8) (value : Nat) :
    digits.foldl (fun value digit => value * 8 + digit) value < (value + 1) * 8 ^ digits.length := by
  induction digits generalizing value with
  | nil => simp
  | cons d digits ih =>
    have digit := small d (.head _)
    have rest := ih (fun d member => small d (.tail _ member)) (value * 8 + d)
    have grow : (value * 8 + d + 1) * 8 ^ digits.length ≤ (value + 1) * 8 * 8 ^ digits.length :=
      Nat.mul_le_mul_right _ (by omega)
    have same : (value + 1) * 8 * 8 ^ digits.length = (value + 1) * 8 ^ (digits.length + 1) := by ring
    rw [List.foldl_cons, List.length_cons]
    omega

theorem HeaderAt.length_lt (header : HeaderAt m a e) : e.data.length < 8 ^ 11 := by
  obtain ⟨digits, short, found, _, value⟩ := header.size
  have small : ∀ d ∈ digits, d < 8 := by
    intro d member
    obtain ⟨i, here⟩ := List.mem_iff_getElem?.mp member
    exact (found i d here).1
  have bound := foldl_octal_lt small 0
  have wide : 8 ^ digits.length ≤ 8 ^ 11 := Nat.pow_le_pow_right (by decide) (by omega)
  unfold octalValue at value
  omega

theorem HeaderAt.magic_read (header : HeaderAt m a e) : readBytes m (a + magicField) 6 = some Initramfs.magic :=
  readBytes_eq header.magic

theorem numberByte_digit {d : Nat} (small : d < 8) : NumberByte (UInt8.ofNat (0x30 + d)) := by
  refine .inr (.inr ?_)
  interval_cases d <;> decide

theorem slash_not_number : ¬NumberByte slash := by
  rintro (zero | space | ⟨lower, _⟩)
  · exact absurd zero (by decide)
  · exact absurd space (by decide)
  · exact absurd lower (by decide)

theorem dot_not_number : ¬NumberByte 0x2E := by
  rintro (zero | space | ⟨lower, _⟩)
  · exact absurd zero (by decide)
  · exact absurd space (by decide)
  · exact absurd lower (by decide)

/-- The string that the loader takes for the name. -/
theorem HeaderAt.name_read (header : HeaderAt m a e) (ok : e.Ok) (room : a + headerSize ≤ 2 ^ 64) :
    ∃ tail, stringAt m (2 ^ 64 - a) a = some (e.name ++ tail) ∧ 0 ∉ tail ∧ (∀ c ∈ tail, NumberByte c) ∧
      (tail = [] ↔ e.name.length < 100 ∨ e.mode = 0) := by
  have noNul : 0 ∉ e.name := Vfs.noNul_joinPath _ _
  have chars : BytesAt m a e.name := by
    intro i c here
    have inside := (List.getElem?_eq_some_iff.mp here).1
    rw [header.name i (Nat.lt_of_lt_of_le inside ok.length), List.getD_eq_getElem?_getD, here]
    rfl
  by_cases short : e.name.length < 100
  · obtain ⟨limit, enough⟩ : ∃ limit, 2 ^ 64 - a = limit + 1 + e.name.length := by
      unfold headerSize at room
      exact ⟨2 ^ 64 - a - 1 - e.name.length, by omega⟩
    have nul : m (a + e.name.length) = some 0 := by
      rw [header.name _ short, List.getD_eq_getElem?_getD, List.getElem?_eq_none (Nat.le_refl _)]
      rfl
    have behind : stringAt m (limit + 1) (a + e.name.length) = some [] := by
      rw [stringAt, nul]
      rfl
    refine ⟨[], ?_, List.not_mem_nil, nofun, iff_of_true rfl (.inl short)⟩
    rw [enough]
    exact stringAt_append noNul chars behind
  · have long : e.name.length = 100 := Nat.le_antisymm ok.length (Nat.le_of_not_lt short)
    obtain ⟨limit, enough⟩ : ∃ limit, 2 ^ 64 - a = limit + e.name.length := by
      unfold headerSize at room
      exact ⟨2 ^ 64 - a - e.name.length, by omega⟩
    obtain ⟨digits, few, found, nul, _⟩ := header.size
    have numbers : ∀ i, i < 24 + digits.length → ∃ c, m (a + 100 + i) = some c ∧ NumberByte c := by
      intro i inside
      by_cases before : i < 24
      · have number := header.numbers (100 + i) (Nat.le_add_right _ _) (by unfold sizeField; omega)
        rwa [← Nat.add_assoc] at number
      · obtain ⟨small, here⟩ := found (i - 24) _ (List.getElem?_eq_getElem (by omega))
        have place : a + sizeField + (i - 24) = a + 100 + i := by unfold sizeField; omega
        rw [place] at here
        exact ⟨_, here, numberByte_digit small⟩
    have place : a + sizeField + digits.length = a + 100 + (24 + digits.length) := by unfold sizeField; omega
    rw [place] at nul
    have wide : 24 + digits.length < limit := by
      unfold headerSize at room
      omega
    obtain ⟨tail, read, tailNoNul, all, empty⟩ := stringAt_exists numbers nul wide
    have mode : m (a + 100) = some e.mode := header.mode
    refine ⟨tail, ?_, tailNoNul, all, ?_⟩
    · rw [enough]
      exact stringAt_append noNul chars (by rw [long]; exact read)
    · rw [empty, mode, or_iff_right short, Option.some_inj]

theorem joinPath_behind (name : CString) {names : List CString} (nonempty : names ≠ []) (trailing : Bool) :
    joinPath (name :: names) trailing = name.chars ++ slash :: joinPath names trailing := by
  obtain ⟨next, names, rfl⟩ := List.exists_cons_of_ne_nil nonempty
  exact Vfs.joinPath_cons name next names trailing

theorem joinPath_append {after after' : List CString} {trailing trailing' : Bool} {tail : List UInt8}
    (before : List CString) (nonempty : after ≠ []) (nonempty' : after' ≠ [])
    (last : joinPath after trailing ++ tail = joinPath after' trailing') :
    joinPath (before ++ after) trailing ++ tail = joinPath (before ++ after') trailing' := by
  induction before with
  | nil => exact last
  | cons name before ih =>
    rw [List.cons_append, List.cons_append, joinPath_behind name (List.append_ne_nil_of_right_ne_nil _ nonempty),
      joinPath_behind name (List.append_ne_nil_of_right_ne_nil _ nonempty'), List.append_assoc, List.cons_append, ih]

namespace Vfs

variable {name : CString} {tail : List UInt8}

/-- The bytes of number fields make no dot entry of a name. -/
theorem not_dots {dots : CString} (all : ∀ c ∈ dots.chars, c = 0x2E) (noNul : 0 ∉ tail)
    (numbers : ∀ c ∈ tail, NumberByte c) (chars : List UInt8) (charsNoNul : 0 ∉ chars)
    (other : tail = [] → chars ≠ dots.chars) :
    (⟨chars ++ tail, List.not_mem_append charsNoNul noNul⟩ : CString) ≠ dots := by
  intro same
  have same : chars ++ tail = dots.chars := congrArg CString.chars same
  have none : tail = [] := by
    apply List.eq_nil_iff_forall_not_mem.mpr
    intro c member
    have dot := all c (same ▸ List.mem_append_right _ member)
    exact dot_not_number (dot ▸ numbers c member)
  apply other none
  rw [← same, none, List.append_nil]

theorem dotName_chars : ∀ c ∈ dotName.chars, c = 0x2E := by
  intro c member
  exact List.mem_singleton.mp member

theorem dotdotName_chars : ∀ c ∈ dotdotName.chars, c = 0x2E := by
  intro c member
  rcases List.mem_pair.mp member with first | second
  · exact first
  · exact second

theorem NameOk.append (ok : NameOk name) (noNul : 0 ∉ tail) (numbers : ∀ c ∈ tail, NumberByte c) :
    NameOk ⟨name.chars ++ tail, List.not_mem_append name.noNul noNul⟩ where
  nonempty := List.append_ne_nil_of_left_ne_nil ok.nonempty _
  slashFree := List.not_mem_append ok.slashFree fun member => slash_not_number (numbers slash member)
  notDot := not_dots dotName_chars noNul numbers _ name.noNul fun _ same => ok.notDot (CString.ext same)
  notDotdot := not_dots dotdotName_chars noNul numbers _ name.noNul fun _ same => ok.notDotdot (CString.ext same)

theorem nameOk_numbers (noNul : 0 ∉ tail) (numbers : ∀ c ∈ tail, NumberByte c) (nonempty : tail ≠ []) :
    NameOk ⟨tail, noNul⟩ where
  nonempty := nonempty
  slashFree := fun member => slash_not_number (numbers slash member)
  notDot := not_dots dotName_chars noNul numbers [] List.not_mem_nil fun nil => absurd nil nonempty
  notDotdot := not_dots dotdotName_chars noNul numbers [] List.not_mem_nil fun nil => absurd nil nonempty

theorem NameOk.component (ok : NameOk name) : Component name := ⟨ok.nonempty, ok.slashFree⟩

end Vfs

namespace Entry

/-- The part of the name that says where the path starts. -/
def start (e : Entry) : List UInt8 := if e.dotSlash then topName else []

theorem name_eq (nonempty : e.names ≠ []) : e.name = e.start ++ joinPath e.names e.trailing := by
  unfold name components start
  split
  · exact joinPath_behind dotName nonempty e.trailing
  · rfl

theorem names_eq (nonempty : e.names ≠ []) : e.names.dropLast ++ [e.names.getLast nonempty] = e.names :=
  List.dropLast_concat_getLast nonempty

theorem name_unnamed (ok : e.Ok) (unnamed : e.names = []) :
    e.name = dotName.chars ++ if e.trailing then [slash] else [] := by
  have components : e.components = [dotName] := by
    have some_name := ok.named
    unfold components at some_name ⊢
    rw [unnamed, List.append_nil] at some_name ⊢
    split
    · rfl
    · rename_i bare
      rw [if_neg bare] at some_name
      exact absurd rfl some_name
  unfold name
  rw [components, Vfs.joinPath_single]

theorem length_unnamed (ok : e.Ok) (unnamed : e.names = []) : e.name.length < 100 := by
  rw [name_unnamed ok unnamed]
  cases e.trailing with
  | true => decide
  | false => decide

/-- What the path of the entry is with the bytes behind the name. They belong to the last name, or are
one more name. -/
theorem path_eq (ok : e.Ok) (nonempty : e.names ≠ []) {tail : List UInt8} (noNul : 0 ∉ tail)
    (numbers : ∀ c ∈ tail, NumberByte c) :
    ∃ k more trailing, e.name ++ tail = e.start ++ joinPath (e.names.dropLast ++ k :: more) trailing ∧
      (∀ name ∈ e.names.dropLast ++ k :: more, Vfs.NameOk name) ∧
      (k = e.names.getLast nonempty ↔ e.trailing = true ∨ tail = []) := by
  have names := names_eq nonempty
  have lastOk := ok.names _ (List.getLast_mem nonempty)
  have before : ∀ name ∈ e.names.dropLast, Vfs.NameOk name :=
    fun name member => ok.names name (List.dropLast_subset _ member)
  have whole : ∀ {k : CString} {more : List CString} {trailing : Bool},
      joinPath [e.names.getLast nonempty] e.trailing ++ tail = joinPath (k :: more) trailing →
      e.name ++ tail = e.start ++ joinPath (e.names.dropLast ++ k :: more) trailing := by
    intro k more trailing last
    have behind := joinPath_append e.names.dropLast (List.cons_ne_nil _ _) (List.cons_ne_nil _ _) last
    rw [names] at behind
    rw [name_eq nonempty, List.append_assoc, behind]
  by_cases none : tail = []
  · refine ⟨e.names.getLast nonempty, [], e.trailing, whole ?_, ?_, iff_of_true rfl (.inr none)⟩
    · rw [none, List.append_nil]
    · rw [names]
      exact ok.names
  · cases slashed : e.trailing with
    | true =>
      refine ⟨e.names.getLast nonempty, [⟨tail, noNul⟩], false, whole ?_, ?_, iff_of_true rfl (.inl rfl)⟩
      · rw [slashed, Vfs.joinPath_single, Vfs.joinPath_cons, Vfs.joinPath_single]
        simp
      · intro name member
        rcases List.mem_append.mp member with early | late
        · exact before name early
        · rcases List.mem_pair.mp late with rfl | rfl
          · exact lastOk
          · exact Vfs.nameOk_numbers noNul numbers none
    | false =>
      refine ⟨⟨_, List.not_mem_append (e.names.getLast nonempty).noNul noNul⟩, [], false, whole ?_, ?_,
        iff_of_false ?_ ?_⟩
      · rw [slashed, Vfs.joinPath_single, Vfs.joinPath_single]
        simp
      · intro name member
        rcases List.mem_append.mp member with early | late
        · exact before name early
        · rw [List.mem_singleton.mp late]
          exact lastOk.append noNul numbers
      · intro same
        exact none (List.append_right_eq_self.mp (congrArg CString.chars same))
      · rintro (false' | nil)
        · cases false'
        · exact none nil

theorem ne_topName {name : CString} (ok : Vfs.NameOk name) (names : List CString) (trailing : Bool) :
    e.start ++ joinPath (name :: names) trailing ≠ topName := by
  unfold start
  split
  · intro same
    exact Vfs.joinPath_ne_nil ok.component names trailing (List.append_right_eq_self.mp same)
  · intro same
    obtain ⟨rest, split⟩ : ∃ rest, joinPath (name :: names) trailing = name.chars ++ rest := by
      cases names with
      | nil => exact ⟨_, Vfs.joinPath_single name trailing⟩
      | cons next names => exact ⟨_, Vfs.joinPath_cons name next names trailing⟩
    have first : name.chars ++ rest = [0x2E, slash] := by rw [← split]; exact same
    rcases List.append_eq_cons_iff.mp first with ⟨nil, _⟩ | ⟨chars, here, behind⟩
    · exact ok.nonempty nil
    · rcases List.append_eq_cons_iff.mp behind.symm with ⟨rfl, _⟩ | ⟨chars', rfl, _⟩
      · exact ok.notDot (CString.ext here)
      · exact ok.slashFree (here ▸ .tail _ (.head _))

end Entry

theorem Archive.ok {entries : List Entry} (archive : Archive m stop a entries) : ∀ e ∈ entries, e.Ok := by
  induction archive with
  | done => exact nofun
  | zeros room zero => exact nofun
  | entry ok header rest ih =>
    intro e member
    rcases List.mem_cons.mp member with rfl | later
    · exact ok
    · exact ih e later

theorem Archive.le_stop {entries : List Entry} (archive : Archive m stop a entries) : a ≤ stop := by
  induction archive with
  | done => exact Nat.le_refl _
  | zeros room zero => exact Nat.le_trans (Nat.le_add_right _ _) room
  | entry ok header rest ih =>
    unfold headerSize at ih
    omega

end FishOS.Fs
