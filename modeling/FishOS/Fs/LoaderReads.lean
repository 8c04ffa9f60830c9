import FishOS.Fs.LoaderRounds
import FishOS.Lib.Memory

/-!
# The bytes that the loader reads

The reads of each round of `load_into`, with the whole memory around the module.
-/

namespace FishOS.Fs

open Klib Initramfs

namespace Initramfs

/-- Memory with a byte at every address. -/
def allMemory (ram : Mem) (a : Nat) : Option UInt8 := some (ram a)

/-- The reads of `memcmp`, which ends behind the first difference. -/
def compareReads (ram : Mem) : List UInt8 → Nat → List Nat
  | [], _ => []
  | c :: rest, a => a :: if ram a = c then compareReads ram rest (a + 1) else []

def octalReads (ram : Mem) (str : Nat) : Nat → List Nat
  | 0 => [str]
  | len + 1 => str :: if ram str ≠ 0 then octalReads ram (str + 1) len else []

/-- The reads of `printf`, `strcmp` and `path_to_node` on a string: up to the NUL. -/
def StringReads (ram : Mem) (str a : Nat) : Prop := str ≤ a ∧ ∀ b, str ≤ b → b < a → ram b ≠ 0

def IsHeader (ram : Mem) (current : Nat) : Prop := readBytes (allMemory ram) (current + magicField) 6 = some magic

/-- The loader gets to the `switch` for the header, with these arguments for `create`. -/
structure Creates (ram : Mem) (dir current : Nat) (v : Vfs) (size : Nat) (target_parent : Option Nat)
    (basename : CString) : Prop where
  header : IsHeader ram current
  size : octalToBin (allMemory ram) (current + sizeField) 12 = some size
  entry : ∃ name result, stringAt (allMemory ram) (2 ^ 64 - current) current = some name ∧ strcmp name topName ≠ 0 ∧
    v.pathToNode (name ++ [0]) (some dir) = some result ∧ result.target = none ∧
    result.targetParent = target_parent ∧ result.basename = some basename

/-- The header is one of a file that the loader creates, with `size` bytes of data. -/
def MakesFile (ram : Mem) (dir current : Nat) (v : Vfs) (size : Nat) : Prop :=
  ∃ target_parent basename v' node, Creates ram dir current v size target_parent basename ∧
    (ram (current + typeflagField) = 0x30 ∨ ram (current + typeflagField) = 0) ∧
    createIn v dir target_parent basename .file = .ok (v', some node)

/-- The addresses that are read as header or file data in the round of one header. -/
inductive HeaderReads (ram : Mem) (dir current : Nat) (v : Vfs) : Nat → Prop where
  | magic {a : Nat} (read : a ∈ compareReads ram magic (current + magicField)) : HeaderReads ram dir current v a
  | size {a : Nat} (header : IsHeader ram current) (read : a ∈ octalReads ram (current + sizeField) 12) :
    HeaderReads ram dir current v a
  | name {a : Nat} (header : IsHeader ram current) (read : StringReads ram current a) : HeaderReads ram dir current v a
  | typeflag {size : Nat} {target_parent : Option Nat} {basename : CString}
    (creates : Creates ram dir current v size target_parent basename) :
    HeaderReads ram dir current v (current + typeflagField)
  | data {a size : Nat} (makes : MakesFile ram dir current v size) (lower : current + headerSize ≤ a)
    (upper : a < current + headerSize + size) : HeaderReads ram dir current v a

/-- Every byte that the loader reads lies in the module. -/
def StaysInside (ram : Mem) (dir : Nat) (v : Vfs) (fresh : Nat → Nat → UInt8) (file_addr file_size : Nat) : Prop :=
  ∀ s, Reaches dir (allMemory ram) fresh ((file_addr + file_size) % 2 ^ 64) file_addr v s →
    ∀ a, HeaderReads ram dir s.1 s.2 a → file_addr ≤ a ∧ a < file_addr + file_size

/-- The number of bytes up to the first difference. -/
def equalBytes (ram : Mem) : List UInt8 → Nat → Nat
  | [], _ => 0
  | c :: rest, a => if ram a = c then equalBytes ram rest (a + 1) + 1 else 0

/-- The magic of a header lies in the module as far as it is compared. If it is there, then so do the
NUL of the name and the data of the file that is created. -/
structure HeaderFits (ram : Mem) (dir current : Nat) (v : Vfs) (first stop : Nat) : Prop where
  magic : first ≤ current + magicField ∧ current + magicField + min (equalBytes ram magic (current + magicField)) 5 < stop
  name : IsHeader ram current → first ≤ current ∧ ∃ nul, current ≤ nul ∧ nul < stop ∧ ram nul = 0
  data : ∀ size, MakesFile ram dir current v size → size = 0 ∨ current + headerSize + size ≤ stop

variable {ram ram' : Mem} {dir current a str len first stop : Nat} {bytes : List UInt8} {v : Vfs}
  {fresh : Nat → Nat → UInt8}

theorem mem_compareReads : a ∈ compareReads ram bytes str ↔ str ≤ a ∧ a < str + bytes.length ∧ a ≤ str + equalBytes ram bytes str := by
  induction bytes generalizing str with
  | nil =>
    simp only [compareReads, List.not_mem_nil, List.length_nil, false_iff]
    omega
  | cons c rest ih =>
    rw [compareReads, equalBytes, List.mem_cons, List.length_cons]
    by_cases equal : ram str = c
    · rw [if_pos equal, if_pos equal, ih]
      omega
    · rw [if_neg equal, if_neg equal]
      simp only [List.not_mem_nil, or_false]
      omega

theorem equalBytes_of_read (read : readBytes (allMemory ram) a bytes.length = some bytes) :
    equalBytes ram bytes a = bytes.length := by
  induction bytes generalizing a with
  | nil => rfl
  | cons c rest ih =>
    obtain ⟨rest', behind, same⟩ := Option.bind_eq_some_iff.mp read
    obtain ⟨equal, rfl⟩ := List.cons.inj (Option.some.inj same)
    rw [equalBytes, if_pos equal, ih behind, List.length_cons]

theorem IsHeader.equalBytes (header : IsHeader ram current) : equalBytes ram magic (current + magicField) = 6 :=
  equalBytes_of_read (show readBytes (allMemory ram) (current + magicField) magic.length = some magic from header)

theorem mem_octalReads (read : a ∈ octalReads ram str len) : str ≤ a ∧ a ≤ str + len := by
  induction len generalizing str with
  | zero =>
    rw [octalReads, List.mem_singleton] at read
    omega
  | succ len ih =>
    rw [octalReads, List.mem_cons] at read
    rcases read with rfl | read
    · omega
    · split at read
      · have behind := ih read
        omega
      · cases read

theorem stringReads_start (ram : Mem) (str : Nat) : StringReads ram str str := ⟨Nat.le_refl _, fun b lower upper => by omega⟩

theorem StringReads.le_nul {nul : Nat} (reads : StringReads ram str a) (behind : str ≤ nul) (zero : ram nul = 0) : a ≤ nul := by
  by_contra further
  exact reads.2 nul behind (Nat.not_le.mp further) zero

theorem headerFits_iff : (∀ a, HeaderReads ram dir current v a → first ≤ a ∧ a < stop) ↔
    HeaderFits ram dir current v first stop := by
  constructor
  · intro inside
    refine ⟨?_, fun header => ?_, fun size makes => ?_⟩
    · have start := inside _ (.magic (mem_compareReads.mpr ⟨Nat.le_refl _, Nat.lt_add_of_pos_right (by decide), Nat.le_add_right _ _⟩))
      have last := inside (current + magicField + min (equalBytes ram magic (current + magicField)) 5)
        (.magic (mem_compareReads.mpr ⟨Nat.le_add_right _ _, ?_, ?_⟩))
      · exact ⟨start.1, last.2⟩
      · show _ < current + magicField + 6
        omega
      · omega
    · have start := inside current (.name header (stringReads_start ram current))
      refine ⟨start.1, ?_⟩
      by_contra none
      have running : StringReads ram current stop :=
        ⟨Nat.le_of_lt start.2, fun b lower upper zero => none ⟨b, lower, upper, zero⟩⟩
      exact Nat.lt_irrefl _ (inside stop (.name header running)).2
    · by_cases empty : size = 0
      · exact .inl empty
      · have last := inside (current + headerSize + size - 1) (.data makes (by omega) (by omega))
        omega
  · intro fits a reads
    cases reads with
    | magic read =>
      obtain ⟨lower, upper, equal⟩ := mem_compareReads.mp read
      have bound : a < current + magicField + 6 := upper
      have magic := fits.magic
      omega
    | size header read =>
      obtain ⟨lower, upper⟩ := mem_octalReads read
      have start := (fits.name header).1
      have last := fits.magic.2
      rw [header.equalBytes] at last
      unfold sizeField at lower upper
      unfold magicField at last
      omega
    | name header read =>
      obtain ⟨start, nul, behind, inside, zero⟩ := fits.name header
      have before := read.le_nul behind zero
      have lower := read.1
      omega
    | typeflag creates =>
      have start := (fits.name creates.header).1
      have last := fits.magic.2
      rw [creates.header.equalBytes] at last
      unfold typeflagField
      unfold magicField at last
      omega
    | data makes lower upper =>
      have room := fits.data _ makes
      obtain ⟨_, _, _, _, creates, _⟩ := makes
      have start := (fits.name creates.header).1
      omega

/-- The loader stays inside the module if and only if every header that it gets to fits. -/
theorem reads_inside_iff (ram : Mem) (dir : Nat) (v : Vfs) (fresh : Nat → Nat → UInt8) (file_addr file_size : Nat) :
    StaysInside ram dir v fresh file_addr file_size ↔
      ∀ s, Reaches dir (allMemory ram) fresh ((file_addr + file_size) % 2 ^ 64) file_addr v s →
        HeaderFits ram dir s.1 s.2 file_addr (file_addr + file_size) := by
  unfold StaysInside
  simp only [headerFits_iff]

/-- A module without any bytes: the loader looks for a magic behind it. -/
theorem empty_module_left : ∃ v, Vfs.Built (fun _ => none) v ∧
    HeaderReads (fun _ => 0) 0 0x1000 v (0x1000 + magicField) ∧ ¬(0x1000 + magicField < 0x1000 + 0) ∧
    ¬StaysInside (fun _ => 0) 0 v (fun _ _ => 0) 0x1000 0 := by
  obtain ⟨_, _, made⟩ := Vfs.init_spec fun _ => none
  have read (v : Vfs) : HeaderReads (fun _ => 0) 0 0x1000 v (0x1000 + magicField) := .magic (.head _)
  refine ⟨_, .init made, read _, by decide, fun inside => ?_⟩
  exact absurd (inside _ .refl _ (read _)).2 (by decide)

/-! ### The reads are all that a round depends on -/

variable {size limit stop' : Nat} {name : List UInt8} {block : Nat → UInt8}

theorem readBytes_cons_iff {c : UInt8} : readBytes (allMemory ram) a (bytes.length + 1) = some (c :: bytes) ↔
    ram a = c ∧ readBytes (allMemory ram) (a + 1) bytes.length = some bytes := by
  constructor
  · intro read
    obtain ⟨rest, behind, same⟩ := Option.bind_eq_some_iff.mp read
    obtain ⟨equal, rfl⟩ := List.cons.inj (Option.some.inj same)
    exact ⟨equal, behind⟩
  · rintro ⟨rfl, behind⟩
    rw [readBytes, behind]
    rfl

theorem compare_congr (same : ∀ x ∈ compareReads ram bytes a, ram' x = ram x) :
    readBytes (allMemory ram') a bytes.length = some bytes ↔ readBytes (allMemory ram) a bytes.length = some bytes := by
  induction bytes generalizing a with
  | nil => exact Iff.rfl
  | cons c rest ih =>
    rw [compareReads] at same
    rw [List.length_cons, readBytes_cons_iff, readBytes_cons_iff, same a (.head _)]
    by_cases equal : ram a = c
    · rw [if_pos equal] at same
      rw [ih fun x member => same x (.tail _ member)]
    · simp only [equal, false_and]

theorem octal_congr {value : Nat} (same : ∀ x ∈ octalReads ram str len, ram' x = ram x) :
    octalLoop (allMemory ram') str value len = octalLoop (allMemory ram) str value len := by
  induction len generalizing str value with
  | zero => rfl
  | succ len ih =>
    rw [octalReads] at same
    have here : allMemory ram' str = allMemory ram str := congrArg some (same str (.head _))
    have first : allMemory ram str = some (ram str) := rfl
    rw [octalLoop, octalLoop, here, first, Option.bind_eq_bind, Option.bind_some, Option.bind_some]
    by_cases more : ram str ≠ 0
    · rw [if_pos more] at same
      rw [if_pos more, if_pos more, ih fun x member => same x (.tail _ member)]
    · rw [if_neg more, if_neg more]

theorem string_congr (same : ∀ x, StringReads ram str x → ram' x = ram x) :
    stringAt (allMemory ram') limit str = stringAt (allMemory ram) limit str := by
  induction limit generalizing str with
  | zero => rfl
  | succ limit ih =>
    have here : allMemory ram' str = allMemory ram str := congrArg some (same str (stringReads_start ram str))
    have first : allMemory ram str = some (ram str) := rfl
    rw [stringAt, stringAt, here, first, Option.bind_eq_bind, Option.bind_some, Option.bind_some]
    by_cases more : ram str ≠ 0
    · rw [if_pos more, if_pos more, ih]
      rintro x ⟨behind, running⟩
      refine same x ⟨by omega, fun b lower upper => ?_⟩
      by_cases start : b = str
      · rwa [start]
      · exact running b (by omega) upper
    · rw [if_neg more, if_neg more]

theorem readBytes_congr (same : ∀ x, a ≤ x → x < a + len → ram' x = ram x) :
    readBytes (allMemory ram') a len = readBytes (allMemory ram) a len := by
  induction len generalizing a with
  | zero => rfl
  | succ len ih =>
    have here : allMemory ram' a = allMemory ram a := congrArg some (same a (Nat.le_refl _) (by omega))
    rw [readBytes, readBytes, here, ih fun x lower upper => same x (by omega) (by omega)]

theorem createNode_congr {target_parent : Option Nat} {basename : CString}
    (typeflag : ram' (current + typeflagField) = ram (current + typeflagField))
    (data : ∀ v' node, (ram (current + typeflagField) = 0x30 ∨ ram (current + typeflagField) = 0) →
      createIn v dir target_parent basename .file = .ok (v', some node) →
      ∀ x, current + headerSize ≤ x → x < current + headerSize + size → ram' x = ram x) :
    createNode v dir (allMemory ram') block current size target_parent basename =
      createNode v dir (allMemory ram) block current size target_parent basename := by
  have here : allMemory ram' (current + typeflagField) = allMemory ram (current + typeflagField) := congrArg some typeflag
  have first : allMemory ram (current + typeflagField) = some (ram (current + typeflagField)) := rfl
  unfold createNode
  rw [here, first, deref_some_bind, deref_some_bind]
  by_cases file : ram (current + typeflagField) = 0x30 ∨ ram (current + typeflagField) = 0
  · rw [if_pos file, if_pos file]
    cases made : createIn v dir target_parent basename .file with
    | error fault => rfl
    | ok r =>
      obtain ⟨v', node⟩ := r
      rw [Except.ok_bind, Except.ok_bind]
      cases node with
      | none => rfl
      | some node =>
        dsimp only
        rw [deref_some_bind, deref_some_bind, readBytes_congr (data v' node file made)]
  · rw [if_neg file, if_neg file]

theorem loadEntry_congr (header : IsHeader ram current)
    (octal : octalToBin (allMemory ram) (current + sizeField) 12 = some size)
    (named : stringAt (allMemory ram) (2 ^ 64 - current) current = some name)
    (same : ∀ a, HeaderReads ram dir current v a → ram' a = ram a) :
    loadEntry v dir (allMemory ram') block current size name = loadEntry v dir (allMemory ram) block current size name := by
  unfold loadEntry
  by_cases other : strcmp name topName ≠ 0
  · rw [if_pos other, if_pos other]
    cases looked : v.pathToNode (name ++ [0]) (some dir) with
    | none => rfl
    | some result =>
      rw [deref_some_bind, deref_some_bind]
      by_cases present : result.target ≠ none
      · rw [if_pos present, if_pos present]
      · rw [if_neg present, if_neg present]
        cases based : result.basename with
        | none => rfl
        | some basename =>
          have creates : Creates ram dir current v size result.targetParent basename :=
            ⟨header, octal, name, result, named, other, looked, not_not.mp present, rfl, based⟩
          exact createNode_congr (same _ (.typeflag creates)) fun v' node file made x lower upper =>
            same x (.data ⟨_, _, v', node, creates, file, made⟩ lower upper)
  · rw [if_neg other, if_neg other]

/-- The loader does in a round what the bytes that it reads say, whatever else is in memory. -/
theorem round_congr (same : ∀ a, HeaderReads ram dir current v a → ram' a = ram a) :
    round dir (allMemory ram') fresh stop current v = round dir (allMemory ram) fresh stop current v := by
  have total : ∀ (ram : Mem) (a n : Nat), ∃ found, readBytes (allMemory ram) a n = some found := by
    intro ram a n
    induction n generalizing a with
    | zero => exact ⟨[], rfl⟩
    | succ n ih =>
      obtain ⟨rest, read⟩ := ih (a + 1)
      exact ⟨ram a :: rest, by rw [readBytes, read]; rfl⟩
  have compared : IsHeader ram' current ↔ IsHeader ram current :=
    compare_congr fun x member => same x (.magic member)
  obtain ⟨found, read⟩ := total ram (current + magicField) 6
  obtain ⟨found', read'⟩ := total ram' (current + magicField) 6
  unfold IsHeader at compared
  rw [read, read', Option.some.injEq, Option.some.injEq] at compared
  unfold round
  rw [read, read', deref_some_bind, deref_some_bind]
  by_cases header : found = magic
  · have isHeader : IsHeader ram current := read.trans (congrArg some header)
    rw [if_neg (not_not.mpr header), if_neg (not_not.mpr (compared.mpr header))]
    have octal : octalToBin (allMemory ram') (current + sizeField) 12 = octalToBin (allMemory ram) (current + sizeField) 12 :=
      octal_congr fun x member => same x (.size isHeader member)
    have string : stringAt (allMemory ram') (2 ^ 64 - current) current = stringAt (allMemory ram) (2 ^ 64 - current) current :=
      string_congr fun x reads => same x (.name isHeader reads)
    rw [octal, string]
    cases size : octalToBin (allMemory ram) (current + sizeField) 12 with
    | none => rfl
    | some bytes =>
      rw [deref_some_bind, deref_some_bind]
      cases named : stringAt (allMemory ram) (2 ^ 64 - current) current with
      | none => rfl
      | some name => rw [deref_some_bind, deref_some_bind, loadEntry_congr isHeader size named same]
  · rw [if_pos header, if_pos fun same => header (compared.mp same)]

/-- A loader that stays inside does not depend on what lies outside. -/
theorem StaysInside.load_congr {file_addr file_size : Nat} (inside : StaysInside ram dir v fresh file_addr file_size)
    (same : ∀ a, file_addr ≤ a → a < file_addr + file_size → ram' a = ram a) (fuel : Nat) :
    load dir (allMemory ram') fresh ((file_addr + file_size) % 2 ^ 64) fuel file_addr v =
      load dir (allMemory ram) fresh ((file_addr + file_size) % 2 ^ 64) fuel file_addr v := by
  have loop : ∀ s, Reaches dir (allMemory ram) fresh ((file_addr + file_size) % 2 ^ 64) file_addr v s →
      load dir (allMemory ram') fresh ((file_addr + file_size) % 2 ^ 64) fuel s.1 s.2 =
        load dir (allMemory ram) fresh ((file_addr + file_size) % 2 ^ 64) fuel s.1 s.2 := by
    induction fuel with
    | zero => exact fun _ _ => rfl
    | succ fuel ih =>
      intro s reached
      have agrees : ∀ a, HeaderReads ram dir s.1 s.2 a → ram' a = ram a := fun a reads =>
        same a (inside s reached a reads).1 (inside s reached a reads).2
      rw [load_succ, load_succ, round_congr agrees]
      cases ran : round dir (allMemory ram) fresh ((file_addr + file_size) % 2 ^ 64) s.1 s.2 with
      | error fault => simp only [Except.bind]
      | ok r =>
        obtain ⟨v', next⟩ := r
        cases next with
        | none => simp only [Except.bind, Option.elim_none]
        | some next => exact ih (next, v') (reached.tail ran)
  exact loop (file_addr, v) .refl

end Initramfs

end FishOS.Fs
