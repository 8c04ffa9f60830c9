import FishOS.Klib.Bitmap

/-!
# Interrupt vectors

`allocate_vector`, `load_idt_handler` and `load_idt`. The history of the allocated vectors is kept
beside the bitmap.
-/

namespace FishOS.Cpu

open Klib

structure Idt (H : Type) where
  /-- The wrapper that an entry of the table points to. -/
  idt : Nat → Option Nat
  idtHandlers : Nat → Option H
  idtBitmap : Bitmap
  allocated : List Nat

namespace Idt

variable {H : Type}

/-- `for (u8 i = 32; i; i++)`, with `n` rounds left until the counter is zero; then it panics. -/
def allocateFrom (s : Idt H) (i : Nat) : (n : Nat) → Option (Nat × Idt H)
  | 0 => none
  | n + 1 =>
    if s.idtBitmap.get i = false then
      some (i, { s with idtBitmap := s.idtBitmap.set i true, allocated := i :: s.allocated })
    else
      allocateFrom s (i + 1) n

def allocateVector (s : Idt H) : Option (Nat × Idt H) := s.allocateFrom 32 (256 - 32)

def loadIdtHandler (s : Idt H) (index : Nat) (handler : H) : Idt H :=
  { s with idtHandlers := Function.update s.idtHandlers index (some handler) }

/-- The loop of `load_idt` over the exceptions. -/
def loadExceptions (exceptionHandler pageFaultHandler : H) (s : Idt H) : (n : Nat) → Idt H
  | 0 => s
  | i + 1 =>
    let s := loadExceptions exceptionHandler pageFaultHandler s i
    let s := s.loadIdtHandler i (if i = 0xE then pageFaultHandler else exceptionHandler)
    { s with idtBitmap := s.idtBitmap.set i true }

def loadIdt (exceptionHandler pageFaultHandler : H) (s : Idt H) : Idt H :=
  let s := { s with
    idtBitmap := { s.idtBitmap with mSize := 256 }
    idt := fun i => if i < 256 then some i else s.idt i }
  loadExceptions exceptionHandler pageFaultHandler s 32

/-- The static variables before `load_idt`. -/
def zero : Idt H :=
  { idt := fun _ => none, idtHandlers := fun _ => none, idtBitmap := { mBuffer := fun _ => 0, mSize := 0 },
    allocated := [] }

/-- A wrapper calls `__idt_handler_common` with its own number. -/
def dispatch (s : Idt H) (vector : Nat) : Option H := (s.idt vector).bind s.idtHandlers

/-- The bits that are set are those of the exceptions and of the vectors that have been allocated. -/
structure Sound (s : Idt H) : Prop where
  wrapper : ∀ v < 256, s.idt v = some v
  used : ∀ v, s.idtBitmap.get v = true ↔ v < 32 ∨ v ∈ s.allocated

variable {s s' : Idt H} {v i n : Nat} {handler exceptionHandler pageFaultHandler : H}

/-- `v` is the first free vector from `i` on. -/
structure Allocates (s : Idt H) (i : Nat) (v : Nat) (s' : Idt H) : Prop where
  lower : i ≤ v
  free : s.idtBitmap.get v = false
  after : s' = { s with idtBitmap := s.idtBitmap.set v true, allocated := v :: s.allocated }

theorem allocateFrom_spec (ran : s.allocateFrom i n = some (v, s')) : v < i + n ∧ s.Allocates i v s' := by
  induction n generalizing i with
  | zero => cases ran
  | succ n ih =>
    rw [allocateFrom] at ran
    split at ran
    · rename_i free
      obtain ⟨rfl, rfl⟩ := Prod.mk.inj (Option.some.inj ran)
      exact ⟨by omega, Nat.le_refl _, free, rfl⟩
    · obtain ⟨upper, lower, free, after⟩ := ih ran
      exact ⟨by omega, by omega, free, after⟩

theorem allocateFrom_isSome (free : ∃ v, i ≤ v ∧ v < i + n ∧ s.idtBitmap.get v = false) :
    ∃ v s', s.allocateFrom i n = some (v, s') := by
  induction n generalizing i with
  | zero =>
    obtain ⟨v, lower, upper, _⟩ := free
    omega
  | succ n ih =>
    rw [allocateFrom]
    split
    · exact ⟨_, _, rfl⟩
    · rename_i taken
      obtain ⟨v, lower, upper, free⟩ := free
      have other : v ≠ i := fun same => taken (same ▸ free)
      exact ih ⟨v, by omega, by omega, free⟩

theorem allocateVector_spec (ran : s.allocateVector = some (v, s')) : v < 256 ∧ s.Allocates 32 v s' :=
  allocateFrom_spec ran

theorem allocateVector_isSome_iff :
    (∃ v s', s.allocateVector = some (v, s')) ↔ ∃ v, 32 ≤ v ∧ v < 256 ∧ s.idtBitmap.get v = false := by
  constructor
  · rintro ⟨v, s', ran⟩
    obtain ⟨upper, allocates⟩ := allocateVector_spec ran
    exact ⟨v, allocates.lower, upper, allocates.free⟩
  · intro free
    exact allocateFrom_isSome (i := 32) (n := 256 - 32) free

theorem Sound.free_iff (sound : s.Sound) : s.idtBitmap.get v = false ↔ 32 ≤ v ∧ v ∉ s.allocated := by
  rw [← Bool.not_eq_true, sound.used]
  simp

theorem Sound.allocate (sound : s.Sound) (allocates : s.Allocates i v s') : s'.Sound := by
  obtain ⟨_, _, rfl⟩ := allocates
  refine ⟨sound.wrapper, fun w => ?_⟩
  show (s.idtBitmap.set v true).get w = true ↔ w < 32 ∨ w ∈ v :: s.allocated
  rw [Bitmap.get_set, List.mem_cons]
  split
  · rename_i same
    exact iff_of_true rfl (Or.inr (Or.inl same))
  · rename_i other
    rw [sound.used, or_iff_right other]

theorem Sound.loadIdtHandler (sound : s.Sound) (index : Nat) (handler : H) : (s.loadIdtHandler index handler).Sound :=
  ⟨sound.wrapper, sound.used⟩

theorem loadExceptions_spec (s : Idt H) (exceptionHandler pageFaultHandler : H) (n : Nat) :
    (s.loadExceptions exceptionHandler pageFaultHandler n).idt = s.idt ∧
      (s.loadExceptions exceptionHandler pageFaultHandler n).allocated = s.allocated ∧
      ∀ v, (s.loadExceptions exceptionHandler pageFaultHandler n).idtBitmap.get v =
        if v < n then true else s.idtBitmap.get v := by
  induction n with
  | zero => exact ⟨rfl, rfl, fun _ => rfl⟩
  | succ n ih =>
    obtain ⟨idt, allocated, bits⟩ := ih
    refine ⟨idt, allocated, fun v => ?_⟩
    show ((s.loadExceptions exceptionHandler pageFaultHandler n).idtBitmap.set n true).get v = _
    rw [Bitmap.get_set, bits]
    split
    · rename_i same
      rw [if_pos (by omega)]
    · rename_i other
      by_cases before : v < n
      · rw [if_pos before, if_pos (by omega)]
      · rw [if_neg before, if_neg (by omega)]

/-- The vectors below 32 are in use after `load_idt`, and the others as before. -/
theorem loadIdt_sound (used : ∀ v, 32 ≤ v → (s.idtBitmap.get v = true ↔ v ∈ s.allocated))
    (exceptionHandler pageFaultHandler : H) : (s.loadIdt exceptionHandler pageFaultHandler).Sound := by
  unfold loadIdt
  obtain ⟨idt, allocated, bits⟩ := loadExceptions_spec
    { s with idtBitmap := { s.idtBitmap with mSize := 256 }, idt := fun i => if i < 256 then some i else s.idt i }
    exceptionHandler pageFaultHandler 32
  refine ⟨fun v inside => by rw [idt]; exact if_pos inside, fun v => ?_⟩
  rw [bits, allocated]
  split
  · rename_i exception
    exact iff_of_true rfl (Or.inl exception)
  · rename_i other
    rw [or_iff_right other]
    exact used v (Nat.not_lt.mp other)

theorem zero_sound (exceptionHandler pageFaultHandler : H) : (zero.loadIdt exceptionHandler pageFaultHandler).Sound := by
  apply loadIdt_sound
  intro v _
  have clear : (zero : Idt H).idtBitmap.get v = false := by
    unfold Bitmap.get
    rw [Bitmap.getBit_eq _ (Nat.mod_lt v (by decide))]
    exact Nat.zero_testBit _
  rw [clear]
  exact iff_of_false (by decide) List.not_mem_nil

theorem Sound.loadIdt (sound : s.Sound) (exceptionHandler pageFaultHandler : H) :
    (s.loadIdt exceptionHandler pageFaultHandler).Sound := by
  apply loadIdt_sound
  intro v other
  rw [sound.used, or_iff_right (Nat.not_lt.mpr other)]

end Idt

end FishOS.Cpu
