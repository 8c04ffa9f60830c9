import FishOS.Cpu.Idt
import FishOS.Lib.Runs

/-!
# Interrupt routing

`override_irq_source` and `register_irq` down to the registers of the IOAPICs. A register of an
IOAPIC is written by its number, which `write_reg` puts into the select register as a `u32`.
-/

namespace FishOS.Cpu

open Runs

structure Ioapic where
  gsiBase : Nat
  maxEntries : Nat
  gsiBase_lt : gsiBase < 2 ^ 32
  maxEntries_le : maxEntries ≤ 2 ^ 16

namespace Ioapic

/-- The constructor, with the value of register 1. -/
def create (gsiBase version : Nat) : Ioapic where
  gsiBase := gsiBase % 2 ^ 32
  maxEntries := version % 2 ^ 32 / 2 ^ 16 + 1
  gsiBase_lt := Nat.mod_lt _ (by decide)
  maxEntries_le := by omega

/-- The test of `register_gsi`, whose sum is a `u32`. -/
def takes (io : Ioapic) (gsi : Nat) : Bool :=
  decide (io.gsiBase ≤ gsi) && decide (gsi < (io.gsiBase + io.maxEntries) % 2 ^ 32)

/-- The window of an IOAPIC. -/
def Contains (io : Ioapic) (gsi : Nat) : Prop := io.gsiBase ≤ gsi ∧ gsi < io.gsiBase + io.maxEntries

instance (io : Ioapic) (gsi : Nat) : Decidable (io.Contains gsi) := by unfold Contains; infer_instance

def Disjoint (a b : Ioapic) : Prop := ∀ gsi, ¬(a.Contains gsi ∧ b.Contains gsi)

/-- Where the sum does not wrap, the test is that of the window; where it does, no number passes. -/
theorem takes_iff (io : Ioapic) {gsi : Nat} (word : gsi < 2 ^ 32) :
    io.takes gsi = true ↔ io.Contains gsi ∧ io.gsiBase + io.maxEntries < 2 ^ 32 := by
  have base := io.gsiBase_lt
  have entries := io.maxEntries_le
  unfold takes Contains
  simp only [Bool.and_eq_true, decide_eq_true_eq]
  omega

end Ioapic

/-- A write to a register of the IOAPIC with this place in the list. -/
structure RegWrite where
  ioapic : Nat
  reg : Nat
  val : Nat
  deriving DecidableEq

def setRedirEntry (ioapic n vector deliveryMode : Nat) (logicDest activeLow levelTrigger mask : Bool) (dest : Nat) :
    List RegWrite :=
  -- `dest` is a `u8`
  let dest := dest % 2 ^ 8
  [{ ioapic := ioapic, reg := (n * 2 + 0x10) % 2 ^ 32
     val := vector ||| deliveryMode <<< 8 ||| logicDest.toNat <<< 11 ||| activeLow.toNat <<< 13 |||
       levelTrigger.toNat <<< 15 ||| mask.toNat <<< 16 },
   { ioapic := ioapic, reg := (n * 2 + 0x11) % 2 ^ 32, val := dest <<< 24 }]

/-- The tables of `interrupts.cpp` and the IDT. `lapicId` is the ID register of the boot CPU. -/
structure Controller (H : Type) where
  irqToGsi : Nat → Nat
  irqFlags : Nat → Nat
  ioapics : List Ioapic
  lapicId : Nat
  idt : Idt H
  writes : List RegWrite

namespace Controller

variable {H : Type}

/-- The arrays have 16 elements; what is behind them is not modelled. -/
def overrideIrqSource (c : Controller H) (irq gsi flags : Nat) : Option (Controller H) :=
  if irq < 16 then
    some { c with
      irqToGsi := Function.update c.irqToGsi irq (gsi % 2 ^ 32)
      irqFlags := Function.update c.irqFlags irq (flags % 2 ^ 16) }
  else
    none

def registerGsi (c : Controller H) (gsi : Nat) (activeLow levelTrigger : Bool) (handler : H) : Option (Controller H) := do
  let (vector, idt) ← c.idt.allocateVector
  let c := { c with idt := idt.loadIdtHandler vector handler }
  match c.ioapics.findIdx? (·.takes gsi) with
  | some i =>
    some { c with writes := c.writes ++ setRedirEntry i gsi vector 0 false activeLow levelTrigger false c.lapicId }
  | none => some c

def registerIrq (c : Controller H) (irq : Nat) (handler : H) : Option (Controller H) :=
  if irq < 16 then
    let gsi := c.irqToGsi irq
    let flags := c.irqFlags irq
    let activeLow := flags &&& 0b11 == 0b11
    let levelTrigger := flags &&& 0b1100 == 0b1100
    c.registerGsi gsi activeLow levelTrigger handler
  else
    none

/-- After the first `load_idt`. -/
def boot (exceptionHandler pageFaultHandler : H) (ioapics : List Ioapic) (lapicId : Nat) : Controller H :=
  { irqToGsi := id, irqFlags := fun _ => 0, ioapics := ioapics, lapicId := lapicId
    idt := Idt.zero.loadIdt exceptionHandler pageFaultHandler, writes := [] }

/-- `LAPIC::enable` and the APIC timer allocate vectors of their own; every CPU calls `load_idt`. -/
inductive Event (H : Type) where
  | override (irq gsi flags : Nat)
  | registerIrq (irq : Nat) (handler : H)
  | ownVector (handler : H)
  | loadIdt (exceptionHandler pageFaultHandler : H)

def step (c : Controller H) : Event H → Option (Controller H)
  | .override irq gsi flags => c.overrideIrqSource irq gsi flags
  | .registerIrq irq handler => c.registerIrq irq handler
  | .ownVector handler => do
    let (vector, idt) ← c.idt.allocateVector
    some { c with idt := idt.loadIdtHandler vector handler }
  | .loadIdt exceptionHandler pageFaultHandler =>
    some { c with idt := c.idt.loadIdt exceptionHandler pageFaultHandler }

/-- The entry of a pin, with fixed delivery to the physical destination `dest`. -/
def redirection (ioapic pin vector : Nat) (activeLow levelTrigger : Bool) (dest : Nat) : List RegWrite :=
  [{ ioapic := ioapic, reg := 0x10 + 2 * pin
     val := vector ||| activeLow.toNat <<< 13 ||| levelTrigger.toNat <<< 15 },
   { ioapic := ioapic, reg := 0x11 + 2 * pin, val := dest <<< 24 }]

/-- `register_irq` writes the entry of the interrupt's pin and no other, for a vector that no
exception and no earlier call has, and that leads to the handler. -/
def Routes (c : Controller H) (irq : Nat) (handler : H) : Prop :=
  ∃ c' vector i io, c.registerIrq irq handler = some c' ∧
    c.ioapics[i]? = some io ∧ io.Contains (c.irqToGsi irq) ∧
    32 ≤ vector ∧ vector ∉ c.idt.allocated ∧ c'.idt.dispatch vector = some handler ∧
    c'.writes = c.writes ++ redirection i (c.irqToGsi irq - io.gsiBase) vector
      (c.irqFlags irq &&& 0b11 == 0b11) (c.irqFlags irq &&& 0b1100 == 0b1100) (c.lapicId / 2 ^ 24 % 2 ^ 8)

/-- The numberings coincide, and there is a vector left. -/
def Routable (c : Controller H) (irq : Nat) : Prop :=
  irq < 16 ∧ (∃ v, 32 ≤ v ∧ v < 256 ∧ v ∉ c.idt.allocated) ∧ c.lapicId % 2 ^ 8 = c.lapicId / 2 ^ 24 % 2 ^ 8 ∧
    ∃ io ∈ c.ioapics, io.Contains (c.irqToGsi irq) ∧ io.gsiBase + io.maxEntries < 2 ^ 32 ∧
      (io.gsiBase = 0 ∨ io.gsiBase = 2 ^ 31)

/-- What every step keeps. -/
structure Sound (ioapics : List Ioapic) (c : Controller H) : Prop where
  idt : c.idt.Sound
  word : ∀ irq < 16, c.irqToGsi irq < 2 ^ 32
  same : c.ioapics = ioapics

variable {ioapics : List Ioapic} {c c' : Controller H} {irq gsi : Nat} {handler : H}

theorem boot_sound (exceptionHandler pageFaultHandler : H) (ioapics : List Ioapic) (lapicId : Nat) :
    Sound ioapics (boot exceptionHandler pageFaultHandler ioapics lapicId) where
  idt := Idt.zero_sound exceptionHandler pageFaultHandler
  word := fun irq inside => by
    show irq < 2 ^ 32
    omega
  same := rfl

theorem registerGsi_spec {activeLow levelTrigger : Bool}
    (ran : c.registerGsi gsi activeLow levelTrigger handler = some c') :
    ∃ vector idt, vector < 256 ∧ c.idt.Allocates 32 vector idt ∧ c' = { c with
      idt := idt.loadIdtHandler vector handler
      writes := c.writes ++ (((c.ioapics.findIdx? (·.takes gsi)).map fun i =>
        setRedirEntry i gsi vector 0 false activeLow levelTrigger false c.lapicId).getD []) } := by
  unfold registerGsi at ran
  obtain ⟨⟨vector, idt⟩, allocated, ran⟩ := Option.bind_eq_some_iff.mp ran
  obtain ⟨upper, allocates⟩ := Idt.allocateVector_spec allocated
  refine ⟨vector, idt, upper, allocates, ?_⟩
  simp only at ran
  split at ran
  · rename_i i found
    rw [found]
    exact (Option.some.inj ran).symm
  · rename_i absent
    rw [absent]
    simpa using (Option.some.inj ran).symm

theorem Sound.step {event : Event H} (sound : Sound ioapics c) (stepped : c.step event = some c') : Sound ioapics c' := by
  obtain ⟨idt, word, same⟩ := sound
  cases event with
  | override irq gsi flags =>
    simp only [Controller.step, overrideIrqSource] at stepped
    split at stepped
    · obtain rfl := Option.some.inj stepped
      refine ⟨idt, fun other inside => ?_, same⟩
      show Function.update c.irqToGsi irq (gsi % 2 ^ 32) other < 2 ^ 32
      rw [Function.update_apply]
      split
      · exact Nat.mod_lt _ (by decide)
      · exact word other inside
    · cases stepped
  | registerIrq irq handler =>
    simp only [Controller.step, registerIrq] at stepped
    split at stepped
    · obtain ⟨vector, idt', _, allocates, rfl⟩ := registerGsi_spec stepped
      exact ⟨(idt.allocate allocates).loadIdtHandler vector handler, word, same⟩
    · cases stepped
  | ownVector handler =>
    obtain ⟨⟨vector, idt'⟩, allocated, after⟩ := Option.bind_eq_some_iff.mp stepped
    obtain rfl := Option.some.inj after
    exact ⟨(idt.allocate (Idt.allocateVector_spec allocated).2).loadIdtHandler vector handler, word, same⟩
  | loadIdt exceptionHandler pageFaultHandler =>
    obtain rfl := Option.some.inj stepped
    exact ⟨idt.loadIdt exceptionHandler pageFaultHandler, word, same⟩

theorem setRedirEntry_eq_iff {i j n pin vector vector' dest dest' : Nat} {activeLow levelTrigger : Bool} :
    setRedirEntry i n vector 0 false activeLow levelTrigger false dest =
        redirection j pin vector' activeLow levelTrigger dest' →
      i = j ∧ (n * 2 + 0x10) % 2 ^ 32 = 0x10 + 2 * pin ∧ dest % 2 ^ 8 = dest' := by
  intro same
  obtain ⟨low, rest⟩ := List.cons.inj same
  obtain ⟨ioapic, reg, _⟩ := RegWrite.mk.inj low
  obtain ⟨_, _, high⟩ := RegWrite.mk.inj (List.cons.inj rest).1
  rw [Nat.shiftLeft_eq, Nat.shiftLeft_eq] at high
  exact ⟨ioapic, reg, Nat.eq_of_mul_eq_mul_right (by decide) high⟩

theorem setRedirEntry_eq (i vector pin : Nat) (activeLow levelTrigger : Bool) {n dest dest' : Nat}
    (low : (n * 2 + 0x10) % 2 ^ 32 = 0x10 + 2 * pin) (high : (n * 2 + 0x11) % 2 ^ 32 = 0x11 + 2 * pin)
    (same : dest % 2 ^ 8 = dest') :
    setRedirEntry i n vector 0 false activeLow levelTrigger false dest =
      redirection i pin vector activeLow levelTrigger dest' := by
  unfold setRedirEntry redirection
  rw [low, high, same]
  simp

/-- No other IOAPIC takes the interrupt, so the search ends at the one that contains it. -/
theorem findIdx_eq (disjoint : c.ioapics.Pairwise Ioapic.Disjoint) (word : gsi < 2 ^ 32) {i : Nat} {io : Ioapic}
    (at_i : c.ioapics[i]? = some io) (takes : io.takes gsi = true) : c.ioapics.findIdx? (·.takes gsi) = some i := by
  have inside : i < c.ioapics.length := (List.getElem?_eq_some_iff.mp at_i).1
  cases found : c.ioapics.findIdx? (·.takes gsi) with
  | none =>
    have none := List.findIdx?_eq_none_iff.mp found io (List.mem_of_getElem? at_i)
    rw [takes] at none
    cases none
  | some k =>
    obtain ⟨inside', takes', _⟩ := List.findIdx?_eq_some_iff_getElem.mp found
    obtain ⟨_, rfl⟩ := List.getElem?_eq_some_iff.mp at_i
    have apart := List.pairwise_iff_getElem.mp disjoint
    have window := ((Ioapic.takes_iff _ word).mp takes).1
    have window' := ((Ioapic.takes_iff _ word).mp takes').1
    rcases Nat.lt_trichotomy k i with before | rfl | after
    · exact absurd ⟨window', window⟩ (apart k i inside' inside before gsi)
    · rfl
    · exact absurd ⟨window, window'⟩ (apart i k inside inside' after gsi)

theorem Sound.routable_of_routes (sound : Sound ioapics c) (routes : c.Routes irq handler) : c.Routable irq := by
  obtain ⟨c', vector, i, io, ran, at_i, contains, lower, fresh, _, writes⟩ := routes
  unfold registerIrq at ran
  split at ran
  · rename_i inside
    have word := sound.word irq inside
    obtain ⟨v, idt, upper, allocates, rfl⟩ := registerGsi_spec ran
    have entry := List.append_cancel_left writes
    refine ⟨inside, ⟨v, allocates.lower, upper, (sound.idt.free_iff.mp allocates.free).2⟩, ?_⟩
    cases found : c.ioapics.findIdx? (·.takes (c.irqToGsi irq)) with
    | none =>
      rw [found] at entry
      cases entry
    | some k =>
      rw [found] at entry
      obtain ⟨rfl, reg, dest⟩ := setRedirEntry_eq_iff entry
      obtain ⟨_, takes, _⟩ := List.findIdx?_eq_some_iff_getElem.mp found
      obtain ⟨_, rfl⟩ := List.getElem?_eq_some_iff.mp at_i
      have unwrapped := ((Ioapic.takes_iff _ word).mp takes).2
      refine ⟨dest, _, List.mem_of_getElem? at_i, contains, unwrapped, ?_⟩
      have base := contains.1
      omega
  · cases ran

theorem Sound.routes_of_routable (sound : Sound ioapics c) (disjoint : ioapics.Pairwise Ioapic.Disjoint)
    (routable : c.Routable irq) (handler : H) : c.Routes irq handler := by
  obtain ⟨inside, ⟨v, lower, upper, fresh⟩, dest, io, member, contains, unwrapped, base⟩ := routable
  have word := sound.word irq inside
  rw [← sound.same] at disjoint
  obtain ⟨i, at_i⟩ := List.getElem?_of_mem member
  have found := findIdx_eq disjoint word at_i ((Ioapic.takes_iff io word).mpr ⟨contains, unwrapped⟩)
  obtain ⟨vector, idt, allocated⟩ := Idt.allocateVector_isSome_iff.mpr
    ⟨v, lower, upper, sound.idt.free_iff.mpr ⟨lower, fresh⟩⟩
  obtain ⟨upper, allocates⟩ := Idt.allocateVector_spec allocated
  have free := sound.idt.free_iff.mp allocates.free
  have ran : c.registerIrq irq handler = some { c with
      idt := idt.loadIdtHandler vector handler
      writes := c.writes ++ setRedirEntry i (c.irqToGsi irq) vector 0 false (c.irqFlags irq &&& 0b11 == 0b11)
        (c.irqFlags irq &&& 0b1100 == 0b1100) false c.lapicId } := by
    simp only [registerIrq, inside, if_true, registerGsi, allocated, Option.bind_eq_bind, Option.bind_some, found]
  refine ⟨_, vector, i, io, ran, at_i, contains, free.1, free.2, ?_, ?_⟩
  · show (idt.idt vector).bind (Function.update idt.idtHandlers vector (some handler)) = some handler
    rw [(sound.idt.allocate allocates).wrapper vector upper, Option.bind_some, Function.update_self]
  · have window := contains.1
    have pins := contains.2
    have entries := io.maxEntries_le
    show c.writes ++ setRedirEntry i (c.irqToGsi irq) vector 0 false _ _ false c.lapicId = _
    rw [setRedirEntry_eq i vector (c.irqToGsi irq - io.gsiBase) _ _ (by omega) (by omega) dest]

/-- In every run, `register_irq` routes the interrupt exactly when the numberings coincide. -/
theorem register_irq_routes_iff {exceptionHandler pageFaultHandler : H} {lapicId : Nat}
    (disjoint : ioapics.Pairwise Ioapic.Disjoint)
    (run : Run step (fun _ _ => True) (boot exceptionHandler pageFaultHandler ioapics lapicId) c) (irq : Nat)
    (handler : H) : c.Routes irq handler ↔ c.Routable irq := by
  have sound : Sound ioapics c := run.invariant (boot_sound _ _ ioapics lapicId) fun sound _ stepped => sound.step stepped
  exact ⟨sound.routable_of_routes, fun routable => sound.routes_of_routable disjoint routable handler⟩

/-- The keyboard of a machine with one IOAPIC, whose boot CPU has the number 0. -/
theorem register_irq_routes_iff_keyboard :
    (boot 'x' 'p' [Ioapic.create 0 0x170020] 0).Routes 1 'k' := by
  refine (register_irq_routes_iff (List.pairwise_singleton _ _) (.refl _) 1 'k').mpr
    ⟨by decide, ⟨32, by decide, by decide, by decide⟩, by decide, _, List.mem_singleton_self _, by decide, by decide,
      Or.inl rfl⟩

/-- Two IOAPICs of 24 pins. -/
def twoIoapics : List Ioapic := [Ioapic.create 0 0x170020, Ioapic.create 24 0x170020]

/-- The GSI 30 is pin 6 of the second IOAPIC, but the entry of pin 30 is written. -/
theorem second_ioapic_misrouted :
    ∃ c, Run step (fun _ _ => True) (boot 'x' 'p' twoIoapics 0) c ∧ twoIoapics.Pairwise Ioapic.Disjoint ∧
      (∃ io ∈ c.ioapics, io.Contains (c.irqToGsi 5)) ∧ ¬c.Routes 5 'k' := by
  have run : Run step (fun _ _ => True) (boot 'x' 'p' twoIoapics 0) _ :=
    .of_events (fun _ _ => trivial) [.override 5 30 0] rfl
  have sound := run.invariant (boot_sound 'x' 'p' twoIoapics 0) fun sound _ stepped => sound.step stepped
  have disjoint : twoIoapics.Pairwise Ioapic.Disjoint := by
    refine List.pairwise_pair.mpr fun gsi both => ?_
    have first : gsi < 0 + 24 := both.1.2
    have second : 24 ≤ gsi := both.2.1
    omega
  refine ⟨_, run, disjoint, by decide, fun routes => ?_⟩
  obtain ⟨_, _, _, io, member, contains, _, base⟩ := sound.routable_of_routes routes
  have elsewhere : ∀ io ∈ twoIoapics, io.Contains 30 → ¬(io.gsiBase = 0 ∨ io.gsiBase = 2 ^ 31) := by decide
  exact elsewhere io member contains base

end Controller

end FishOS.Cpu
