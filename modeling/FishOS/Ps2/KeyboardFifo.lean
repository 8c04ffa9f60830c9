import FishOS.Ps2.Keyboard

/-!
# The keyboard buffer is a FIFO

What `read` delivers and what is still in the buffer are the accepted characters in their order,
wherever an interrupt comes between the steps of `read`.
-/

namespace FishOS.Ps2

open RingBuffer Runs

namespace Kbd

variable {k : Kbd} {scancode c : UInt8}

/-- The handler appends the character of a key press, or leaves the buffer as it is. -/
inductive IrqEffect (k : Kbd) (scancode : UInt8) (k' : Kbd) : Prop where
  | put (c : UInt8) (pressed : k.press scancode = some c)
      (room : (k.bufferWriteIndex + 1) % bufferSize ≠ k.bufferReadIndex)
      (buffer : k'.buffer = Function.update k.buffer k.bufferWriteIndex c)
      (write : k'.bufferWriteIndex = (k.bufferWriteIndex + 1) % bufferSize)
      (read : k'.bufferReadIndex = k.bufferReadIndex)
  | keep (full : ∀ c, k.press scancode = some c → (k.bufferWriteIndex + 1) % bufferSize = k.bufferReadIndex)
      (buffer : k'.buffer = k.buffer) (write : k'.bufferWriteIndex = k.bufferWriteIndex)
      (read : k'.bufferReadIndex = k.bufferReadIndex)

theorem irq_effect (k : Kbd) (scancode : UInt8) : IrqEffect k scancode (k.irq scancode) := by
  unfold irq
  split
  · rename_i released
    have none : k.press scancode = none := if_neg fun pressed => released pressed.1
    unfold release
    refine .keep (by simp [none]) ?_ ?_ ?_ <;> split_ifs <;> rfl
  · rename_i pressed
    rw [not_not] at pressed
    split
    · rename_i shift
      exact .keep (by simp [press, shift]) rfl rfl rfl
    · rename_i left
      split
      · rename_i shift
        exact .keep (by simp [press, shift]) rfl rfl rfl
      · rename_i right
        split
        · rename_i mapped
          have press : k.press scancode = some (k.shifted (map scancode)) := if_pos ⟨pressed, left, right, mapped⟩
          unfold put
          split
          · rename_i room
            exact .put _ press room rfl rfl rfl
          · rename_i full
            exact .keep (fun _ _ => not_not.mp full) rfl rfl rfl
        · rename_i unmapped
          exact .keep (by simp [press, unmapped]) rfl rfl rfl

theorem next_ne (k : Kbd) : (k.bufferWriteIndex + 1) % bufferSize ≠ k.bufferWriteIndex := by
  unfold bufferSize
  omega

theorem accepted_put (pressed : k.press scancode = some c)
    (write : (k.irq scancode).bufferWriteIndex = (k.bufferWriteIndex + 1) % bufferSize) :
    k.accepted scancode = some c := by
  have accepts : k.Accepts scancode := by
    unfold Accepts
    rw [write]
    exact k.next_ne
  simp [accepted, pressed, accepts, Option.filter]

theorem accepted_keep (write : (k.irq scancode).bufferWriteIndex = k.bufferWriteIndex) :
    k.accepted scancode = none := by
  have rejects : ¬k.Accepts scancode := not_not.mpr write
  cases pressed : k.press scancode with
  | none => simp [accepted, pressed]
  | some c => simp [accepted, pressed, rejects, Option.filter]

end Kbd

namespace Reader

/-- Where `read` stands with what it has stored: it goes on while that has neither a newline nor
`count` characters, and returns with the first newline or with `count` characters. -/
def Punctual (r : Reader) : Prop :=
  match r.pc with
  | .loop => newline ∉ r.buf ∧ r.buf.length ≤ r.count
  | .wait | .load | .store => newline ∉ r.buf ∧ r.buf.length < r.count
  | .advance | .check => r.buf.getLast? = some r.c ∧ newline ∉ r.buf.dropLast ∧ r.buf.length ≤ r.count
  | .returned n =>
    n = r.buf.length ∧ n ≤ r.count ∧ newline ∉ r.buf.dropLast ∧ (n = r.count ∨ r.buf.getLast? = some newline)

/-- Between the test of the indices and the step of the read index the buffer is not empty, and
behind the load `c` is its first character. -/
def Holds (r : Reader) (k : Kbd) : Prop :=
  match r.pc with
  | .load => k.bufferReadIndex ≠ k.bufferWriteIndex
  | .store | .advance => k.bufferReadIndex ≠ k.bufferWriteIndex ∧ r.c = k.buffer k.bufferReadIndex
  | _ => True

theorem punctual_step (k : Kbd) {r : Reader} (punctual : r.Punctual) : (r.step k).2.Punctual := by
  obtain ⟨pc, count, c, buf⟩ := r
  cases pc with
  | loop =>
    obtain ⟨lines, length⟩ := punctual
    by_cases more : buf.length < count
    · simp only [step, Punctual, if_pos more]
      exact ⟨lines, more⟩
    · simp only [step, Punctual, if_neg more]
      have all : count = buf.length := Nat.le_antisymm (Nat.not_lt.mp more) length
      exact ⟨all, Nat.le_refl _, fun member => lines (List.dropLast_subset buf member), Or.inl trivial⟩
  | wait =>
    by_cases empty : k.bufferReadIndex = k.bufferWriteIndex
    · simp only [step, if_pos empty]
      exact punctual
    · simp only [step, if_neg empty]
      exact punctual
  | load => exact punctual
  | store =>
    obtain ⟨lines, length⟩ := punctual
    show (buf ++ [c]).getLast? = some c ∧ newline ∉ (buf ++ [c]).dropLast ∧ (buf ++ [c]).length ≤ count
    rw [List.getLast?_concat, List.dropLast_concat, List.length_append, List.length_singleton]
    exact ⟨rfl, lines, length⟩
  | advance => exact punctual
  | check =>
    obtain ⟨last, before, length⟩ := punctual
    by_cases ends : c = newline
    · simp only [step, Punctual, if_pos ends]
      exact ⟨trivial, length, before, Or.inr (ends ▸ last)⟩
    · simp only [step, Punctual, if_neg ends]
      refine ⟨?_, length⟩
      have last : buf.getLast? = some c := last
      obtain ⟨front, rfl⟩ := List.getLast?_eq_some_iff.mp last
      rw [List.dropLast_concat] at before
      simp [before, Ne.symm ends]
  | returned n => exact punctual

end Reader

namespace Console

structure Fifo (s : Console) : Prop where
  writable : s.kbd.bufferWriteIndex < bufferSize
  readable : s.kbd.bufferReadIndex < bufferSize
  law : s.delivered ++ s.remaining = s.accepted
  holds : s.reader.Holds s.kbd
  punctual : s.reader.Punctual

variable {s s' : Console} {event : Event}

theorem init_fifo : init.Fifo where
  writable := by decide
  readable := by decide
  law := by decide
  holds := trivial
  punctual := by simp [Reader.Punctual, init]

/-- The handler writes behind the queued characters only, so what the reader has seen stays. -/
theorem holds_irq {r : Reader} {k : Kbd} (scancode : UInt8) (holds : r.Holds k) : r.Holds (k.irq scancode) := by
  cases k.irq_effect scancode with
  | put c pressed room buffer write read =>
    unfold Reader.Holds at holds ⊢
    rw [buffer, write, read]
    split
    · rename_i pc
      exact room.symm
    · rename_i pc
      simp only [pc] at holds
      exact ⟨room.symm, by rw [Function.update_of_ne holds.1]; exact holds.2⟩
    · rename_i pc
      simp only [pc] at holds
      exact ⟨room.symm, by rw [Function.update_of_ne holds.1]; exact holds.2⟩
    · trivial
  | keep full buffer write read =>
    unfold Reader.Holds at holds ⊢
    rw [buffer, write, read]
    exact holds

theorem Fifo.irq (fifo : s.Fifo) (scancode : UInt8) (stepped : s.step (.irq scancode) = some s') : s'.Fifo := by
  obtain rfl := Option.some.inj stepped
  obtain ⟨writable, readable, law, holds, punctual⟩ := fifo
  have kept : s.reader.Holds (s.kbd.irq scancode) := holds_irq scancode holds
  cases s.kbd.irq_effect scancode with
  | put c pressed room buffer write read =>
    refine ⟨?_, ?_, ?_, kept, punctual⟩
    · show (s.kbd.irq scancode).bufferWriteIndex < bufferSize
      rw [write]
      exact next_lt writable
    · show (s.kbd.irq scancode).bufferReadIndex < bufferSize
      rw [read]
      exact readable
    · have pushed : (s.kbd.irq scancode).pending = s.kbd.pending ++ [c] := by
        unfold Kbd.pending
        rw [buffer, write, read]
        exact queued_push s.kbd.buffer c readable writable room
      simp only [delivered, remaining] at law ⊢
      rw [Kbd.accepted_put pressed write, pushed, ← law]
      split
      · rename_i advancing
        -- the character that `read` is about to step over is in front of the new one
        unfold Reader.Holds at holds
        rw [advancing] at holds
        have some : s.kbd.pending ≠ [] := queued_ne_nil s.kbd.buffer readable writable holds.1
        simp [List.tail_append_of_ne_nil some]
      · simp
  | keep full buffer write read =>
    refine ⟨?_, ?_, ?_, kept, punctual⟩
    · show (s.kbd.irq scancode).bufferWriteIndex < bufferSize
      rw [write]
      exact writable
    · show (s.kbd.irq scancode).bufferReadIndex < bufferSize
      rw [read]
      exact readable
    · have same : (s.kbd.irq scancode).pending = s.kbd.pending := by
        unfold Kbd.pending
        rw [buffer, write, read]
      simp only [delivered, remaining] at law ⊢
      rw [Kbd.accepted_keep write, same, law]
      simp

theorem Fifo.read (fifo : s.Fifo) (stepped : s.step .read = some s') : s'.Fifo := by
  obtain rfl := Option.some.inj stepped
  obtain ⟨writable, readable, law, holds, punctual⟩ := fifo
  have stays := Reader.punctual_step s.kbd punctual
  obtain ⟨k, ⟨pc, count, c, buf⟩, earlier, accepted⟩ := s
  cases pc with
  | loop =>
    by_cases more : buf.length < count
    · simp only [Reader.step, if_pos more] at stays ⊢
      exact ⟨writable, readable, law, trivial, stays⟩
    · simp only [Reader.step, if_neg more] at stays ⊢
      exact ⟨writable, readable, law, trivial, stays⟩
  | wait =>
    by_cases empty : k.bufferReadIndex = k.bufferWriteIndex
    · simp only [Reader.step, if_pos empty] at stays ⊢
      exact ⟨writable, readable, law, trivial, stays⟩
    · simp only [Reader.step, if_neg empty] at stays ⊢
      exact ⟨writable, readable, law, empty, stays⟩
  | load => exact ⟨writable, readable, law, ⟨holds, rfl⟩, stays⟩
  | store =>
    refine ⟨writable, readable, ?_, holds, stays⟩
    have first : c = k.buffer k.bufferReadIndex := holds.2
    have front : k.pending = c :: k.pending.tail := by
      rw [first, Kbd.pending, queued_pop k.buffer readable writable holds.1, List.tail_cons]
    show earlier ++ (buf ++ [c]) ++ k.pending.tail = accepted
    have law : earlier ++ buf ++ k.pending = accepted := law
    rw [← law, front]
    simp
  | advance =>
    have popped : k.pending.tail = queued bufferSize k.buffer ((k.bufferReadIndex + 1) % bufferSize) k.bufferWriteIndex := by
      rw [Kbd.pending, queued_pop k.buffer readable writable holds.1, List.tail_cons]
    refine ⟨writable, next_lt readable, ?_, trivial, stays⟩
    have law : earlier ++ buf ++ k.pending.tail = accepted := law
    rw [popped] at law
    exact law
  | check =>
    by_cases ends : c = newline
    · simp only [Reader.step, if_pos ends] at stays ⊢
      exact ⟨writable, readable, law, trivial, stays⟩
    · simp only [Reader.step, if_neg ends] at stays ⊢
      exact ⟨writable, readable, law, trivial, stays⟩
  | returned n => exact ⟨writable, readable, law, trivial, stays⟩

theorem Fifo.call (fifo : s.Fifo) (count : Nat) (stepped : s.step (.call count) = some s') : s'.Fifo := by
  obtain ⟨writable, readable, law, holds, punctual⟩ := fifo
  obtain ⟨k, ⟨pc, previous, c, buf⟩, earlier, accepted⟩ := s
  cases pc with
  | returned n =>
    obtain rfl := Option.some.inj stepped
    refine ⟨writable, readable, ?_, trivial, List.not_mem_nil, Nat.zero_le count⟩
    show earlier ++ buf ++ [] ++ k.pending = accepted
    rw [List.append_nil]
    exact law
  | _ => cases stepped

theorem Fifo.step (fifo : s.Fifo) (stepped : s.step event = some s') : s'.Fifo := by
  cases event with
  | irq scancode => exact fifo.irq scancode stepped
  | call count => exact fifo.call count stepped
  | read => exact fifo.read stepped

/-- A key press that is not accepted has found `bufferSize - 1` characters. -/
theorem Fifo.full (fifo : s.Fifo) {scancode c : UInt8} (pressed : s.kbd.press scancode = some c)
    (rejected : ¬s.kbd.Accepts scancode) : s.kbd.pending.length = bufferSize - 1 := by
  cases s.kbd.irq_effect scancode with
  | put c pressed room buffer write read =>
    apply absurd _ rejected
    unfold Kbd.Accepts
    rw [write]
    exact s.kbd.next_ne
  | keep full buffer write read =>
    exact length_full s.kbd.buffer fifo.readable fifo.writable (full c pressed)

theorem keyboard_fifo (run : Run Console.step (fun _ _ => True) Console.init s) :
    s.kbd.bufferWriteIndex < bufferSize ∧ s.kbd.bufferReadIndex < bufferSize ∧
      s.delivered ++ s.remaining = s.accepted ∧
      (∀ scancode c, s.kbd.press scancode = some c → ¬s.kbd.Accepts scancode →
        s.kbd.pending.length = bufferSize - 1) ∧
      s.reader.Punctual := by
  have fifo : s.Fifo := run.invariant init_fifo fun fifo _ stepped => fifo.step stepped
  exact ⟨fifo.writable, fifo.readable, fifo.law, fun _ _ pressed rejected => fifo.full pressed rejected, fifo.punctual⟩

/-- The interrupt of a newline, and a call that returns with it. -/
theorem keyboard_fifo_newline :
    ∃ s, Run Console.step (fun _ _ => True) Console.init s ∧ s.reader.pc = .returned 1 ∧
      s.delivered = [newline] ∧ s.delivered ++ s.remaining = s.accepted ∧ s.reader.Punctual := by
  have run : Run Console.step (fun _ _ => True) Console.init _ :=
    .of_events (fun _ _ => trivial) (.irq 28 :: .call 5 :: List.replicate 6 .read) rfl
  obtain ⟨_, _, law, _, punctual⟩ := keyboard_fifo run
  exact ⟨_, run, by decide, by decide, law, punctual⟩

end Console

end FishOS.Ps2
