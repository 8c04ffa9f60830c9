import Mathlib.Data.List.Chain
import Mathlib.Data.List.Nodup
import Mathlib.Data.List.Rotate
import Mathlib.Tactic.Common

/-!
# Rings

A ring is a circular doubly linked list: from a head, the links lead through the nodes in
their order and back to the head, in both directions. The links are two functions on addresses.
-/

namespace Rings

variable {α : Type}

def Linked (next prev : α → α) (x y : α) : Prop := next x = y ∧ prev y = x

structure Ring (next prev : α → α) (head : α) (nodes : List α) : Prop where
  nodup : (head :: nodes).Nodup
  chain : (head :: (nodes ++ [head])).IsChain (Linked next prev)

namespace Ring

variable {next prev next' prev' : α → α} {head x y entry : α} {nodes left right : List α}

theorem init (onNext : next head = head) (onPrev : prev head = head) : Ring next prev head [] :=
  ⟨List.nodup_singleton head, List.isChain_pair.mpr ⟨onNext, onPrev⟩⟩

theorem reverse (ring : Ring next prev head nodes) : Ring prev next head nodes.reverse := by
  constructor
  · have nodup := ring.nodup
    rw [List.nodup_cons] at nodup ⊢
    exact ⟨fun member => nodup.1 (List.mem_reverse.mp member), List.nodup_reverse.mpr nodup.2⟩
  · have back : head :: (nodes.reverse ++ [head]) = (head :: (nodes ++ [head])).reverse := by simp
    rw [back, List.isChain_reverse]
    exact ring.chain.imp fun a b linked => ⟨linked.2, linked.1⟩

theorem successor (ring : Ring next prev head nodes) (member : x ∈ head :: nodes) :
    ∃ y ∈ head :: nodes, Linked next prev x y := by
  have chain := ring.chain
  obtain ⟨before, after, split⟩ := List.append_of_mem member
  have shape : head :: (nodes ++ [head]) = before ++ x :: (after ++ [head]) := by
    rw [← List.cons_append, split, List.append_assoc, List.cons_append]
  rw [shape, List.isChain_split] at chain
  cases after with
  | nil => exact ⟨head, .head _, chain.2.rel⟩
  | cons y after =>
    refine ⟨y, ?_, chain.2.rel⟩
    rw [split]
    exact List.mem_append_right _ (.tail _ (.head _))

theorem prev_next (ring : Ring next prev head nodes) (member : x ∈ head :: nodes) : prev (next x) = x := by
  obtain ⟨y, -, forth, back⟩ := ring.successor member
  rw [forth, back]

theorem next_prev (ring : Ring next prev head nodes) (member : x ∈ head :: nodes) : next (prev x) = x :=
  ring.reverse.prev_next (by simpa using member)

theorem next_mem (ring : Ring next prev head nodes) (member : x ∈ head :: nodes) : next x ∈ head :: nodes := by
  obtain ⟨y, found, forth, -⟩ := ring.successor member
  rwa [forth]

theorem prev_mem (ring : Ring next prev head nodes) (member : x ∈ head :: nodes) : prev x ∈ head :: nodes := by
  have found := ring.reverse.next_mem (x := x) (by simpa using member)
  simpa using found

theorem first (ring : Ring next prev head (x :: nodes)) : next head = x := ring.chain.rel.1

theorem last (ring : Ring next prev head (nodes ++ [x])) : prev head = x := by
  have back := ring.reverse
  rw [List.reverse_append, List.reverse_singleton, List.singleton_append] at back
  exact back.first

theorem next_getElem (ring : Ring next prev head nodes) {i : Nat} (inside : i < nodes.length) :
    next nodes[i] = (nodes[i + 1]?).getD head := by
  have chain : (nodes ++ [head]).IsChain (Linked next prev) := (List.isChain_cons.mp ring.chain).2
  have linked := chain.getElem i (by simp; omega)
  rw [List.getElem_append_left inside] at linked
  rw [linked.1]
  by_cases more : i + 1 < nodes.length
  · rw [List.getElem_append_left more, List.getElem?_eq_getElem more, Option.getD_some]
  · simp [List.getElem_append_right (Nat.le_of_not_lt more), List.getElem?_eq_none (Nat.le_of_not_lt more)]

theorem next_head_iff (ring : Ring next prev head nodes) : next head = head ↔ nodes = [] := by
  cases nodes with
  | nil => exact iff_of_true ring.chain.rel.1 rfl
  | cons x nodes =>
    have other := (List.nodup_cons.mp ring.nodup).1
    refine iff_of_false (fun same => other ?_) (List.cons_ne_nil _ _)
    rw [← same, ring.first]
    exact .head _

/-- A new node between the last one and the head. -/
theorem snoc [DecidableEq α] (ring : Ring next prev head nodes) (fresh : entry ∉ head :: nodes)
    (nexts : ∀ x, next' x = if x = entry then head else if x = prev head then entry else next x)
    (prevs : ∀ x, prev' x = if x = head then entry else if x = entry then prev head else prev x) :
    Ring next' prev' head (nodes ++ [entry]) := by
  have nodup := ring.nodup
  have last := ring.prev_mem (.head nodes)
  have lastOther : prev head ≠ entry := fun same => fresh (same ▸ last)
  have headOther : head ≠ entry := fun same => fresh (same ▸ .head _)
  constructor
  · rw [← List.cons_append]
    exact nodup.append (List.nodup_singleton entry) (List.disjoint_singleton.mpr fresh)
  · have chain : ((head :: nodes) ++ [head]).IsChain (Linked next prev) := ring.chain
    have front : (head :: nodes).IsChain (Linked next' prev') := by
      apply chain.left_of_append.imp_of_mem_tail_imp
      intro a b inRing inTail linked
      have headAway : b ≠ head := fun same => (List.nodup_cons.mp nodup).1 (same ▸ inTail)
      have lastAway : a ≠ prev head := fun same => headAway (by rw [← linked.1, same, ring.next_prev (.head _)])
      have aOther : a ≠ entry := fun same => fresh (same ▸ inRing)
      have bOther : b ≠ entry := fun same => fresh (same ▸ .tail _ inTail)
      constructor
      · rw [nexts, if_neg aOther, if_neg lastAway, linked.1]
      · rw [prevs, if_neg headAway, if_neg bOther, linked.2]
    have shape : head :: (nodes ++ [entry] ++ [head]) = (head :: nodes) ++ [entry, head] := by simp
    rw [shape]
    apply front.append (List.isChain_pair.mpr ⟨by rw [nexts, if_pos rfl], by rw [prevs, if_pos rfl]⟩)
    intro a isLast b isEntry
    obtain rfl : entry = b := Option.some.inj isEntry
    have tail : a = prev head := by
      rcases List.eq_nil_or_concat nodes with empty | ⟨rest, z, filled⟩
      · subst empty
        obtain rfl : head = a := Option.some.inj isLast
        exact ring.chain.rel.2.symm
      · rw [List.concat_eq_append] at filled
        subst filled
        rw [← List.cons_append, List.getLast?_concat] at isLast
        rw [ring.last]
        exact (Option.some.inj isLast).symm
    subst tail
    exact ⟨by rw [nexts, if_neg lastOther, if_pos rfl], by rw [prevs, if_neg (Ne.symm headOther), if_pos rfl]⟩

theorem remove [DecidableEq α] (ring : Ring next prev head (left ++ x :: right))
    (nexts : ∀ y, y ≠ x → next' y = if y = prev x then next x else next y)
    (prevs : ∀ y, y ≠ x → prev' y = if y = next x then prev x else prev y) :
    Ring next' prev' head (left ++ right) := by
  have nodup := ring.nodup
  have member : x ∈ head :: (left ++ x :: right) := .tail _ (List.mem_append_right _ (.head _))
  rw [← List.cons_append] at nodup
  have outside := List.nodup_middle.mp nodup
  have absent : x ∉ head :: left ++ right := (List.nodup_cons.mp outside).1
  have chain := ring.chain
  have shape : head :: (left ++ x :: right ++ [head]) = (head :: left) ++ x :: (right ++ [head]) := by simp
  rw [shape, List.isChain_append] at chain
  obtain ⟨front, back, seam⟩ := chain
  -- links between nodes that stay
  have keeps : ∀ a b, a ≠ x → b ≠ x → Linked next prev a b → Linked next' prev' a b := by
    intro a b aOther bOther linked
    have before : a ≠ prev x := fun same => bOther (by rw [← linked.1, same, ring.next_prev member])
    have after : b ≠ next x := fun same => aOther (by rw [← linked.2, same, ring.prev_next member])
    exact ⟨by rw [nexts a aOther, if_neg before, linked.1], by rw [prevs b bOther, if_neg after, linked.2]⟩
  have inFront : ∀ a ∈ head :: left, a ≠ x := fun a listed same => absent (same ▸ List.mem_append_left _ listed)
  have inBack : ∀ a ∈ right ++ [head], a ≠ x := by
    intro a listed same
    rcases List.mem_append.mp listed with later | isHead
    · exact absent (same ▸ List.mem_append_right _ later)
    · exact inFront head (.head _) (List.mem_singleton.mp isHead ▸ same)
  refine ⟨(List.nodup_cons.mp outside).2, ?_⟩
  have shape' : head :: (left ++ right ++ [head]) = (head :: left) ++ (right ++ [head]) := by simp
  rw [shape', List.isChain_append]
  refine ⟨front.imp_of_mem_imp fun a b listed listed' => keeps a b (inFront a listed) (inFront b listed'),
    (List.isChain_cons.mp back).2.imp_of_mem_imp fun a b listed listed' => keeps a b (inBack a listed) (inBack b listed'),
    fun a isLast b isFirst => ?_⟩
  have linkedIn := seam a isLast x rfl
  have linkedOut := (List.isChain_cons.mp back).1 b isFirst
  have aOther := inFront a (List.mem_of_getLast? isLast)
  have bOther := inBack b (List.mem_of_mem_head? isFirst)
  constructor
  · rw [nexts a aOther, if_pos linkedIn.2.symm, linkedOut.1]
  · rw [prevs b bOther, if_pos linkedOut.1.symm, linkedIn.2]

end Ring

/-- Going once around a list, from the index `i` on. -/
theorem map_range_rotate (l : List α) (i : Nat) :
    (List.range l.length).map (fun j => l[(i + j) % l.length]?) = (l.rotate i).map some := by
  apply List.ext_getElem
  · simp
  · intro j inside inside'
    have length : j < l.length := by simpa using inside
    have bound : (i + j) % l.length < l.length := Nat.mod_lt _ (Nat.zero_lt_of_lt length)
    rw [List.getElem_map, List.getElem_range, List.getElem_map, List.getElem_rotate, List.getElem?_eq_getElem bound]
    simp only [Nat.add_comm i j]

end Rings
