import FishOS.Fs.Tree

/-!
# Path lookup

`path_to_node` against the walk that looks up one component after the other, on trees in which new
nodes have no redirect.
-/

namespace FishOS.Fs

open Klib

namespace Vfs

/-- One step of the component walk: the entry of a directory, with redirects followed. -/
def lookup (v : Vfs) (d : Nat) (name : CString) : Option Nat := do
  let dir ← v.nodes[d]?
  if dir.type = .directory then do
    let p ← dir.children.get name
    v.reduceNode p
  else none

def walk (v : Vfs) (d : Nat) : List CString → Option Nat
  | [] => some d
  | name :: names => do
    let d ← v.lookup d name
    v.walk d names

/-- The component is not in `d`, or `d` is not a directory. -/
def Missing (v : Vfs) (d : Nat) (name : CString) : Prop :=
  ¬v.IsDirectory d ∨ ∃ dir, v.nodes[d]? = some dir ∧ dir.children.get name = none

end Vfs

/-- A component of a path. -/
structure Component (name : CString) : Prop where
  nonempty : name.chars ≠ []
  slashFree : slash ∉ name.chars

/-- The components of a path between single slashes, with or without a slash at the end. -/
def joinPath (names : List CString) (trailing : Bool) : List UInt8 :=
  List.intercalate [slash] (names.map CString.chars) ++ if trailing then [slash] else []

namespace Vfs

variable {v : Vfs} {d p t : Nat} {dir node : Node} {name k : CString} {names : List CString} {fuel : Nat}
  {path rest junk : List UInt8}

theorem reduceNode_null (read : v.nodes[p]? = some node) (null : node.redirect = none) : v.reduceNode p = some p := by
  unfold reduceNode reduceDepth
  rw [read, Option.bind_eq_bind, Option.bind_some, null]

theorem reduceNode_redirects (redirects : v.Redirects p t) (read : v.nodes[t]? = some node)
    (null : node.redirect = none) : v.reduceNode p = some t := by
  obtain ⟨dot, dotRead, redirect⟩ := redirects
  obtain ⟨depth, same⟩ : ∃ depth, v.nodes.length = depth + 1 :=
    ⟨v.nodes.length - 1, by have inside := (List.getElem?_eq_some_iff.mp read).1; omega⟩
  unfold reduceNode reduceDepth
  rw [dotRead, Option.bind_eq_bind, Option.bind_some, redirect, same]
  dsimp only
  unfold reduceDepth
  rw [read, Option.bind_eq_bind, Option.bind_some, null]

theorem Tree.reduce_plain (tree : v.Tree) (read : v.nodes[p]? = some node) (plain : node.type ≠ .none) :
    v.reduceNode p = some p :=
  reduceNode_null read (tree.plain p node read plain).redirect

theorem Tree.reduce_redirects (tree : v.Tree) (redirects : v.Redirects p t) (read : v.nodes[t]? = some node)
    (plain : node.type ≠ .none) : v.reduceNode p = some t :=
  reduceNode_redirects redirects read (tree.plain t node read plain).redirect

theorem Tree.reduce_dot (tree : v.Tree) (read : v.nodes[d]? = some dir) (directory : dir.type = .directory) :
    ∃ p, dir.children.get dotName = some p ∧ v.reduceNode p = some d := by
  obtain ⟨p, found, redirects⟩ := (tree.directory d dir read directory).dot
  exact ⟨p, found, tree.reduce_redirects redirects read (by rw [directory]; exact nofun)⟩

/-- The parent of a directory, which is the directory itself for the root. -/
theorem Tree.parent_read (tree : v.Tree) (read : v.nodes[d]? = some dir) (directory : dir.type = .directory) :
    v.IsDirectory (dir.parent.getD d) := by
  have ok := (tree.plain d dir read (by rw [directory]; exact nofun)).parent
  cases up : dir.parent with
  | none => exact ⟨dir, read, directory⟩
  | some q =>
    rw [up] at ok
    obtain ⟨_, _, holder, holderRead, holderType, _⟩ := ok
    exact ⟨holder, holderRead, holderType⟩

theorem Tree.reduce_dotdot (tree : v.Tree) (read : v.nodes[d]? = some dir) (directory : dir.type = .directory) :
    ∃ p, dir.children.get dotdotName = some p ∧ v.reduceNode p = some (dir.parent.getD d) := by
  obtain ⟨p, found, redirects⟩ := (tree.directory d dir read directory).dotdot
  obtain ⟨holder, holderRead, holderType⟩ := tree.parent_read read directory
  exact ⟨p, found, tree.reduce_redirects redirects holderRead (by rw [holderType]; exact nofun)⟩

theorem Tree.reduce_found (tree : v.Tree) (read : v.nodes[d]? = some dir) (directory : dir.type = .directory)
    (found : dir.children.get k = some p) :
    ∃ t node, v.reduceNode p = some t ∧ v.nodes[t]? = some node ∧ node.type ≠ .none := by
  have plain : dir.type ≠ .none := by rw [directory]; exact nofun
  rcases (tree.directory d dir read directory).child k p found with rfl | rfl | ⟨child, childRead, childType, _⟩
  · obtain ⟨q, found', reduced⟩ := tree.reduce_dot read directory
    obtain rfl := Option.some.inj (found.symm.trans found')
    exact ⟨d, dir, reduced, read, plain⟩
  · obtain ⟨q, found', reduced⟩ := tree.reduce_dotdot read directory
    obtain rfl := Option.some.inj (found.symm.trans found')
    obtain ⟨holder, holderRead, holderType⟩ := tree.parent_read read directory
    exact ⟨_, holder, reduced, holderRead, by rw [holderType]; exact nofun⟩
  · exact ⟨p, child, tree.reduce_plain childRead childType, childRead, childType⟩

theorem Tree.empty_absent (tree : v.Tree) (read : v.nodes[d]? = some dir) (directory : dir.type = .directory) :
    dir.children.get emptyName = none := by
  cases found : dir.children.get emptyName with
  | none => rfl
  | some p =>
    rcases (tree.directory d dir read directory).child emptyName p found with dot | dotdot | ⟨node, childRead, type, up, name⟩
    · exact absurd dot (by decide)
    · exact absurd dotdot (by decide)
    · have parent := (tree.plain p node childRead type).parent
      rw [up] at parent
      exact absurd (congrArg CString.chars name) parent.2.1.nonempty

theorem lookup_eq (read : v.nodes[d]? = some dir) (directory : dir.type = .directory) (name : CString) :
    v.lookup d name = (dir.children.get name).bind v.reduceNode := by
  unfold lookup
  rw [read, Option.bind_eq_bind, Option.bind_some, if_pos directory]
  rfl

theorem Tree.lookup_eq_none_iff (tree : v.Tree) (read : v.nodes[d]? = some node) :
    v.lookup d name = none ↔ v.Missing d name := by
  by_cases directory : node.type = .directory
  · rw [lookup_eq read directory]
    constructor
    · intro missed
      cases found : node.children.get name with
      | none => exact .inr ⟨node, read, found⟩
      | some p =>
        obtain ⟨t, _, reduced, _⟩ := tree.reduce_found read directory found
        rw [found, Option.bind_some, reduced] at missed
        cases missed
    · rintro (other | ⟨dir, read', absent⟩)
      · exact absurd ⟨node, read, directory⟩ other
      · obtain rfl := Option.some.inj (read.symm.trans read')
        rw [absent, Option.bind_none]
  · constructor
    · intro _
      refine .inl ?_
      rintro ⟨dir, read', directory'⟩
      obtain rfl := Option.some.inj (read.symm.trans read')
      exact directory directory'
    · intro _
      unfold lookup
      rw [read, Option.bind_eq_bind, Option.bind_some, if_neg directory]

/-- A round of the loop that cuts `name` off. -/
theorem pathToNodeLoop_round (read : v.nodes[d]? = some dir) (directory : dir.type = .directory)
    {path_len : Nat} {found : Option Nat} (searched : strchr slash path = some found)
    (fits : found.getD path_len ≤ path.length) (cut : path.take (found.getD path_len) = name.chars) :
    v.pathToNodeLoop (fuel + 1) path path_len d =
      match dir.children.get name with
      | none => some ⟨some d, none, some name⟩
      | some p => (v.reduceNode p).bind fun target =>
        if found = none ∨ found.getD path_len + 1 = path_len then some ⟨some d, some target, some name⟩
        else v.pathToNodeLoop fuel (path.drop (found.getD path_len + 1)) (path_len - (found.getD path_len + 1)) target := by
  have entry : CString.ofBytes (path.take (found.getD path_len)) = name := by
    rw [cut]
    exact CString.ext (CString.ofBytes_of_noNul name.noNul)
  rw [pathToNodeLoop, read, Option.bind_eq_bind, Option.bind_some, if_neg (by simp [directory]), searched,
    Option.bind_eq_bind, Option.bind_some]
  dsimp only
  rw [if_neg (by omega), entry]
  cases dir.children.get name <;> rfl

/-- The round for the last component, with at most a slash behind it. -/
theorem pathToNodeLoop_last (fuel : Nat) (name : CString) (junk : List UInt8) (read : v.nodes[d]? = some dir)
    (directory : dir.type = .directory) (slashFree : slash ∉ name.chars) (trailing : Bool) :
    v.pathToNodeLoop (fuel + 1) (name.chars ++ (if trailing then [slash] else []) ++ 0 :: junk)
        (name.chars ++ if trailing then [slash] else []).length d =
      match dir.children.get name with
      | none => some ⟨some d, none, some name⟩
      | some p => (v.reduceNode p).bind fun target => some ⟨some d, some target, some name⟩ := by
  cases trailing with
  | false =>
    have searched : strchr slash (name.chars ++ 0 :: junk) = some none :=
      strchr_absent (by decide) slashFree name.noNul junk
    have cut : (name.chars ++ 0 :: junk).take name.chars.length = name.chars := List.take_left
    simp only [Bool.false_eq_true, if_false, List.append_nil]
    rw [pathToNodeLoop_round read directory searched (by simp) cut]
    cases dir.children.get name with
    | none => rfl
    | some p => cases reduced : v.reduceNode p <;> simp [reduced]
  | true =>
    have searched : strchr slash (name.chars ++ slash :: 0 :: junk) = some (some name.chars.length) :=
      strchr_found slashFree name.noNul (0 :: junk)
    have cut : (name.chars ++ slash :: 0 :: junk).take name.chars.length = name.chars := List.take_left
    simp only [if_true, List.append_assoc, List.cons_append, List.nil_append]
    rw [pathToNodeLoop_round read directory searched (by simp) cut]
    cases dir.children.get name with
    | none => rfl
    | some p => cases reduced : v.reduceNode p <;> simp [reduced]

/-- The round for a component with more of the path behind its slash. -/
theorem pathToNodeLoop_more (fuel : Nat) (name : CString) (junk : List UInt8) (read : v.nodes[d]? = some dir)
    (directory : dir.type = .directory) (slashFree : slash ∉ name.chars) (more : rest ≠ []) :
    v.pathToNodeLoop (fuel + 1) (name.chars ++ slash :: (rest ++ 0 :: junk)) (name.chars ++ slash :: rest).length d =
      match dir.children.get name with
      | none => some ⟨some d, none, some name⟩
      | some p => (v.reduceNode p).bind fun target => v.pathToNodeLoop fuel (rest ++ 0 :: junk) rest.length target := by
  have searched : strchr slash (name.chars ++ slash :: (rest ++ 0 :: junk)) = some (some name.chars.length) :=
    strchr_found slashFree name.noNul (rest ++ 0 :: junk)
  have long := List.length_pos_of_ne_nil more
  have total : (name.chars ++ slash :: rest).length = name.chars.length + 1 + rest.length := by simp; omega
  have behind : (name.chars ++ slash :: (rest ++ 0 :: junk)).drop (name.chars.length + 1) = rest ++ 0 :: junk := by simp
  have left : name.chars.length + 1 + rest.length - (name.chars.length + 1) = rest.length := by omega
  have cut : (name.chars ++ slash :: (rest ++ 0 :: junk)).take name.chars.length = name.chars := List.take_left
  rw [pathToNodeLoop_round read directory searched (by simp) cut, total]
  cases dir.children.get name with
  | none => rfl
  | some p =>
    dsimp only [Option.getD_some]
    rw [behind, left]
    cases v.reduceNode p with
    | none => rfl
    | some target => exact if_neg (by simp; omega)

/-- A round in a node that is no directory ends the loop. -/
theorem pathToNodeLoop_other (read : v.nodes[d]? = some node) (other : node.type ≠ .directory)
    (path : List UInt8) (path_len : Nat) :
    v.pathToNodeLoop (fuel + 1) path path_len d = some ⟨none, none, none⟩ := by
  rw [pathToNodeLoop, read, Option.bind_eq_bind, Option.bind_some, if_pos other]

theorem pathToNode_eq {path : List UInt8} (noNul : 0 ∉ path) (nonempty : path ≠ []) :
    v.pathToNode (path ++ 0 :: junk) (some d) =
      v.pathToNodeLoop (path.length + 1) (path ++ 0 :: junk) path.length d := by
  have long := List.length_pos_of_ne_nil nonempty
  unfold pathToNode
  rw [strlen_eq noNul junk, Option.bind_eq_bind, Option.bind_some, if_neg (by omega)]

theorem pathToNode_absolute (junk : List UInt8) {r : Nat} (root : v.root = some r) (noNul : 0 ∉ path) :
    v.pathToNode (slash :: path ++ 0 :: junk) none =
      v.pathToNodeLoop (path.length + 1) (path ++ 0 :: junk) path.length r := by
  have whole : (0 : UInt8) ∉ slash :: path := List.not_mem_cons_of_ne_of_not_mem (by decide) noNul
  unfold pathToNode
  rw [strlen_eq whole junk, Option.bind_eq_bind, Option.bind_some, List.length_cons, if_neg (by omega)]
  dsimp only
  rw [if_neg (by simp), root]
  rfl

theorem joinPath_single (name : CString) (trailing : Bool) :
    joinPath [name] trailing = name.chars ++ if trailing then [slash] else [] := by
  simp [joinPath, List.intercalate]

theorem joinPath_bare (name : CString) : joinPath [name] false = name.chars :=
  (joinPath_single name false).trans (List.append_nil _)

theorem joinPath_cons (name next : CString) (names : List CString) (trailing : Bool) :
    joinPath (name :: next :: names) trailing = name.chars ++ slash :: joinPath (next :: names) trailing := by
  simp [joinPath, List.intercalate]

theorem length_le_joinPath (names : List CString) (trailing : Bool) :
    names.length ≤ (joinPath names trailing).length + 1 := by
  induction names with
  | nil => simp
  | cons name names ih =>
    cases names with
    | nil => simp
    | cons next names =>
      rw [joinPath_cons, List.length_append, List.length_cons, List.length_cons (a := slash)]
      omega

theorem noNul_joinPath (names : List CString) (trailing : Bool) : 0 ∉ joinPath names trailing := by
  have tail : (0 : UInt8) ∉ if trailing then [slash] else [] := by cases trailing <;> decide
  induction names with
  | nil => simpa [joinPath, List.intercalate] using tail
  | cons name names ih =>
    cases names with
    | nil =>
      rw [joinPath_single]
      exact List.not_mem_append name.noNul tail
    | cons next names =>
      rw [joinPath_cons]
      exact List.not_mem_append name.noNul (List.not_mem_cons_of_ne_of_not_mem (by decide) ih)

theorem joinPath_ne_nil (component : Component name) (names : List CString) (trailing : Bool) :
    joinPath (name :: names) trailing ≠ [] := by
  cases names with
  | nil =>
    rw [joinPath_single]
    exact List.append_ne_nil_of_left_ne_nil component.nonempty _
  | cons next names =>
    rw [joinPath_cons]
    exact List.append_ne_nil_of_left_ne_nil component.nonempty _

theorem walk_cons (v : Vfs) (d : Nat) (name : CString) (names : List CString) :
    v.walk d (name :: names) = (v.lookup d name).bind fun d => v.walk d names := rfl

theorem Tree.lookup_other (read : v.nodes[d]? = some node) (other : node.type ≠ .directory) :
    v.lookup d name = none := by
  unfold lookup
  rw [read, Option.bind_eq_bind, Option.bind_some, if_neg other]

theorem walk_append (v : Vfs) (d : Nat) (before after : List CString) :
    v.walk d (before ++ after) = (v.walk d before).bind fun d => v.walk d after := by
  induction before generalizing d with
  | nil => rfl
  | cons name before ih =>
    rw [List.cons_append, walk_cons, walk_cons, Option.bind_assoc]
    congr 1
    funext d
    exact ih d

theorem walk_snoc (v : Vfs) (d : Nat) (names : List CString) (name : CString) :
    v.walk d (names ++ [name]) = (v.walk d names).bind fun d => v.lookup d name := by
  rw [walk_append]
  congr 1
  funext d
  rw [walk_cons]
  cases v.lookup d name with
  | none => rfl
  | some t => rfl

/-- How a lookup of components ends: at the last one, at one that its directory does not have, or at a
node with components left that is no directory. -/
inductive Outcome (v : Vfs) (d : Nat) (names : List CString) : PathToNodeResult → Prop where
  | found {parent : Option Nat} {t : Nat} {name : CString} (walked : v.walk d names = some t) :
      Outcome v d names ⟨parent, some t, some name⟩
  | missing {before after : List CString} {name : CString} {d' : Nat} {dir : Node} (split : names = before ++ name :: after)
      (walked : v.walk d before = some d') (read : v.nodes[d']? = some dir) (directory : dir.type = .directory)
      (absent : dir.children.get name = none) : Outcome v d names ⟨some d', none, some name⟩
  | blocked {before after : List CString} {d' : Nat} (split : names = before ++ after) (more : after ≠ [])
      (walked : v.walk d before = some d') (other : ¬v.IsDirectory d') : Outcome v d names ⟨none, none, none⟩

theorem Outcome.behind {d' : Nat} {result : PathToNodeResult} (stepped : v.lookup d name = some d')
    (outcome : Outcome v d' names result) : Outcome v d (name :: names) result := by
  have behind : ∀ names, v.walk d (name :: names) = v.walk d' names := by
    intro names
    rw [walk_cons, stepped, Option.bind_some]
  cases outcome with
  | found walked => exact .found ((behind names).trans walked)
  | missing split walked read directory absent =>
    exact .missing (congrArg (List.cons name) split) ((behind _).trans walked) read directory absent
  | blocked split more walked other =>
    exact .blocked (congrArg (List.cons name) split) more ((behind _).trans walked) other

/-- The loop on a path of components, by induction on the components. -/
theorem Tree.loop_outcome (tree : v.Tree) (junk : List UInt8) {names : List CString} (nonempty : names ≠ [])
    (components : ∀ name ∈ names, Component name) (trailing : Bool) (read : v.nodes[d]? = some node)
    (enough : names.length ≤ fuel) :
    ∃ result,
      v.pathToNodeLoop fuel (joinPath names trailing ++ 0 :: junk) (joinPath names trailing).length d = some result ∧
      Outcome v d names result := by
  induction names generalizing d node fuel with
  | nil => exact absurd rfl nonempty
  | cons name names ih =>
    rw [List.length_cons] at enough
    obtain ⟨fuel, rfl⟩ : ∃ n, fuel = n + 1 := ⟨fuel - 1, by omega⟩
    by_cases directory : node.type = .directory
    · have here := (components name (.head _)).slashFree
      have missed : node.children.get name = none → Outcome v d (name :: names) ⟨some d, none, some name⟩ :=
        fun absent => .missing (List.nil_append _).symm rfl read directory absent
      cases names with
      | nil =>
        rw [joinPath_single, pathToNodeLoop_last _ _ _ read directory here]
        cases found : node.children.get name with
        | none => exact ⟨_, rfl, missed found⟩
        | some p =>
          obtain ⟨t, _, reduced, _⟩ := tree.reduce_found read directory found
          have walked : v.walk d [name] = some t := by
            rw [walk_cons, lookup_eq read directory, found, Option.bind_some, reduced]
            rfl
          dsimp only
          rw [reduced]
          exact ⟨_, rfl, .found walked⟩
      | cons next names =>
        have more := joinPath_ne_nil (components next (.tail _ (.head _))) names trailing
        rw [joinPath_cons, List.append_assoc, List.cons_append, pathToNodeLoop_more _ _ _ read directory here more]
        cases found : node.children.get name with
        | none => exact ⟨_, rfl, missed found⟩
        | some p =>
          obtain ⟨t, target, reduced, targetRead, _⟩ := tree.reduce_found read directory found
          have stepped : v.lookup d name = some t :=
            by rw [lookup_eq read directory, found, Option.bind_some, reduced]
          have left : (next :: names).length ≤ fuel := by omega
          obtain ⟨result, looped, outcome⟩ :=
            ih (List.cons_ne_nil _ _) (fun name member => components name (.tail _ member)) targetRead left
          dsimp only
          rw [reduced]
          exact ⟨result, looped, outcome.behind stepped⟩
    · refine ⟨_, pathToNodeLoop_other read directory _ _, .blocked (List.nil_append _).symm nonempty rfl ?_⟩
      rintro ⟨dir, read', directory'⟩
      obtain rfl := Option.some.inj (read.symm.trans read')
      exact directory directory'

theorem Outcome.target_eq {result : PathToNodeResult} (outcome : Outcome v d names result) :
    result.target = v.walk d names := by
  cases outcome with
  | found walked => exact walked.symm
  | @missing before after name d' dir split walked read directory absent =>
    rw [split, walk_append, walked, Option.bind_some, walk_cons, lookup_eq read directory, absent]
    rfl
  | @blocked before after d' split more walked other =>
    obtain ⟨name, rest, rfl⟩ := List.exists_cons_of_ne_nil more
    have none : v.lookup d' name = none := by
      unfold lookup
      cases read : v.nodes[d']? with
      | none => rfl
      | some node =>
        rw [Option.bind_eq_bind, Option.bind_some, if_neg]
        exact fun directory => other ⟨node, read, directory⟩
    rw [split, walk_append, walked, Option.bind_some, walk_cons, none]
    rfl

theorem Tree.loop_walk (tree : v.Tree) (junk : List UInt8) {names : List CString} (nonempty : names ≠ [])
    (components : ∀ name ∈ names, Component name) (trailing : Bool) (read : v.nodes[d]? = some node)
    (enough : names.length ≤ fuel) :
    ∃ result,
      v.pathToNodeLoop fuel (joinPath names trailing ++ 0 :: junk) (joinPath names trailing).length d = some result ∧
      result.target = v.walk d names := by
  obtain ⟨result, looped, outcome⟩ := tree.loop_outcome junk nonempty components trailing read enough
  exact ⟨result, looped, outcome.target_eq⟩

/-- The lookup of a path of components, and how it ends. -/
theorem Tree.pathToNode_outcome (tree : v.Tree) (start : v.IsDirectory d) (nonempty : names ≠ [])
    (components : ∀ name ∈ names, Component name) (trailing : Bool) :
    ∃ result, v.pathToNode (joinPath names trailing ++ [0]) (some d) = some result ∧ Outcome v d names result := by
  obtain ⟨dir, read, _⟩ := start
  obtain ⟨first, rest, rfl⟩ := List.exists_cons_of_ne_nil nonempty
  have long := length_le_joinPath (first :: rest) trailing
  have some_path := joinPath_ne_nil (components first (.head _)) rest trailing
  obtain ⟨result, looped, outcome⟩ := tree.loop_outcome [] nonempty components trailing read long
  exact ⟨result, (pathToNode_eq (noNul_joinPath _ _) some_path).trans looped, outcome⟩

theorem Tree.walk_read (tree : v.Tree) (read : v.nodes[d]? = some node) (walked : v.walk d names = some t) :
    ∃ target, v.nodes[t]? = some target := by
  induction names generalizing d node with
  | nil =>
    obtain rfl := Option.some.inj walked
    exact ⟨node, read⟩
  | cons name names ih =>
    obtain ⟨d', stepped, walked⟩ := Option.bind_eq_some_iff.mp walked
    by_cases directory : node.type = .directory
    · rw [lookup_eq read directory] at stepped
      obtain ⟨p, found, reduced⟩ := Option.bind_eq_some_iff.mp stepped
      obtain ⟨t', next, reduced', nextRead, _⟩ := tree.reduce_found read directory found
      obtain rfl := Option.some.inj (reduced.symm.trans reduced')
      exact ih nextRead walked
    · rw [lookup_other read directory] at stepped
      cases stepped

theorem Tree.walk_eq_none_iff (tree : v.Tree) (read : v.nodes[d]? = some node) : v.walk d names = none ↔
    ∃ before name after d', names = before ++ name :: after ∧ v.walk d before = some d' ∧
      v.Missing d' name := by
  constructor
  · intro lost
    induction names generalizing d node with
    | nil => cases lost
    | cons name names ih =>
      rw [walk_cons] at lost
      cases stepped : v.lookup d name with
      | none => exact ⟨[], name, names, d, rfl, rfl, (tree.lookup_eq_none_iff read).mp stepped⟩
      | some d' =>
        have walked : v.walk d [name] = some d' := by rw [walk_cons, stepped]; rfl
        obtain ⟨next, nextRead⟩ := tree.walk_read read walked
        rw [stepped, Option.bind_some] at lost
        obtain ⟨before, lostName, after, d₁, rfl, walked, missing⟩ := ih nextRead lost
        refine ⟨name :: before, lostName, after, d₁, rfl, ?_, missing⟩
        rw [walk_cons, stepped]
        exact walked
  · rintro ⟨before, name, after, d', rfl, walked, missing⟩
    obtain ⟨next, nextRead⟩ := tree.walk_read read walked
    rw [walk_append, walked, Option.bind_some, walk_cons, (tree.lookup_eq_none_iff nextRead).mpr missing]
    rfl

/-- `path_to_node` returns on every path of components, without a read behind its NUL, and finds
what the component walk finds. -/
theorem path_to_node_walk (built : Built (fun _ => none) v) (start : v.IsDirectory d) (nonempty : names ≠ [])
    (components : ∀ name ∈ names, Component name) (trailing : Bool) :
    ∃ result, v.pathToNode (joinPath names trailing ++ [0]) (some d) = some result ∧
      result.target = v.walk d names ∧
      (result.target = none ↔ ∃ before name after d', names = before ++ name :: after ∧
        v.walk d before = some d' ∧ v.Missing d' name) := by
  have tree := built.tree fun _ => rfl
  obtain ⟨result, returned, outcome⟩ := tree.pathToNode_outcome start nonempty components trailing
  obtain ⟨dir, read, _⟩ := start
  refine ⟨result, returned, outcome.target_eq, ?_⟩
  rw [outcome.target_eq]
  exact tree.walk_eq_none_iff read

def binName : CString := ⟨[0x62, 0x69, 0x6E], by decide⟩

theorem component_bin : ∀ name ∈ [binName], Component name := by
  intro name member
  obtain rfl := List.mem_singleton.mp member
  exact ⟨by decide, by decide⟩

/-- The tree that `vfs::init` makes, with a node `bin` in it. -/
theorem exists_tree {type : NodeType} (plain : type ≠ .none) : ∃ v, Built (fun _ => none) v ∧ v.root = some 0 ∧
    v.IsDirectory 0 ∧ (∃ node, v.nodes[3]? = some node ∧ node.type = type ∧ node.data = NodeData.create) ∧
    v.walk 0 [binName] = some 3 := by
  obtain ⟨dots, dotted, made⟩ := init_spec fun _ => none
  obtain ⟨dots', dotted', _, get⟩ := dotChildren_spec 0
  obtain rfl := Option.some.inj (dotted.symm.trans dotted')
  obtain ⟨v, made, dir, read, directory, absent, root, length, null⟩ : ∃ v, init (fun _ => none) = some v ∧
      ∃ dir, v.nodes[0]? = some dir ∧ dir.type = .directory ∧ dir.children.get binName = none ∧
        v.root = some 0 ∧
        v.nodes.length = 3 ∧ v.heap v.nodes.length = none :=
    ⟨_, made, _, rfl, rfl, (get binName).trans (by decide), rfl, rfl, rfl⟩
  have tree := init_tree rfl made
  obtain ⟨children, fresh, called, creation, _, node, first, nodeType, data⟩ :=
    tree.create read directory (by decide) (by decide) absent null plain
  have here : (v.grown 0 children fresh).nodes[3]? = some node := by
    rw [← length]
    exact (nodes_grown_new 0).trans first
  have rootRead : (v.grown 0 children fresh).nodes[0]? = some { dir with children := children } :=
    nodes_grown_old read
  refine ⟨_, .create (.init made) read directory (by decide) (by decide) absent called, root, ⟨_, rootRead, directory⟩,
    ⟨node, here, nodeType, data⟩, ?_⟩
  have found : children.get binName = some 3 := by rw [creation.get, if_pos rfl, length]
  rw [walk_cons, lookup_eq rootRead directory]
  dsimp only
  rw [found, Option.bind_some, creation.grown_tree.reduce_plain here (by rw [nodeType]; exact plain)]
  rfl

theorem exists_binTree : ∃ v, Built (fun _ => none) v ∧ v.root = some 0 ∧ v.IsDirectory 3 ∧
    v.walk 0 [binName] = some 3 := by
  obtain ⟨v, built, root, _, ⟨node, read, type, _⟩, walked⟩ :=
    exists_tree (show NodeType.directory ≠ .none from nofun)
  exact ⟨v, built, root, ⟨node, read, type⟩, walked⟩

/-- `../bin/`, looked up in `bin`. -/
theorem path_to_node_walk_bin : ∃ v, Built (fun _ => none) v ∧
    ∃ result, v.pathToNode (joinPath [dotdotName, binName] true ++ [0]) (some 3) = some result ∧
      result.target = v.walk 3 [dotdotName, binName] ∧
      (result.target = none ↔ ∃ before name after d', [dotdotName, binName] = before ++ name :: after ∧
        v.walk 3 before = some d' ∧ v.Missing d' name) := by
  obtain ⟨v, built, _, directory, _⟩ := exists_binTree
  refine ⟨v, built, path_to_node_walk built directory (by simp) ?_ true⟩
  intro name member
  rcases List.mem_pair.mp member with rfl | rfl
  · exact ⟨by decide, by decide⟩
  · exact ⟨by decide, by decide⟩

theorem Tree.round_total (tree : v.Tree) (read : v.nodes[d]? = some dir) (directory : dir.type = .directory)
    (name : CString) {f : Nat → Option PathToNodeResult}
    (returns : ∀ t node, v.nodes[t]? = some node → ∃ result, f t = some result) :
    ∃ result, (match dir.children.get name with
      | none => some ⟨some d, none, some name⟩
      | some p => (v.reduceNode p).bind f) = some result := by
  cases found : dir.children.get name with
  | none => exact ⟨_, rfl⟩
  | some p =>
    obtain ⟨t, target, reduced, targetRead, _⟩ := tree.reduce_found read directory found
    obtain ⟨result, returned⟩ := returns t target targetRead
    refine ⟨result, ?_⟩
    dsimp only
    rw [reduced]
    exact returned

theorem Tree.loop_total (tree : v.Tree) (noNul : 0 ∉ path) (read : v.nodes[d]? = some dir)
    (enough : path.length < fuel) :
    ∃ result, v.pathToNodeLoop fuel (path ++ 0 :: junk) path.length d = some result := by
  induction fuel generalizing path d dir with
  | zero => cases enough
  | succ fuel ih =>
    by_cases directory : dir.type = .directory
    · by_cases cut : slash ∈ path
      · obtain ⟨before, rest, rfl, slashFree⟩ := List.eq_append_cons_of_mem cut
        have nameNoNul : 0 ∉ before := fun member => noNul (List.mem_append_left _ member)
        have restNoNul : 0 ∉ rest := fun member => noNul (List.mem_append_right _ (.tail _ member))
        rw [List.length_append, List.length_cons] at enough
        by_cases more : rest = []
        · have last := pathToNodeLoop_last fuel ⟨before, nameNoNul⟩ junk read directory slashFree true
          simp only [if_true] at last
          rw [more, last]
          exact tree.round_total read directory _ fun t node _ => ⟨_, rfl⟩
        · have next := pathToNodeLoop_more fuel ⟨before, nameNoNul⟩ junk read directory slashFree more
          rw [List.append_assoc, List.cons_append, next]
          exact tree.round_total read directory _ fun t node targetRead => ih restNoNul targetRead (by omega)
      · have last := pathToNodeLoop_last fuel ⟨path, noNul⟩ junk read directory cut false
        simp only [Bool.false_eq_true, if_false, List.append_nil] at last
        rw [last]
        exact tree.round_total read directory _ fun t node _ => ⟨_, rfl⟩
    · exact ⟨_, pathToNodeLoop_other read directory _ _⟩

theorem Tree.pathToNode_total (tree : v.Tree) (path : CString) {start : Option Nat}
    (inside : ∀ d, start = some d → ∃ node, v.nodes[d]? = some node) :
    ∃ result, v.pathToNode (path.chars ++ [0]) start = some result := by
  obtain ⟨chars, noNul⟩ := path
  dsimp only
  cases chars with
  | nil => exact ⟨⟨none, none, none⟩, rfl⟩
  | cons c chars =>
    cases start with
    | some d =>
      obtain ⟨node, read⟩ := inside d rfl
      rw [pathToNode_eq noNul (List.cons_ne_nil _ _)]
      exact tree.loop_total noNul read (Nat.lt_succ_self _)
    | none =>
      by_cases absolute : c = slash
      · subst absolute
        obtain ⟨r, dir, root, read, _⟩ := tree.root
        have rest : (0 : UInt8) ∉ chars := fun member => noNul (.tail _ member)
        rw [pathToNode_absolute [] root rest]
        exact tree.loop_total rest read (Nat.lt_succ_self _)
      · have long := strlen_eq noNul []
        refine ⟨⟨none, none, none⟩, ?_⟩
        unfold pathToNode
        rw [long, Option.bind_eq_bind, Option.bind_some, List.length_cons, if_neg (Nat.succ_ne_zero _)]
        exact if_pos (by simpa using absolute)

theorem reduceDepth_read {depth : Nat} (reduced : v.reduceDepth depth p = some t) :
    ∃ node, v.nodes[t]? = some node := by
  induction depth generalizing p with
  | zero => cases reduced
  | succ depth ih =>
    obtain ⟨node, read, reduced⟩ := Option.bind_eq_some_iff.mp reduced
    split at reduced
    · exact ih reduced
    · obtain rfl := Option.some.inj reduced
      exact ⟨node, read⟩

theorem pathToNodeLoop_target {path_len : Nat} {result : PathToNodeResult}
    (looped : v.pathToNodeLoop fuel path path_len d = some result) (target : result.target = some t) :
    ∃ node, v.nodes[t]? = some node := by
  induction fuel generalizing path path_len d with
  | zero => cases looped
  | succ fuel ih =>
    obtain ⟨dir, read, looped⟩ := Option.bind_eq_some_iff.mp looped
    split at looped
    · obtain rfl := Option.some.inj looped
      cases target
    · obtain ⟨found, searched, looped⟩ := Option.bind_eq_some_iff.mp looped
      dsimp only at looped
      split at looped
      · cases looped
      · split at looped
        · obtain rfl := Option.some.inj looped
          cases target
        · obtain ⟨next, reduced, looped⟩ := Option.bind_eq_some_iff.mp looped
          split at looped
          · obtain rfl := Option.some.inj looped
            obtain rfl := Option.some.inj target
            exact reduceDepth_read reduced
          · exact ih looped

theorem pathToNode_target {start : Option Nat} {result : PathToNodeResult}
    (returned : v.pathToNode path start = some result) (target : result.target = some t) :
    ∃ node, v.nodes[t]? = some node := by
  obtain ⟨path_len, _, returned⟩ := Option.bind_eq_some_iff.mp returned
  split at returned
  · obtain rfl := Option.some.inj returned
    cases target
  · split at returned
    · exact pathToNodeLoop_target returned target
    · split at returned
      · obtain rfl := Option.some.inj returned
        cases target
      · obtain ⟨root, _, returned⟩ := Option.bind_eq_some_iff.mp returned
        exact pathToNodeLoop_target returned target

theorem pathToNodeLoop_mono {more path_len : Nat} {result : PathToNodeResult}
    (looped : v.pathToNodeLoop fuel path path_len d = some result) (enough : fuel ≤ more) :
    v.pathToNodeLoop more path path_len d = some result := by
  induction fuel generalizing more path path_len d with
  | zero => cases looped
  | succ fuel ih =>
    obtain ⟨more, rfl⟩ : ∃ n, more = n + 1 := ⟨more - 1, by omega⟩
    rw [pathToNodeLoop] at looped ⊢
    obtain ⟨node, read, looped⟩ := Option.bind_eq_some_iff.mp looped
    rw [read, Option.bind_eq_bind, Option.bind_some]
    split at looped
    · rename_i other
      rw [if_pos other]
      exact looped
    · rename_i directory
      obtain ⟨found, searched, looped⟩ := Option.bind_eq_some_iff.mp looped
      rw [if_neg directory, searched, Option.bind_eq_bind, Option.bind_some]
      dsimp only at looped ⊢
      split at looped
      · cases looped
      · rename_i fits
        rw [if_neg fits]
        cases entry : node.children.get (CString.ofBytes (path.take (found.getD path_len))) with
        | none =>
          rw [entry] at looped
          exact looped
        | some p =>
          rw [entry] at looped
          obtain ⟨target, reduced, looped⟩ := Option.bind_eq_some_iff.mp looped
          dsimp only
          rw [reduced, Option.bind_eq_bind, Option.bind_some]
          split at looped
          · rename_i last
            rw [if_pos last]
            exact looped
          · rename_i continues
            rw [if_neg continues]
            exact ih looped (by omega)

/-- A component that leads to `t`, in front of a path. -/
theorem path_behind {result : PathToNodeResult} (read : v.nodes[d]? = some dir)
    (directory : dir.type = .directory) (slashFree : slash ∉ name.chars)
    (found : dir.children.get name = some p) (reduced : v.reduceNode p = some t) (noNul : 0 ∉ path)
    (nonempty : path ≠ []) (returned : v.pathToNode (path ++ [0]) (some t) = some result) :
    v.pathToNode (name.chars ++ slash :: path ++ [0]) (some d) = some result := by
  have joined : (0 : UInt8) ∉ name.chars ++ slash :: path :=
    List.not_mem_append name.noNul (List.not_mem_cons_of_ne_of_not_mem (by decide) noNul)
  rw [pathToNode_eq noNul nonempty] at returned
  rw [pathToNode_eq joined (by simp), List.append_assoc, List.cons_append,
    pathToNodeLoop_more _ _ _ read directory slashFree nonempty, found]
  dsimp only
  rw [reduced, Option.bind_some]
  apply pathToNodeLoop_mono returned
  rw [List.length_append, List.length_cons]
  omega

theorem Tree.child_directory (tree : v.Tree) (read : v.nodes[d]? = some dir)
    (directory : dir.type = .directory) (found : dir.children.get name = some p)
    (child : v.nodes[p]? = some node) (inner : node.type = .directory) :
    NameOk name ∧ node.parent = some d := by
  have ok := tree.directory d dir read directory
  have plain := tree.plain p node child (by rw [inner]; exact nofun)
  have notDot : ∀ {q t}, dir.children.get name = some q → v.Redirects q t → False := by
    rintro q t found' ⟨dot, dotRead, redirect⟩
    obtain rfl := Option.some.inj (found.symm.trans found')
    obtain rfl := Option.some.inj (child.symm.trans dotRead)
    rw [plain.redirect] at redirect
    cases redirect
  rcases ok.child name p found with rfl | rfl | ⟨node', read', _, up, rfl⟩
  · obtain ⟨q, found', redirects⟩ := ok.dot
    exact (notDot found' redirects).elim
  · obtain ⟨q, found', redirects⟩ := ok.dotdot
    exact (notDot found' redirects).elim
  · obtain rfl := Option.some.inj (child.symm.trans read')
    have holder := plain.parent
    rw [up] at holder
    exact ⟨holder.2.1, up⟩

/-- `./` in front of a path, a child directory and `../` in front of it, and `../` in front of it at
the root all change nothing of what `path_to_node` returns. -/
theorem dot_entries_neutral (built : Built (fun _ => none) v) (read : v.nodes[d]? = some dir)
    (directory : dir.type = .directory) (noNul : 0 ∉ path) (nonempty : path ≠ []) :
    ∃ result, v.pathToNode (path ++ [0]) (some d) = some result ∧
      v.pathToNode (dotName.chars ++ slash :: path ++ [0]) (some d) = some result ∧
      (v.root = some d → v.pathToNode (dotdotName.chars ++ slash :: path ++ [0]) (some d) = some result) ∧
      ∀ x child, dir.children.get x = some child → v.IsDirectory child →
        v.pathToNode (x.chars ++ slash :: (dotdotName.chars ++ slash :: path) ++ [0]) (some d) =
          some result := by
  have tree := built.tree fun _ => rfl
  obtain ⟨result, looped⟩ := tree.loop_total noNul read (Nat.lt_succ_self path.length)
  have returned : v.pathToNode (path ++ [0]) (some d) = some result :=
    by rw [pathToNode_eq noNul nonempty, looped]
  refine ⟨result, returned, ?_, ?_, ?_⟩
  · obtain ⟨p, found, reduced⟩ := tree.reduce_dot read directory
    exact path_behind read directory (by decide) found reduced noNul nonempty returned
  · intro root
    have top : dir.parent = none := by
      obtain ⟨r, rootDir, root', rootRead, _, up, _⟩ := tree.root
      obtain rfl := Option.some.inj (root.symm.trans root')
      obtain rfl := Option.some.inj (read.symm.trans rootRead)
      exact up
    obtain ⟨p, found, reduced⟩ := tree.reduce_dotdot read directory
    rw [top] at reduced
    exact path_behind read directory (by decide) found reduced noNul nonempty returned
  · rintro x child found ⟨node, childRead, inner⟩
    obtain ⟨nameOk, up⟩ := tree.child_directory read directory found childRead inner
    obtain ⟨p, found', reduced'⟩ := tree.reduce_dotdot childRead inner
    rw [up] at reduced'
    have reduced := tree.reduce_plain childRead (by rw [inner]; exact nofun)
    have behind : (0 : UInt8) ∉ dotdotName.chars ++ slash :: path :=
      List.not_mem_append dotdotName.noNul (List.not_mem_cons_of_ne_of_not_mem (by decide) noNul)
    apply path_behind read directory nameOk.slashFree found reduced behind (by simp)
    exact path_behind childRead inner (by decide) found' reduced' noNul nonempty returned

/-- The path `bin` in `bin`, which is not there whatever stands in front of it. -/
theorem dot_entries_neutral_bin : ∃ v dir, Built (fun _ => none) v ∧ v.nodes[3]? = some dir ∧
    ∃ result, v.pathToNode (binName.chars ++ [0]) (some 3) = some result ∧
      v.pathToNode (dotName.chars ++ slash :: binName.chars ++ [0]) (some 3) = some result ∧
      (v.root = some 3 → v.pathToNode (dotdotName.chars ++ slash :: binName.chars ++ [0]) (some 3) =
        some result) ∧
      ∀ x child, dir.children.get x = some child → v.IsDirectory child →
        v.pathToNode (x.chars ++ slash :: (dotdotName.chars ++ slash :: binName.chars) ++ [0]) (some 3) =
          some result := by
  obtain ⟨v, built, _, ⟨dir, read, directory⟩, _⟩ := exists_binTree
  exact ⟨v, dir, built, read, dot_entries_neutral built read directory (by decide) (by decide)⟩

end Vfs

end FishOS.Fs
