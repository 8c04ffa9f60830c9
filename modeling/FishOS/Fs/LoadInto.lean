import FishOS.Fs.Unpack

/-!
# What the loader builds

Whole runs of `load_into`: when names end and blocks hold null pointers, a run rebuilds the archive,
and a run that rebuilds it shows that they do.
-/

namespace FishOS.Fs

open Klib Initramfs

namespace Vfs

/-- The tree `v` after the entries that are done, from `v₀` with the empty directory `dir`. Nothing
else lies below that directory. -/
structure Loaded (v₀ v : Vfs) (dir : Nat) (done : List Entry) : Prop where
  tree : v.Tree
  top : v.IsDirectory dir
  heap : v.heap = v₀.heap
  ok : ∀ e ∈ done, e.Ok
  rebuilt : v₀.Rebuilt v dir done
  placed : ∀ p node, v.nodes[p]? = some node → node.type ≠ .none → v₀.nodes.length ≤ p →
    ∃ e, (p, e) ∈ places v₀.nodes.length done
  below : ∀ p node, v.nodes[p]? = some node → node.type ≠ .none → node.parent = some dir → v₀.nodes.length ≤ p

variable {v v' v₀ : Vfs} {dir q p a stop fuel parent : Nat} {m : Nat → Option UInt8} {block : Nat → UInt8}
  {fresh : Nat → Nat → UInt8} {e : Entry} {entries done : List Entry} {holder : Node} {k : CString}
  {children : HashMap Nat} {nodes : List Node}

theorem Loaded.start (tree : v.Tree) (empty : v.EmptyDirectory dir) : Loaded v v dir [] := by
  obtain ⟨dir_node, read, directory, only⟩ := empty
  refine ⟨tree, ⟨dir_node, read, directory⟩, rfl, nofun, ⟨rfl, nofun⟩, ?_, ?_⟩
  · intro p node found _ lower
    rw [List.getElem?_eq_none lower] at found
    cases found
  · intro p node found plain up
    have ok := (tree.plain p node found plain).parent
    rw [up] at ok
    obtain ⟨_, named, holder, holderRead, _, child⟩ := ok
    obtain rfl := Option.some.inj (read.symm.trans holderRead)
    rcases only _ _ child with dot | dotdot
    · exact absurd dot named.notDot
    · exact absurd dotdot named.notDotdot

theorem BuiltAs.grown (built : BuiltAs v dir p e) (c : Creation v parent holder k children nodes) :
    BuiltAs (v.grown parent children nodes) dir p e where
  node := by
    obtain ⟨node, read, type, data⟩ := built.node
    refine ⟨_, nodes_grown_old read, ?_⟩
    rw [type_ite, data_ite]
    exact ⟨type, data⟩
  path := c.walk_grown built.path

/-- The entry of the directory that an entry lies in has been loaded. -/
theorem Loaded.directory (loaded : Loaded v₀ v dir done) (ordered : Ordered (done ++ e :: entries)) :
    ∃ q holder, v.walk dir e.names.dropLast = some q ∧ v.nodes[q]? = some holder ∧
      holder.type = .directory := by
  by_cases nested : e.names.dropLast = []
  · obtain ⟨dir_node, read, directory⟩ := loaded.top
    exact ⟨dir, dir_node, by rw [nested]; rfl, read, directory⟩
  · obtain ⟨d, member, type, names⟩ := ordered.parents done e entries rfl nested
    obtain ⟨q, place⟩ := exists_place member (by rw [names]; exact nested) v₀.nodes.length
    obtain ⟨⟨holder, read, holderType, _⟩, path⟩ := loaded.rebuilt.built (q, d) place
    exact ⟨q, holder, by rw [← names]; exact path, read, holderType.trans type⟩

/-- The name of an entry is new, since its path does not occur before. -/
theorem Loaded.absent (loaded : Loaded v₀ v dir done) (ok : e.Ok) (ordered : Ordered (done ++ e :: entries))
    (named : e.names ≠ []) (walked : v.walk dir e.names.dropLast = some q) (read : v.nodes[q]? = some holder)
    (directory : holder.type = .directory) : holder.children.get (e.names.getLast named) = none := by
  cases found : holder.children.get (e.names.getLast named) with
  | none => rfl
  | some child =>
    obtain ⟨t, node, reduced, nodeRead, plain⟩ := loaded.tree.reduce_found read directory found
    have path : v.walk dir e.names = some t := by
      rw [← Entry.names_eq named, walk_snoc, walked, Option.bind_some, lookup_eq read directory, found, Option.bind_some,
        reduced]
    obtain ⟨p, first, firstRead, firstPlain, up, _, older⟩ := loaded.tree.walk_first named ok.names path
    have lower := loaded.below p first firstRead firstPlain up
    obtain ⟨e', place⟩ := loaded.placed t node nodeRead plain (Nat.le_trans lower older)
    have member := (mem_of_mem_places place).1
    have same := loaded.tree.walk_unique ok.names (loaded.ok e' member).names path (loaded.rebuilt.built (t, e') place).path
    have unique := ordered.unique
    rw [List.map_append, List.map_cons] at unique
    have apart := (List.nodup_append.mp unique).2.2 _ (List.mem_map_of_mem member) _ (.head _)
    exact absurd same.symm apart

theorem Loaded.create (loaded : Loaded v₀ v dir done) (ok : e.Ok) (named : e.names ≠ [])
    (walked : v.walk dir e.names.dropLast = some parent)
    (c : Creation v parent holder (e.names.getLast named) children nodes) (made : Made e nodes) :
    Loaded v₀ (v.grown parent children nodes) dir (done ++ [e]) := by
  have total := loaded.rebuilt.length
  have place : places v₀.nodes.length (done ++ [e]) = places v₀.nodes.length done ++ [(v.nodes.length, e)] := by
    rw [places_append, ← total, places, if_neg named]
    rfl
  refine ⟨c.grown_tree, loaded.top.grown, loaded.heap, ?_, ⟨?_, ?_⟩, ?_, ?_⟩
  · intro e' member
    rcases List.mem_append.mp member with before | last
    · exact loaded.ok e' before
    · rw [List.mem_singleton.mp last]
      exact ok
  · rw [List.map_append, List.sum_append, List.map_singleton, List.sum_singleton, ← Nat.add_assoc, ← total]
    exact made.length_grown named _ _
  · intro s member
    rw [place] at member
    rcases List.mem_append.mp member with before | last
    · exact (loaded.rebuilt.built s before).grown c
    · rw [List.mem_singleton.mp last]
      obtain ⟨node, first, type, data⟩ := made.first
      refine ⟨⟨node, (nodes_grown_new 0).trans first, type, data⟩, ?_⟩
      have path := c.walk_new walked
      rw [Entry.names_eq named] at path
      exact path
  · intro p node read plain lower
    rw [place]
    rcases nodes_grown_cases read with ⟨old, oldRead, rfl⟩ | ⟨i, rfl, new⟩
    · rw [type_ite] at plain
      obtain ⟨e', before⟩ := loaded.placed p old oldRead plain lower
      exact ⟨e', List.mem_append_left _ before⟩
    · obtain rfl := c.new.others i node new plain
      exact ⟨e, List.mem_append_right _ (.head _)⟩
  · intro p node read plain up
    rcases nodes_grown_cases read with ⟨old, oldRead, rfl⟩ | ⟨i, rfl, _⟩
    · rw [type_ite] at plain
      rw [parent_ite] at up
      exact loaded.below p old oldRead plain up
    · omega

theorem Loaded.skip (loaded : Loaded v₀ v dir done) (ok : e.Ok) (unnamed : e.names = []) :
    Loaded v₀ v dir (done ++ [e]) := by
  have place : places v₀.nodes.length (done ++ [e]) = places v₀.nodes.length done := by
    rw [places_append, places, if_pos unnamed, places, List.append_nil, List.append_nil]
  have taken : e.taken = 0 := if_pos unnamed
  refine ⟨loaded.tree, loaded.top, loaded.heap, ?_, ⟨?_, ?_⟩, ?_, loaded.below⟩
  · intro e' member
    rcases List.mem_append.mp member with before | last
    · exact loaded.ok e' before
    · rw [List.mem_singleton.mp last]
      exact ok
  · rw [List.map_append, List.sum_append, List.map_singleton, List.sum_singleton, taken, loaded.rebuilt.length]
    rfl
  · rw [place]
    exact loaded.rebuilt.built
  · rw [place]
    exact loaded.placed

theorem round_bounds {size : Nat} (room : a + headerSize + alignUp size ≤ stop) (small : stop < 2 ^ 64) :
    ¬a ≥ stop ∧ a + headerSize ≤ 2 ^ 64 ∧ a + headerSize + alignUp size < 2 ^ 64 := by
  have positive : 0 < headerSize := by decide
  omega

theorem Loaded.step (loaded : Loaded v₀ v dir done) (ok : e.Ok) (header : HeaderAt m a e)
    (room : a + headerSize + alignUp e.data.length ≤ stop) (small : stop < 2 ^ 64)
    (ordered : Ordered (done ++ e :: entries)) (slashed : e.names = [] → e.trailing = true)
    (ends : e.NameEnds) (null : e.names ≠ [] → v₀.heap v.nodes.length = none) (fresh : Nat → Nat → UInt8)
    (fuel : Nat) :
    ∃ v₁, resume dir m fresh stop (fuel + 1) a v =
        resume dir m fresh stop fuel (a + headerSize + alignUp e.data.length) v₁ ∧
          Loaded v₀ v₁ dir (done ++ [e]) := by
  obtain ⟨here, fits, inside⟩ := round_bounds room small
  by_cases named : e.names = []
  · obtain ⟨name, read, called⟩ := loadEntry_top loaded.tree loaded.top ok header fits named
    refine ⟨v, ?_, loaded.skip ok named⟩
    rw [resume, if_neg here, load_entry header inside read, called, if_pos (slashed named)]
    rfl
  · obtain ⟨name, k, more, result, read, _, last, outcome, called⟩ :=
      loadEntry_named loaded.tree loaded.top ok header fits named
    obtain ⟨q, holder, walked, holderRead, directory⟩ := loaded.directory ordered
    have absent := loaded.absent ok ordered named walked holderRead directory
    have component := (ok.names _ (List.getLast_mem named)).component
    have free : v.heap v.nodes.length = none := by rw [loaded.heap, null named]
    rw [last.mpr ends] at outcome
    have missing := outcome.eq_missing walked holderRead directory absent
    obtain ⟨children, nodes, call, c, made⟩ :=
      createNode_eq loaded.tree loaded.top holderRead directory component absent free ok header (fresh a)
    refine ⟨v.grown q children nodes, ?_, loaded.create ok named walked c made⟩
    rw [resume, if_neg here, load_entry header inside read, called, missing]
    dsimp only
    rw [if_neg (by simp), call]
    rfl

/-- By induction on the archive. -/
theorem Loaded.run (archive : Archive m stop a entries) (small : stop < 2 ^ 64) (loaded : Loaded v₀ v dir done)
    (ordered : Ordered (done ++ entries)) (slashed : ∀ e ∈ entries, e.names = [] → e.trailing = true)
    (ends : ∀ e ∈ entries, e.NameEnds) (null : ∀ s ∈ places v.nodes.length entries, v₀.heap s.1 = none)
    (fresh : Nat → Nat → UInt8) :
    ∃ v', resume dir m fresh stop (entries.length + 1) a v = .ok v' ∧ Loaded v₀ v' dir (done ++ entries) := by
  induction archive generalizing v done with
  | done =>
    refine ⟨v, resume_end .done, ?_⟩
    rw [List.append_nil]
    exact loaded
  | zeros room zero =>
    refine ⟨v, resume_end (.zeros room zero), ?_⟩
    rw [List.append_nil]
    exact loaded
  | @entry a e entries ok header rest ih =>
    have first : e.names ≠ [] → v₀.heap v.nodes.length = none := by
      intro named
      apply null (v.nodes.length, e)
      rw [places, if_neg named]
      exact .head _
    obtain ⟨v₁, stepped, loaded₁⟩ := loaded.step ok header rest.le_stop small ordered (slashed e (.head _)) (ends e (.head _))
      first fresh (entries.length + 1)
    have total := loaded.rebuilt.length
    have total₁ := loaded₁.rebuilt.length
    rw [List.map_append, List.sum_append, List.map_singleton, List.sum_singleton, ← Nat.add_assoc, ← total] at total₁
    have same : done ++ e :: entries = (done ++ [e]) ++ entries := by simp
    rw [same] at ordered ⊢
    obtain ⟨v', returned, loaded'⟩ := ih loaded₁ ordered (fun e member => slashed e (.tail _ member))
      (fun e member => ends e (.tail _ member)) (by
        intro s member
        rw [total₁] at member
        exact null s (List.mem_append_right _ member))
    exact ⟨v', stepped.trans returned, loaded'⟩

/-- What a run leaves whose nodes have null redirects: every entry has a node, under the path that the
loader has taken for it. -/
structure Traced (v v' : Vfs) (dir : Nat) (entries : List Entry) : Prop where
  tree : v'.Tree
  walks : ∀ names t, v.walk dir names = some t → v'.walk dir names = some t
  slashed : ∀ e ∈ entries, e.names = [] → e.trailing = true
  named : ∀ s ∈ places v.nodes.length entries, ∃ names, (∀ name ∈ names, NameOk name) ∧
    v'.walk dir names = some s.1 ∧
    (names = s.2.names → s.2.NameEnds)

theorem Traced.nil (tree : v.Tree) : Traced v v dir [] := ⟨tree, fun _ _ walked => walked, nofun, nofun⟩

theorem resume_nil (archive : Archive m stop a []) (returned : resume dir m fresh stop fuel a v = .ok v') :
    v' = v := by
  cases fuel with
  | zero =>
    unfold resume at returned
    split at returned
    · exact (Except.ok.inj returned).symm
    · cases returned
  | succ fuel =>
    rw [resume_end archive] at returned
    exact (Except.ok.inj returned).symm

theorem Traced.skip (unnamed : e.names = []) (slashed : e.trailing = true) (rest : Traced v v' dir entries) :
    Traced v v' dir (e :: entries) := by
  have taken : e.taken = 0 := if_pos unnamed
  refine ⟨rest.tree, rest.walks, ?_, ?_⟩
  · intro e' member _
    rcases List.mem_cons.mp member with rfl | later
    · exact slashed
    · exact rest.slashed e' later ‹_›
  · intro s member
    rw [places, if_pos unnamed, taken, List.nil_append] at member
    exact rest.named s member

theorem Traced.create {names : List CString} (named : e.names ≠ [])
    (c : Creation v parent holder k children nodes) (made : Made e nodes)
    (walked : v.walk dir names = some parent) (ok : ∀ name ∈ names, NameOk name)
    (ends : names ++ [k] = e.names → e.NameEnds)
    (rest : Traced (v.grown parent children nodes) v' dir entries) :
    Traced v v' dir (e :: entries) := by
  have total := made.length_grown (v := v) named parent children
  refine ⟨rest.tree, fun names t walked => rest.walks names t (c.walk_grown walked), ?_, ?_⟩
  · intro e' member unnamed
    rcases List.mem_cons.mp member with rfl | later
    · exact absurd unnamed named
    · exact rest.slashed e' later unnamed
  · intro s member
    rw [places, if_neg named, ← total] at member
    rcases List.mem_append.mp member with first | later
    · rw [List.mem_singleton.mp first]
      refine ⟨names ++ [k], ?_, rest.walks _ _ (c.walk_new walked), ends⟩
      intro name member
      rcases List.mem_append.mp member with before | last
      · exact ok name before
      · rw [List.mem_singleton.mp last]
        exact c.nameOk
    · exact rest.named s later

/-- By induction on the archive, with the ways in which the lookup of an entry ends. -/
theorem Traced.run (archive : Archive m stop a entries) (small : stop < 2 ^ 64) (tree : v.Tree)
    (top : v.IsDirectory dir) (null : ∀ s ∈ places v.nodes.length entries, v.heap s.1 = none)
    (returned : resume dir m fresh stop fuel a v = .ok v') : Traced v v' dir entries := by
  induction archive generalizing fuel v with
  | done =>
    obtain rfl := resume_nil .done returned
    exact .nil tree
  | zeros room zero =>
    obtain rfl := resume_nil (.zeros room zero) returned
    exact .nil tree
  | @entry a e entries ok header rest ih =>
    obtain ⟨here, fits, inside⟩ := round_bounds rest.le_stop small
    rw [resume, if_neg here] at returned
    cases fuel with
    | zero => cases returned
    | succ fuel =>
      by_cases named : e.names = []
      · obtain ⟨name, read, called⟩ := loadEntry_top tree top ok header fits named
        have taken : e.taken = 0 := if_pos named
        rw [load_entry header inside read, called] at returned
        rw [places, if_pos named, taken] at null
        by_cases slashed : e.trailing = true
        · rw [if_pos slashed] at returned
          exact .skip named slashed (ih tree top null returned)
        · rw [if_neg slashed] at returned
          cases returned
      · obtain ⟨tail, read, _⟩ := header.name_read ok fits
        have free : v.heap v.nodes.length = none := by
          apply null (v.nodes.length, e)
          rw [places, if_neg named]
          exact .head _
        rw [load_entry header inside read] at returned
        cases loaded : loadEntry v dir m (fresh a) a e.data.length (e.name ++ tail) with
        | error fault =>
          rw [loaded] at returned
          cases returned
        | ok v₁ =>
          obtain ⟨q, holder, before, k, children, nodes, rfl, c, made, walked, names, ends⟩ :=
            loadEntry_created tree top ok header fits named free read loaded
          rw [loaded] at returned
          have total := made.length_grown (v := v) named q children
          have later := ih c.grown_tree top.grown (by
            intro s member
            rw [total] at member
            exact null s (List.mem_append_right _ member)) returned
          exact .create named c made walked names ends later

theorem loadInto_nil {file_addr : Nat} : loadInto v dir file_addr [] fresh fuel ≠ .ok v' := by
  intro returned
  cases fuel with
  | zero => cases returned
  | succ fuel =>
    obtain ⟨found, read, _⟩ := deref_bind_ok returned
    obtain ⟨c, byte, _⟩ := Option.bind_eq_some_iff.mp read
    unfold moduleBytes at byte
    split at byte
    · cases byte
    · cases byte

/-- A module that is not empty is loaded like the rest of an archive. -/
theorem loadInto_eq {file_addr : Nat} {archive : List UInt8} (small : file_addr + archive.length < 2 ^ 64)
    (nonempty : archive ≠ []) : loadInto v dir file_addr archive fresh fuel =
      resume dir (moduleBytes file_addr archive) fresh (file_addr + archive.length) fuel file_addr v := by
  have long := List.length_pos_of_ne_nil nonempty
  unfold loadInto resume
  rw [if_neg (by omega), Nat.mod_eq_of_lt small]

variable {file_addr : Nat} {archive : List UInt8}

/-- What a run that rebuilds an archive shows of it. -/
theorem rebuilt_traced (tree : v.Tree) (top : v.IsDirectory dir) (small : file_addr + archive.length < 2 ^ 64)
    (wellFormed : Archive (moduleBytes file_addr archive) (file_addr + archive.length) file_addr entries)
    (returned : loadInto v dir file_addr archive fresh fuel = .ok v') (rebuilt : v.Rebuilt v' dir entries) :
    archive ≠ [] ∧ (∀ s ∈ places v.nodes.length entries, v.heap s.1 = none) ∧ Traced v v' dir entries := by
  have nonempty : archive ≠ [] := by
    rintro rfl
    exact loadInto_nil returned
  have null : ∀ s ∈ places v.nodes.length entries, v.heap s.1 = none :=
    fun s member => heap_null wellFormed.ok returned rebuilt member
  rw [loadInto_eq small nonempty] at returned
  exact ⟨nonempty, null, .run wellFormed small tree top null returned⟩

theorem Traced.nameEnds (traced : Traced v v' dir entries) (ok : ∀ e ∈ entries, e.Ok)
    (rebuilt : v.Rebuilt v' dir entries) :
    ∀ e ∈ entries, e.NameEnds := by
  intro e member
  by_cases named : e.names = []
  · have short := Entry.length_unnamed (ok e member) named
    intro long
    omega
  · obtain ⟨p, place⟩ := exists_place member named v.nodes.length
    obtain ⟨names, namesOk, walked, ends⟩ := traced.named (p, e) place
    have path := (rebuilt.built (p, e) place).path
    exact ends (traced.tree.walk_unique namesOk (ok e member).names walked path)

/-- The loader rebuilds a well-formed archive below an empty directory if and only if the module is not
empty, the entry for the top has a slash, every name ends in its field or behind a slash, and the blocks
of the new nodes hold null pointers where `redirect` lies. -/
theorem load_rebuilds_iff (tree : v.Tree) (empty : v.EmptyDirectory dir)
    (small : file_addr + archive.length < 2 ^ 64)
    (wellFormed : Archive (moduleBytes file_addr archive) (file_addr + archive.length) file_addr entries)
    (ordered : Ordered entries) (fresh : Nat → Nat → UInt8) :
    (∃ fuel v', loadInto v dir file_addr archive fresh fuel = .ok v' ∧ v.Rebuilt v' dir entries) ↔
      archive ≠ [] ∧ (∀ e ∈ entries, e.names = [] → e.trailing = true) ∧ (∀ e ∈ entries, e.NameEnds) ∧
        ∀ s ∈ places v.nodes.length entries, v.heap s.1 = none := by
  have start := Loaded.start tree empty
  constructor
  · rintro ⟨fuel, v', returned, rebuilt⟩
    obtain ⟨nonempty, null, traced⟩ := rebuilt_traced tree start.top small wellFormed returned rebuilt
    exact ⟨nonempty, traced.slashed, traced.nameEnds wellFormed.ok rebuilt, null⟩
  · rintro ⟨nonempty, slashed, ends, null⟩
    obtain ⟨v', returned, loaded⟩ := start.run wellFormed small ordered slashed ends null fresh
    exact ⟨entries.length + 1, v', (loadInto_eq small nonempty).trans returned, loaded.rebuilt⟩

/-- A file of two bytes whose name has `n` letters. -/
def sampleEntry (n : Nat) : Entry where
  dotSlash := false
  names := [⟨List.replicate n 0x61, fun member => absurd (List.eq_of_mem_replicate member) (by decide)⟩]
  trailing := false
  type := .file
  mode := 0x30
  data := [0x68, 0x69]

/-- The fields `mode`, `uid` and `gid`. -/
def sampleNumbers : List UInt8 :=
  [0x30, 0x30, 0x30, 0x30, 0x36, 0x34, 0x34, 0] ++ List.replicate 7 0x30 ++ [0] ++ List.replicate 7 0x30 ++ [0]

def sampleSize : List UInt8 := List.replicate 10 0x30 ++ [0x32, 0]

/-- The archive of that file, as `tar` writes it, up to the end of its data. -/
def sampleArchive (n : Nat) (chksum : List UInt8) : List UInt8 :=
  List.replicate n 0x61 ++ (List.replicate (100 - n) 0 ++ (sampleNumbers ++ (sampleSize ++ (List.replicate 11 0x30 ++ [0] ++
    chksum ++ ([0x30] ++ (List.replicate 100 0 ++ (magic ++ ([0x30, 0x30] ++ List.replicate 80 0 ++ (List.replicate 167 0 ++
    ([0x68, 0x69] ++ List.replicate 510 0))))))))))

variable {n : Nat}

theorem sampleName_ne {c : UInt8} (other : c ≠ 0x61) : c ∉ List.replicate n (0x61 : UInt8) :=
  fun member => other (List.eq_of_mem_replicate member)

theorem sampleEntry_name (n : Nat) : (sampleEntry n).name = List.replicate n 0x61 := by
  rw [Entry.name_eq (List.cons_ne_nil _ _)]
  exact joinPath_bare _

theorem sampleEntry_ok (positive : 0 < n) (short : n ≤ 100) : (sampleEntry n).Ok where
  named := List.cons_ne_nil _ _
  length := by rw [sampleEntry_name, List.length_replicate]; exact short
  names := by
    intro name member
    obtain rfl := List.mem_singleton.mp member
    have dots : ∀ {dots : CString}, 0x2E ∈ dots.chars → List.replicate n 0x61 ≠ dots.chars := by
      intro dots member same
      rw [← same] at member
      exact sampleName_ne (by decide) member
    refine ⟨?_, sampleName_ne (by decide), fun same => dots ?_ (congrArg CString.chars same),
      fun same => dots ?_ (congrArg CString.chars same)⟩
    · exact List.ne_nil_of_length_pos (by rw [List.length_replicate]; exact positive)
    · exact .head _
    · exact .head _
  type := .inl rfl
  file := fun _ => ⟨List.cons_ne_nil _ _, rfl⟩
  directory := nofun

theorem sample_length {chksum : List UInt8} (short : n ≤ 100) (eight : chksum.length = 8) :
    (sampleArchive n chksum).length = 1024 := by
  unfold sampleArchive
  simp only [List.length_append, List.length_replicate, eight]
  have rest : sampleNumbers.length = 24 ∧ sampleSize.length = 12 ∧ magic.length = 6 := ⟨rfl, rfl, rfl⟩
  simp only [rest, List.length_cons, List.length_nil]
  omega

/-- Field after field. -/
theorem sample_header {chksum : List UInt8} (short : n ≤ 100) (eight : chksum.length = 8)
    (bytes : BytesAt m a (sampleArchive n chksum)) : HeaderAt m a (sampleEntry n) := by
  obtain ⟨name, bytes⟩ := bytesAt_append bytes
  obtain ⟨padding, bytes⟩ := bytesAt_append bytes
  rw [List.length_replicate] at padding bytes
  rw [List.length_replicate, Nat.add_assoc, Nat.add_sub_cancel' short] at bytes
  obtain ⟨numbers, bytes⟩ := bytesAt_append bytes
  obtain ⟨size, bytes⟩ := bytesAt_append bytes
  obtain ⟨_, bytes⟩ := bytesAt_append bytes
  rw [List.length_append, eight] at bytes
  obtain ⟨typeflag, bytes⟩ := bytesAt_append bytes
  obtain ⟨_, bytes⟩ := bytesAt_append bytes
  obtain ⟨magic, bytes⟩ := bytesAt_append bytes
  obtain ⟨_, bytes⟩ := bytesAt_append bytes
  obtain ⟨blank, bytes⟩ := bytesAt_append bytes
  obtain ⟨data, _⟩ := bytesAt_append bytes
  refine ⟨?_, ?_, ?_, ⟨List.replicate 10 0 ++ [2], by decide, ?_, ?_, rfl⟩, ⟨0x30, ?_, ?_⟩, magic, ?_, data⟩
  · intro i small
    rw [sampleEntry_name, List.getD_eq_getElem?_getD, List.getElem?_replicate]
    split
    · rename_i inside
      exact name i _ (by rw [List.getElem?_replicate, if_pos inside]; rfl)
    · rename_i outside
      have here := padding (i - n) 0 (by rw [List.getElem?_replicate, if_pos (by omega)])
      have place : a + n + (i - n) = a + i := by omega
      rwa [place] at here
  · exact numbers 0 0x30 rfl
  · intro i lower upper
    unfold modeField at lower
    unfold sizeField at upper
    have all : sampleNumbers.all (fun c => NumberByte c) = true := by decide
    have inside : i - 100 < sampleNumbers.length := by
      have length : sampleNumbers.length = 24 := rfl
      omega
    have here := numbers (i - 100) _ (List.getElem?_eq_getElem inside)
    have place : a + 100 + (i - 100) = a + i := by omega
    rw [place] at here
    exact ⟨_, here, of_decide_eq_true (List.all_eq_true.mp all _ (List.getElem_mem inside))⟩
  · intro i d here
    have digits : ∀ i, i < 11 → ∃ d, (List.replicate 10 0 ++ [2])[i]? = some d ∧ d < 8 ∧
        sampleSize[i]? = some (UInt8.ofNat (0x30 + d)) := by
      intro i inside
      interval_cases i <;> exact ⟨_, rfl, by decide, rfl⟩
    obtain ⟨inside, _⟩ := List.getElem?_eq_some_iff.mp here
    obtain ⟨d', digit, small, byte⟩ := digits i inside
    obtain rfl := Option.some.inj (here.symm.trans digit)
    exact ⟨small, size i _ byte⟩
  · exact size 11 0 rfl
  · exact typeflag 0 0x30 rfl
  · exact .inl rfl
  · intro i small
    exact blank i 0 (by rw [List.getElem?_replicate, if_pos (by omega)])

theorem sample_archive {chksum : List UInt8} (positive : 0 < n) (short : n ≤ 100) (eight : chksum.length = 8) :
    Archive (moduleBytes 4096 (sampleArchive n chksum)) (4096 + (sampleArchive n chksum).length) 4096 [sampleEntry n] := by
  have round : alignUp 2 = 512 := by decide
  have stop : 4096 + (sampleArchive n chksum).length = 4096 + headerSize + alignUp (sampleEntry n).data.length := by
    rw [sample_length short eight]
    exact (congrArg (4096 + headerSize + ·) round).symm
  refine .entry (sampleEntry_ok positive short) (sample_header short eight (bytesAt_module 4096 _)) ?_
  rw [stop]
  exact .done

theorem ordered_sample (n : Nat) : Ordered [sampleEntry n] where
  unique := List.nodup_singleton _
  parents := by
    intro before e after split nested
    rcases List.append_eq_singleton_iff.mp split.symm with ⟨_, rest⟩ | ⟨_, rest⟩
    · obtain ⟨rfl, _⟩ := List.cons.inj rest
      exact absurd rfl nested
    · cases rest

theorem exists_emptyRoot : ∃ v : Vfs, v.Tree ∧ v.EmptyDirectory 0 ∧ ∀ p, v.heap p = none := by
  obtain ⟨dots, dotted, made⟩ := init_spec fun _ => none
  obtain ⟨dots', dotted', _, get⟩ := dotChildren_spec 0
  obtain rfl := Option.some.inj (dotted.symm.trans dotted')
  refine ⟨_, init_tree rfl made, ⟨_, rfl, rfl, ?_⟩, fun _ => rfl⟩
  intro k p found
  have found : dots.get k = some p := found
  rw [get] at found
  split at found
  · rename_i dotdot
    exact .inr dotdot
  · split at found
    · rename_i dot
      exact .inl dot
    · cases found

/-- A name of 100 letters: the file is created under that name and the digits of the mode. -/
theorem load_misnames : ∃ (v : Vfs) (archive : List UInt8) (entries : List Entry), v.Tree ∧ v.EmptyDirectory 0 ∧
    (∀ p, v.heap p = none) ∧ 4096 + archive.length < 2 ^ 64 ∧
    Archive (moduleBytes 4096 archive) (4096 + archive.length) 4096 entries ∧ Ordered entries ∧
    ∀ fresh, ¬∃ fuel v', loadInto v 0 4096 archive fresh fuel = .ok v' ∧ v.Rebuilt v' 0 entries := by
  obtain ⟨v, tree, empty, null⟩ := exists_emptyRoot
  have eight : [0x30, 0x33, 0x30, 0x37, 0x30, 0x33, 0, (0x20 : UInt8)].length = 8 := rfl
  have wellFormed := sample_archive (n := 100) (by decide) (by decide) eight
  have small : 4096 + (sampleArchive 100 [0x30, 0x33, 0x30, 0x37, 0x30, 0x33, 0, 0x20]).length < 2 ^ 64 := by
    rw [sample_length (by decide) eight]
    decide
  refine ⟨v, _, _, tree, empty, null, small, wellFormed, ordered_sample 100, ?_⟩
  rintro fresh ⟨fuel, v', returned, rebuilt⟩
  obtain ⟨_, _, traced⟩ := rebuilt_traced tree (Loaded.start tree empty).top small wellFormed returned rebuilt
  have ends := traced.nameEnds wellFormed.ok rebuilt _ (.head _)
  rcases ends (by rw [sampleEntry_name, List.length_replicate]) with slashed | zero
  · cases slashed
  · exact absurd zero (by decide)

/-- A name of one letter. -/
theorem load_rebuilds_iff_letter : ∃ (v : Vfs) (archive : List UInt8), v.Tree ∧ v.EmptyDirectory 0 ∧
    Archive (moduleBytes 4096 archive) (4096 + archive.length) 4096 [sampleEntry 1] ∧
    ∃ fuel v', loadInto v 0 4096 archive (fun _ _ => 0) fuel = .ok v' ∧ v.Rebuilt v' 0 [sampleEntry 1] := by
  obtain ⟨v, tree, empty, null⟩ := exists_emptyRoot
  have eight : [0x30, 0x30, 0x36, 0x31, 0x30, 0x30, 0, (0x20 : UInt8)].length = 8 := rfl
  have wellFormed := sample_archive (n := 1) (by decide) (by decide) eight
  have small : 4096 + (sampleArchive 1 [0x30, 0x30, 0x36, 0x31, 0x30, 0x30, 0, 0x20]).length < 2 ^ 64 := by
    rw [sample_length (by decide) eight]
    decide
  refine ⟨v, _, tree, empty, wellFormed, (load_rebuilds_iff tree empty small wellFormed (ordered_sample 1) _).mpr ?_⟩
  refine ⟨List.cons_ne_nil _ _, ?_, ?_, fun _ _ => null _⟩
  · intro e member unnamed
    obtain rfl := List.mem_singleton.mp member
    cases unnamed
  · intro e member long
    obtain rfl := List.mem_singleton.mp member
    rw [sampleEntry_name] at long
    cases long

end Vfs

end FishOS.Fs
