import Krust.Initrd.Cpio

/-!
# The tree of the initial RAM disk

The entries of the archive are put into a tree one by one, directories on the way are created when
they are first needed, and in the end the tree is turned into inodes.

`BuilderNode.insert` walks down with a mutable reference; here `getOrCreateDir` gives the child
together with what becomes of its parent when the child changes.  `insertSegments_spec` is all that
is used about an insertion: it succeeds if and only if there is `Room`, and then it has put the
entry under its path and directories on the way there (`Inserted`).
-/

set_option autoImplicit false

namespace Krust.Initrd

open Lib List Function Option

/-! ## Paths -/

/-- `str::trim_matches`, of one character. -/
def trimMatches (c : Char) (s : Str) : Str :=
  (s.dropWhile fun a => a == c).rdropWhile fun a => a == c

def normalizePath (path : Str) : Str :=
  let trimmed := trimMatches '/' path
  if trimmed = ['.'] then []
  else ['/'].intercalate
    ((trimmed.splitOn '/').filter fun segment => !segment.isEmpty && segment != ['.'])

/-! ## Inodes -/

mutual

inductive InitrdInode
  | mk (fileType : FileType) (inner : InitrdInodeData)

inductive InitrdInodeData
  | file (data : List UInt8)
  | directory (children : List (Str × InitrdInode))

end

namespace InitrdInode

def fileType : InitrdInode → FileType
  | mk fileType _ => fileType

def inner : InitrdInode → InitrdInodeData
  | mk _ inner => inner

/-- `InitrdInode::read`, into a buffer of this length: the bytes that were copied. -/
def read (inode : InitrdInode) (offset len : Nat) : Except FsError (List UInt8) :=
  match inode.inner with
  | .file data =>
    if offset ≥ data.length then .ok []
    else .ok (slice data offset (min len (data.length - offset)))
  | .directory _ => .error .isADirectory

def lookup (inode : InitrdInode) (name : Str) : Except FsError InitrdInode :=
  match inode.inner with
  | .directory children => okOr (children.lookup name) .notFound
  | .file _ => .error .notADirectory

def size (inode : InitrdInode) : Nat :=
  match inode.inner with
  | .file data => data.length
  | .directory children => children.length

/-- One lookup after the other. -/
def lookupPath (inode : InitrdInode) (segments : List Str) : Except FsError InitrdInode :=
  segments.foldlM lookup inode

end InitrdInode

/-! ## Building the tree -/

mutual

inductive BuilderNode
  | mk (fileType : FileType) (inner : BuilderNodeData)

inductive BuilderNodeData
  | file (contents : List UInt8)
  | directory (children : List (Str × BuilderNode))

end

/-- `children[index].1 = child`, where `index` is the first position with this name. -/
def setChild (name : Str) (child : BuilderNode) :
    List (Str × BuilderNode) → List (Str × BuilderNode)
  | [] => []
  | (other, node) :: children =>
    if name == other then (other, child) :: children
    else (other, node) :: setChild name child children

namespace BuilderNode

def fileType : BuilderNode → FileType
  | mk fileType _ => fileType

def inner : BuilderNode → BuilderNodeData
  | mk _ inner => inner

def directory : BuilderNode := mk .directory (.directory [])

def file (fileType : FileType) (contents : List UInt8) : BuilderNode := mk fileType (.file contents)

/-- `BuilderNode::get_or_create_dir`: the child, and what the node is once the child has become
another one. -/
def getOrCreateDir (node : BuilderNode) (name : Str) :
    Except FsError (BuilderNode × (BuilderNode → BuilderNode)) :=
  match node.inner with
  | .directory children =>
    match children.lookup name with
    | some child =>
      if child.fileType ≠ .directory then .error .notADirectory
      else .ok (child, fun child => mk node.fileType (.directory (setChild name child children)))
    | none =>
      .ok (directory, fun child => mk node.fileType (.directory (children ++ [(name, child)])))
  | .file _ => .error .notADirectory

def insertChild (node : BuilderNode) (name : Str) (fileType : FileType) (contents : List UInt8) :
    Except FsError BuilderNode :=
  match node.inner with
  | .directory children =>
    match children.lookup name with
    | some child =>
      if child.fileType = .directory ∧ fileType = .directory then .ok node
      else .error .alreadyExists
    | none =>
      let child := if fileType = .directory then directory else file fileType contents
      .ok (mk node.fileType (.directory (children ++ [(name, child)])))
  | .file _ => .error .notADirectory

/-- The loop of `BuilderNode::insert`. -/
def insertSegments (node : BuilderNode) (fileType : FileType) (contents : List UInt8) :
    List Str → Except FsError BuilderNode
  | [] => .ok node
  | [segment] => node.insertChild segment fileType contents
  | segment :: segments => do
    let (child, update) ← node.getOrCreateDir segment
    let child ← child.insertSegments fileType contents segments
    .ok (update child)

def insert (node : BuilderNode) (path : Str) (fileType : FileType) (contents : List UInt8) :
    Except FsError BuilderNode :=
  node.insertSegments fileType contents (path.splitOn '/')

end BuilderNode

mutual

def BuilderNode.intoInode : BuilderNode → InitrdInode
  | .mk fileType (.file contents) => .mk fileType (.file contents)
  | .mk fileType (.directory children) => .mk fileType (.directory (intoInodes children))

/-- `BuilderNode::into_inode`, of the children. -/
def intoInodes : List (Str × BuilderNode) → List (Str × InitrdInode)
  | [] => []
  | (name, child) :: children => (name, child.intoInode) :: intoInodes children

end

/-! ## What is found -/

/-- What is kept of an entry: a directory has no contents. -/
def entryKind (fileType : FileType) (contents : List UInt8) : FileType × List UInt8 :=
  (fileType, if fileType = .directory then [] else contents)

namespace BuilderNode

def child? (node : BuilderNode) (name : Str) : Option BuilderNode :=
  match node.inner with
  | .directory children => children.lookup name
  | .file _ => none

def find (node : BuilderNode) (segments : List Str) : Option BuilderNode :=
  segments.foldlM child? node

theorem find_cons (node : BuilderNode) (segment : Str) (segments : List Str) :
    node.find (segment :: segments) = (node.child? segment).bind fun child => child.find segments :=
  rfl

/-- The type of a node, and the contents of a file. -/
def kind : BuilderNode → FileType × List UInt8
  | mk fileType (.file contents) => (fileType, contents)
  | mk fileType (.directory _) => (fileType, [])

theorem fileType_of_kind {node : BuilderNode} {fileType : FileType} {contents : List UInt8}
    (h : node.kind = (fileType, contents)) : node.fileType = fileType := by
  obtain ⟨_, _ | _⟩ := node <;> exact (Prod.mk.inj h).1

/-- What is found under a path. -/
def entryAt (node : BuilderNode) (p : List Str) : Option (FileType × List UInt8) :=
  (node.find p).map kind

abbrev dir (children : List (Str × BuilderNode)) : BuilderNode :=
  mk .directory (.directory children)

/-- Names are unique in each directory, and only directories have children. -/
inductive WellFormed : BuilderNode → Prop
  | ofFile {fileType : FileType} (h : fileType ≠ .directory) (contents : List UInt8) :
      WellFormed (.file fileType contents)
  | ofDir {children : List (Str × BuilderNode)} (names : (children.map Prod.fst).Nodup)
      (h : ∀ c ∈ children, WellFormed c.2) : WellFormed (.dir children)

theorem wellFormed_directory : directory.WellFormed := .ofDir nodup_nil nofun

theorem WellFormed.eq_dir {node : BuilderNode} (h : node.WellFormed)
    (hdir : node.fileType = .directory) :
    ∃ children, node = .dir children ∧ (children.map Prod.fst).Nodup ∧
      ∀ c ∈ children, c.2.WellFormed := by
  cases h with
  | ofFile h => exact absurd hdir h
  | ofDir names h => exact ⟨_, rfl, names, h⟩

theorem mem_of_lookup {children : List (Str × BuilderNode)} {name : Str} {child : BuilderNode}
    (h : children.lookup name = some child) : (name, child) ∈ children := by
  obtain ⟨before, rest, rfl, -⟩ := lookup_eq_some_iff.1 h
  simp

theorem WellFormed.find {node found : BuilderNode} (h : node.WellFormed) {p : List Str}
    (hfind : node.find p = some found) : found.WellFormed := by
  induction p generalizing node with
  | nil =>
    obtain rfl := some.inj hfind
    exact h
  | cons s p ih =>
    obtain ⟨child, hchild, hrest⟩ := bind_eq_some_iff.1 hfind
    cases h with
    | ofFile => cases hchild
    | ofDir names h => exact ih (h _ (mem_of_lookup hchild)) hrest

theorem entryAt_cons (children : List (Str × BuilderNode)) (s : Str) (p : List Str) :
    (dir children).entryAt (s :: p) = (children.lookup s).bind fun child => child.entryAt p := by
  rw [entryAt, find_cons, Option.map_bind]
  rfl

theorem entryAt_directory {p : List Str} (h : p ≠ []) : directory.entryAt p = none := by
  cases p with
  | nil => exact absurd rfl h
  | cons s p => rfl

end BuilderNode

variable {children : List (Str × BuilderNode)} {node : BuilderNode}

theorem setChild_eq {name : Str} {old : BuilderNode} (h : children.lookup name = some old)
    (child : BuilderNode) : ∃ before after, before.lookup name = none ∧
      children = before ++ (name, old) :: after ∧
      setChild name child children = before ++ (name, child) :: after := by
  obtain ⟨before, after, rfl, hbefore⟩ := lookup_eq_some_iff.1 h
  refine ⟨before, after, lookup_eq_none_iff.2 (by simpa using hbefore), rfl, ?_⟩
  clear h
  induction before with
  | nil => exact if_pos (beq_self_eq_true name)
  | cons c before ih =>
    rw [forall_mem_cons] at hbefore
    rw [cons_append, setChild, if_neg (by simpa using hbefore.1), ih hbefore.2]
    rfl

namespace BuilderNode

/-- **An entry has been put under this path**, and directories on the way to it. -/
structure Inserted (segments : List Str) (x : FileType × List UInt8) (node node' : BuilderNode) :
    Prop where
  wellFormed : node'.WellFormed
  entryAt : ∀ p, node'.entryAt p =
    if p = segments then some x
    else if p <+: segments then some (.directory, []) else node.entryAt p

/-- There is room for an entry under this path: nothing but directories stands on the way to it, and
only a directory may be there already, if the entry is one. -/
def Room (segments : List Str) (fileType : FileType) (node : BuilderNode) : Prop :=
  ∀ p x, p <+: segments → node.entryAt p = some x →
    x = (.directory, []) ∧ (p = segments → fileType = .directory)

section Insert

variable {children before after : List (Str × BuilderNode)} {s : Str} {t : List Str}
  {child child' : BuilderNode} {fileType : FileType} {contents : List UInt8}

/-- One level up: the child has been replaced, or put behind the others for a new directory. -/
theorem inserted_cons {x : FileType × List UInt8} (names : (children.map Prod.fst).Nodup)
    (hchildren : ∀ c ∈ children, c.2.WellFormed) (hnone : before.lookup s = none)
    (hchild : children = before ++ (s, child) :: after ∨
      children = before ∧ after = [] ∧ child = directory) (h : Inserted t x child child') :
    Inserted (s :: t) x (dir children) (dir (before ++ (s, child') :: after)) := by
  constructor
  · rcases hchild with rfl | ⟨rfl, rfl, -⟩
    · refine .ofDir (by simpa using names) fun c hc => ?_
      simp only [mem_append, mem_cons] at hc hchildren
      rcases hc with hc | rfl | hc
      · exact hchildren c (.inl hc)
      · exact h.wellFormed
      · exact hchildren c (.inr (.inr hc))
    · refine .ofDir ?_ (forall_mem_append.2 ⟨hchildren, by simpa using h.wellFormed⟩)
      rw [map_append, map_singleton, ← concat_eq_append]
      refine List.Nodup.concat (fun hs => ?_) names
      obtain ⟨c, hc, rfl⟩ := List.mem_map.1 hs
      exact absurd (lookup_eq_none_iff.1 hnone c hc) (by simp)
  · rintro (_ | ⟨o, p⟩)
    · rfl
    rw [entryAt_cons, entryAt_cons, lookup_append, lookup_cons]
    by_cases ho : o = s
    · subst ho
      simp only [hnone, beq_self_eq_true, none_or, bind_some, h.entryAt,
        List.cons.injEq, true_and, prefix_cons_inj]
      by_cases hp : p <+: t
      · simp only [hp, if_true]
      have hne : p ≠ [] := by
        rintro rfl
        exact hp nil_prefix
      rcases hchild with rfl | ⟨rfl, -, rfl⟩
      · simp [hp, hnone, lookup_append]
      · simp [hp, hnone, entryAt_directory hne]
    · rcases hchild with rfl | ⟨rfl, rfl, -⟩
      · simp [ho, cons_prefix_cons, lookup_append, lookup_cons,
          beq_eq_false_iff_ne.2 ho]
      · simp [ho, cons_prefix_cons, beq_eq_false_iff_ne.2 ho]

theorem inserted_nil (hwf : child'.WellFormed)
    (hchild : ∀ p ≠ [], child'.entryAt p = child.entryAt p) :
    Inserted [] child'.kind child child' := by
  refine ⟨hwf, fun p => ?_⟩
  by_cases hp : p = []
  · subst hp
    rfl
  · rw [if_neg hp, if_neg (mt prefix_nil.1 hp), hchild p hp]

theorem room_of_none (hnone : children.lookup s = none) :
    Room (s :: t) fileType (dir children) := by
  rintro (_ | ⟨o, p⟩) x hp hx
  · exact ⟨(some.inj hx).symm, nofun⟩
  · obtain rfl := (cons_prefix_cons.1 hp).1
    rw [entryAt_cons, hnone] at hx
    cases hx

theorem room_directory (hne : t ≠ []) : Room t fileType directory := by
  obtain ⟨s, t, rfl⟩ := exists_cons_of_ne_nil hne
  exact room_of_none rfl

theorem room_cons (hchild : children.lookup s = some child) :
    Room (s :: t) fileType (dir children) ↔ Room t fileType child := by
  constructor
  · intro h p x hp hx
    obtain ⟨hdir, hend⟩ := h (s :: p) x ((prefix_cons_inj s).2 hp)
      (by rw [entryAt_cons, hchild]; exact hx)
    exact ⟨hdir, fun hpt => hend (hpt ▸ rfl)⟩
  · rintro h (_ | ⟨o, p⟩) x hp hx
    · exact ⟨(some.inj hx).symm, nofun⟩
    · obtain ⟨rfl, hpt⟩ := cons_prefix_cons.1 hp
      rw [entryAt_cons, hchild] at hx
      obtain ⟨hdir, hend⟩ := h p x hpt hx
      exact ⟨hdir, fun hpt => hend (List.cons.inj hpt).2⟩

theorem Room.fileType_eq (h : Room t fileType child) : child.fileType = .directory :=
  fileType_of_kind (h [] child.kind nil_prefix rfl).1

/-- **An insertion succeeds exactly if there is room**, and then the entry is found. -/
theorem insertSegments_spec (fileType : FileType) (contents : List UInt8) {segments : List Str}
    (hne : segments ≠ []) {node : BuilderNode} (h : node.WellFormed)
    (hdir : node.fileType = .directory) :
    (∃ node', node.insertSegments fileType contents segments = .ok node' ∧
      Room segments fileType node ∧
        Inserted segments (entryKind fileType contents) node node') ∨
    (∃ e, node.insertSegments fileType contents segments = .error e) ∧
      ¬ Room segments fileType node := by
  induction segments generalizing node with
  | nil => exact absurd rfl hne
  | cons s segments ih =>
    obtain ⟨children, rfl, names, hchildren⟩ := h.eq_dir hdir
    cases segments with
    | nil =>
      show (∃ node', (dir children).insertChild s fileType contents = .ok node' ∧ _) ∨
        (∃ e, (dir children).insertChild s fileType contents = .error e) ∧ _
      rw [insertChild]
      dsimp only [inner]
      cases hlookup : children.lookup s with
      | none =>
        refine .inl ⟨_, rfl, room_of_none hlookup, ?_⟩
        generalize hleaf : (if fileType = .directory then directory
          else file fileType contents) = leaf
        have hwf : leaf.WellFormed ∧ entryKind fileType contents = leaf.kind ∧
            ∀ p ≠ [], leaf.entryAt p = directory.entryAt p := by
          subst hleaf
          rw [entryKind]
          split
          · rename_i htype
            exact ⟨wellFormed_directory, by rw [htype]; rfl, fun _ _ => rfl⟩
          rename_i htype
          refine ⟨.ofFile htype contents, rfl, fun p hp => ?_⟩
          cases p with
          | nil => exact absurd rfl hp
          | cons o p => rfl
        rw [hwf.2.1]
        exact inserted_cons names hchildren hlookup (.inr ⟨rfl, rfl, rfl⟩)
          (inserted_nil hwf.1 hwf.2.2)
      | some child =>
        have hwf := hchildren _ (mem_of_lookup hlookup)
        dsimp only
        split
        · rename_i htypes
          obtain ⟨hchild, rfl⟩ := htypes
          obtain ⟨_, rfl, -⟩ := hwf.eq_dir hchild
          refine .inl ⟨_, rfl, (room_cons hlookup).2 fun p x hp hx => ?_, ?_⟩
          · obtain rfl := prefix_nil.1 hp
            exact ⟨(some.inj hx).symm, fun _ => rfl⟩
          · obtain ⟨before, after, hnone, rfl, -⟩ := setChild_eq hlookup directory
            exact inserted_cons names hchildren hnone (.inl rfl) (inserted_nil hwf fun _ _ => rfl)
        · rename_i htypes
          refine .inr ⟨⟨_, rfl⟩, fun hroom => htypes ?_⟩
          have hroom := (room_cons hlookup).1 hroom
          exact ⟨hroom.fileType_eq, (hroom [] _ nil_prefix rfl).2 rfl⟩
    | cons next segments =>
      have hnext : next :: segments ≠ [] := cons_ne_nil _ _
      have hstep : (dir children).insertSegments fileType contents (s :: next :: segments) =
          ((dir children).getOrCreateDir s >>= fun r =>
            r.1.insertSegments fileType contents (next :: segments) >>= fun child =>
              .ok (r.2 child)) := rfl
      rw [hstep, getOrCreateDir]
      dsimp only [inner]
      cases hlookup : children.lookup s with
      | none =>
        refine .inl ?_
        rcases ih hnext wellFormed_directory rfl with ⟨child', hinsert, -, hchild'⟩ | ⟨-, hroom⟩
        · refine ⟨_, bind_eq_ok.2 ⟨_, rfl, bind_eq_ok.2 ⟨_, hinsert, rfl⟩⟩,
            room_of_none hlookup, ?_⟩
          exact inserted_cons names hchildren hlookup (.inr ⟨rfl, rfl, rfl⟩) hchild'
        · exact absurd (room_directory hnext) hroom
      | some child =>
        have hwf := hchildren _ (mem_of_lookup hlookup)
        dsimp only
        by_cases hchild : child.fileType = .directory
        · rw [if_neg (not_not.2 hchild), room_cons hlookup]
          rcases ih hnext hwf hchild with ⟨child', hinsert, hroom, hchild'⟩ | ⟨⟨e, herror⟩, hroom⟩
          · refine .inl ⟨_, bind_eq_ok.2 ⟨_, rfl, bind_eq_ok.2 ⟨_, hinsert, rfl⟩⟩, hroom, ?_⟩
            obtain ⟨before, after, hnone, rfl, hset⟩ := setChild_eq hlookup child'
            dsimp only
            rw [hset]
            exact inserted_cons names hchildren hnone (.inl rfl) hchild'
          · exact .inr ⟨⟨e, by simp only [bind, Except.bind, herror]⟩, hroom⟩
        · rw [if_pos hchild, room_cons hlookup]
          exact .inr ⟨⟨_, rfl⟩, fun hroom => hchild hroom.fileType_eq⟩

end Insert

/-- Neither of two paths lies above the other. -/
def Apart (p q : List Str) : Prop := ¬p <+: q ∧ ¬q <+: p

theorem Apart.symm {p q : List Str} (h : Apart p q) : Apart q p := ⟨h.2, h.1⟩

section Apart

variable {p q : List Str} {x : FileType × List UInt8} {node node' : BuilderNode}

/-- What lies apart from the path is as before, -/
theorem Inserted.entryAt_apart (h : Inserted q x node node') (hp : Apart p q) :
    node'.entryAt p = node.entryAt p := by
  have hne : p ≠ q := fun hpq => hp.1 (hpq ▸ prefix_rfl)
  rw [h.entryAt, if_neg hne, if_neg hp.1]

/-- and there is as much room. -/
theorem Inserted.room (h : Inserted q x node node') (hp : Apart p q) {fileType : FileType}
    (hroom : Room p fileType node) : Room p fileType node' := by
  intro r y hr hy
  rw [h.entryAt] at hy
  split at hy
  · rename_i hrq
    exact absurd (hrq ▸ hr) hp.2
  split at hy
  · rename_i hrq
    exact ⟨(some.inj hy).symm, fun hrp => absurd (hrp ▸ hrq) hp.1⟩
  · exact hroom r y hr hy

end Apart

end BuilderNode

/-! ## From the tree to the inodes -/

namespace InitrdInode

/-- The type of an inode, and the contents of a file. -/
def kind : InitrdInode → FileType × List UInt8
  | mk fileType (.file data) => (fileType, data)
  | mk fileType (.directory _) => (fileType, [])

/-- Names are unique in each directory, and only directories have children. -/
inductive WellFormed : InitrdInode → Prop
  | ofFile {fileType : FileType} (h : fileType ≠ .directory) (data : List UInt8) :
      WellFormed (mk fileType (.file data))
  | ofDir {children : List (Str × InitrdInode)} (names : (children.map Prod.fst).Nodup)
      (h : ∀ c ∈ children, WellFormed c.2) : WellFormed (mk .directory (.directory children))

end InitrdInode

theorem intoInodes_eq (children : List (Str × BuilderNode)) :
    intoInodes children = children.map fun c => (c.1, c.2.intoInode) := by
  induction children with
  | nil => rfl
  | cons c children ih => rw [intoInodes, ih, map_cons]

theorem BuilderNode.WellFormed.intoInode (h : node.WellFormed) : node.intoInode.WellFormed := by
  induction h with
  | ofFile h contents =>
    exact .ofFile h contents
  | ofDir names _ ih =>
    rw [BuilderNode.intoInode, intoInodes_eq]
    refine .ofDir (by simpa [comp_def] using names) fun c hc => ?_
    obtain ⟨child, hchild, rfl⟩ := List.mem_map.1 hc
    exact ih child hchild

theorem kind_intoInode (node : BuilderNode) : node.intoInode.kind = node.kind := by
  obtain ⟨fileType, _ | children⟩ := node <;> rw [BuilderNode.intoInode] <;> rfl

theorem lookup_intoInode_iff {name : Str} {inode : InitrdInode} :
    node.intoInode.lookup name = .ok inode ↔
      ∃ child, node.child? name = some child ∧ child.intoInode = inode := by
  obtain ⟨fileType, contents | children⟩ := node <;> rw [BuilderNode.intoInode]
  · exact iff_of_false nofun nofun
  rw [← map_eq_some_iff]
  show okOr ((intoInodes children).lookup name) FsError.notFound = _ ↔
    (children.lookup name).map BuilderNode.intoInode = _
  rw [okOr_eq_ok, intoInodes_eq]
  induction children with
  | nil => rfl
  | cons c children ih =>
    rw [map_cons, lookup_cons, lookup_cons]
    cases name == c.1
    · exact ih
    · rfl

theorem lookupPath_intoInode_iff {segments : List Str} {inode : InitrdInode} :
    node.intoInode.lookupPath segments = .ok inode ↔
      ∃ found, node.find segments = some found ∧ found.intoInode = inode := by
  induction segments generalizing node with
  | nil =>
    constructor
    · exact fun h => ⟨node, rfl, Except.ok.inj h⟩
    · rintro ⟨found, hfound, rfl⟩
      obtain rfl := some.inj hfound
      rfl
  | cons segment segments ih =>
    rw [BuilderNode.find_cons, InitrdInode.lookupPath, foldlM_cons, bind_eq_ok]
    constructor
    · rintro ⟨_, hlookup, hrest⟩
      obtain ⟨child, hchild, rfl⟩ := lookup_intoInode_iff.1 hlookup
      rw [hchild]
      exact ih.1 hrest
    · rintro ⟨found, hfound, hinode⟩
      obtain ⟨child, hchild, hrest⟩ := bind_eq_some_iff.1 hfound
      exact ⟨_, lookup_intoInode_iff.2 ⟨child, hchild, rfl⟩, ih.2 ⟨found, hrest, hinode⟩⟩

theorem kind_lookupPath_iff {p : List Str} {x : FileType × List UInt8} :
    (∃ inode, node.intoInode.lookupPath p = .ok inode ∧ inode.kind = x) ↔
      node.entryAt p = some x := by
  simp only [lookupPath_intoInode_iff, BuilderNode.entryAt, map_eq_some_iff]
  constructor
  · rintro ⟨_, ⟨found, hfound, rfl⟩, rfl⟩
    exact ⟨found, hfound, (kind_intoInode found).symm⟩
  · rintro ⟨found, hfound, rfl⟩
    exact ⟨_, ⟨found, hfound, rfl⟩, kind_intoInode found⟩

/-! ## Files -/

/-- A regular file with these contents, as far as it can be asked. -/
structure InitrdInode.IsFile (inode : InitrdInode) (data : List UInt8) : Prop where
  fileType : inode.fileType = .regular
  size : inode.size = data.length
  read : ∀ offset len, inode.read offset len = .ok (slice data offset len)

theorem BuilderNode.WellFormed.isFile (h : node.WellFormed) {data : List UInt8}
    (hkind : node.kind = (.regular, data)) : node.intoInode.IsFile data := by
  cases h with
  | ofDir => cases hkind
  | ofFile h contents =>
    obtain ⟨rfl, rfl⟩ := Prod.mk.inj hkind
    refine ⟨rfl, rfl, fun offset len => ?_⟩
    show (if offset ≥ contents.length then Except.ok [] else _) = _
    split
    · rename_i hpast
      rw [slice, drop_eq_nil_of_le hpast, take_nil]
    · rw [slice, slice, Except.ok.injEq, take_eq_take_iff, length_drop]
      omega

end Krust.Initrd
