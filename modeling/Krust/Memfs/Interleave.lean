import Krust.Memfs.Quota

/-!
# Every interleaving

Each operation keeps the accounts and ends with the charges and references it began with, whatever
the other operations do in between.  What an operation relies on is never a mutex but what it owns:
the reference to the inode it was called on keeps that inode alive, and the charge it has reserved
is still there when it hands it over.
-/

set_option autoImplicit false

namespace Krust.Memfs

open Prog List SparseFile

/-- The operation keeps the accounts, and turns the share `m` into `n` if it fails and into `m' a`
if it returns `a`. -/
abbrev Trade {α : Type} (limits : Option TmpfsOptions) (p : Op α) (m n : Token → Nat)
    (m' : α → Token → Nat) : Prop :=
  Trades (Accounts limits) World.tokens p m n m'

/-- The operation keeps the accounts and ends with what it began with. -/
abbrev Even {α : Type} (limits : Option TmpfsOptions) (p : Op α) (m : Token → Nat) : Prop :=
  Trade limits p m m fun _ => m

variable {f : List (Str × Nat) → List (Str × Nat)} {e : Str × Nat} (d ino : Nat) (r : Resource)
  (name : Str) (fileType : FileType) (parent : Nat)

section Rules

variable {α : Type} {limits : Option TmpfsOptions} {m n : Token → Nat} {m' : α → Token → Nat}
  {i : Nat}

theorem trade_lock (l : Lock) : Trade limits (lock l) m n fun _ => m :=
  trades_await fun _ _ hw ho _ => ⟨hw.of_fs rfl rfl rfl rfl rfl le_rfl rfl rfl id, ho⟩

variable {p : Op α}

theorem Trade.withLock (l : Lock) (hp : Trade limits p m n m') :
    Trade limits (withLock l p) m n m' :=
  (trade_lock l).bind fun _ => hp.andFinally
    (fun _ _ hw ho => ⟨hw.of_fs rfl rfl rfl rfl rfl le_rfl rfl rfl id, ho⟩)
    fun _ _ _ hw ho => ⟨hw.of_fs rfl rfl rfl rfl rfl le_rfl rfl rfl id, ho⟩

theorem even_allocate : Even limits allocate m :=
  Trades.bind (trades_step fun _ _ hw ho =>
    ⟨hw.of_fs rfl rfl rfl rfl rfl le_rfl rfl rfl id, ho⟩) fun _ => trades_failIf _ _

theorem trade_reserve : Trade limits (reserve r) m m fun _ => m + Pi.single (.charge r) 1 := by
  rw [Trade, Trades, reserve, bind_eq, holds_bind, holds_step]
  intro w rest hw ho
  split_ifs with hlt
  · exact ⟨hw.reserve hlt, _, gain_own ho 1, rfl⟩
  · exact ⟨hw, m, ho, rfl⟩

theorem trade_dropCharge : Trade limits (dropCharge r) (m + Pi.single (.charge r) 1) n fun _ => m :=
  trades_update fun _ _ hw ho =>
    ⟨hw.dropCharge (owns ho (single_ne_zero m _)), lose_own ho⟩

/-- A reference that is dropped on the way out. -/
theorem Trade.droppingArc
    (hp : Trade limits p m (n + Pi.single (.arc i) 1) fun a => m' a + Pi.single (.arc i) 1) :
    Trade limits (droppingArc i p) m n m' :=
  hp.andFinally (fun _ _ hw ho => ⟨hw.lose (by simp), lose_own ho⟩)
    fun _ _ _ hw ho => ⟨hw.lose (by simp), lose_own ho⟩

theorem Even.withRef (hp : Even limits p (m + Pi.single (.arc i) 1)) :
    Even limits (withRef i p) m :=
  Trades.bind (trades_await fun _ _ hw ho hi =>
    ⟨hw.gainArc (of_decide_eq_true hi) 1, gain_own ho 1⟩)
    fun _ => Trade.droppingArc hp

/-- A change of an inode that keeps its pages and its entries. -/
theorem trade_onNode {f : MemoryInode → MemoryInode}
    (hp : ∀ x, (f x).storage.pageCount = x.storage.pageCount)
    (hl : ∀ x, (f x).storage.list = x.storage.list) :
    Trade limits (update fun w => w.onNode i f) m n fun _ => m :=
  trades_update fun _ _ hw ho => ⟨hw.modify (hp _) fun e he => by
    rw [hl] at he
    exact .inr ⟨e, he, rfl⟩, ho⟩

theorem onEntries_pageCount (f : List (Str × Nat) → List (Str × Nat)) (x : MemoryInode) :
    (onEntries f x).storage.pageCount = x.storage.pageCount := by
  rw [onEntries]
  split
  · rename_i hx
    rw [hx]
    rfl
  · rfl

theorem mem_onEntries {x : MemoryInode} (he : e ∈ (onEntries f x).storage.list) :
    e ∈ f x.storage.list ∨ e ∈ x.storage.list := by
  rw [onEntries] at he
  split at he
  · rename_i hx
    rw [hx]
    exact .inl he
  · exact .inr he

/-- A change of the entries of a directory that adds nothing. -/
theorem trade_onEntries (hf : ∀ es, ∀ e ∈ f es, ∃ e' ∈ es, e'.2 = e.2) :
    Trade limits (update fun w => w.onNode i (onEntries f)) m n fun _ => m :=
  trades_update fun _ _ hw ho => ⟨hw.modify (onEntries_pageCount f _) fun e he => by
    rcases mem_onEntries he with he | he
    · exact .inr (hf _ e he)
    · exact .inr ⟨e, he, rfl⟩, ho⟩

/-- A new entry for an inode that is held. -/
theorem trade_pushEntry (hi : m (.arc i) ≠ 0) : Trade limits (pushEntry d name i) m n fun _ => m :=
  trades_update fun _ _ hw ho => ⟨hw.modify (onEntries_pageCount _ _) fun e he => by
    rcases mem_onEntries he with he | he
    · rcases mem_append.1 he with he | he
      · exact .inr ⟨e, he, rfl⟩
      · rw [mem_singleton.1 he]
        exact .inl (hw.arc i (owns ho hi))
    · exact .inr ⟨e, he, rfl⟩, ho⟩

theorem trade_removeEntry (index : Nat) : Trade limits (removeEntry d index) m n fun _ => m :=
  trade_onEntries fun _ e he => ⟨e, mem_of_mem_eraseIdx he, rfl⟩

theorem trade_addLink : Trade limits (addLink d) m n fun _ => m :=
  trade_onNode (fun _ => rfl) fun _ => rfl

theorem trade_subLink : Trade limits (subLink d) m n fun _ => m :=
  trade_onNode (fun _ => rfl) fun _ => rfl

theorem trade_detach (child : Nat) : Trade limits (detach d child) m n fun _ => m := by
  have hlinks : Trade limits (update fun w => w.onNode child fun x => { x with links := 0 }) m n
      fun _ => m := trade_onNode (fun _ => rfl) fun _ => rfl
  refine Trades.bind hlinks fun _ => Trades.bind (trades_load _) fun fileType => ?_
  split
  · exact trade_subLink d
  · exact trades_ret rfl

theorem even_entriesOf : Even limits (entriesOf d) m :=
  Trades.bind (trades_load _) fun _ => trades_ofExcept _

/-- What a directory that is held lists exists. -/
theorem trade_cloneEntry (hi : m (.arc i) ≠ 0) :
    Trade limits (cloneEntry i name) m m fun found => m + Pi.single (.arc found.2) 1 := by
  rw [Trade, Trades, cloneEntry, bind_eq, holds_bind, holds_step]
  intro w rest hw ho
  cases hes : (w.fs.node i).storage with
  | directory es =>
    rcases hfind : findEntry es name with e | found
    · simp only [Storage.entries, hfind]
      exact ⟨hw, m, ho, rfl⟩
    have hmem : (name, found.2) ∈ w.fs.entries i := by
      rw [Fs.entries, hes]
      exact mem_of_getElem? (findEntry_ok hfind)
    have hlive := hw.listed i (hw.arc i (owns ho hi)) _ hmem
    simp only [Storage.entries, hfind]
    exact ⟨hw.gainArc hlive 1, _, gain_own ho 1, rfl⟩
  | ram data =>
    exact ⟨hw, m, ho, rfl⟩
  | sparse file =>
    exact ⟨hw, m, ho, rfl⟩

/-! ## Creating and removing -/

theorem trade_takeNumber : Trade limits takeNumber m n fun ino => m + Pi.single (.number ino) 1 :=
  trades_step fun _ _ hw ho => ⟨hw.takeNumber, gain_own ho 1⟩

theorem trade_dropValue :
    Trade limits (dropValue ino) (m + Pi.single (.charge .inode) 1 + Pi.single (.number ino) 1) n
      fun _ => m := by
  rw [add_right_comm]
  exact (trade_dropCharge .inode).bind fun _ => trades_update fun _ _ hw ho =>
    ⟨hw.lose (by simp), lose_own ho⟩

theorem trade_addInode :
    Trade limits (update fun w => w.addInode ino fileType parent)
      (m + Pi.single (.charge .inode) 1 + Pi.single (.number ino) 1) n
      fun _ => m + Pi.single (.arc ino) 1 := by
  rw [add_right_comm]
  refine trades_update fun w _ hw ho => ?_
  have hnumber : w.tokens (.number ino) ≠ 0 := owns ho (by simp)
  exact ⟨hw.addInode (owns ho (single_ne_zero _ _)) hnumber fileType parent,
    gain_own (lose_own (lose_own ho)) 1⟩

theorem trade_newInode :
    Trade limits (newInode fileType parent) m m fun ino => m + Pi.single (.arc ino) 1 :=
  (trade_reserve .inode).bind fun _ => trade_takeNumber.bind fun ino =>
    (even_allocate.onFail (trade_dropValue ino)).bind fun _ =>
      (trade_addInode ino fileType parent).bind fun _ => trades_ret rfl

theorem trade_pushNode (i : Nat) : Trade limits (pushNode i) m n fun _ => m :=
  trades_update fun _ _ hw ho => ⟨hw.of_fs rfl rfl rfl rfl rfl le_rfl rfl rfl id, ho⟩

theorem trade_retainNodes : Trade limits retainNodes m n fun _ => m :=
  trades_update fun _ _ hw ho => ⟨hw.of_fs rfl rfl rfl rfl rfl le_rfl rfl rfl id, ho⟩

theorem trade_linkDirectory : Trade limits (linkDirectory d fileType) m n fun _ => m := by
  rw [linkDirectory]
  split
  · exact trade_addLink d
  · exact trades_ret rfl

variable (self : Nat)

theorem trade_create (name : Str) (fileType : FileType) :
    Trade limits (create self name fileType) m m fun ino => m + Pi.single (.arc ino) 1 :=
  (trades_ofExcept _).bind fun _ => (trades_failIf _ _).bind fun _ => Trade.withLock .nodes <|
    (trades_load _).bind fun _ => (trades_failIf _ _).bind fun _ => Trade.withLock (.inner self) <|
      (even_entriesOf self).bind fun _ => (trades_failIf _ _).bind fun _ =>
        even_allocate.bind fun _ => even_allocate.bind fun _ => trade_retainNodes.bind fun _ =>
          even_allocate.bind fun _ => (trade_newInode fileType self).bind fun ino =>
            (trade_pushNode ino).bind fun _ => (trade_linkDirectory self fileType).bind fun _ =>
              (trade_pushEntry self name (single_ne_zero _ _)).bind fun _ => trades_ret rfl

theorem even_checkEmpty (d : Nat) : Even limits (checkEmpty d) m :=
  Trade.withLock _ ((trades_load _).bind fun _ => trades_failIf _ _)

theorem even_checkUnlink (child : Nat) (directory : Bool) :
    Even limits (checkUnlink child directory) m := by
  refine (trades_load _).bind fun fileType => ?_
  split
  · exact (trades_failIf _ _).bind fun _ => even_checkEmpty child
  · exact trades_failIf _ _

theorem even_unlink (name : Str) (directory : Bool) : Even limits (unlink self name directory) m :=
  (trades_ofExcept _).bind fun _ => Trade.withLock .nodes <| Trade.withLock (.inner self) <|
    (even_entriesOf self).bind fun _ => (trades_ofExcept _).bind fun found =>
      (even_checkUnlink found.2 directory).bind fun _ => (trade_detach self found.2).bind fun _ =>
        trade_removeEntry self found.1

/-! ## Renaming -/

theorem even_canReplace (source target : Nat) : Even limits (canReplace source target) m := by
  refine (trades_load _).bind fun sourceType => (trades_load _).bind fun targetType => ?_
  split
  · split
    · exact even_checkEmpty target
    · exact trades_fail _
  · exact trades_failIf _ _

theorem even_ancestorWalk (nodes : List Nat) (source fuel ancestor : Nat) :
    Even limits (ancestorWalk nodes source fuel ancestor) m := by
  induction fuel generalizing ancestor with
  | zero => exact fun _ _ b => b.elim
  | succ fuel ih =>
    rw [ancestorWalk]
    split
    · exact trades_ret rfl
    split
    · exact trades_fail _
    refine (trades_load _).bind fun upgraded => ?_
    cases upgraded with
    | none => exact trades_fail _
    | some i => exact (trades_load _).bind ih

theorem even_checkAncestors (nodes : List Nat) (source destination : Nat) :
    Even limits (checkAncestors nodes source destination) m := by
  refine (trades_load _).bind fun fileType => ?_
  split
  · exact even_ancestorWalk ..
  · exact trades_ret rfl

theorem trade_removeTarget (d : Nat) (found : Except FsError (Nat × Nat)) :
    Trade limits (removeTarget d found) m n fun _ => m := by
  cases found with
  | error e => exact trades_ret rfl
  | ok found => exact (trade_detach d found.2).bind fun _ => trade_removeEntry d found.1

theorem renameFirst_mem {i : Nat} {newName : Str} {es : List (Str × Nat)}
    (he : e ∈ renameFirst i newName es) : ∃ e' ∈ es, e'.2 = e.2 := by
  induction es with
  | nil => exact absurd he not_mem_nil
  | cons x es ih =>
    rw [renameFirst] at he
    split at he
    · rcases mem_cons.1 he with rfl | he
      · exact ⟨x, mem_cons_self, rfl⟩
      · exact ⟨e, mem_cons_of_mem _ he, rfl⟩
    rcases mem_cons.1 he with rfl | he
    · exact ⟨e, mem_cons_self, rfl⟩
    · obtain ⟨e', he', heq⟩ := ih he
      exact ⟨e', mem_cons_of_mem _ he', heq⟩

theorem even_checkTarget (source : Nat) (found : Except FsError (Nat × Nat)) :
    Even limits (checkTarget source found) m := by
  cases found with
  | error e => exact trades_ret rfl
  | ok found => exact even_canReplace source found.2

theorem even_renameWithin (source : Nat) (newName : Str) :
    Even limits (renameWithin self source newName) m :=
  (even_entriesOf self).bind fun _ => (even_checkTarget source _).bind fun _ =>
    (trade_removeTarget self _).bind fun _ => (trades_load _).bind fun _ =>
      (trades_failIf _ _).bind fun _ => trade_onEntries fun _ _ he => renameFirst_mem he

theorem even_makeRoom (source : Nat) (found : Except FsError (Nat × Nat)) :
    Even limits (makeRoom source found) m := by
  cases found with
  | error e => exact even_allocate
  | ok found => exact even_canReplace source found.2

theorem trade_moveLink (destination : Nat) (fileType : FileType) :
    Trade limits (moveLink self destination fileType) m n fun _ => m := by
  rw [moveLink]
  split
  · exact (trade_subLink self).bind fun _ => trade_addLink destination
  · exact trades_ret rfl

theorem even_renameAcross (destination index source : Nat) (newName : Str)
    (hsource : m (.arc source) ≠ 0) :
    Even limits (renameAcross self destination index source newName) m := by
  have hparent : Even limits
      (update fun w => w.onNode source fun x => { x with parent := destination })
      m := trade_onNode (fun _ => rfl) fun _ => rfl
  exact (even_entriesOf destination).bind fun _ => (even_makeRoom source _).bind fun _ =>
    (trade_removeTarget destination _).bind fun _ => (trade_removeEntry self index).bind fun _ =>
      (trades_load _).bind fun _ => (trade_moveLink self destination _).bind fun _ =>
        hparent.bind fun _ => trade_pushEntry destination newName hsource

theorem even_renameSource (name : Str) (destination : Nat) (newName : Str) (nodes : List Nat)
    (index source : Nat) (hsource : m (.arc source) ≠ 0) :
    Even limits (renameSource self name destination newName nodes index source) m := by
  rw [renameSource]
  split
  · exact trades_ret rfl
  refine (even_checkAncestors nodes source destination).bind fun _ => even_allocate.bind fun _ => ?_
  split
  · exact even_renameWithin self source newName
  · exact Trade.withLock _ (even_renameAcross self destination index source newName hsource)

theorem even_rename (name : Str) (destination : DynInode) (newName : Str)
    (hself : m (.arc self) ≠ 0) : Even limits (rename self name destination newName) m :=
  (trades_ofExcept _).bind fun _ => (trades_ofExcept _).bind fun _ => (trades_load _).bind fun _ =>
    (trades_failIf _ _).bind fun _ => (trades_ofExcept _).bind fun destination =>
      Trade.withLock .nodes <| (trades_load _).bind fun nodes => (trades_load _).bind fun _ =>
        (trades_failIf _ _).bind fun _ => Trade.withLock (.inner self) <|
          (trade_cloneEntry name hself).bind fun found => Trade.droppingArc <|
            even_renameSource self name destination newName nodes found.1 found.2
              (single_ne_zero _ _)

theorem trade_lookup (name : Str) (hself : m (.arc self) ≠ 0) :
    Trade limits (lookup self name) m m fun ino => m + Pi.single (.arc ino) 1 :=
  Trade.withLock .nodes <| Trade.withLock (.inner self) <|
    (trade_cloneEntry name hself).bind fun _ => trades_ret rfl

/-! ## Files -/

theorem onSparse_list (f : SparseFile → SparseFile) (x : MemoryInode) :
    (onSparse f x).storage.list = x.storage.list := by
  rw [onSparse]
  split
  · rename_i hx
    rw [hx]
    rfl
  · rfl

variable {f : SparseFile → SparseFile}

theorem onSparse_pageCount (hf : ∀ file, (f file).pages.length = file.pages.length)
    (x : MemoryInode) : (onSparse f x).storage.pageCount = x.storage.pageCount := by
  rw [onSparse]
  split
  · rename_i file hx
    rw [hx]
    exact hf file
  · rfl

/-- A change of the bytes of a file that keeps its pages. -/
theorem trade_onSparse (hf : ∀ file, (f file).pages.length = file.pages.length) :
    Trade limits (update fun w => w.onNode i (onSparse f)) m n fun _ => m :=
  trade_onNode (onSparse_pageCount hf) (onSparse_list f)

theorem trade_onRam (f : List UInt8 → List UInt8) :
    Trade limits (update fun w => w.onNode i (onRam f)) m n fun _ => m := by
  have hkept : ∀ x, (onRam f x).storage.pageCount = x.storage.pageCount ∧
      (onRam f x).storage.list = x.storage.list := fun x => by
    rw [onRam]
    split
    · rename_i hx
      rw [hx]
      exact ⟨rfl, rfl⟩
    · exact ⟨rfl, rfl⟩
  exact trade_onNode (fun x => (hkept x).1) fun x => (hkept x).2

/-- A page takes the charge that was reserved for it. -/
theorem trade_insertPage (slot index : Nat) (hi : m (.arc i) ≠ 0) :
    Trade limits (insertPage i slot index) (m + Pi.single (.charge .page) 1) n fun _ => m := by
  refine trades_await fun w _ hw ho hslot => ⟨?_, lose_own ho⟩
  have hlive : i ∈ w.fs.live := hw.arc i (owns ho (by simp [hi]))
  have hcharge : w.tokens (.charge .page) ≠ 0 := owns ho (single_ne_zero _ _)
  refine hw.repage hlive rfl rfl rfl (onSparse_list _ _) (fun t ht => ?_) ?_
  · rw [lose_tokens, if_neg ht]
    rfl
  rw [onSparse]
  split at hslot
  · rename_i file hfile
    have hlen : (file.insertPage slot index).pages.length = file.pages.length + 1 :=
      length_insertIdx_of_le_length (of_decide_eq_true hslot) _
    have hcount : (w.fs.node i).storage.pageCount = file.pages.length := by
      rw [hfile]
      rfl
    show (file.insertPage slot index).pages.length + (w.tokens (.charge .page) - 1) =
      (w.fs.node i).storage.pageCount + w.tokens (.charge .page)
    omega
  · exact absurd hslot Bool.false_ne_true

theorem even_allocatePage (slot index : Nat) (hi : m (.arc i) ≠ 0) :
    Even limits (allocatePage i slot index) m :=
  even_allocate.bind fun _ => (trade_reserve .page).bind fun _ =>
    (even_allocate.onFail (trade_dropCharge .page)).bind fun _ =>
      (trade_insertPage slot index hi).bind fun _ => trades_ret rfl

theorem even_findOrAllocate (index : Nat) (hi : m (.arc i) ≠ 0) :
    Even limits (findOrAllocate i index) m := by
  refine (trades_load _).bind fun found => ?_
  cases found with
  | ok slot => exact trades_ret rfl
  | error slot => exact even_allocatePage slot index hi

theorem even_writeLoop (offset : Nat) (buf : List UInt8) (fuel written : Nat)
    (hi : m (.arc i) ≠ 0) : Even limits (writeLoop i offset buf fuel written) m := by
  induction fuel generalizing written with
  | zero => exact trades_ret rfl
  | succ fuel ih =>
    rw [writeLoop]
    split
    swap
    · exact trades_ret rfl
    refine (even_findOrAllocate _ hi).attempt.bind fun result => ?_
    cases result with
    | error e =>
      dsimp only
      split
      · exact trades_fail e
      · exact trades_ret rfl
    | ok slot =>
      exact (trade_onSparse fun _ => length_modify ..).bind fun _ => ih _

theorem even_writeRam (data : List UInt8) (offset : Nat) (buf : List UInt8) :
    Even limits (writeRam i data offset buf) m := by
  rw [writeRam]
  split
  · exact even_allocate.bind fun _ => (trade_onRam _).bind fun _ => trades_ret rfl
  · exact (trade_onRam _).bind fun _ => trades_ret rfl

theorem even_writeData (offset : Nat) (buf : List UInt8) (hi : m (.arc i) ≠ 0) :
    Even limits (writeData i offset buf) m := by
  refine (trades_load _).bind fun storage => ?_
  cases storage with
  | directory es => exact trades_fail _
  | ram data =>
    dsimp only
    split
    · exact trades_ret rfl
    · exact (trades_ofExcept _).bind fun _ => even_writeRam data offset buf
  | sparse file =>
    dsimp only
    split
    · exact trades_ret rfl
    · exact (trades_ofExcept _).bind fun _ => even_writeLoop offset buf _ _ hi

theorem even_append (buf : List UInt8) (hi : m (.arc i) ≠ 0) : Even limits (append i buf) m := by
  refine Trade.withLock _ ((trades_load _).bind fun storage => ?_)
  cases storage with
  | directory es => exact trades_fail _
  | ram data => exact (even_writeData _ buf hi).bind fun _ => trades_ret rfl
  | sparse file => exact (even_writeData _ buf hi).bind fun _ => trades_ret rfl

/-- Taking out a page that does not stay. -/
theorem takeOut_pageCount {fs : Fs} {newSize : Nat}
    (hall : ¬ (sparseOf fs i).pages.all (keeps newSize)) :
    (onSparse (fun f => { f with pages := f.pages.eraseP fun p => !keeps newSize p })
      (fs.node i)).storage.pageCount + 1 = (fs.node i).storage.pageCount := by
  rw [sparseOf] at hall
  cases hx : (fs.node i).storage with
  | sparse file =>
    simp only [hx, all_eq_true, not_forall] at hall
    obtain ⟨p, hp, hgoes⟩ := hall
    have hlen : (file.pages.eraseP fun p => !keeps newSize p).length =
        file.pages.length - 1 := length_eraseP_of_mem hp (by simpa using hgoes)
    have hpos := length_pos_of_mem hp
    simp only [onSparse, hx, Storage.pageCount, hlen]
    omega
  | directory es => simp [hx, empty] at hall
  | ram data => simp [hx, empty] at hall

/-- A page that is taken out of its file leaves its charge behind. -/
theorem trade_takePage (newSize : Nat) (hi : m (.arc i) ≠ 0) :
    Trade limits (takePage i newSize) m n fun taken =>
      if taken then m + Pi.single (.charge .page) 1 else m := by
  refine trades_step fun w _ hw ho => ?_
  split
  · exact ⟨hw, ho⟩
  rename_i hall
  refine ⟨?_, gain_own ho 1⟩
  refine hw.repage (hw.arc i (owns ho hi)) rfl rfl rfl (onSparse_list _ _) (fun t ht => ?_) ?_
  · rw [gain_tokens, if_neg ht]
    rfl
  have hcount := takeOut_pageCount hall
  show _ + (w.tokens (.charge .page) + 1) = _
  omega

theorem even_retainPages (newSize fuel : Nat) (hi : m (.arc i) ≠ 0) :
    Even limits (retainPages i newSize fuel) m := by
  induction fuel with
  | zero => exact trades_ret rfl
  | succ fuel ih =>
    refine (trade_takePage newSize hi).bind fun taken => ?_
    cases taken with
    | false => exact trades_ret rfl
    | true => exact (trade_dropCharge .page).bind fun _ => ih

theorem finishTruncate_pages (file : SparseFile) (newSize : Nat) :
    (file.finishTruncate newSize).pages.length = file.pages.length := by
  simp only [finishTruncate]
  split
  · split
    · exact length_modify ..
    · rfl
  · rfl

theorem even_truncateSparse (newSize : Nat) (file : SparseFile) (hi : m (.arc i) ≠ 0) :
    Even limits (truncateSparse i newSize file) m := by
  rw [truncateSparse]
  split
  · exact (even_retainPages newSize _ hi).bind fun _ =>
      trade_onSparse fun file => finishTruncate_pages file newSize
  · exact trade_onSparse fun _ => rfl

theorem even_truncateRam (newSize : Nat) (data : List UInt8) :
    Even limits (truncateRam i newSize data) m := by
  rw [truncateRam]
  split
  · exact even_allocate.bind fun _ => trade_onRam _
  · exact trade_onRam _

theorem even_truncate (newSize : Nat) (hi : m (.arc i) ≠ 0) :
    Even limits (truncate i newSize) m := by
  refine (trades_failIf _ _).bind fun _ => Trade.withLock _ ((trades_load _).bind fun storage => ?_)
  cases storage with
  | directory es => exact trades_fail _
  | ram data => exact even_truncateRam newSize data
  | sparse file => exact even_truncateSparse newSize file hi

theorem even_read (offset : Nat) (buf : List UInt8) : Even limits (read i offset buf) m := by
  refine Trade.withLock _ ((trades_load _).bind fun storage => ?_)
  cases storage with
  | directory es => exact trades_fail _
  | ram data => exact trades_ret rfl
  | sparse file => exact trades_ret rfl

theorem even_setMetadata (metadata : SetMetadata) : Even limits (setMetadata i metadata) m :=
  (trades_failIf _ _).bind fun _ => Trade.withLock _ (trade_onNode (fun _ => rfl) fun _ => rfl)

end Rules

end Krust.Memfs
