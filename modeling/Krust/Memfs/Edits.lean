import Krust.Memfs.Entries

/-!
# What a call does to the vector of a directory

The entries of a directory stand in a vector, and where an entry stands matters to whoever lists
the directory.  A call edits that vector in a simple way (`Edited`): some entries go, one may get a
new name where it stands, and one may be added at the end.  New names have been validated, so that
in every state that can be reached all names are valid (`Reachable.names_valid`).  An entry stays
until a call to `unlink` or `rename` takes it away, and the root is always the same inode.
-/

set_option autoImplicit false

namespace Krust.Memfs

open Prog List Function Prod

variable {fs' : Fs} {l : Lock} {i self : Nat} {newName : Str} {e : Str × Nat}

section Edits

/-- How one call changes the entries of a directory. -/
structure Edited (es es' : List (Str × Nat)) : Prop where
  /-- One inode goes at most, the others stay in order, and what is added was not there. -/
  order : ∃ k added, es'.map snd = (es.map snd).eraseIdx k ++ added ∧
    ∀ i ∈ added, i ∉ es.map snd
  names : ∀ e ∈ es', e ∈ es ∨ validateName e.1 = .ok ()

section Edited

variable {es es' : List (Str × Nat)} {name : Str} {source : Nat}

section Erase

variable (es : List (Str × Nat))

theorem map_eraseIdx_snd (k : Nat) :
    (es.eraseIdx k).map snd = (es.map snd).eraseIdx k := by
  simp only [eraseIdx_eq_take_drop_succ, map_append, map_take, map_drop]

/-- An entry goes, or none if there is none at this place. -/
theorem edited_eraseIdx (k : Nat) : Edited es (es.eraseIdx k) :=
  ⟨⟨k, [], by rw [map_eraseIdx_snd, append_nil], by simp⟩,
    fun _ he => .inl (mem_of_mem_eraseIdx he)⟩

theorem Edited.refl : Edited es es := by
  have h := edited_eraseIdx es es.length
  rwa [eraseIdx_of_length_le le_rfl] at h

end Erase

theorem Edited.push (k : Nat) (hname : validateName name = .ok ()) (hsource : source ∉ es.map snd) :
    Edited es (es.eraseIdx k ++ [(name, source)]) := by
  refine ⟨⟨k, [source], by rw [map_append, map_eraseIdx_snd]; rfl, ?_⟩, fun e he => ?_⟩
  · rintro i hi
    rwa [mem_singleton.1 hi]
  rcases mem_append.1 he with he | he
  · exact .inl (mem_of_mem_eraseIdx he)
  · rw [mem_singleton.1 he]
    exact .inr hname

theorem map_snd_renameFirst (i : Nat) (newName : Str) (es : List (Str × Nat)) :
    (renameFirst i newName es).map snd = es.map snd := by
  induction es with
  | nil => rfl
  | cons e es ih =>
    rw [renameFirst]
    split <;> simp [ih]

theorem mem_renameFirst (h : e ∈ renameFirst i newName es) : e ∈ es ∨ e.1 = newName := by
  induction es with
  | nil => exact .inl h
  | cons x es ih =>
    rw [renameFirst] at h
    split at h
    · rcases mem_cons.1 h with rfl | h
      · exact .inr rfl
      · exact .inl (mem_cons_of_mem _ h)
    rcases mem_cons.1 h with rfl | h
    · exact .inl mem_cons_self
    · exact (ih h).imp_left (mem_cons_of_mem _)

theorem Edited.rename (k : Nat) (hname : validateName name = .ok ()) (source : Nat) :
    Edited es (renameFirst source name (es.eraseIdx k)) := by
  refine ⟨⟨k, [], ?_, by simp⟩, fun e he => ?_⟩
  · rw [map_snd_renameFirst, map_eraseIdx_snd, append_nil]
  rcases mem_renameFirst he with he | he
  · exact .inl (mem_of_mem_eraseIdx he)
  · exact .inr (he ▸ hname)

theorem removeAt_eq_eraseIdx (found : Except FsError (Nat × Nat)) (es : List (Str × Nat)) :
    ∃ k, removeAt found es = es.eraseIdx k := by
  cases found with
  | ok found => exact ⟨found.1, rfl⟩
  | error e => exact ⟨es.length, (eraseIdx_of_length_le le_rfl).symm⟩

/-- An entry that stays moves one place to the front, or not at all.  It moves if an entry before it
is taken away. -/
theorem Edited.place {j j' : Nat} (h : Edited es es') (hes : (es.map snd).Nodup)
    (hj : es[j]? = some e) (hj' : es'[j']? = some e) :
    (j' = j ∧ ∀ x ∈ es.take j, x.2 ∈ es'.map snd) ∨
      (j' + 1 = j ∧ ∃ x ∈ es.take j, x.2 ∉ es'.map snd) := by
  obtain ⟨k, added, hmap, hadded⟩ := h.order
  have hold : ∀ {m : Nat} {x : Str × Nat}, es[m]? = some x → (es.map snd)[m]? = some x.2 :=
    fun hx => by simp [hx]
  have hinj : ∀ {m m' i : Nat}, (es.map snd)[m]? = some i → (es.map snd)[m']? = some i →
      m = m' := fun hm hm' =>
    (getElem?_inj (List.getElem?_eq_some_iff.1 hm).1 hes).1 (hm.trans hm'.symm)
  -- the entry is among those that stay
  have hstays : ((es.map snd).eraseIdx k)[j']? = some e.2 := by
    have hnew : (es'.map snd)[j']? = some e.2 := by simp [hj']
    rw [hmap] at hnew
    by_cases hlt : j' < ((es.map snd).eraseIdx k).length
    · rwa [getElem?_append_left hlt] at hnew
    · rw [getElem?_append_right (Nat.le_of_not_lt hlt)] at hnew
      exact absurd (mem_of_getElem? (hold hj)) (hadded _ (mem_of_getElem? hnew))
  rw [getElem?_eraseIdx] at hstays
  rw [hmap]
  split at hstays
  · left
    obtain rfl := hinj (hold hj) hstays
    refine ⟨rfl, fun x hx => mem_append_left _ (mem_eraseIdx_iff_getElem?.2 ?_)⟩
    obtain ⟨m, hm, rfl⟩ := mem_take_iff_getElem.1 hx
    exact ⟨m, by omega, hold (getElem?_eq_getElem (by omega))⟩
  · right
    obtain rfl := hinj (hold hj) hstays
    have hk : k < es.length := by
      have := (List.getElem?_eq_some_iff.1 hj).1
      omega
    refine ⟨rfl, es[k], mem_take_iff_getElem.2 ⟨k, by omega, rfl⟩, fun hmem => ?_⟩
    rcases mem_append.1 hmem with hmem | hmem
    · obtain ⟨m, hne, hm⟩ := mem_eraseIdx_iff_getElem?.1 hmem
      exact hne (hinj hm (hold (getElem?_eq_getElem hk)))
    · exact hadded _ hmem (mem_map_of_mem (getElem_mem hk))

end Edited

/-! ## Every call -/

section Calls

variable {w w' : World} {fs : Fs} {d : Nat} {ents : Nat → List (Str × Nat)}

/-- What a call does to all the directories: those that exist are edited, and what is new is
empty. -/
def EditedAll (fs : Fs) (ents : Nat → List (Str × Nat)) : Prop :=
  ∀ d, (d ∈ fs.live → Edited (fs.entries d) (ents d)) ∧
    (d ∉ fs.live → ents d = fs.entries d ∨ ents d = [])

theorem EditedAll.refl (fs : Fs) : EditedAll fs fs.entries :=
  fun _ => ⟨fun _ => .refl _, fun _ => .inl rfl⟩

theorem EditedAll.update {es : List (Str × Nat)} (h : EditedAll fs ents) (hd : d ∈ fs.live)
    (hes : Edited (fs.entries d) es) : EditedAll fs (Function.update ents d es) := by
  intro k
  by_cases hk : k = d
  · subst hk
    rw [update_self]
    exact ⟨fun _ => hes, absurd hd⟩
  · rw [update_of_ne hk]
    exact h k

theorem EditedAll.fresh (h : EditedAll fs ents) (hi : i ∉ fs.live) :
    EditedAll fs (Function.update ents i []) := by
  intro k
  by_cases hk : k = i
  · subst hk
    rw [update_self]
    exact ⟨fun hk => absurd hk hi, fun _ => .inr rfl⟩
  · rw [update_of_ne hk]
    exact h k

theorem Renamed.editedAll {destination : Nat} {name : Str} (hg : Good [] w)
    (hself : self ∈ w.fs.live) (hdest : destination ∈ w.fs.live)
    (hname : validateName newName = .ok ())
    (h : Renamed w.fs self name destination newName w'.fs) : EditedAll w.fs w'.fs.entries := by
  cases h with
  | same hsd hn h => exact h ▸ .refl _
  | @within source hsd hn hmem h =>
    obtain ⟨k, hk⟩ := removeAt_eq_eraseIdx (findEntry (w.fs.entries self) newName)
      (w.fs.entries self)
    rw [h, hk]
    exact (EditedAll.refl _).update hself (.rename k hname source)
  | @across index source hsd hentry h =>
    obtain ⟨k, hk⟩ := removeAt_eq_eraseIdx (findEntry (w.fs.entries destination) newName)
      (w.fs.entries destination)
    rw [h, hk]
    refine ((EditedAll.refl _).update hself (edited_eraseIdx _ index)).update hdest
      (.push k hname fun hmem => ?_)
    -- an inode is listed by one directory
    obtain ⟨e, he, rfl⟩ := mem_map.1 hmem
    exact hsd (hg.tree.dir_unique hself hdest (mem_of_getElem? hentry) he)

/-- `create` adds an entry at the end of its directory. -/
theorem Created.editedAll {name : Str} (hg : Good [] w) (hself : self ∈ w.fs.live)
    (h : Created w.fs self name i w'.fs) : EditedAll w.fs w'.fs.entries := by
  have hfresh : i ∉ w.fs.live := fun hi => (hg.shape.fresh i hi).not_ge h.fresh
  have hnew : i ∉ (w.fs.entries self).map snd := fun hmem => by
    -- what is listed exists
    obtain ⟨e, he, rfl⟩ := mem_map.1 hmem
    exact hfresh (hg.tree.listed self hself e.1 e.2 he).1.1
  have hpush := Edited.push (w.fs.entries self).length h.valid hnew
  rw [eraseIdx_of_length_le le_rfl] at hpush
  rw [h.entries]
  exact ((EditedAll.refl _).fresh hfresh).update hself hpush

/-- **A call edits each directory**, and a directory that is new is empty. -/
theorem Good.call_edited (hg : Good [] w) (c : Call) {r : Except FsError Unit}
    (hrun : run c.prog w = (some r, w')) : EditedAll w.fs w'.fs.entries := by
  have h := (hg.call c).of_run hrun
  cases r with
  | error e => exact Undone.entries h ▸ .refl _
  | ok _ =>
  obtain ⟨-, h⟩ := h
  cases c with
  | create self name fileType =>
    obtain ⟨hself, i, h⟩ := h
    exact h.editedAll hg hself
  | unlink self name directory =>
    obtain ⟨index, child, -, hents⟩ := h.2.entries
    rw [hents]
    exact (EditedAll.refl _).update h.1 (edited_eraseIdx _ index)
  | rename self name destination newName =>
    obtain ⟨d, hd, -, -, hrenamed⟩ := h.2.renamed
    exact hrenamed.editedAll hg h.1 hd h.2.valid
  | _ =>
    obtain ⟨-, hents⟩ := h
    exact hents ▸ .refl _

/-! ## Entries that stay -/

/-- What a call leaves as it was: the root, and the entries of the directories that exist. -/
structure Keeps (fs fs' : Fs) : Prop where
  root : fs'.root = fs.root
  entries : ∀ d ∈ fs.live, ∀ e ∈ fs.entries d, e ∈ fs'.entries d

theorem Keeps.of_eq {fs fs' : Fs} (hroot : fs'.root = fs.root) (hents : fs'.entries = fs.entries) :
    Keeps fs fs' :=
  ⟨hroot, fun d _ _ he => (congrFun hents d).symm ▸ he⟩

theorem Created.keeps {name : Str} (hg : Good [] w) (h : Created w.fs d name i w'.fs) :
    Keeps w.fs w'.fs := by
  refine ⟨h.root, fun k hk e he => ?_⟩
  have hki : k ≠ i := fun hki => (hg.shape.fresh k hk).not_ge (hki ▸ h.fresh)
  rw [h.entries]
  by_cases hkd : k = d
  · subst hkd
    rw [update_self]
    exact mem_append_left _ he
  · rwa [update_of_ne hkd, update_of_ne hki]

/-- The calls that can take an entry away. -/
def Call.takesAway : Call → Bool
  | .unlink .. => true
  | .rename .. => true
  | _ => false

/-- **No other call takes an entry away.** -/
theorem Good.call_keeps {c : Call} {r : Except FsError Unit} (hg : Good [] w)
    (hc : c.takesAway = false)
    (hrun : run c.prog w = (some r, w')) : Keeps w.fs w'.fs := by
  have h := (hg.call c).of_run hrun
  cases r with
  | error e => exact .of_eq (Undone.root h) (Undone.entries h)
  | ok _ =>
  obtain ⟨-, h⟩ := h
  cases c with
  | create self name fileType =>
    obtain ⟨-, i, h⟩ := h
    exact h.keeps hg
  | unlink self name directory => exact absurd hc (by simp [Call.takesAway])
  | rename self name destination newName => exact absurd hc (by simp [Call.takesAway])
  | _ => exact .of_eq h.1 h.2

theorem Good.root_after (hg : Good [] w) (c : Call) : (run c.prog w).2.fs.root = w.fs.root := by
  by_cases hr : (run c.prog w).1 = some (.ok ())
  · have h := hg.effect_of_ok c hr
    cases c with
    | create self name fileType =>
      obtain ⟨-, i, h⟩ := h
      exact h.root
    | unlink self name directory => exact h.2.root
    | rename self name destination newName => exact h.2.root
    | _ => exact h.1
  · exact congrArg Dirs.root (hg.dirs_of_not_ok c hr)

end Calls

/-! ## Valid names -/

/-- **All names are valid**, in every state that can be reached. -/
theorem Reachable.names_valid {w : World} (hw : Reachable w) :
    ∀ d, ∀ e ∈ w.fs.entries d, validateName e.1 = .ok () := by
  induction hw with
  | @build _ _ _ _ w hpos hrun =>
    intro d e he
    obtain ⟨w1, h1, hfs, -⟩ := ends_build.of_run hrun rfl
    have hents : w.fs.entries = update w1.fs.entries w1.fs.nextIno [] := by
      rw [hfs]
      exact congrArg Dirs.ents (dirs_withInode w1.fs .directory 0)
    rw [hents] at he
    by_cases hd : d = w1.fs.nextIno
    · rw [hd, update_self] at he
      exact absurd he not_mem_nil
    · rw [update_of_ne hd, Fs.entries, h1.node] at he
      exact absurd he not_mem_nil
  | @call w w' r hw c hrun ih =>
    intro d e he
    have hedited := hw.good.call_edited c hrun d
    by_cases hd : d ∈ w.fs.live
    · rcases (hedited.1 hd).names e he with he | he
      · exact ih d e he
      · exact he
    rcases hedited.2 hd with hsame | hnil
    · exact ih d e (hsame ▸ he)
    · rw [hnil] at he
      exact absurd he not_mem_nil
  | meanwhile _ _ _ ih => exact ih

end Edits

/-! ## Listing a directory

`Inode::readdir` hands the entries from a position on to a visitor, one after the other, until the
visitor has had enough, and leaves the position behind the last entry it has handed on.  It holds
the namespace mutex and that of the directory all the while, so the vector it walks over does not
change under it.
-/

section Listing

/-- `DirEntry`, without its times. -/
structure DirEntry where
  name : Str
  fileType : FileType
  ino : Nat
  uid : Nat
  gid : Nat
  mode : Nat

def Fs.dirEntry (fs : Fs) (e : Str × Nat) : DirEntry where
  name := e.1
  fileType := (fs.node e.2).fileType
  ino := e.2
  uid := (fs.node e.2).uid
  gid := (fs.node e.2).gid
  mode := (fs.node e.2).mode

/-- The loop of `readdir`, over the entries from `index` on.  The visitor keeps what it likes in a
state of its own, and says whether it wants more. -/
def readdirLoop {τ : Type} (visit : DirEntry → τ → Bool × τ) :
    List (Str × Nat) → Nat → Nat → τ → Op (Nat × Nat × τ)
  | [], index, emitted, t => return (emitted, index, t)
  | e :: es, index, emitted, t => do
    -- the metadata is read with the mutex of the inode held
    let entry ← withLock (.inner e.2) (load fun w => w.fs.dirEntry e)
    if (visit entry t).1 then readdirLoop visit es (index + 1) (emitted + 1) (visit entry t).2
    else return (emitted + 1, index + 1, (visit entry t).2)

/-- `Inode::readdir`: how many entries were handed on, and the cursor after it. -/
def readdir {τ : Type} (self cursor : Nat) (visit : DirEntry → τ → Bool × τ) (t : τ) :
    Op (Nat × Nat × τ) :=
  withLock .nodes do
    withLock (.inner self) do
      let entries ← entriesOf self
      readdirLoop visit (entries.drop cursor) cursor 0 t

/-- A visitor that keeps one entry. -/
def capture (entry : DirEntry) (_ : Option DirEntry) : Bool × Option DirEntry := (false, some entry)

/-- What `readdir` answers that visitor. -/
def Fs.next (fs : Fs) (es : List (Str × Nat)) (cursor : Nat) : Nat × Nat × Option DirEntry :=
  match es[cursor]? with
  | none => (0, cursor, none)
  | some e => (1, cursor + 1, some (fs.dirEntry e))

section Run

variable {w : World} {d : Nat} {es : List (Str × Nat)}

theorem run_withLock {α : Type} {p : Op α} {r : Except FsError α} (hl : l ∉ w.locks)
    (hp : run p { w with locks := l :: w.locks } = (some r, { w with locks := l :: w.locks })) :
    run (withLock l p) w = (some r, w) := by
  have h : Ends (withLock l p) (fun r' w' => r' = some r ∧ w' = w) w := by
    rw [ends_withLock hl, Ends, hp]
    simp
  exact Prod.ext h.1 h.2

/-- `readdir` alone: it returns, and changes nothing. -/
theorem run_readdir (hlocks : w.locks = []) (hes : (w.fs.node d).storage = .directory es)
    (hne : ∀ e ∈ es, e.2 ≠ d) (cursor : Nat) :
    run (readdir d cursor capture none) w = (some (.ok (w.fs.next es cursor)), w) := by
  refine run_withLock (by simp [hlocks]) (run_withLock (by simp [hlocks]) ?_)
  have hentries : run (entriesOf d) { w with locks := .inner d :: .nodes :: w.locks } =
      (some (.ok es), { w with locks := .inner d :: .nodes :: w.locks }) := by
    simp [entriesOf, load, step, run, Prog.bind, hes, Storage.entries, Prog.ofExcept]
  rw [bind_eq, run_bind_ok hentries, Fs.next]
  rcases hcursor : es[cursor]? with _ | e
  · rw [drop_eq_nil_of_le (List.getElem?_eq_none_iff.1 hcursor)]
    rfl
  obtain ⟨hlt, rfl⟩ := List.getElem?_eq_some_iff.1 hcursor
  have hmem := getElem_mem hlt
  rw [drop_eq_getElem_cons hlt, readdirLoop, bind_eq, run_bind_ok (run_withLock ?_ rfl)]
  · rfl
  · simpa [hlocks] using hne _ hmem

end Run

end Listing

end Krust.Memfs
