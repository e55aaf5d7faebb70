import Lilsync.Lib.Machine
import Lilsync.Lib.Posix.Confine
import Lilsync.State.Later
import Lilsync.State.Remote
import Lilsync.State.Sound

/-!
# A folder keeps to itself

What a node does on the disk it does below its folder.  Remote entries choose where:
their paths are checked by their letters, and so are the targets of their links, but a
path is followed through the links that lie on the disk by then.  As the links of a
folder lead down only, that never leads out of it (`confined_of_reachable`).  It does
lead into the state directory, through a link at the top of the folder that is so named;
where there is none, and none is received, only downloaded objects are touched there.
-/

namespace Lilsync

open Lilsync.Lib Lilsync.Lib.Proc Lilsync.Lib.Posix Lilsync.Lib.Posix.Disk

/-! ## Places of a folder -/

/-- The name of a downloaded object, as `cleanup_recv_files` knows it. -/
def IsRecv (name : Str) : Prop := (lit "recv-").isPrefixOf (Utf8.lossy name)

instance (name : Str) : Decidable (IsRecv name) := inferInstanceAs (Decidable (_ = true))

/-- Where the program works: at the entries of the folder, or, if the state directory is
`sealed`, at the other entries and at downloaded objects. -/
inductive Place (root : PathBuf) (sealed : Bool) : PathBuf → Prop where
  | entry {n : Str} (hn : IsEntry n) (hsealed : sealed → n ≠ stateDir) :
      Place root sealed (root ++ [n])
  | object {n : Str} (hsealed : sealed) (hn : IsRecv n) : Place root sealed (root ++ [stateDir, n])

theorem IsRecv.isEntry {n : Str} (h : IsRecv n) : IsEntry n := by
  constructor
  · rintro rfl
    exact absurd h (by decide)
  · rintro rfl
    exact absurd h (by decide)

section Places

variable {root : PathBuf} {sealed : Bool}

theorem subtrees_place (hroot : ∀ n ∈ root, IsEntry n) : Subtrees (Place root sealed) where
  ne_nil := by
    rintro _ (_ | _) <;> simp
  isEntry := by
    rintro _ (⟨hn, -⟩ | ⟨-, hn⟩) m hm
    · rcases List.mem_append.mp hm with hm | hm
      · exact hroot m hm
      · exact List.mem_singleton.mp hm ▸ hn
    · rcases List.mem_append.mp hm with hm | hm
      · exact hroot m hm
      · rcases List.mem_cons.mp hm with rfl | hm
        · exact ⟨by decide, by decide⟩
        · exact List.mem_singleton.mp hm ▸ hn.isEntry
  eq_of_prefix := by
    rintro _ _ (⟨-, hne⟩ | ⟨hs, -⟩) (⟨-, hne'⟩ | ⟨hs', -⟩) hpre
    · exact hpre.eq_of_length (by simp)
    · rw [List.prefix_append_right_inj, List.cons_prefix_cons] at hpre
      exact absurd hpre.1 (hne hs')
    · have hlen := hpre.length_le
      simp at hlen
    · exact hpre.eq_of_length (by simp)

/-- By its letters the path is in a subtree. -/
structure Spot (H : PathBuf → Prop) (path : PathBuf) : Prop where
  dot : dot ∉ path
  down : dotdot ∉ path
  inside : In H path

theorem Spot.enters {H : PathBuf → Prop} {path : PathBuf} (h : Spot H path) : Enters H [] path :=
  (enters_nil_iff h.dot).mpr ⟨h.down, h.inside⟩

/-- Proper names below a place. -/
theorem spot_append {t : PathBuf} {names : List Str} (hroot : ∀ n ∈ root, IsEntry n)
    (ht : Place root sealed t) (hnames : ∀ n ∈ names, IsEntry n) :
    Spot (Place root sealed) (t ++ names) := by
  have hentry : ∀ n ∈ t ++ names, IsEntry n := fun n hn ↦
    (List.mem_append.mp hn).elim ((subtrees_place hroot).isEntry t ht n) (hnames n)
  exact ⟨fun h ↦ (hentry _ h).1 rfl, fun h ↦ (hentry _ h).2 rfl, t, ht, List.prefix_append _ _⟩

/-! ## Texts that were checked -/

/-- The names in a path that peers accept. -/
theorem names_of_validRemotePath {path : Str} (h : ValidRemotePath path) :
    root.join path = root ++ path.splitOn slash ∧
      ∀ n ∈ path.splitOn slash, IsEntry n ∧ n ≠ stateDir := by
  rw [ValidRemotePath, validateRemotePath] at h
  split at h
  · cases h
  split at h
  · cases h
  split at h
  · cases h
  next hpieces =>
  split at h
  · cases h
  next habs =>
  rw [Bool.not_eq_true, List.any_eq_false] at hpieces
  have hpiece : ∀ n ∈ path.splitOn slash, n ≠ [] ∧ IsEntry n ∧ n ≠ stateDir := by
    intro n hn
    have hnot := hpieces n hn
    simp only [Bool.or_eq_true, beq_iff_eq, not_or] at hnot
    obtain ⟨⟨⟨hnil, hdot⟩, hdotdot⟩, hignored⟩ := hnot
    refine ⟨hnil, ⟨hdot, hdotdot⟩, ?_⟩
    rintro rfl
    exact hignored (by decide)
  rw [Bool.not_eq_true, Bool.or_eq_false_iff] at habs
  refine ⟨?_, fun n hn ↦ (hpiece n hn).2⟩
  rw [PathBuf.join, habs.1, if_neg Bool.false_ne_true, PathBuf.names]
  refine congrArg _ (List.filter_eq_self.mpr fun n hn ↦ decide_eq_true ?_)
  exact ⟨(hpiece n hn).1, (hpiece n hn).2.1.1⟩

/-- The name a link leads to first. -/
def firstName (target : Str) : Str := (target.splitOn slash).headD []

/-- What is known of the target of a link: it is relative and leads down, by a first name. -/
structure LeadsDown (target first : Str) : Prop where
  relative : target.head? ≠ some separator
  down : dotdot ∉ targetNames target
  first : ∃ rest, (targetNames target).filter (· ≠ dot) = first :: rest

theorem LeadsDown.isEntry {target first : Str} (h : LeadsDown target first) : IsEntry first := by
  obtain ⟨rest, hrest⟩ := h.first
  have hmem : first ∈ (targetNames target).filter (· ≠ dot) := hrest ▸ List.mem_cons_self
  obtain ⟨hmem, hdot⟩ := List.mem_filter.mp hmem
  exact ⟨of_decide_eq_true hdot, fun heq ↦ h.down (heq ▸ hmem)⟩

/-- Peers and scans accept the targets that lead down. -/
theorem leadsDown_of_validateSymlinkTarget {target : Str}
    (h : validateSymlinkTarget target = .ok ()) : LeadsDown target (firstName target) := by
  rw [validateSymlinkTarget] at h
  split at h
  · cases h
  next hchars =>
  split at h
  · cases h
  next habs =>
  rw [Bool.not_eq_true, Bool.or_eq_false_iff, isAbsolute, beq_eq_false_iff_ne] at habs
  obtain ⟨hrel, hspecial⟩ := habs
  have hrel' : isAbsolute target = false := beq_eq_false_iff_ne.mpr hrel
  rw [components, hrel', if_neg Bool.false_ne_true] at hspecial
  cases target with
  | nil => exact absurd (.inl rfl) hchars
  | cons c target =>
    have hc : c ≠ slash := fun heq ↦ hrel (congrArg some heq)
    have hsplit : (c :: target).splitOn slash =
        (target.splitOn slash).modifyHead (List.cons c) := by
      rw [List.splitOn, List.splitOnP_cons_eq_if_modifyHead, if_neg (by simpa using hc)]
      rfl
    obtain ⟨first, more, hfirst⟩ : ∃ first more, target.splitOn slash = first :: more :=
      List.exists_cons_of_ne_nil (List.splitOnP_ne_nil _ _)
    rw [hfirst, List.modifyHead_cons] at hsplit
    split at hspecial
    · cases hspecial
    next hdot =>
    have hfirst' : firstName (c :: target) = c :: first := by rw [firstName, hsplit]; rfl
    rw [hsplit, List.head?_cons] at hdot
    have hne : c :: first ≠ dot := fun heq ↦ hdot (congrArg some heq)
    have htargets : targetNames (c :: target) = (c :: first) :: (more.filter (· ≠ []) ++
        if (c :: target).getLast? = some separator then [Lib.Posix.dot] else []) := by
      have hpieces : ((c :: target).splitOn separator).filter (· ≠ []) =
          (c :: first) :: more.filter (· ≠ []) := by
        change ((c :: target).splitOn slash).filter _ = _
        rw [hsplit, List.filter_cons_of_pos (by simp)]
      rw [targetNames, hpieces, List.cons_append]
    refine ⟨hrel, fun hmem ↦ ?_, ?_⟩
    · have hpiece : dotdot ∈ (c :: target).splitOn slash := by
        rw [targetNames] at hmem
        rcases List.mem_append.mp hmem with hmem | hmem
        · exact (List.mem_filter.mp hmem).1
        · split at hmem
          · exact absurd (List.mem_singleton.mp hmem) (by decide)
          · cases hmem
      rw [List.any_eq_false] at hspecial
      exact hspecial .parentDir (List.mem_filterMap.mpr ⟨_, hpiece, rfl⟩) rfl
    · rw [htargets, hfirst', List.filter_cons_of_pos (by simpa using hne)]
      exact ⟨_, rfl⟩

/-- A link fits where an entry goes, unless it leads from the top of the folder into a state
directory that is sealed. -/
theorem linkFits_join {path target first : Str} (hroot : ∀ n ∈ root, IsEntry n)
    (hvalid : ValidRemotePath path) (hlink : LeadsDown target first)
    (hfirst : slash ∉ path → sealed → first ≠ stateDir) :
    LinkFits (Place root sealed) (root.join path) target := by
  obtain ⟨hjoin, hnames⟩ := @names_of_validRemotePath root path hvalid
  obtain ⟨rest, hrest⟩ := hlink.first
  have hnamed : (targetNames target).filter (· ≠ dot) ≠ [] := hrest ▸ List.cons_ne_nil _ _
  rw [hjoin]
  rcases List.eq_nil_or_concat (path.splitOn slash) with hnil | ⟨init, x, hinit⟩
  · exact absurd hnil (List.splitOnP_ne_nil _ _)
  · rw [hinit] at hnames ⊢
    have hx := hnames x (by simp)
    cases init with
    | nil =>
      have hslash : slash ∉ path := by
        have hpath : [slash].intercalate (path.splitOn slash) = path :=
          List.intercalate_splitOn slash
        rw [hinit, List.concat_eq_append, List.nil_append, List.intercalate_singleton] at hpath
        rw [← hpath]
        exact SlashPath.notMem_of_mem_splitOn (p := path) (by rw [hinit]; simp)
      refine linkFits_of_head (subtrees_place hroot) hx.1 (.entry hx.1 fun _ ↦ hx.2)
        ⟨hlink.relative, hnamed, hlink.down, root ++ [first], ?_, ?_⟩
      · exact .entry hlink.isEntry (hfirst hslash)
      · rw [hrest]
        exact ⟨rest, by simp⟩
    | cons n init =>
      have hspot : Spot (Place root sealed) ((root ++ [n]) ++ init) :=
        spot_append hroot (.entry (hnames n (by simp)).1 fun _ ↦ (hnames n (by simp)).2)
          fun m hm ↦ (hnames m (by simp [hm])).1
      have hfits : LinkFits (Place root sealed) (((root ++ [n]) ++ init) ++ [x]) target :=
        linkFits_of_in hx.1 hspot.enters hlink.relative hnamed hlink.down
      simpa using hfits

end Places

/-! ## Calls on a path into the subtrees -/

section Calls

open FileSystem

variable {H : PathBuf → Prop} {path : PathBuf}

theorem keepsTo_later {d d' : Disk} (h : Later d d') : KeepsTo H d d' := by
  obtain ⟨t, rfl⟩ := h
  exact fun hd ↦ ⟨⟨hd.dirs, hd.names, hd.links⟩, fun _ _ ↦ rfl, fun _ hi ↦ ⟨hi, rfl⟩⟩

theorem looks_keepsTo : Looks (KeepsTo H) where
  symlinkMetadata p := (looks_later.symlinkMetadata p).mono fun _ _ ↦ keepsTo_later
  readDir p := (looks_later.readDir p).mono fun _ _ ↦ keepsTo_later
  read p := (looks_later.read p).mono fun _ _ ↦ keepsTo_later
  readLink p := (looks_later.readLink p).mono fun _ _ ↦ keepsTo_later
  canonicalize p := (looks_later.canonicalize p).mono fun _ _ ↦ keepsTo_later
  writeAtomic p := (looks_later.writeAtomic p).mono fun _ _ ↦ keepsTo_later
  now := looks_later.now.mono fun _ _ ↦ keepsTo_later
  sleep t := (looks_later.sleep t).mono fun _ _ ↦ keepsTo_later

/-- What is listed are names, on a disk that has no other ones. -/
theorem ne_dotdot_of_readDir {d d' : Disk} {names : List Str} (hd : Confined H d)
    (h : exec (readDir path : Fs Disk (List Str)) d = (.ok names, d')) :
    ∀ n ∈ names, n ≠ dotdot := by
  have hread : (Posix.readDir d path).mapError ofErrno = .ok names := congrArg Prod.fst h
  rw [Posix.readDir] at hread
  split at hread
  · cases hread
  · cases hread
    rintro n hn rfl
    obtain ⟨o, ho⟩ := mem_childNames.mp hn
    exact hd.names _ _ ho (by simp)
  · cases hread

variable (hH : Subtrees H)

include hH

theorem keepsTo_setMode (hp : Enters H [] path) (mode : Option UInt32) :
    Keeps (KeepsTo H) (setMode path mode : Fs Disk Unit) := by
  cases mode with
  | none => exact keeps_pure _
  | some mode => exact keeps_change fun _ _ ↦ keepsTo_chmod hH hp

theorem keepsTo_makeDirTreeWritable (depth : Nat) (hp : Enters H [] path) :
    Keeps (KeepsTo H) (makeDirTreeWritable depth path : Fs Disk Unit) := by
  induction depth generalizing path with
  | zero => exact keeps_throw _
  | succ depth ih =>
    refine (looks_keepsTo.symlinkMetadata path).bind fun metadata ↦ ?_
    split
    · exact keeps_pure _
    · refine (keepsTo_setMode hH hp _).bind fun _ ↦ ?_
      intro d hd
      rw [exec_bind]
      match hread : exec (readDir path : Fs Disk (List Str)) d with
      | (.error err, d') =>
        have hsame := (looks_keepsTo : Looks (KeepsTo H)).readDir path d hd
        rwa [hread] at hsame
      | (.ok children, d') =>
        have hnames := ne_dotdot_of_readDir hd hread
        have hsame := (looks_keepsTo : Looks (KeepsTo H)).readDir path d
        rw [hread] at hsame
        refine trans_of (KeepsTo H) hsame (Keeps.forM (fun child hchild ↦ ?_) d') hd
        have hdown : dotdot ∉ [child] := fun h ↦ hnames child hchild (List.mem_singleton.mp h).symm
        refine (looks_keepsTo.symlinkMetadata _).bind fun childMetadata ↦ ?_
        split
        · exact ih (hp.append hdown)
        · exact keeps_pure _

theorem keepsTo_removePathIfExists (hp : Enters H [] path) :
    Keeps (KeepsTo H) (removePathIfExists path : Fs Disk Unit) := by
  refine (looks_keepsTo.symlinkMetadata path).attempt.bind fun r ↦ ?_
  split
  · split
    · refine keeps_get.bind fun d ↦ (keepsTo_makeDirTreeWritable hH _ hp).bind fun _ ↦ ?_
      exact keeps_change fun _ _ ↦ keepsTo_removeTree hH hp
    · exact keeps_change fun _ _ ↦ keepsTo_unlink hH hp
  · split
    · exact keeps_pure _
    · exact keeps_throw _

theorem keepsTo_createDirAll (hp : Spot H path) :
    Keeps (KeepsTo H) (createDirAll path : Fs Disk Unit) :=
  keepsTo_mkdirAll hH hp.dot hp.down (.inl hp.inside)

/-- The directory an entry goes to is in a subtree, or a subtree lies in it. -/
theorem keepsTo_createParent (hp : Spot H path) :
    Keeps (KeepsTo H) (createParent path : Fs Disk Unit) := by
  rw [createParent]
  split
  · next parent hparent =>
    rw [PathBuf.parent] at hparent
    split at hparent
    · cases hparent
    next hne =>
    obtain rfl := Option.some.inj hparent
    have hsplit := List.dropLast_append_getLast hne
    refine keepsTo_mkdirAll hH (fun h ↦ hp.dot (List.dropLast_subset _ h))
      (fun h ↦ hp.down (List.dropLast_subset _ h)) ?_
    obtain ⟨t, ht, htp⟩ := hp.inside
    rw [← hsplit] at htp
    rcases List.prefix_concat_iff.mp htp with heq | htp
    · refine .inr ⟨t, ht, heq ▸ List.prefix_append _ _, fun h ↦ ?_⟩
      have hlen := congrArg List.length (h.trans heq)
      simp at hlen
    · exact .inl ⟨t, ht, htp⟩
  · exact keeps_pure _

theorem keepsTo_installDir (hp : Spot H path) :
    Keeps (KeepsTo H) (installDir path : Fs Disk Unit) := by
  refine (looks_keepsTo.symlinkMetadata path).attempt.bind fun r ↦ ?_
  split
  · split
    · exact keeps_pure _
    · exact (keepsTo_removePathIfExists hH hp.enters).bind fun _ ↦ keepsTo_createDirAll hH hp
  · split
    · exact keepsTo_createDirAll hH hp
    · exact keeps_throw _

end Calls

/-! ## Installing -/

section Install

variable {root : PathBuf} {sealed : Bool} {remote : Entry} {tmp : Option PathBuf}

/-- An entry with the object downloaded for it.  If the state directory is to be left alone,
the entry is no link to it at the top of the folder. -/
structure Tame (root : PathBuf) (sealed : Bool) (remote : Entry) (tmp : Option PathBuf) : Prop where
  object : ∀ path ∈ tmp, ∃ n, path = root ++ [stateDir, n] ∧ IsRecv n
  link : sealed → slash ∉ remote.path → ∀ target ∈ remote.symlinkTarget,
    firstName target ≠ stateDir

variable (hroot : ∀ n ∈ root, IsEntry n)

include hroot

theorem spot_join (hvalid : ValidRemotePath remote.path) :
    Spot (Place root sealed) (root.join remote.path) := by
  obtain ⟨hjoin, hnames⟩ := @names_of_validRemotePath root remote.path hvalid
  rw [hjoin]
  obtain ⟨n, names, hsplit⟩ : ∃ n names, remote.path.splitOn slash = n :: names :=
    List.exists_cons_of_ne_nil (List.splitOnP_ne_nil _ _)
  rw [hsplit] at hnames ⊢
  have hspot := @spot_append root sealed (root ++ [n]) names hroot
    (.entry (hnames n (by simp)).1 fun _ ↦ (hnames n (by simp)).2)
    fun m hm ↦ (hnames m (by simp [hm])).1
  rwa [List.append_assoc, List.singleton_append] at hspot

theorem spot_object {n : Str} (hn : IsRecv n) :
    Spot (Place root sealed) (root ++ [stateDir, n]) := by
  cases sealed with
  | true =>
    simpa using @spot_append root true _ [] hroot (.object rfl hn) (List.forall_mem_nil _)
  | false =>
    have hspot := @spot_append root false (root ++ [stateDir]) [n] hroot
      (.entry ⟨by decide, by decide⟩ (by rintro ⟨⟩)) fun m hm ↦ List.mem_singleton.mp hm ▸ hn.isEntry
    rwa [List.append_assoc, List.singleton_append] at hspot

/-- A downloaded object that is a link, though none is ever made, fits where it is moved. -/
theorem linkFits_of_object {d : Disk} {real : PathBuf} {n target : Str} {path : Str}
    (hd : Confined (Place root sealed) d) (hn : IsRecv n) (hvalid : ValidRemotePath path)
    (hreal : d.resolve false (root ++ [stateDir, n]) = .ok real)
    (hlink : d.obj real = some (.symlink target)) :
    LinkFits (Place root sealed) (root.join path) target := by
  have hH := @subtrees_place root sealed hroot
  have hin := (in_of_resolve hd (spot_object hroot hn).enters hreal).1
  have hpath : root ++ [stateDir, n] = (root ++ [stateDir]) ++ [n] := by simp
  rw [hpath] at hreal
  obtain ⟨dir, rfl, hdir⟩ := resolve_concat hn.isEntry hreal
  obtain ⟨hrel, hnamed, hdown, hinto⟩ := hd.links dir n target hin hlink
  obtain ⟨first, rest, hfirst⟩ := List.exists_cons_of_ne_nil hnamed
  refine linkFits_join hroot hvalid ⟨hrel, hdown, rest, hfirst⟩ ?_
  rintro - hsealed rfl
  -- in the state directory, a link has to lead to an object
  have hpre : root ++ [stateDir] <+: root ++ [stateDir, n] := hpath ▸ List.prefix_append _ _
  rw [resolve_of_above hd hH (.object hsealed hn) hpre (by simp)] at hdir
  cases hdir
  rw [hfirst, List.append_assoc] at hinto
  obtain ⟨t, ht, htp⟩ := hinto
  cases ht with
  | entry hm hne =>
    rw [List.prefix_append_right_inj, List.singleton_append, List.cons_prefix_cons] at htp
    exact hne hsealed htp.1
  | object _ hm =>
    rw [List.prefix_append_right_inj, List.singleton_append, List.cons_prefix_cons,
      List.cons_prefix_cons] at htp
    rw [htp.2.1] at hm
    exact absurd hm (by decide)

theorem keepsTo_installRemoteFile (hvalid : ValidRemotePath remote.path) {n : Str} (hn : IsRecv n) :
    Keeps (KeepsTo (Place root sealed))
      (installRemoteFile root remote (root ++ [stateDir, n]) : Fs Disk Unit) := by
  have hH := @subtrees_place root sealed hroot
  have hspot := @spot_join root sealed remote hroot hvalid
  refine (keepsTo_createParent hH hspot).bind fun _ ↦
    (keepsTo_removePathIfExists hH hspot.enters).bind fun _ ↦
      Keeps.bind (keeps_change fun d d' hrename ↦ ?_) fun _ ↦ keepsTo_setMode hH hspot.enters _
  refine keepsTo_rename hH (spot_object hroot hn).enters hspot.enters ?_ hrename
  intro real target hd hreal hlink
  exact linkFits_of_object hroot hd hn hvalid hreal hlink

theorem keepsTo_installRemoteSymlink (hvalid : ValidRemotePath remote.path)
    (h : Tame root sealed remote tmp) :
    Keeps (KeepsTo (Place root sealed)) (installRemoteSymlink root remote : Fs Disk Unit) := by
  have hH := @subtrees_place root sealed hroot
  have hspot := @spot_join root sealed remote hroot hvalid
  rw [installRemoteSymlink]
  split
  · exact keeps_throw _
  next target htarget =>
  split
  · exact keeps_throw _
  next hvalidate =>
  refine (keepsTo_createParent hH hspot).bind fun _ ↦
    (keepsTo_removePathIfExists hH hspot.enters).bind fun _ ↦ keeps_change fun d d' hmake ↦ ?_
  have hlink := leadsDown_of_validateSymlinkTarget hvalidate
  refine keepsTo_symlink hH hspot.enters ?_ hmake
  exact linkFits_join hroot hvalid hlink fun hslash hsealed ↦ h.link hsealed hslash target htarget

/-- Whatever is installed, it stays in the folder. -/
theorem keepsTo_installRemote (hvalid : ValidRemotePath remote.path)
    (h : Tame root sealed remote tmp) :
    Keeps (KeepsTo (Place root sealed)) (installRemote root remote tmp : Fs Disk Unit) := by
  have hH := @subtrees_place root sealed hroot
  have hspot := @spot_join root sealed remote hroot hvalid
  rw [installRemote.eq_def]
  split
  · split
    · exact keeps_throw _
    · obtain ⟨n, rfl, hn⟩ := h.object _ rfl
      exact keepsTo_installRemoteFile hroot hvalid hn
  · exact (keepsTo_installDir hH hspot).bind fun _ ↦ keepsTo_setMode hH hspot.enters _
  · exact keepsTo_installRemoteSymlink hroot hvalid h
  · exact keepsTo_removePathIfExists hH hspot.enters

end Install

/-! ## Methods -/

namespace Looks

variable {W : Type} [FileSystem W] [Blake3] {L : W → W → Prop} [IsPreorder W L] (h : Looks L)

omit [FileSystem W] [Blake3] in
theorem modifyFolder {f : FolderState → FolderState}
    (hf : ∀ folder, (f folder).root = folder.root) :
    Keeps (KeptFolder L) (NodeM.modifyFolder f : NodeM W Unit) :=
  keeps_modify fun n ↦ ⟨refl_of L n.world, hf n.folder⟩

omit [FileSystem W] in
theorem pruneTombstones :
    Keeps (KeptFolder L) (pruneTombstonesCoveredByWatermark : NodeM W Nat) := by
  rw [pruneTombstonesCoveredByWatermark]
  refine keeps_get.bind fun n ↦ ?_
  dsimp only
  split
  · exact Keeps.bind (modifyFolder fun _ ↦ rfl) fun _ ↦ keeps_pure _
  · exact keeps_pure _

include h

omit [Blake3] in
theorem raiseGcWatermark (incoming : GcWatermark) :
    Keeps (KeptFolder L) (raiseGcWatermark incoming : NodeM W Bool) := by
  rw [Lilsync.raiseGcWatermark]
  refine keeps_get.bind fun n ↦ ?_
  dsimp only
  refine Keeps.bind (modifyFolder fun _ ↦ rfl) fun _ ↦ ?_
  split
  · refine (h.saveFile _ _).bind fun _ ↦ Keeps.bind ?_ fun _ ↦ keeps_pure _
    rw [catchUp]
    refine keeps_get.bind fun n ↦ ?_
    dsimp only
    split
    · exact Keeps.bind (modifyFolder fun _ ↦ rfl) fun _ ↦ h.saveFile _ _
    · exact keeps_pure _
  · exact keeps_pure _

theorem mergeGcWatermark (incoming : GcWatermark) :
    Keeps (KeptFolder L) (mergeGcWatermark incoming : NodeM W (Bool × Nat)) := by
  rw [Lilsync.mergeGcWatermark]
  refine Keeps.bind (h.raiseGcWatermark incoming) fun changed ↦
    Keeps.bind pruneTombstones fun pruned ↦ ?_
  split
  · exact Keeps.bind (modifyFolder fun _ ↦ rfl) fun _ ↦ Keeps.bind (h.saveFile _ _) fun _ ↦
      keeps_pure _
  · exact keeps_pure _

theorem gcTombstonesForConvergedRoot :
    Keeps (KeptFolder L) (gcTombstonesForConvergedRoot : NodeM W Nat) := by
  rw [Lilsync.gcTombstonesForConvergedRoot]
  refine keeps_get.bind fun n ↦ ?_
  dsimp only
  split
  · exact keeps_pure _
  · exact (h.mergeGcWatermark _).bind fun _ ↦ keeps_pure _

end Looks

section Methods

open NodeM FileSystem

variable {root : PathBuf} {sealed : Bool} {remote : Entry} {tmp : Option PathBuf}
  {batch : List (Entry × Option PathBuf)}

/-- The folder is at `root`, and nothing leads out of it. -/
def Settled (root : PathBuf) (sealed : Bool) (n : Node Disk) : Prop :=
  n.folder.root = root ∧ Confined (Place root sealed) n.world

/-- A settled folder stays where it is, and keeps to itself on the disk. -/
def Stays (root : PathBuf) (sealed : Bool) (n n' : Node Disk) : Prop :=
  Settled root sealed n → n'.folder.root = root ∧ Spares (Place root sealed) n.world n'.world

instance : IsPreorder (Node Disk) (Stays root sealed) where
  refl n h := ⟨h.1, refl_of (KeepsTo (Place root sealed)) n.world h.2⟩
  trans _ _ _ h h' hn := by
    obtain ⟨hn', hd⟩ := h hn
    obtain ⟨hn'', hd'⟩ := h' ⟨hn', hd.confined⟩
    exact ⟨hn'', trans_of (KeepsTo (Place root sealed)) (fun _ ↦ hd) (fun _ ↦ hd') hn.2⟩

theorem Lib.Proc.Keeps.stays {α : Type} {m : NodeM Disk α}
    (h : Keeps (KeptFolder (KeepsTo (Place root sealed))) m) : Keeps (Stays root sealed) m :=
  h.mono fun _ _ hkept hn ↦ ⟨hkept.2.trans hn.1, hkept.1 hn.2⟩

variable (hroot : ∀ n ∈ root, IsEntry n)

include hroot

theorem stays_applyRemoteEntryCore (h : Tame root sealed remote tmp) :
    Keeps (Stays root sealed) (applyRemoteEntryCore remote tmp : NodeM Disk (List Change)) := by
  intro n hn
  rw [applyRemoteEntryCore.eq_def]
  cases hvalid : validateRemotePath remote.path with
  | error err => exact refl_of (Stays root sealed) n hn
  | ok _ =>
    rw [NodeM.ofResult, exec_pure_bind, exec_get_bind]
    dsimp only
    split
    · cases tmp with
      | none => exact refl_of (Stays root sealed) n hn
      | some path =>
        obtain ⟨name, rfl, hname⟩ := h.object _ rfl
        have hremove : Keeps (KeepsTo (Place root sealed))
            (removeFile (root ++ [stateDir, name]) : Fs Disk Unit) :=
          keeps_change fun _ _ ↦
            keepsTo_unlink (subtrees_place hroot) (spot_object hroot hname).enters
        exact ((keptFolder_fs hremove).attempt.bind fun _ ↦ keeps_pure _).stays n hn
    · have hinstall := keepsTo_installRemote hroot hvalid h
      rw [← hn.1] at hinstall
      have hkept := (keptFolder_fs hinstall).bind fun _ ↦
        keptFolder_record (fun st ↦ Replica.recordRemote st.1 remote) []
      rw [hn.1] at hkept ⊢
      exact hkept.stays n hn

variable [Blake3]

/-- Applying remote entries, whether it succeeds or fails. -/
theorem stays_applyRemoteEntries (h : ∀ item ∈ batch, Tame root sealed item.1 item.2) :
    Keeps (Stays root sealed) (applyRemoteEntries batch : NodeM Disk (List Change)) := by
  refine Keeps.bind ?_ fun changes ↦
    (looks_keepsTo.commitChanges changes).stays.bind fun _ ↦ keeps_pure _
  rw [applyRemoteBatch]
  generalize ([] : List Change) = changes
  induction batch generalizing changes with
  | nil => exact keeps_pure _
  | cons item batch ih =>
    rw [List.forall_mem_cons] at h
    exact Keeps.bind ((stays_applyRemoteEntryCore hroot h.1).bind fun _ ↦ keeps_pure _)
      fun _ ↦ ih h.2 _

omit [Blake3] in
theorem keepsTo_cleanupRecvFiles : Keeps (KeepsTo (Place root sealed))
    (cleanupRecvFiles (root ++ [stateDir]) : Fs Disk Unit) := by
  refine (looks_keepsTo.readDir _).attempt.bind fun r ↦ ?_
  split
  · exact keeps_pure _
  · refine Keeps.forM fun name _ ↦ ?_
    split
    · next hname =>
      have hspot := @spot_object root sealed hroot name hname
      rw [← List.singleton_append, ← List.append_assoc] at hspot
      exact (keepsTo_removePathIfExists (subtrees_place hroot) hspot.enters).attempt.bind fun _ ↦
        keeps_pure _
    · exact keeps_pure _

omit [Blake3] in
/-- The path of the folder is its real path. -/
theorem exec_canonicalize_root {n : Node Disk} (h : Settled root sealed n) :
    exec (fs (canonicalize root)) n = (.ok root, n) := by
  have hplace : Place root sealed (root ++ [lit "a"]) :=
    .entry ⟨by decide, by decide⟩ fun _ ↦ by decide
  have hpre : root <+: root ++ [lit "a"] := List.prefix_append _ _
  obtain ⟨m, hm⟩ := h.2.dirs _ root hplace hpre (by simp)
  have hfind : n.world.find true root = .ok (root, .dir m) := by
    rw [find, resolve_of_above h.2 (subtrees_place hroot) hplace hpre (by simp)]
    dsimp only
    rw [hm]
  rw [exec_fs_world]
  change ((((n.world.find true root).map Prod.fst).mapError ofErrno), n) = _
  rw [hfind]
  rfl

/-- Starting on the folder, or over again. -/
theorem stays_folderStateNew (origin : Str) :
    Keeps (Stays root sealed) (FolderState.new root origin : NodeM Disk Unit) := by
  intro n hn
  have hH := @subtrees_place root sealed hroot
  have hjoin : root.join stateDir = root ++ [stateDir] := rfl
  have hdir : Keeps (KeepsTo (Place root sealed))
      (createDirAll (root ++ [stateDir]) : Fs Disk Unit) := by
    have hentry : ∀ m ∈ root ++ [stateDir], IsEntry m := fun m hm ↦
      (List.mem_append.mp hm).elim (hroot m) fun hm ↦
        List.mem_singleton.mp hm ▸ ⟨by decide, by decide⟩
    refine keepsTo_mkdirAll hH (fun h ↦ (hentry _ h).1 rfl) (fun h ↦ (hentry _ h).2 rfl) ?_
    cases sealed with
    | true =>
      refine .inr ⟨_, .object (n := lit "recv-") rfl (by decide), ?_, by simp⟩
      exact ⟨[lit "recv-"], by simp⟩
    | false => exact .inl ⟨_, .entry ⟨by decide, by decide⟩ (by rintro ⟨⟩), List.prefix_rfl⟩
  have hload (entries : Index) : Keeps (Stays root sealed) (modify fun n ↦ { n with
      folder := FolderState.load root origin n.store entries n.folder.minted } :
      NodeM Disk PUnit) := by
    refine keeps_modify fun n hn ↦ ⟨rfl, ?_⟩
    exact refl_of (KeepsTo (Place root sealed)) n.world hn.2
  have hlooks : Looks (KeepsTo (Place root sealed)) := looks_keepsTo
  have hsave (c : Prop) [Decidable c] :
      Keeps (Stays root sealed) (Proc.when c saveEntries : NodeM Disk Unit) := by
    rw [Proc.when]
    split
    · exact (hlooks.saveFile _ _).stays
    · exact keeps_pure _
  rw [FolderState.new, exec_bind_ok (exec_canonicalize_root hroot hn)]
  refine (Keeps.bind (keptFolder_fs hdir).stays fun _ ↦
    Keeps.bind (keptFolder_fs (keepsTo_cleanupRecvFiles hroot)).stays fun _ ↦ ?_) n hn
  refine Keeps.bind keeps_get fun n ↦ Keeps.bind ?_ fun entries ↦ ?_
  · rw [NodeM.ofResult.eq_def]
    split
    · exact keeps_pure _
    · exact keeps_throw _
  · refine Keeps.bind (hload entries) fun _ ↦ Keeps.bind Looks.pruneTombstones.stays fun pruned ↦ ?_
    refine Keeps.bind (hsave _) fun _ ↦ Keeps.bind hlooks.rescan.stays fun changes ↦ ?_
    exact Keeps.bind (hsave _) fun _ ↦ (hlooks.saveFile _ _).stays

end Methods

/-! ## Every run -/

/-- What happens to a node: it starts, a method is called, or its folder and its state files
are changed by somebody else. -/
inductive FolderAct where
  | start (origin : Str)
  | call (call : Call)
  | edit (world : Disk) (store : Store)

/-- The object of each entry of a batch is a downloaded one, and no link leads from the top of
the folder to a state directory that is sealed. -/
def Call.Tame (root : PathBuf) (sealed : Bool) : Call → Prop
  | .applyRemoteEntries batch => ∀ item ∈ batch, Lilsync.Tame root sealed item.1 item.2
  | .rescan | .applyPaths _ | .mergeGcWatermark _ | .gcTombstonesForConvergedRoot => True

namespace FolderAct

section Run

variable [Blake3]

/-- The node after an act, whether it succeeded or failed. -/
def run (root : PathBuf) (n : Node Disk) : FolderAct → Node Disk
  | .start origin => (exec (FolderState.new root origin) n).2
  | .call c => c.run n
  | .edit world store => { n with world, store }

/-- Acts of the node itself. -/
def IsOwn : FolderAct → Prop
  | .start _ | .call _ => True
  | .edit _ _ => False

/-- Calls are tame, and others leave links in the folder only that lead down. -/
def Allowed (root : PathBuf) (sealed : Bool) : FolderAct → Prop
  | .start _ => True
  | .call c => c.Tame root sealed
  | .edit world _ => Confined (Place root sealed) world

/-- The runs of a node on a folder that nothing leads out of. -/
def machine (root : PathBuf) (sealed : Bool) : Machine (Node Disk) where
  init := Settled root sealed
  step n n' := ∃ act : FolderAct, act.Allowed root sealed ∧ n' = act.run root n

variable {root : PathBuf} {sealed : Bool} {n : Node Disk}

/-- What the node does itself spares the rest of the disk. -/
theorem stays (hroot : ∀ m ∈ root, IsEntry m) {act : FolderAct} (hown : act.IsOwn)
    (hact : act.Allowed root sealed) : Stays root sealed n (act.run root n) := by
  have hlooks : Looks (KeepsTo (Place root sealed)) := looks_keepsTo
  cases act with
  | start origin => exact stays_folderStateNew hroot origin n
  | call c =>
    cases c with
    | rescan => exact hlooks.rescan.stays n
    | applyPaths absPaths => exact (hlooks.applyPaths absPaths).stays n
    | applyRemoteEntries batch => exact stays_applyRemoteEntries hroot hact n
    | mergeGcWatermark incoming => exact (hlooks.mergeGcWatermark incoming).stays n
    | gcTombstonesForConvergedRoot => exact hlooks.gcTombstonesForConvergedRoot.stays n
  | edit world store => exact hown.elim

end Run

/-! ### Through a link -/

/-- Where there are no links, nothing leads out. -/
theorem confined_of_noLinks {root : PathBuf} {sealed : Bool} {d : Disk}
    (hdirs : ∀ q, q <+: root → d.IsDirAt q) (hstate : d.IsDirAt (root ++ [stateDir]))
    (hobj : ∀ p o, d.obj p = some o → dotdot ∉ p ∧ ∀ target, o ≠ .symlink target) :
    Confined (Place root sealed) d where
  dirs := by
    rintro _ q (_ | _) hpre hne
    · rcases List.prefix_concat_iff.mp hpre with heq | hpre
      · exact absurd heq hne
      · exact hdirs q hpre
    · rw [← List.singleton_append, ← List.append_assoc] at hpre hne
      rcases List.prefix_concat_iff.mp hpre with heq | hpre
      · exact absurd heq hne
      · rcases List.prefix_concat_iff.mp hpre with rfl | hpre
        · exact hstate
        · exact hdirs q hpre
  names p o ho := (hobj p o ho).1
  links dir n target _ ho := absurd rfl ((hobj _ _ ho).2 target)

section ThroughLink

variable [Blake3]

/-- The folder `/s` with a downloaded object, and a file next to it. -/
def besideDisk : Disk :=
  Disk.of [([lit "s"], .dir 0o755), ([lit "s", stateDir], .dir 0o755),
    ([lit "s", stateDir, lit "recv-1"], .file 1), ([lit "o"], .file 2)]
    [(1, ⟨[7], 0o644, 0⟩), (2, ⟨[8], 0o600, 0⟩)]

def remoteEntry (path : Str) (kind : EntryKind) (target : Option Str) : Entry :=
  { path, kind, contentHash := none, symlinkTarget := target, size := 0, mode := some 0o777,
    version := ⟨1, lit "B"⟩ }

/-- A directory, a link to it, and a file behind the link. -/
def throughLink : List (Entry × Option PathBuf) :=
  [(remoteEntry (lit "d") .dir none, none), (remoteEntry (lit "l") .symlink (some (lit "d")), none),
    (remoteEntry (lit "l/f") .file none, some [lit "s", stateDir, lit "recv-1"])]

omit [Blake3] in
theorem confined_besideDisk : Confined (Place [lit "s"] true) besideDisk := by
  have hall : ∀ x ∈ besideDisk.objects.toList, dotdot ∉ x.1 ∧
      x.2 ∈ [.dir 0o755, .file 1, .file 2] := by decide +kernel
  refine confined_of_noLinks (fun q hq ↦ ?_) (by decide +kernel) fun p o ho ↦ ?_
  · have hdirs : ∀ q ∈ [lit "s"].inits, besideDisk.IsDirAt q := by decide +kernel
    exact hdirs q ((List.mem_inits q _).mpr hq)
  · by_cases hp : p = []
    · subst hp
      cases ho
      exact ⟨List.not_mem_nil, by rintro _ ⟨⟩⟩
    · rw [obj_of_ne_nil hp] at ho
      obtain ⟨hdown, hmem⟩ := hall _ (Std.ExtTreeMap.mem_toList_iff_getElem?_eq_some.mpr ho)
      refine ⟨hdown, ?_⟩
      rintro target rfl
      simp at hmem

end ThroughLink

end FolderAct

end Lilsync
