import Lilsync.Lib.Posix.Tree

/-!
# Subtrees that are not left

A set `H` of real paths marks subtrees of a disk.  If the links in them lead on to
paths in them again (`Confined`), a path into them is resolved to a place in them, and
a call on such a path changes nothing elsewhere (`Spares`).
-/

namespace Lilsync.Lib.Posix

/-- The path is in one of the subtrees. -/
def In (H : Path → Prop) (p : Path) : Prop := ∃ h, H h ∧ h <+: p

/-- By their letters, the names lead from `cur` into a subtree, and never up. -/
def Enters (H : Path → Prop) (cur : Path) (names : List Name) : Prop :=
  dotdot ∉ names ∧ In H (cur ++ names.filter (· ≠ dot))

/-- A link in the directory `dir` leads on, by some name, into a subtree. -/
structure LeadsInto (H : Path → Prop) (dir : Path) (target : Name) : Prop where
  relative : target.head? ≠ some separator
  named : (Disk.targetNames target).filter (· ≠ dot) ≠ []
  enters : Enters H dir (Disk.targetNames target)

/-- What marks subtrees: paths by proper names, none within another. -/
structure Subtrees (H : Path → Prop) : Prop where
  ne_nil : ∀ h, H h → h ≠ []
  isEntry : ∀ h, H h → ∀ n ∈ h, Disk.IsEntry n
  eq_of_prefix : ∀ h h', H h → H h' → h <+: h' → h = h'

section In

variable {H : Path → Prop} {p q cur : Path} {n : Name} {names rest : List Name}

theorem In.mono (h : In H p) (hpq : p <+: q) : In H q := by
  obtain ⟨t, ht, htp⟩ := h
  exact ⟨t, ht, htp.trans hpq⟩

theorem In.ne_nil (hH : Subtrees H) (h : In H p) : p ≠ [] := by
  rintro rfl
  obtain ⟨t, ht, htp⟩ := h
  exact hH.ne_nil t ht (List.prefix_nil.mp htp)

/-- What a subtree lies in is in none. -/
theorem not_in_of_above (hH : Subtrees H) (ht : H q) (hp : p <+: q) (hne : p ≠ q) : ¬ In H p := by
  rintro ⟨t, ht', htp⟩
  have heq := hH.eq_of_prefix t q ht' ht (htp.trans hp)
  exact hne (hp.eq_of_length (Nat.le_antisymm hp.length_le (heq ▸ htp.length_le)))

theorem Enters.append (h : Enters H cur names) (hrest : dotdot ∉ rest) :
    Enters H cur (names ++ rest) := by
  refine ⟨fun hmem ↦ (List.mem_append.mp hmem).elim h.1 hrest, h.2.mono ?_⟩
  rw [List.filter_append, ← List.append_assoc]
  exact List.prefix_append _ _

theorem Enters.of_dot (h : Enters H cur (dot :: names)) : Enters H cur names :=
  ⟨fun hmem ↦ h.1 (List.mem_cons_of_mem _ hmem), by simpa using h.2⟩

theorem Enters.of_cons (hn : n ≠ dot) (h : Enters H cur (n :: names)) :
    Enters H (cur ++ [n]) names := by
  refine ⟨fun hmem ↦ h.1 (List.mem_cons_of_mem _ hmem), ?_⟩
  have hin := h.2
  rwa [List.filter_cons_of_pos (by simpa using hn), ← List.singleton_append,
    ← List.append_assoc] at hin

/-- Without dots, the names are the path. -/
theorem enters_nil_iff (hdot : dot ∉ p) : Enters H [] p ↔ dotdot ∉ p ∧ In H p := by
  have hfilter : p.filter (· ≠ dot) = p := by
    refine List.filter_eq_self.mpr fun n hn ↦ ?_
    rw [decide_eq_true_eq]
    rintro rfl
    exact hdot hn
  rw [Enters, hfilter, List.nil_append]

end In

namespace Disk

variable {H : Path → Prop} {d d' : Disk} {p q cur dir real : Path} {n target : Name} {o : Obj}
  {names rest : List Name} {follow : Bool}

/-- What the subtrees lie in are directories, and the links in them lead into them. -/
structure Confined (H : Path → Prop) (d : Disk) : Prop where
  dirs : ∀ h q, H h → q <+: h → q ≠ h → d.IsDirAt q
  names : ∀ p o, d.obj p = some o → dotdot ∉ p
  links : ∀ dir n target, In H (dir ++ [n]) → d.obj (dir ++ [n]) = some (.symlink target) →
    LeadsInto H dir target

/-! ## Resolution -/

/-- A link on the way into a subtree leads into one. -/
theorem Confined.leadsInto (h : Confined H d) (henters : Enters H (cur ++ [n]) names)
    (ho : d.obj (cur ++ [n]) = some (.symlink target)) : LeadsInto H cur target := by
  refine h.links cur n target ?_ ho
  obtain ⟨t, ht, htp⟩ := henters.2
  by_cases hle : t <+: cur ++ [n]
  · exact ⟨t, ht, hle⟩
  · -- otherwise the link would lie where there is a directory
    have hlt : cur ++ [n] <+: t :=
      (List.prefix_or_prefix_of_prefix htp (List.prefix_append _ _)).resolve_left hle
    obtain ⟨m, hm⟩ := h.dirs t (cur ++ [n]) ht hlt fun heq ↦ hle (heq ▸ List.prefix_rfl)
    rw [ho] at hm
    cases hm

/-- A walk stops in a subtree, or at a link that leads into one. -/
def Lands (H : Path → Prop) (stop : Stop) : Prop :=
  (∀ real, stop = .done real → In H real ∧ dotdot ∉ real) ∧
    ∀ dir target rest, stop = .link dir target rest →
      LeadsInto H dir target ∧ dotdot ∉ dir ∧ dotdot ∉ rest

theorem lands_done {real : Path} (h : In H real ∧ dotdot ∉ real) : Lands H (.done real) := by
  refine ⟨?_, by rintro _ _ _ ⟨⟩⟩
  rintro _ ⟨⟩
  exact h

theorem lands_fail (e : Errno) : Lands H (.fail e) :=
  ⟨by rintro _ ⟨⟩, by rintro _ _ _ ⟨⟩⟩

/-- Names that lead into a subtree are followed into it, or up to a link into one. -/
theorem scanNames_of_enters (h : Confined H d) (hcur : dotdot ∉ cur)
    (henters : Enters H cur names) : Lands H (d.scanNames follow cur names) := by
  induction names generalizing cur with
  | nil =>
    have hin := henters.2
    rw [List.filter_nil, List.append_nil] at hin
    exact lands_done ⟨hin, hcur⟩
  | cons n names ih =>
    have hdd : n ≠ dotdot := fun heq ↦ henters.1 (heq ▸ List.mem_cons_self)
    rw [scanNames]
    by_cases hdot : n = dot
    · subst hdot
      rw [if_pos rfl]
      exact ih hcur henters.of_dot
    · have hnext := henters.of_cons hdot
      have hcur' : dotdot ∉ cur ++ [n] := by
        simpa only [List.mem_append, List.mem_singleton, not_or] using ⟨hcur, hdd.symm⟩
      have hdone (hnil : names = []) : In H (cur ++ [n]) ∧ dotdot ∉ cur ++ [n] := by
        have hin := hnext.2
        rw [hnil, List.filter_nil, List.append_nil] at hin
        exact ⟨hin, hcur'⟩
      rw [if_neg hdot, if_neg hdd]
      cases ho : d.obj (cur ++ [n]) with
      | none =>
        dsimp only
        split
        · next hnil => exact lands_done (hdone hnil)
        · exact lands_fail _
      | some o =>
        cases o with
        | dir m => exact ih hcur' hnext
        | symlink target =>
          dsimp only
          split
          · next hlast => exact lands_done (hdone hlast.1)
          · refine ⟨by rintro _ ⟨⟩, ?_⟩
            rintro dir t rest ⟨⟩
            exact ⟨h.leadsInto hnext ho, hcur, hnext.1⟩
        | file i =>
          dsimp only
          split
          · next hnil => exact lands_done (hdone hnil)
          · exact lands_fail _
        | special =>
          dsimp only
          split
          · next hnil => exact lands_done (hdone hnil)
          · exact lands_fail _

theorem in_of_resolveFrom {budget : Nat} (h : Confined H d) (hcur : dotdot ∉ cur)
    (henters : Enters H cur names) (hreal : d.resolveFrom follow budget cur names = .ok real) :
    In H real ∧ dotdot ∉ real := by
  induction budget generalizing cur names with
  | zero =>
    obtain ⟨hdone, -⟩ := @scanNames_of_enters _ _ _ _ follow h hcur henters
    cases hs : d.scanNames follow cur names with
    | done r =>
      rw [resolveFrom_done hs] at hreal
      exact Except.ok.inj hreal ▸ hdone r hs
    | fail e =>
      rw [resolveFrom_fail hs] at hreal
      cases hreal
    | link dir target rest =>
      rw [resolveFrom_zero hs] at hreal
      cases hreal
  | succ budget ih =>
    obtain ⟨hdone, hlink⟩ := @scanNames_of_enters _ _ _ _ follow h hcur henters
    cases hs : d.scanNames follow cur names with
    | done r =>
      rw [resolveFrom_done hs] at hreal
      exact Except.ok.inj hreal ▸ hdone r hs
    | fail e =>
      rw [resolveFrom_fail hs] at hreal
      cases hreal
    | link dir target rest =>
      obtain ⟨⟨hrel, -, hleads⟩, hdir, hrest⟩ := hlink dir target rest hs
      rw [resolveFrom_succ hs, targetStart, if_neg hrel] at hreal
      exact ih hdir (hleads.append hrest) hreal

/-- A path into the subtrees stands for a place in them. -/
theorem in_of_resolve (h : Confined H d) (hp : Enters H [] p)
    (hreal : d.resolve follow p = .ok real) : In H real ∧ dotdot ∉ real :=
  in_of_resolveFrom h List.not_mem_nil hp hreal

/-! ## What a change leaves alone -/

/-- The file has no name in the subtrees. -/
def Foreign (H : Path → Prop) (d : Disk) (i : Nat) : Prop := ∀ p, d.Names i p → ¬ In H p

/-- The subtrees stay confined; objects elsewhere, and files that have names only elsewhere,
are as before. -/
structure Spares (H : Path → Prop) (d d' : Disk) : Prop where
  confined : Confined H d'
  obj_eq : ∀ p, ¬ In H p → d'.obj p = d.obj p
  foreign : ∀ i, Foreign H d i → Foreign H d' i ∧ d'.inode i = d.inode i

/-- A confined disk is spared. -/
def KeepsTo (H : Path → Prop) (d d' : Disk) : Prop := Confined H d → Spares H d d'

instance : IsPreorder Disk (KeepsTo H) where
  refl _ h := ⟨h, fun _ _ ↦ rfl, fun _ hi ↦ ⟨hi, rfl⟩⟩
  trans _ _ _ h h' hd := by
    have hs := h hd
    have hs' := h' hs.confined
    refine ⟨hs'.confined, fun p hp ↦ (hs'.obj_eq p hp).trans (hs.obj_eq p hp), fun i hi ↦ ?_⟩
    obtain ⟨hi', heq⟩ := hs.foreign i hi
    obtain ⟨hi'', heq'⟩ := hs'.foreign i hi'
    exact ⟨hi'', heq'.trans heq⟩

/-- What may appear in the subtrees: no link that leads out of them, and no file that had
no name in them. -/
structure Allowed (H : Path → Prop) (d : Disk) (p : Path) (o : Obj) : Prop where
  down : dotdot ∉ p
  link : ∀ target, o = .symlink target → LeadsInto H p.dropLast target
  file : ∀ i, o = .file i → ∃ q, In H q ∧ d.Names i q

theorem Confined.spares (hH : Subtrees H) (h : Confined H d)
    (hobj : ∀ p, d'.obj p = d.obj p ∨ In H p ∧ ∀ o, d'.obj p = some o → Allowed H d p o)
    (hinode : ∀ i, Foreign H d i → d'.inode i = d.inode i) : Spares H d d' := by
  have hout (p : Path) (hp : ¬ In H p) : d'.obj p = d.obj p := (hobj p).resolve_right fun h ↦ hp h.1
  refine ⟨⟨fun t q ht hq hne ↦ ?_, fun p o ho ↦ ?_, fun dir n target hin ho ↦ ?_⟩, hout,
    fun i hi ↦ ⟨fun p hp hin ↦ ?_, hinode i hi⟩⟩
  · rw [IsDirAt, hout q (not_in_of_above hH ht hq hne)]
    exact h.dirs t q ht hq hne
  · rcases hobj p with heq | ⟨-, hnew⟩
    · exact h.names p o (heq ▸ ho)
    · exact (hnew o ho).down
  · rcases hobj (dir ++ [n]) with heq | ⟨-, hnew⟩
    · exact h.links dir n target hin (heq ▸ ho)
    · have hlink := (hnew _ ho).link target rfl
      rwa [List.dropLast_concat] at hlink
  · rcases hobj p with heq | ⟨-, hnew⟩
    · exact hi p (heq.symm.trans hp) hin
    · obtain ⟨q, hq, hiq⟩ := (hnew _ hp).file i rfl
      exact hi q hiq hq

/-! ## Calls -/

section Calls

variable (hH : Subtrees H)

include hH

/-- What is put at a place in the subtrees must be allowed there. -/
theorem spares_put (h : Confined H d) (hreal : In H real) (ho : Allowed H d real o) :
    Spares H d (d.put real o) := by
  refine h.spares hH (fun p ↦ ?_) fun i _ ↦ rfl
  rw [obj_put d (hreal.ne_nil hH)]
  split
  · next heq =>
    refine .inr ⟨heq ▸ hreal, ?_⟩
    rintro o' ⟨⟩
    exact heq ▸ ho
  · exact .inl rfl

theorem spares_clear (h : Confined H d) (hreal : In H real) : Spares H d (d.clear real) := by
  refine h.spares hH (fun p ↦ ?_) fun i _ ↦ rfl
  by_cases hp : p = []
  · exact .inl (by rw [hp, obj_nil, obj_nil])
  · rw [obj_clear d hp]
    split
    · next hpre => exact .inr ⟨hreal.mono hpre, by rintro _ ⟨⟩⟩
    · exact .inl rfl

/-- A link that is made leads into the subtrees from wherever it comes to lie. -/
def LinkFits (H : Path → Prop) (p : Path) (target : Name) : Prop :=
  ∀ d real, Confined H d → d.resolve false p = .ok real → LeadsInto H real.dropLast target

theorem keepsTo_make (hp : Enters H [] p) (hfile : ∀ i, o ≠ .file i)
    (hlink : ∀ target, o = .symlink target → LinkFits H p target) (hmake : d.make p o = .ok d') :
    KeepsTo H d d' := by
  intro h
  rw [make] at hmake
  split at hmake
  · cases hmake
  · next real hreal =>
    split at hmake <;> cases hmake
    obtain ⟨hin, hdown⟩ := in_of_resolve h hp hreal
    exact spares_put hH h hin
      ⟨hdown, fun target ho ↦ hlink target ho d real h hreal, fun i ho ↦ absurd ho (hfile i)⟩

theorem keepsTo_mkdir (hp : Enters H [] p) (hmkdir : d.mkdir p = .ok d') : KeepsTo H d d' :=
  keepsTo_make hH hp (o := .dir 0o755) (by rintro _ ⟨⟩) (by rintro _ ⟨⟩) hmkdir

theorem keepsTo_symlink (hp : Enters H [] p) (hlink : LinkFits H p target)
    (h : d.symlink target p = .ok d') : KeepsTo H d d' := by
  rw [symlink] at h
  split at h
  · cases h
  · refine keepsTo_make hH hp (o := .symlink target) (by rintro _ ⟨⟩) ?_ h
    rintro _ ⟨⟩
    exact hlink

omit hH in
theorem resolve_of_find (h : d.find follow p = .ok (real, o)) : d.resolve follow p = .ok real := by
  rw [find] at h
  split at h
  · cases h
  · next r hr =>
    split at h <;> cases h
    exact hr

theorem keepsTo_unlink (hp : Enters H [] p) (h : d.unlink p = .ok d') : KeepsTo H d d' := by
  intro hd
  rw [unlink] at h
  split at h
  · cases h
  · next hfind =>
    split at h <;> cases h
    exact spares_clear hH hd (in_of_resolve hd hp (resolve_of_find hfind)).1

theorem keepsTo_removeTree (hp : Enters H [] p) (h : d.removeTree p = .ok d') :
    KeepsTo H d d' := by
  intro hd
  rw [removeTree] at h
  split at h
  · cases h
  · next hfind =>
    split at h <;> cases h
    exact spares_clear hH hd (in_of_resolve hd hp (resolve_of_find hfind)).1

theorem keepsTo_chmod {mode : UInt32} (hp : Enters H [] p) (h : d.chmod p mode = .ok d') :
    KeepsTo H d d' := by
  intro hd
  rw [chmod] at h
  split at h
  · cases h
  · next hfind =>
    cases h
    obtain ⟨hin, hdown⟩ := in_of_resolve hd hp (resolve_of_find hfind)
    have hput := spares_put hH (o := .dir (mode &&& permissionBits)) hd hin
      ⟨hdown, by rintro _ ⟨⟩, by rintro _ ⟨⟩⟩
    obtain ⟨⟨hdirs, hnames, hlinks⟩, hobj, hforeign⟩ := hput
    exact ⟨⟨hdirs, hnames, hlinks⟩, hobj, hforeign⟩
  · next real i hfind =>
    cases h
    obtain ⟨hin, -⟩ := in_of_resolve hd hp (resolve_of_find hfind)
    refine hd.spares hH (fun p ↦ .inl rfl) fun j hj ↦ ?_
    have hne : i ≠ j := by
      rintro rfl
      exact hj real (obj_of_find hfind) hin
    rw [inode, OrdMap.getElem?_insert_eq, if_neg hne]
    rfl
  · cases h
    exact refl_of (KeepsTo H) d hd

/-- A rename within the subtrees, where a link that is moved fits. -/
theorem keepsTo_rename (hp : Enters H [] p) (hq : Enters H [] q)
    (hlink : ∀ real target, Confined H d → d.resolve false p = .ok real →
      d.obj real = some (.symlink target) → LinkFits H q target)
    (h : d.rename p q = .ok d') : KeepsTo H d d' := by
  intro hd
  obtain ⟨real, o, dest, hreal, ho, -, hdest, -, rfl | rfl⟩ := rename_cases h
  · exact refl_of (KeepsTo H) d' hd
  · obtain ⟨hin, -⟩ := in_of_resolve hd hp hreal
    obtain ⟨hin', hdown⟩ := in_of_resolve hd hq hdest
    refine hd.spares hH (fun r ↦ ?_) fun i _ ↦ rfl
    by_cases hr : r = []
    · exact .inl (by rw [hr, obj_nil, obj_nil])
    · rw [obj_put _ (hin'.ne_nil hH), obj_erase d hr]
      split
      · next heq =>
        refine .inr ⟨heq ▸ hin', ?_⟩
        rintro o' ⟨⟩
        subst heq
        refine ⟨hdown, fun target htarget ↦ ?_, fun i hi ↦ ⟨real, hin, ho.trans (congrArg some hi)⟩⟩
        exact hlink real target hd hreal (ho.trans (congrArg some htarget)) d dest hd hdest
      · split
        · next heq => exact .inr ⟨heq ▸ hin, by rintro _ ⟨⟩⟩
        · exact .inl rfl

omit hH in
/-- What subtrees lie in is there already. -/
theorem resolve_of_above (h : Confined H d) (hH : Subtrees H) (ht : H q) (hp : p <+: q)
    (hne : p ≠ q) : d.resolve follow p = .ok p := by
  refine resolve_of_dirs (fun n hn ↦ hH.isEntry q ht n (hp.subset hn)) (fun b hb _ hbp ↦ ?_)
    fun _ _ target htarget ↦ ?_
  · refine h.dirs q b ht (hb.trans hp) ?_
    rintro rfl
    exact hbp (hb.eq_of_length (Nat.le_antisymm hb.length_le hp.length_le))
  · obtain ⟨m, hm⟩ := h.dirs q p ht hp hne
    rw [htarget] at hm
    cases hm

theorem mkdirAll_of_above (h : Confined H d) (ht : H q) (hp : p <+: q) (hne : p ≠ q) :
    (mkdirAll p.reverse d).2 = d := by
  obtain ⟨m, hm⟩ := h.dirs q p ht hp hne
  cases hnames : p.reverse with
  | nil => rw [mkdirAll]
  | cons n names =>
    have hrev : (n :: names).reverse = p := by rw [← hnames, List.reverse_reverse]
    have hmk : d.mkdir p = .error .exist := by
      rw [mkdir, make, resolve_of_above h hH ht hp hne]
      dsimp only
      rw [hm]
      rfl
    rw [mkdirAll.eq_def]
    dsimp only
    rw [hrev, hmk]
    dsimp only
    rw [if_pos (by decide)]
    split <;> rfl

/-- A directory is made in the subtrees, with those it lies in. -/
theorem keepsTo_mkdirAll (hdot : dot ∉ p) (hdown : dotdot ∉ p)
    (hp : In H p ∨ ∃ t, H t ∧ p <+: t ∧ p ≠ t) (d : Disk) :
    KeepsTo H d (mkdirAll p.reverse d).2 := by
  induction p using List.reverseRecOn generalizing d with
  | nil => exact fun h ↦ refl_of (KeepsTo H) d h
  | append_singleton p n ih =>
    rcases hp with hin | ⟨t, ht, hpre, hne⟩
    · have henters : Enters H [] (p ++ [n]) := (enters_nil_iff hdot).mpr ⟨hdown, hin⟩
      have hparent : In H p ∨ ∃ t, H t ∧ p <+: t ∧ p ≠ t := by
        obtain ⟨t, ht, htp⟩ := hin
        rcases List.prefix_concat_iff.mp htp with rfl | htp
        · exact .inr ⟨p ++ [n], ht, List.prefix_append _ _, by simp⟩
        · exact .inl ⟨t, ht, htp⟩
      have hrec := ih (fun hmem ↦ hdot (List.mem_append_left _ hmem))
        (fun hmem ↦ hdown (List.mem_append_left _ hmem)) hparent
      have hrev : (n :: p.reverse).reverse = p ++ [n] := by simp
      rw [List.reverse_concat, mkdirAll.eq_def]
      dsimp only
      rw [hrev]
      split
      · next hmk => exact keepsTo_mkdir hH henters hmk
      · split
        · split <;> exact fun h ↦ refl_of (KeepsTo H) d h
        · have hfirst := hrec d
          split
          · next hmade => exact hmade ▸ hfirst
          · next hmade =>
            rw [hmade] at hfirst
            split
            · next hmk => exact trans_of (KeepsTo H) hfirst (keepsTo_mkdir hH henters hmk)
            · split <;> exact hfirst
    · intro h
      rw [mkdirAll_of_above hH h ht hpre hne]
      exact refl_of (KeepsTo H) d h

omit hH in
/-- Anywhere below a subtree a link that leads down fits. -/
theorem linkFits_of_in (hn : IsEntry n) (hp : Enters H [] p) (hrel : target.head? ≠ some separator)
    (hnamed : (targetNames target).filter (· ≠ dot) ≠ []) (hdown : dotdot ∉ targetNames target) :
    LinkFits H (p ++ [n]) target := by
  intro d real h hreal
  obtain ⟨dir, rfl, hdir⟩ := resolve_concat hn hreal
  rw [List.dropLast_concat]
  exact ⟨hrel, hnamed, hdown, (in_of_resolve h hp hdir).1.mono (List.prefix_append _ _)⟩

/-- At the top of a subtree it has to lead into one. -/
theorem linkFits_of_head (hn : IsEntry n) (ht : H (p ++ [n])) (hlink : LeadsInto H p target) :
    LinkFits H (p ++ [n]) target := by
  intro d real h hreal
  obtain ⟨dir, rfl, hdir⟩ := resolve_concat hn hreal
  rw [resolve_of_above h hH ht (List.prefix_append _ _) (by simp)] at hdir
  cases hdir
  rwa [List.dropLast_concat]

end Calls

end Disk

end Lilsync.Lib.Posix
