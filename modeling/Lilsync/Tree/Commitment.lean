import Lilsync.Lib.Encoding
import Lilsync.Tree.Derive
import Lilsync.Tree.Update

/-!
# The root hash commits to the index

What `hash_entry` and `hash_node` feed to BLAKE3 determines what they encode, and
an entry is never encoded like a node.  So as long as BLAKE3 has no collision
among the strings it is fed for two trees, equal roots have equal nodes below
them, level by level, and the same entries in them.
-/

namespace Lilsync

open Std (ExtTreeMap)
open Lilsync.Lib Lilsync.Lib.SlashPath

/-! ## Entries -/

/-- What `hash_entry` feeds to the hash function. -/
def entryBytes (entry : Entry) : List UInt8 :=
  encodeStr (lit "lil-entry-v1")
    ++ encodeStr entry.path
    ++ encodeStr entry.kind.asStr
    ++ encodeOpt Vector.toList entry.contentHash
    ++ encodeOpt encodeStr entry.symlinkTarget
    ++ toBeBytes 8 entry.size
    ++ encodeOpt (fun mode ↦ toBeBytes 4 mode.toNat) entry.mode
    ++ toBeBytes 8 entry.version.lamport
    ++ encodeStr entry.version.origin

theorem hashEntry_eq [Blake3] (entry : Entry) : hashEntry entry = Blake3.digest (entryBytes entry) :=
  rfl

/-- The numbers are 64-bit numbers, and the strings no longer than a string can
be. -/
structure Entry.Fits (e : Entry) : Prop where
  path : e.path.length < 2 ^ 63
  symlinkTarget : ∀ target ∈ e.symlinkTarget, target.length < 2 ^ 63
  size : e.size < 2 ^ 64
  lamport : e.version.lamport < 2 ^ 64
  origin : e.version.origin.length < 2 ^ 63

theorem EntryKind.asStr_injective : Function.Injective EntryKind.asStr := by
  rintro (_ | _ | _ | _) (_ | _ | _ | _) h <;> first | rfl | exact absurd h (by decide)

theorem unambiguous_toBeBytes : Unambiguous (toBeBytes 8) fun n ↦ n < 2 ^ 64 :=
  unambiguous_bigEndian 8

theorem unambiguous_encodeStr : Unambiguous encodeStr fun s ↦ s.length < 2 ^ 64 :=
  unambiguous_lengthPrefixed 8

theorem unambiguous_hash : Unambiguous (Vector.toList : Hash → List UInt8) fun _ ↦ True :=
  .ofLength (n := 32) (fun h _ ↦ h.length_toList) fun _ _ _ _ ↦ Vector.toList_inj.mp

theorem unambiguous_mode :
    Unambiguous (fun mode : UInt32 ↦ toBeBytes 4 mode.toNat) fun _ ↦ True := by
  intro m m' r r' _ _ heq
  obtain ⟨hm, hr⟩ := unambiguous_bigEndian 4 _ _ r r' m.toNat_lt m'.toNat_lt heq
  exact ⟨UInt32.toNat_inj.mp hm, hr⟩

/-- The bytes of an entry determine it. -/
theorem entryBytes_inj {e e' : Entry} (he : e.Fits) (he' : e'.Fits)
    (h : entryBytes e = entryBytes e') : e = e' := by
  simp only [entryBytes, List.append_assoc] at h
  have h := List.append_cancel_left h
  obtain ⟨hpath, h⟩ := unambiguous_encodeStr _ _ _ _ (he.path.trans (by decide)) (he'.path.trans (by decide)) h
  have hlit : ∀ k : EntryKind, k.asStr.length < 2 ^ 64 := by rintro (_ | _ | _ | _) <;> decide
  obtain ⟨hstr, h⟩ := unambiguous_encodeStr _ _ _ _ (hlit e.kind) (hlit e'.kind) h
  have hkind : e.kind = e'.kind := EntryKind.asStr_injective hstr
  obtain ⟨hhash, h⟩ := unambiguous_hash.option (fun _ ↦ rfl) rfl _ _ _ _ (fun _ _ ↦ trivial)
    (fun _ _ ↦ trivial) h
  obtain ⟨htarget, h⟩ := unambiguous_encodeStr.option (fun _ ↦ rfl) rfl _ _ _ _
    (fun t ht ↦ (he.symlinkTarget t ht).trans (by decide))
    (fun t ht ↦ (he'.symlinkTarget t ht).trans (by decide)) h
  obtain ⟨hsize, h⟩ := unambiguous_toBeBytes _ _ _ _ he.size he'.size h
  obtain ⟨hmode, h⟩ := unambiguous_mode.option (fun _ ↦ rfl) rfl _ _ _ _ (fun _ _ ↦ trivial)
    (fun _ _ ↦ trivial) h
  obtain ⟨hlamport, h⟩ := unambiguous_toBeBytes _ _ _ _ he.lamport he'.lamport h
  have horigin := unambiguous_encodeStr.injective (he.origin.trans (by decide))
    (he'.origin.trans (by decide)) h
  obtain ⟨_, _, _, _, _, _, _, _⟩ := e
  obtain ⟨_, _, _, _, _, _, _, _⟩ := e'
  simp_all

/-! ## Nodes -/

/-- An item of a node: an entry or a child, by name, with its hash. -/
structure NodeItem where
  isEntry : Bool
  name : Str
  hash : Hash

/-- The bytes of an item. -/
def NodeItem.bytes (item : NodeItem) : List UInt8 :=
  encodeStr (if item.isEntry then lit "entry" else lit "child") ++ encodeStr item.name
    ++ item.hash.toList

/-- The items of a node in the order they are hashed. -/
def nodeItems (entries children : BTreeMap Str Hash) : List NodeItem :=
  entries.toList.map (fun (name, hash) ↦ ⟨true, name, hash⟩)
    ++ children.toList.map fun (name, hash) ↦ ⟨false, name, hash⟩

/-- What `hash_node` feeds to the hash function. -/
def nodeBytes (pfx : Str) (entries children : BTreeMap Str Hash) : List UInt8 :=
  lit "lil-node-v1"
    ++ encodeStr pfx
    ++ (entries.toList.flatMap fun (name, hash) ↦
      encodeStr (lit "entry") ++ encodeStr name ++ hash.toList)
    ++ (children.toList.flatMap fun (name, hash) ↦
      encodeStr (lit "child") ++ encodeStr name ++ hash.toList)

theorem hashNode_eq [Blake3] (pfx : Str) (entries children : BTreeMap Str Hash) :
    hashNode pfx entries children = Blake3.digest (nodeBytes pfx entries children) := rfl

theorem nodeBytes_eq (pfx : Str) (entries children : BTreeMap Str Hash) :
    nodeBytes pfx entries children =
      lit "lil-node-v1" ++ (encodeStr pfx ++ (nodeItems entries children).flatMap NodeItem.bytes) := by
  rw [nodeBytes, nodeItems, List.flatMap_append, List.flatMap_map, List.flatMap_map]
  simp only [List.append_assoc]
  rfl

/-- The names of a node can be encoded. -/
def NamesFit (m : BTreeMap Str Hash) : Prop := ∀ name ∈ m.keys, name.length < 2 ^ 64

theorem unambiguous_bytes : Unambiguous NodeItem.bytes fun item ↦ item.name.length < 2 ^ 64 := by
  intro a b r r' ha hb h
  simp only [NodeItem.bytes, List.append_assoc] at h
  have hlit : ∀ c : Bool, (if c then lit "entry" else lit "child").length < 2 ^ 64 := by decide
  obtain ⟨htag, h⟩ := unambiguous_encodeStr _ _ _ _ (hlit _) (hlit _) h
  have hkind : a.isEntry = b.isEntry := by
    revert htag
    cases a.isEntry <;> cases b.isEntry <;> decide
  obtain ⟨hname, h⟩ := unambiguous_encodeStr _ _ _ _ ha hb h
  obtain ⟨hhash, h⟩ := unambiguous_hash _ _ _ _ trivial trivial h
  cases a
  cases b
  simp_all

theorem length_name_of_mem_nodeItems {entries children : BTreeMap Str Hash}
    (he : NamesFit entries) (hc : NamesFit children) :
    ∀ item ∈ nodeItems entries children, item.name.length < 2 ^ 64 := by
  have hkey : ∀ (m : BTreeMap Str Hash) (kv : Str × Hash), kv ∈ m.toList → kv.1 ∈ m.keys := by
    intro m kv hkv
    rw [← ExtTreeMap.map_fst_toList_eq_keys]
    exact List.mem_map_of_mem hkv
  intro item hitem
  rcases List.mem_append.mp hitem with h | h
  · obtain ⟨kv, hkv, rfl⟩ := List.mem_map.mp h
    exact he _ (hkey entries kv hkv)
  · obtain ⟨kv, hkv, rfl⟩ := List.mem_map.mp h
    exact hc _ (hkey children kv hkv)

/-- The items of one sort. -/
def itemsOf (isEntry : Bool) (items : List NodeItem) : List (Str × Hash) :=
  items.filterMap fun item ↦ if item.isEntry = isEntry then some (item.name, item.hash) else none

theorem itemsOf_nodeItems (isEntry : Bool) (entries children : BTreeMap Str Hash) :
    itemsOf isEntry (nodeItems entries children) =
      if isEntry then entries.toList else children.toList := by
  rw [itemsOf, nodeItems, List.filterMap_append, List.filterMap_map, List.filterMap_map]
  cases isEntry
  · simp
  · simp

theorem eq_of_toList_eq {m m' : BTreeMap Str Hash} (h : m.toList = m'.toList) : m = m' := by
  refine OrdMap.ext_graph fun k v ↦ ?_
  rw [← ExtTreeMap.mem_toList_iff_getElem?_eq_some, ← ExtTreeMap.mem_toList_iff_getElem?_eq_some, h]

/-- The bytes of a node determine its prefix, its entries and its children. -/
theorem nodeBytes_inj {pfx pfx' : Str} {entries children entries' children' : BTreeMap Str Hash}
    (hp : pfx.length < 2 ^ 64) (hp' : pfx'.length < 2 ^ 64) (he : NamesFit entries)
    (hc : NamesFit children) (he' : NamesFit entries') (hc' : NamesFit children')
    (h : nodeBytes pfx entries children = nodeBytes pfx' entries' children') :
    pfx = pfx' ∧ entries = entries' ∧ children = children' := by
  rw [nodeBytes_eq, nodeBytes_eq] at h
  obtain ⟨hpfx, hitems⟩ := unambiguous_encodeStr _ _ _ _ hp hp' (List.append_cancel_left h)
  have hitems := unambiguous_bytes.flatMap_injective (fun item ↦ by simp [NodeItem.bytes, encodeStr])
    (length_name_of_mem_nodeItems he hc) (length_name_of_mem_nodeItems he' hc') hitems
  have hentries := congrArg (itemsOf true) hitems
  have hchildren := congrArg (itemsOf false) hitems
  rw [itemsOf_nodeItems, itemsOf_nodeItems] at hentries hchildren
  exact ⟨hpfx, eq_of_toList_eq hentries, eq_of_toList_eq hchildren⟩

/-- An entry is never encoded like a node. -/
theorem entryBytes_ne_nodeBytes (e : Entry) (pfx : Str) (entries children : BTreeMap Str Hash) :
    entryBytes e ≠ nodeBytes pfx entries children := by
  intro h
  rw [nodeBytes_eq] at h
  simp only [entryBytes, List.append_assoc] at h
  -- The length of the tag of an entry starts with a zero, a node with an `l`.
  have hentry : ∀ r, (encodeStr (lit "lil-entry-v1") ++ r).head? = some 0 := fun _ ↦ rfl
  have hnode : ∀ r, (lit "lil-node-v1" ++ r).head? = some 108 := fun _ ↦ rfl
  have hhead := congrArg List.head? h
  rw [hentry, hnode] at hhead
  exact absurd hhead (by decide)

/-! ## Trees -/

section Trees

variable [Blake3] {S S' : TreeSnapshot} {entries entries' : Index} {incl incl' : Entry → Bool}

/-- The strings that are hashed for a tree. -/
def fed (S : TreeSnapshot) (entries : Index) (incl : Entry → Bool) : Set (List UInt8) :=
  {bytes | ∃ e, Included entries incl e ∧ bytes = entryBytes e} ∪
    {bytes | ∃ (k : Str) (n : TreeNode), S.nodes[k]? = some n ∧
      bytes = nodeBytes n.nodePrefix n.entries n.children}

/-- A snapshot of an index that was derived, or kept up to date since. -/
inductive Kept (incl : Entry → Bool) : TreeSnapshot → Index → Prop where
  | derive {entries : Index} : Keyed entries → Kept incl (deriveTreeWith entries incl) entries
  | update {S : TreeSnapshot} {entries entries' : Index} {changedPaths : List Str} :
    Kept incl S entries → Keyed entries' → Covers entries entries' changedPaths →
    Kept incl (updateTreeSnapshot S entries' changedPaths incl) entries'

theorem Kept.keyed (h : Kept incl S entries) : Keyed entries := by
  cases h <;> assumption

/-- A snapshot that is kept is a well-formed tree. -/
theorem Kept.wellFormed (h : Kept incl S entries) : WellFormed S entries incl := by
  induction h with
  | derive hE => exact deriveTreeWith_wellFormed hE
  | update h hE' hcov ih => exact updateTreeSnapshot_wellFormed h.keyed hE' ih hcov

/-- Every entry can be encoded. -/
def AllFit (entries : Index) : Prop := ∀ (k : Str) (e : Entry), entries[k]? = some e → e.Fits

omit [Blake3] in
theorem length_basename_le (path : Str) : (basename path).length ≤ path.length := by
  rcases parent_base_cases slash path with ⟨-, -, hb⟩ | ⟨hp, -⟩
  · rw [basename, hb]
  · rw [basename]
    conv_rhs => rw [hp]
    simp only [List.length_append, List.length_cons]
    omega

omit [Blake3] in
theorem AllFit.of_included (h : AllFit entries) {e : Entry} (he : Included entries incl e) :
    e.Fits := by
  obtain ⟨⟨k, hk⟩, -⟩ := he
  exact h k e hk

/-- The path of a node is at most as long as that of an entry. -/
theorem WellFormed.length_lt (h : WellFormed S entries incl) (hfit : AllFit entries) {k : Str}
    (hk : k ∈ S.nodes) : k.length < 2 ^ 63 := by
  rcases h.spine_or_dir hk with (rfl | ⟨e, he, hb⟩) | ⟨e, he, -, rfl⟩
  · decide
  · exact hb.length_lt.trans (hfit.of_included he).path
  · exact (hfit.of_included he).path

theorem WellFormed.namesFit (h : WellFormed S entries incl) (hfit : AllFit entries) {k : Str}
    {n : TreeNode} (hn : S.nodes[k]? = some n) :
    n.nodePrefix.length < 2 ^ 64 ∧ NamesFit n.entries ∧ NamesFit n.children := by
  have hnode := h.isNode hn
  refine ⟨?_, fun name hname ↦ ?_, fun name hname ↦ ?_⟩
  · have hlt := h.length_lt hfit (ExtTreeMap.mem_iff_isSome_getElem?.mpr (by simp [hn]) : k ∈ S.nodes)
    rw [hnode.prefix_eq, displayPrefix]
    split
    · decide
    · simp only [List.length_cons, List.length_append, List.length_nil]
      omega
  · obtain ⟨hash, hhash⟩ := Option.isSome_iff_exists.mp
      (ExtTreeMap.mem_iff_isSome_getElem?.mp (ExtTreeMap.mem_keys.mp hname))
    obtain ⟨e, he, -, rfl, -⟩ := hnode.entries_iff.mp hhash
    have hlt := (hfit.of_included he).path
    have hle := length_basename_le e.path
    omega
  · obtain ⟨hash, hhash⟩ := Option.isSome_iff_exists.mp
      (ExtTreeMap.mem_iff_isSome_getElem?.mp (ExtTreeMap.mem_keys.mp hname))
    obtain ⟨c, m, -, hm, -, rfl, -⟩ := hnode.children_iff.mp hhash
    have hlt := h.length_lt hfit (ExtTreeMap.mem_iff_isSome_getElem?.mpr (by simp [hm]) : c ∈ S.nodes)
    have hle := length_basename_le c
    omega

/-- Nodes with equal hashes have equal entries and children. -/
theorem WellFormed.eq_of_hash_eq (h : WellFormed S entries incl) (h' : WellFormed S' entries' incl')
    (hfit : AllFit entries) (hfit' : AllFit entries')
    (hinj : Set.InjOn Blake3.digest (fed S entries incl ∪ fed S' entries' incl')) {k k' : Str}
    {n n' : TreeNode} (hn : S.nodes[k]? = some n) (hn' : S'.nodes[k']? = some n')
    (hhash : n.hash = n'.hash) : n.entries = n'.entries ∧ n.children = n'.children := by
  obtain ⟨hp, he, hc⟩ := h.namesFit hfit hn
  obtain ⟨hp', he', hc'⟩ := h'.namesFit hfit' hn'
  rw [(h.isNode hn).hash_eq, (h'.isNode hn').hash_eq, hashNode_eq, hashNode_eq] at hhash
  have hbytes := hinj (.inl (.inr ⟨k, n, hn, rfl⟩)) (.inr (.inr ⟨k', n', hn', rfl⟩)) hhash
  exact (nodeBytes_inj hp hp' he hc he' hc' hbytes).2

/-- An entry below two nodes with equal hashes is in both trees. -/
theorem WellFormed.included_of_hash_eq (hE : Keyed entries) (hE' : Keyed entries')
    (h : WellFormed S entries incl) (h' : WellFormed S' entries' incl')
    (hfit : AllFit entries) (hfit' : AllFit entries')
    (hinj : Set.InjOn Blake3.digest (fed S entries incl ∪ fed S' entries' incl')) {e : Entry}
    (he : Included entries incl e) {k : Str} {n n' : TreeNode} (hk : k ∈ ancestors e.path)
    (hn : S.nodes[k]? = some n) (hn' : S'.nodes[k]? = some n') (hhash : n.hash = n'.hash) :
    Included entries' incl' e := by
  -- Downwards from `k` to the node the entry is directly in.
  induction hd : e.path.length - k.length using Nat.strong_induction_on generalizing k n n' with
  | _ d ih =>
    obtain ⟨hentries, hchildren⟩ := h.eq_of_hash_eq h' hfit hfit' hinj hn hn' hhash
    by_cases hp : parentPath e.path = k
    · have hmem := (h.isNode hn).entries_iff.mpr ⟨e, he, hp, rfl, rfl⟩
      rw [hentries] at hmem
      obtain ⟨e', he', -, -, heq⟩ := (h'.isNode hn').entries_iff.mp hmem
      rw [hashEntry_eq, hashEntry_eq] at heq
      have hbytes := hinj (.inr (.inl ⟨e', he', rfl⟩)) (.inl (.inl ⟨e, he, rfl⟩)) heq
      rwa [entryBytes_inj (hfit'.of_included he') (hfit.of_included he) hbytes] at he'
    · obtain ⟨c, hne, hck, hce⟩ := exists_child_of_mem_ancestors hk hp
      have hc : c ∈ S.nodes := h.mem_of_spine (.inr ⟨e, he, hce⟩)
      obtain ⟨m, hm⟩ := Option.isSome_iff_exists.mp (ExtTreeMap.mem_iff_isSome_getElem?.mp hc)
      have hmem := (h.isNode hn).children_iff.mpr ⟨c, m, hne, hm, hck, rfl, rfl⟩
      rw [hchildren] at hmem
      obtain ⟨c', m', hne', hm', hck', hbase, heq⟩ := (h'.isNode hn').children_iff.mp hmem
      have hc' : c' ∈ S'.nodes := ExtTreeMap.mem_iff_isSome_getElem?.mpr (by simp [hm'])
      obtain rfl : c' = c := Proper.eq_of_parent_base ((h'.proper hE' hc').resolve_left hne')
        ((h.proper hE hc).resolve_left hne) (hck'.trans hck.symm) hbase
      have hlt : k.length < c'.length := by
        have hparent : (SlashPath.parent slash c').length < c'.length := length_parent_lt hne
        rwa [show SlashPath.parent slash c' = k from hck] at hparent
      have hle := hce.length_lt
      exact ih _ (by omega) (mem_ancestors_iff.mpr (.inr hce)) hm hm' heq.symm rfl

/-- Trees with equal roots have the same entries. -/
theorem WellFormed.included_iff (hE : Keyed entries) (hE' : Keyed entries')
    (h : WellFormed S entries incl) (h' : WellFormed S' entries' incl')
    (hfit : AllFit entries) (hfit' : AllFit entries')
    (hinj : Set.InjOn Blake3.digest (fed S entries incl ∪ fed S' entries' incl'))
    (hroot : S.rootHash = S'.rootHash) (e : Entry) :
    Included entries incl e ↔ Included entries' incl' e := by
  obtain ⟨n, hn⟩ := Option.isSome_iff_exists.mp (ExtTreeMap.mem_iff_isSome_getElem?.mp h.root_mem)
  obtain ⟨n', hn'⟩ := Option.isSome_iff_exists.mp (ExtTreeMap.mem_iff_isSome_getElem?.mp h'.root_mem)
  have hhash : n.hash = n'.hash := by
    rw [h.rootHash_eq, h'.rootHash_eq, rootHashOf, rootHashOf, hn, hn'] at hroot
    exact hroot
  constructor
  · intro he
    exact included_of_hash_eq hE hE' h h' hfit hfit' hinj he (nil_mem_ancestors _) hn hn' hhash
  · intro he
    rw [Set.union_comm] at hinj
    exact included_of_hash_eq hE' hE h' h hfit' hfit hinj he (nil_mem_ancestors _) hn' hn hhash.symm

/-- What is fed to the hash function can be told apart, and the root hash determines
the included entries with all their fields, for snapshots that were derived or
kept up to date. -/
theorem rootHash_commits (hS : Kept incl S entries) (hS' : Kept incl' S' entries')
    (hfit : AllFit entries) (hfit' : AllFit entries')
    (hinj : Set.InjOn Blake3.digest (fed S entries incl ∪ fed S' entries' incl')) :
    (S.rootHash = S'.rootHash → ∀ e, Included entries incl e ↔ Included entries' incl' e) ∧
    (∀ e e' : Entry, e.Fits → e'.Fits → entryBytes e = entryBytes e' → e = e') ∧
    (∀ (pfx pfx' : Str) (es cs es' cs' : BTreeMap Str Hash), pfx.length < 2 ^ 64 →
      pfx'.length < 2 ^ 64 → NamesFit es → NamesFit cs → NamesFit es' → NamesFit cs' →
      nodeBytes pfx es cs = nodeBytes pfx' es' cs' → pfx = pfx' ∧ es = es' ∧ cs = cs') ∧
    ∀ (e : Entry) (pfx : Str) (es cs : BTreeMap Str Hash), entryBytes e ≠ nodeBytes pfx es cs := by
  refine ⟨fun hroot e ↦ ?_, fun _ _ ↦ entryBytes_inj, fun _ _ _ _ _ _ ↦ nodeBytes_inj,
    entryBytes_ne_nodeBytes⟩
  exact hS.wellFormed.included_iff hS.keyed hS'.keyed hS'.wellFormed hfit hfit' hinj hroot e

/-- The strings that are hashed for a tree, one after the other. -/
def fedList (S : TreeSnapshot) (entries : Index) (incl : Entry → Bool) : List (List UInt8) :=
  ((OrdMap.values entries).filter incl).map entryBytes
    ++ S.nodes.toList.map fun (_, n) ↦ nodeBytes n.nodePrefix n.entries n.children

omit [Blake3] in
theorem mem_fedList {bytes : List UInt8} (h : bytes ∈ fed S entries incl) :
    bytes ∈ fedList S entries incl := by
  rcases h with ⟨e, he, rfl⟩ | ⟨k, n, hn, rfl⟩
  · exact List.mem_append_left _ (List.mem_map_of_mem (mem_filter_values_iff.mpr he))
  · refine List.mem_append_right _ (List.mem_map.mpr ⟨(k, n), ?_, rfl⟩)
    exact ExtTreeMap.mem_toList_iff_getElem?_eq_some.mpr hn

/-- There is no collision among the strings of two trees. -/
theorem injOn_fed (h : ∀ bytes ∈ fedList S entries incl ++ fedList S' entries' incl',
    ∀ bytes' ∈ fedList S entries incl ++ fedList S' entries' incl',
      Blake3.digest bytes = Blake3.digest bytes' → bytes = bytes') :
    Set.InjOn Blake3.digest (fed S entries incl ∪ fed S' entries' incl') := by
  have hmem : ∀ bytes ∈ fed S entries incl ∪ fed S' entries' incl',
      bytes ∈ fedList S entries incl ++ fedList S' entries' incl' := by
    rintro bytes (hb | hb)
    · exact List.mem_append_left _ (mem_fedList hb)
    · exact List.mem_append_right _ (mem_fedList hb)
  intro bytes hb bytes' hb'
  exact h bytes (hmem bytes hb) bytes' (hmem bytes' hb')

instance (e : Entry) : Decidable e.Fits :=
  decidable_of_iff (e.path.length < 2 ^ 63 ∧ (∀ target ∈ e.symlinkTarget, target.length < 2 ^ 63) ∧
      e.size < 2 ^ 64 ∧ e.version.lamport < 2 ^ 64 ∧ e.version.origin.length < 2 ^ 63)
    ⟨fun ⟨hp, ht, hs, hl, ho⟩ ↦ ⟨hp, ht, hs, hl, ho⟩, fun ⟨hp, ht, hs, hl, ho⟩ ↦ ⟨hp, ht, hs, hl, ho⟩⟩

instance (entries : Index) : Decidable (AllFit entries) :=
  decidable_of_iff (∀ e ∈ OrdMap.values entries, e.Fits) <| by
    simp only [OrdMap.mem_values_iff, AllFit, forall_exists_index]
    exact forall_comm

omit [Blake3] in
/-- A tree derived for one file, and a tree of two files after one was forgotten. -/
theorem rootHash_commits_oneFile :
    letI : Blake3 := Blake3.reference
    let f : Entry := ⟨lit "f", .file, some zeroHash, none, 3, some 0o644, ⟨1, lit "a"⟩⟩
    let g : Entry := ⟨lit "d/g", .tombstone, none, none, 0, none, ⟨2, lit "b"⟩⟩
    let S := deriveTree (indexOf [f])
    let S' := updateTreeSnapshot (deriveTree (indexOf [f, g])) ((indexOf [f, g]).erase (lit "d/g"))
      [lit "d/g"] inclAll
    S.rootHash = S'.rootHash ∧ ∀ e, Included (indexOf [f]) inclAll e ↔
      Included ((indexOf [f, g]).erase (lit "d/g")) inclAll e := by
  let _ : Blake3 := Blake3.reference
  intro f g S S'
  have hroot : S.rootHash = S'.rootHash := by decide +kernel
  refine ⟨hroot, (rootHash_commits (.derive (by decide +kernel))
    (.update (.derive (by decide +kernel)) (by decide +kernel) (by decide +kernel))
    (by decide +kernel) (by decide +kernel) (injOn_fed (by decide +kernel))).1 hroot⟩

end Trees

end Lilsync
