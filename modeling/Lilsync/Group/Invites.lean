import Lilsync.Identity
import Lilsync.Lib.Machine

/-!
# Invites

`group.rs`: `add_invite` and `consume_invite`, on the file they share.  The
command line adds invites, the connections of the server consume them, and
nobody takes a lock: each call loads the file, reads the clock and saves the file
if it has changed it, and other calls may load and save in between.

Invites are for single use as long as every call saves over what it loaded
(`singleUse_of_savesOverLoaded`).
-/

namespace Lilsync

open Lilsync.Lib

/-- `PendingInvite`. -/
structure PendingInvite where
  secretHash : Str
  expiresAtMs : Nat
deriving DecidableEq

/-- `hash_secret`. -/
def hashSecret [Blake3] (secret : Str) : Str := toHex (Blake3.digest secret)

/-- The calls that change the file: `add_invite` and `consume_invite`. -/
inductive InviteOp where
  | add (secret : Str) (expiresAtMs : Nat)
  | consume (secret : Str)
deriving DecidableEq

namespace InviteOp

/-- The secret a call is about. -/
def secret : InviteOp → Str
  | add secret _ => secret
  | consume secret => secret

/-- The call adds an invite. -/
def isAdd : InviteOp → Bool
  | add .. => true
  | consume _ => false

/-- What a call makes of the invites it has loaded, and whether it has found its own. -/
def edit [Blake3] (invites : List PendingInvite) (now : Nat) :
    InviteOp → List PendingInvite × Bool
  | add secret expiresAtMs =>
    (invites.filter (now < ·.expiresAtMs) ++ [⟨hashSecret secret, expiresAtMs⟩], false)
  | consume secret =>
    (invites.filter fun i ↦ now < i.expiresAtMs ∧ i.secretHash ≠ hashSecret secret,
      invites.any fun i ↦ now < i.expiresAtMs ∧ i.secretHash = hashSecret secret)

/-- Whether a call saves its result: `consume_invite` does not rewrite a file it
has taken nothing from. -/
def saves (loaded edited : List PendingInvite) : InviteOp → Bool
  | add .. => true
  | consume _ => edited.length ≠ loaded.length

end InviteOp

/-- Where a call stands. -/
inductive InvitePc where
  | loading
  | loaded (invites : List PendingInvite)
  | saving (loaded : List PendingInvite) (now : Nat)
  | done (now : Nat) (found : Bool)
  | failed (err : IoError)
deriving DecidableEq

/-- The call has returned. -/
def InvitePc.isDone : InvitePc → Bool
  | done .. => true
  | _ => false

/-- The invites that the call is about to replace in the file. -/
def InvitePc.savesOver : InvitePc → Option (List PendingInvite)
  | saving invites _ => some invites
  | _ => none

structure InviteCall where
  op : InviteOp
  pc : InvitePc
deriving DecidableEq

/-- What the system does for a call: its file operation, and the clock. -/
structure InviteWeather where
  io : IoResult Unit
  now : IoResult Nat

/-- The file, which is `none` before the first save, and the calls on it. `latest`
is the latest time that any of them has read. -/
structure InviteSystem where
  file : Option (List PendingInvite)
  calls : List InviteCall
  latest : Nat

inductive InviteAct where
  | call (op : InviteOp)
  | run (t : Nat) (weather : InviteWeather)

namespace InviteSystem

/-- `load_invites`. -/
def invites (s : InviteSystem) : List PendingInvite := s.file.getD []

def setPc (s : InviteSystem) (t : Nat) (pc : InvitePc) : InviteSystem :=
  { s with calls := s.calls.modify t ({ · with pc }) }

section Steps

variable [Blake3]

/-- The next step of a call. -/
def runCall (s : InviteSystem) (t : Nat) (call : InviteCall) (weather : InviteWeather) :
    Option InviteSystem :=
  match call.pc with
  | .loading =>
    match weather.io with
    | .error err => some (s.setPc t (.failed err))
    | .ok () => some (s.setPc t (.loaded s.invites))
  | .loaded invites =>
    match weather.now with
    | .error err => some (s.setPc t (.failed err))
    | .ok now =>
      let (edited, found) := call.op.edit invites now
      let pc := if call.op.saves invites edited then .saving invites now else .done now found
      some { s.setPc t pc with latest := max s.latest now }
  | .saving loaded now =>
    match weather.io with
    | .error err => some (s.setPc t (.failed err))
    | .ok () =>
      let (edited, found) := call.op.edit loaded now
      some { s.setPc t (.done now found) with file := some edited }
  | .done .. | .failed _ => none

def next (s : InviteSystem) : InviteAct → Option InviteSystem
  | .call op => some { s with calls := s.calls ++ [⟨op, .loading⟩] }
  | .run t weather => s.calls[t]?.bind fun call ↦ s.runCall t call weather

/-! ## Single use -/

/-- `consume_invite` has accepted the secret, having read the given time. -/
def Accepted (s : InviteSystem) (t : Nat) (secret : Str) (now : Nat) : Prop :=
  s.calls[t]? = some ⟨.consume secret, .done now true⟩

/-- `add_invite` has returned. -/
def Added (s : InviteSystem) (secret : Str) (expiresAtMs : Nat) : Prop :=
  ∃ (t now : Nat) (found : Bool), s.calls[t]? = some ⟨.add secret expiresAtMs, .done now found⟩

/-- Invites are for single use: no secret is accepted twice, none is accepted that
has not been added or has expired, and an invite that nobody has seen expire is on
file until it is accepted. -/
structure SingleUse (s : InviteSystem) : Prop where
  once : ∀ {t t' secret now now'}, s.Accepted t secret now → s.Accepted t' secret now' → t = t'
  inTime : ∀ {t secret now}, s.Accepted t secret now →
    ∃ expiresAtMs, s.Added secret expiresAtMs ∧ now < expiresAtMs
  kept : ∀ {secret expiresAtMs}, s.Added secret expiresAtMs → s.latest < expiresAtMs →
    (∀ t now, ¬ s.Accepted t secret now) → PendingInvite.mk (hashSecret secret) expiresAtMs ∈ s.invites

end Steps

/-! ## What a step can do -/

section Cases

variable {s s' : InviteSystem} {t u : Nat} {call call' : InviteCall} {pc : InvitePc}

theorem getElem?_setPc (s : InviteSystem) (t u : Nat) (pc : InvitePc) :
    (s.setPc t pc).calls[u]? = s.calls[u]?.map fun c ↦ if t = u then { c with pc } else c := by
  rw [setPc, List.getElem?_modify]
  split <;> simp

/-- Where a call stands after the call `t` has moved. -/
theorem getElem?_of_setPc (ht : s.calls[t]? = some call)
    (h : (s.setPc t pc).calls[u]? = some call') :
    (t = u ∧ call' = { call with pc }) ∨ s.calls[u]? = some call' := by
  rw [getElem?_setPc] at h
  obtain ⟨call₀, hu, rfl⟩ := Option.map_eq_some_iff.mp h
  split
  · next heq =>
    subst heq
    rw [ht] at hu
    exact .inl ⟨rfl, by rw [Option.some.inj hu]⟩
  · exact .inr hu

/-- The calls that are done, after the call `t` has moved. -/
theorem done_setPc_iff {op : InviteOp} {now : Nat} {found : Bool} (ht : s.calls[t]? = some call)
    (hcall : call.pc.isDone = false) :
    (s.setPc t pc).calls[u]? = some ⟨op, .done now found⟩ ↔
      s.calls[u]? = some ⟨op, .done now found⟩ ∨
        (t = u ∧ call.op = op ∧ pc = .done now found) := by
  rw [getElem?_setPc]
  by_cases htu : t = u
  · subst htu
    rw [ht]
    obtain ⟨op', pc'⟩ := call
    have hne : pc' ≠ .done now found := by
      rintro rfl
      cases hcall
    simp [hne]
  · simp [htu]

theorem accepted_setPc_iff {secret : Str} {now : Nat} (ht : s.calls[t]? = some call)
    (hcall : call.pc.isDone = false) : (s.setPc t pc).Accepted u secret now ↔
      s.Accepted u secret now ∨ (t = u ∧ call.op = .consume secret ∧ pc = .done now true) :=
  done_setPc_iff ht hcall

theorem added_setPc_iff {secret : Str} {expiresAtMs : Nat} (ht : s.calls[t]? = some call)
    (hcall : call.pc.isDone = false) : (s.setPc t pc).Added secret expiresAtMs ↔
      s.Added secret expiresAtMs ∨ (call.op = .add secret expiresAtMs ∧ pc.isDone = true) := by
  rw [Added]
  simp only [done_setPc_iff ht hcall]
  constructor
  · rintro ⟨u, now, found, h | ⟨-, hop, rfl⟩⟩
    · exact .inl ⟨u, now, found, h⟩
    · exact .inr ⟨hop, rfl⟩
  · rintro (⟨u, now, found, h⟩ | ⟨hop, hpc⟩)
    · exact ⟨u, now, found, .inl h⟩
    · cases pc with
      | done now found => exact ⟨t, now, found, .inr ⟨rfl, hop, rfl⟩⟩
      | _ => cases hpc

variable [Blake3]

/-- A call moves on without finishing, gives up, finishes without saving, or saves
and finishes. -/
theorem runCall_cases {weather : InviteWeather} (h : s.runCall t call weather = some s') :
    (∃ pc latest, call.pc.isDone = false ∧ pc.isDone = false ∧
      (∀ loaded now, pc = .saving loaded now → now ≤ latest) ∧
      s.latest ≤ latest ∧ s' = { s.setPc t pc with latest }) ∨
    (∃ invites now, call.pc = .loaded invites ∧
      call.op.saves invites (call.op.edit invites now).1 = false ∧
      s' = { s.setPc t (.done now (call.op.edit invites now).2) with latest := max s.latest now }) ∨
    (∃ loaded now, call.pc = .saving loaded now ∧ weather.io = .ok () ∧
      s' = { s.setPc t (.done now (call.op.edit loaded now).2) with
        file := some (call.op.edit loaded now).1 }) := by
  rw [runCall] at h
  have hmove (pc : InvitePc) (hdone : pc.isDone = false)
      (hsaving : ∀ loaded now, pc ≠ .saving loaded now) (heq : some (s.setPc t pc) = some s') :
      ∃ pc latest, pc.isDone = false ∧ (∀ loaded now, pc = .saving loaded now → now ≤ latest) ∧
        s.latest ≤ latest ∧ s' = { s.setPc t pc with latest } :=
    ⟨pc, s.latest, hdone, fun loaded now hpc ↦ absurd hpc (hsaving loaded now), le_rfl,
      (Option.some.inj heq).symm⟩
  cases hpc : call.pc with rw [hpc] at h
  | loading =>
    dsimp only at h
    refine .inl ?_
    split at h
    · obtain ⟨pc, latest, hrest⟩ := hmove _ rfl (by simp) h
      exact ⟨pc, latest, rfl, hrest⟩
    · obtain ⟨pc, latest, hrest⟩ := hmove _ rfl (by simp) h
      exact ⟨pc, latest, rfl, hrest⟩
  | loaded invites =>
    dsimp only at h
    split at h
    · obtain ⟨pc, latest, hrest⟩ := hmove _ rfl (by simp) h
      exact .inl ⟨pc, latest, rfl, hrest⟩
    · next now hnow =>
      have hs' := Option.some.inj h
      match hsaves : call.op.saves invites (call.op.edit invites now).1 with
      | true =>
        rw [hsaves, if_pos rfl] at hs'
        refine .inl ⟨.saving invites now, _, rfl, rfl, fun loaded now' h ↦ ?_,
          Nat.le_max_left .., hs'.symm⟩
        cases h
        exact Nat.le_max_right ..
      | false =>
        rw [hsaves, if_neg Bool.false_ne_true] at hs'
        exact .inr (.inl ⟨invites, now, rfl, hsaves, hs'.symm⟩)
  | saving loaded now =>
    dsimp only at h
    split at h
    · obtain ⟨pc, latest, hrest⟩ := hmove _ rfl (by simp) h
      exact .inl ⟨pc, latest, rfl, hrest⟩
    · next hio => exact .inr (.inr ⟨loaded, now, rfl, hio, (Option.some.inj h).symm⟩)
  | done now found => cases h
  | failed err => cases h

end Cases

/-! ## What an edit does -/

section Edits

variable [Blake3] {invites : List PendingInvite} {secret : Str} {expiresAtMs now : Nat}
  {i : PendingInvite}

theorem mem_edit_add : i ∈ ((InviteOp.add secret expiresAtMs).edit invites now).1 ↔
    (i ∈ invites ∧ now < i.expiresAtMs) ∨ i = ⟨hashSecret secret, expiresAtMs⟩ := by
  simp [InviteOp.edit]

theorem mem_edit_consume : i ∈ ((InviteOp.consume secret).edit invites now).1 ↔
    i ∈ invites ∧ now < i.expiresAtMs ∧ i.secretHash ≠ hashSecret secret := by
  simp [InviteOp.edit]

theorem found_consume : ((InviteOp.consume secret).edit invites now).2 = true ↔
    ∃ i ∈ invites, now < i.expiresAtMs ∧ i.secretHash = hashSecret secret := by
  simp [InviteOp.edit]

/-- A call that found its invite saves the file without it. -/
theorem not_found_of_not_saves {op : InviteOp}
    (h : op.saves invites (op.edit invites now).1 = false) : (op.edit invites now).2 = false := by
  cases op with
  | add secret expiresAtMs => cases h
  | consume secret =>
    by_contra hfound
    obtain ⟨i, hi, -, hhash⟩ := found_consume.mp (Bool.not_eq_false _ ▸ hfound)
    have hlt : ((InviteOp.consume secret).edit invites now).1.length < invites.length := by
      rw [InviteOp.edit, List.length_filter_lt_length_iff_exists]
      exact ⟨i, hi, by simp [hhash]⟩
    rw [InviteOp.saves] at h
    simp [hlt.ne] at h

end Edits

/-! ## The invariant -/

section Invariant

variable [Blake3] {s s' : InviteSystem} {t : Nat} {call : InviteCall}

/-- Each invite has a secret of its own, and no two secrets have one hash. -/
def OwnSecret (s : InviteSystem) : InviteAct → Prop
  | .call op => ∀ call ∈ s.calls, hashSecret call.op.secret = hashSecret op.secret →
      call.op.secret = op.secret ∧ ¬ (call.op.isAdd ∧ op.isAdd)
  | .run .. => True

/-- A call saves the file only over the invites it has loaded. -/
def SavesOverLoaded (s : InviteSystem) : InviteAct → Prop
  | .call _ => True
  | .run t weather => weather.io.isOk → ∀ call ∈ s.calls[t]?, ∀ loaded ∈ call.pc.savesOver,
      s.invites = loaded

/-- Calls with one hash are about one secret, and one of them at most adds it. -/
def SecretsDiffer (s : InviteSystem) : Prop :=
  ∀ ⦃t t' : Nat⦄ ⦃call call'⦄, s.calls[t]? = some call → s.calls[t']? = some call' →
    hashSecret call.op.secret = hashSecret call'.op.secret →
      call.op.secret = call'.op.secret ∧ (call.op.isAdd → call'.op.isAdd → t = t')

/-- The times that calls have read are not after the latest. -/
def ClockRead (s : InviteSystem) : Prop :=
  ∀ ⦃t : Nat⦄ ⦃call invites now⦄, s.calls[t]? = some call → call.pc = .saving invites now →
    now ≤ s.latest

/-- Every invite on file is accounted for by the calls. -/
structure Accounted (s : InviteSystem) : Prop where
  secrets : SecretsDiffer s
  read : ClockRead s
  filed : ∀ i ∈ s.invites, ∃ secret, i.secretHash = hashSecret secret ∧
    s.Added secret i.expiresAtMs
  spent : ∀ {t secret now}, s.Accepted t secret now →
    ∀ i ∈ s.invites, i.secretHash ≠ hashSecret secret
  singleUse : SingleUse s

/-- Nothing is on file, and nobody has called yet. -/
structure NoInvites (s : InviteSystem) : Prop where
  file_eq : s.file = none
  calls_eq : s.calls = []

omit [Blake3] in
theorem NoInvites.not_accepted (h : NoInvites s) {secret : Str} {now : Nat} :
    ¬ s.Accepted t secret now := by
  rw [Accepted, h.calls_eq]
  simp

omit [Blake3] in
theorem NoInvites.not_added (h : NoInvites s) {secret : Str} {expiresAtMs : Nat} :
    ¬ s.Added secret expiresAtMs := by
  rw [Added, h.calls_eq]
  simp

theorem NoInvites.accounted (h : NoInvites s) : Accounted s where
  secrets t t' call call' ht := by
    rw [h.calls_eq] at ht
    cases ht
  read t call invites now ht := by
    rw [h.calls_eq] at ht
    cases ht
  filed i hi := by
    rw [invites, h.file_eq] at hi
    cases hi
  spent ha := absurd ha h.not_accepted
  singleUse := ⟨fun ha ↦ absurd ha h.not_accepted, fun ha ↦ absurd ha h.not_accepted,
    fun hadded ↦ absurd hadded h.not_added⟩

/-- What the calls have done is unchanged. -/
theorem Accounted.carry (h : Accounted s) (hsecrets : SecretsDiffer s') (hread : ClockRead s')
    (hinvites : s'.invites = s.invites) (hlatest : s.latest ≤ s'.latest)
    (haccepted : ∀ t secret now, s'.Accepted t secret now ↔ s.Accepted t secret now)
    (hadded : ∀ secret expiresAtMs, s'.Added secret expiresAtMs ↔ s.Added secret expiresAtMs) :
    Accounted s' := by
  refine ⟨hsecrets, hread, fun i hi ↦ ?_, fun ha ↦ ?_, ⟨fun ha ha' ↦ ?_, fun ha ↦ ?_,
    fun hnew hlt hnone ↦ ?_⟩⟩
  · obtain ⟨secret, hhash, hi⟩ := h.filed i (hinvites ▸ hi)
    exact ⟨secret, hhash, (hadded ..).mpr hi⟩
  · rw [hinvites]
    exact h.spent ((haccepted ..).mp ha)
  · exact h.singleUse.once ((haccepted ..).mp ha) ((haccepted ..).mp ha')
  · obtain ⟨expiresAtMs, hi, hlt⟩ := h.singleUse.inTime ((haccepted ..).mp ha)
    exact ⟨expiresAtMs, (hadded ..).mpr hi, hlt⟩
  · rw [hinvites]
    exact h.singleUse.kept ((hadded ..).mp hnew) (hlatest.trans_lt hlt) fun t now ha ↦
      hnone t now ((haccepted ..).mpr ha)

omit [Blake3] in
theorem getElem?_append_call {op : InviteOp} {u : Nat} {call' : InviteCall}
    (h : (s.calls ++ [⟨op, .loading⟩])[u]? = some call') :
    s.calls[u]? = some call' ∨ (u = s.calls.length ∧ call' = ⟨op, .loading⟩) := by
  rw [List.getElem?_append] at h
  split at h
  · exact .inl h
  · next hlt =>
    rw [List.getElem?_singleton] at h
    split at h
    · next heq => exact .inr ⟨by omega, (Option.some.inj h).symm⟩
    · cases h

omit [Blake3] in
/-- A new call has done nothing. -/
theorem done_append_iff {op op' : InviteOp} {u now : Nat} {found : Bool} :
    (s.calls ++ [⟨op, .loading⟩])[u]? = some ⟨op', .done now found⟩ ↔
      s.calls[u]? = some ⟨op', .done now found⟩ := by
  constructor
  · intro h
    rcases getElem?_append_call h with h | ⟨-, h⟩
    · exact h
    · cases h
  · intro h
    rw [List.getElem?_append_left (List.getElem?_eq_some_iff.mp h).1]
    exact h

theorem Accounted.newCall (h : Accounted s) {op : InviteOp} (hown : OwnSecret s (.call op)) :
    Accounted { s with calls := s.calls ++ [⟨op, .loading⟩] } := by
  refine h.carry (fun t t' call call' ht ht' hhash ↦ ?_) (fun t call invites now ht hpc ↦ ?_) rfl
    le_rfl (fun _ _ _ ↦ done_append_iff) fun _ _ ↦ ?_
  · rcases getElem?_append_call ht with ht | ⟨rfl, rfl⟩ <;>
      rcases getElem?_append_call ht' with ht' | ⟨rfl, rfl⟩
    · exact h.secrets ht ht' hhash
    · obtain ⟨heq, hadd⟩ := hown _ (List.mem_of_getElem? ht) hhash
      exact ⟨heq, fun hc hc' ↦ absurd ⟨hc, hc'⟩ hadd⟩
    · obtain ⟨heq, hadd⟩ := hown _ (List.mem_of_getElem? ht') hhash.symm
      exact ⟨heq.symm, fun hc hc' ↦ absurd ⟨hc', hc⟩ hadd⟩
    · exact ⟨rfl, fun _ _ ↦ rfl⟩
  · rcases getElem?_append_call ht with ht | ⟨-, rfl⟩
    · exact h.read ht hpc
    · cases hpc
  · simp only [Added, done_append_iff]

omit [Blake3] in
theorem getElem?_of_setPc' {u : Nat} {pc : InvitePc} {call' : InviteCall}
    (h : (s.setPc t pc).calls[u]? = some call') :
    ∃ call, s.calls[u]? = some call ∧ call.op = call'.op := by
  rw [getElem?_setPc] at h
  obtain ⟨call, hu, rfl⟩ := Option.map_eq_some_iff.mp h
  refine ⟨call, hu, ?_⟩
  split <;> rfl

theorem SecretsDiffer.setPc (h : SecretsDiffer s) (pc : InvitePc) :
    SecretsDiffer (s.setPc t pc) := by
  intro u u' call' call'' hu hu' hhash
  obtain ⟨_, hu, hop⟩ := getElem?_of_setPc' hu
  obtain ⟨_, hu', hop'⟩ := getElem?_of_setPc' hu'
  rw [← hop, ← hop'] at hhash ⊢
  exact h hu hu' hhash

omit [Blake3] in
theorem ClockRead.setPc (h : ClockRead s) (ht : s.calls[t]? = some call) {pc : InvitePc}
    {latest : Nat} (hlatest : s.latest ≤ latest)
    (hpc : ∀ invites now, pc = .saving invites now → now ≤ latest) :
    ClockRead { s.setPc t pc with latest } := by
  intro u call' invites now hu hcall
  rcases getElem?_of_setPc ht hu with ⟨-, rfl⟩ | hu
  · exact hpc invites now hcall
  · exact (h hu hcall).trans hlatest

/-- A call that has only moved on. -/
theorem Accounted.move (h : Accounted s) (ht : s.calls[t]? = some call)
    (hcall : call.pc.isDone = false) {pc : InvitePc} {latest : Nat} (hpc : pc.isDone = false)
    (hread : ∀ invites now, pc = .saving invites now → now ≤ latest)
    (hlatest : s.latest ≤ latest) : Accounted { s.setPc t pc with latest } := by
  refine h.carry (h.secrets.setPc pc) (h.read.setPc ht hlatest hread) rfl hlatest
    (fun u secret now ↦ ?_) fun secret expiresAtMs ↦ ?_
  · refine (accepted_setPc_iff ht hcall).trans (or_iff_left ?_)
    rintro ⟨-, -, rfl⟩
    cases hpc
  · refine (added_setPc_iff ht hcall).trans (or_iff_left ?_)
    rintro ⟨-, hdone⟩
    cases hpc.symm.trans hdone

/-- A call that has found nothing to save. -/
theorem Accounted.finish (h : Accounted s) (ht : s.calls[t]? = some call)
    {invites : List PendingInvite} {now : Nat} (hpc : call.pc = .loaded invites)
    (hsaves : call.op.saves invites (call.op.edit invites now).1 = false) :
    Accounted { s.setPc t (.done now (call.op.edit invites now).2) with
      latest := max s.latest now } := by
  have hcall : call.pc.isDone = false := by rw [hpc]; rfl
  refine h.carry (h.secrets.setPc _) (h.read.setPc ht (Nat.le_max_left ..) (by simp)) rfl
    (Nat.le_max_left ..) (fun u secret now ↦ ?_) fun secret expiresAtMs ↦ ?_
  · refine (accepted_setPc_iff ht hcall).trans (or_iff_left ?_)
    rintro ⟨-, -, hdone⟩
    rw [not_found_of_not_saves hsaves] at hdone
    cases hdone
  · refine (added_setPc_iff ht hcall).trans (or_iff_left ?_)
    rintro ⟨hop, -⟩
    rw [hop] at hsaves
    cases hsaves

/-- An invite is saved with those that have not expired. -/
theorem Accounted.saveAdd (h : Accounted s) (ht : s.calls[t]? = some call) {now : Nat}
    {secret : Str} {expiresAtMs : Nat} (hpc : call.pc = .saving s.invites now)
    (hop : call.op = .add secret expiresAtMs) :
    Accounted { s.setPc t (.done now (call.op.edit s.invites now).2) with
      file := some (call.op.edit s.invites now).1 } := by
  have hcall : call.pc.isDone = false := by rw [hpc]; rfl
  obtain ⟨op, pc⟩ := call
  obtain rfl : op = .add secret expiresAtMs := hop
  have haccepted (u : Nat) (secret' : Str) (now' : Nat) :
      (s.setPc t (.done now ((InviteOp.add secret expiresAtMs).edit s.invites now).2)).Accepted u
        secret' now' ↔ s.Accepted u secret' now' := by
    refine (accepted_setPc_iff ht hcall).trans (or_iff_left ?_)
    rintro ⟨-, hop, -⟩
    cases hop
  have hadded (secret' : Str) (expiresAtMs' : Nat) :
      (s.setPc t (.done now ((InviteOp.add secret expiresAtMs).edit s.invites now).2)).Added secret'
        expiresAtMs' ↔ s.Added secret' expiresAtMs' ∨ (secret = secret' ∧
          expiresAtMs = expiresAtMs') := by
    rw [added_setPc_iff ht hcall, InviteOp.add.injEq]
    exact or_congr_right (and_iff_left rfl)
  -- the only call that adds the secret has not been done
  have hfresh {u : Nat} {secret' : Str} {now' : Nat} (ha : s.Accepted u secret' now') :
      hashSecret secret ≠ hashSecret secret' := by
    intro hhash
    obtain ⟨expiresAtMs', ⟨u', now'', found, hu'⟩, -⟩ := h.singleUse.inTime ha
    obtain ⟨-, heq⟩ := h.secrets ht hu' hhash
    obtain rfl := heq rfl rfl
    rw [ht] at hu'
    obtain rfl := (InviteCall.mk.inj (Option.some.inj hu')).2
    cases hcall
  refine ⟨h.secrets.setPc _, h.read.setPc ht le_rfl (by simp), fun i hi ↦ ?_, fun ha i hi ↦ ?_,
    ⟨fun ha ha' ↦ ?_, fun ha ↦ ?_, fun hnew hlt hnone ↦ ?_⟩⟩
  · rcases mem_edit_add.mp hi with ⟨hi, -⟩ | rfl
    · obtain ⟨secret', hhash, hi⟩ := h.filed i hi
      exact ⟨secret', hhash, (hadded ..).mpr (.inl hi)⟩
    · exact ⟨secret, rfl, (hadded ..).mpr (.inr ⟨rfl, rfl⟩)⟩
  · rcases mem_edit_add.mp hi with ⟨hi, -⟩ | rfl
    · exact h.spent ((haccepted ..).mp ha) i hi
    · exact hfresh ((haccepted ..).mp ha)
  · exact h.singleUse.once ((haccepted ..).mp ha) ((haccepted ..).mp ha')
  · obtain ⟨expiresAtMs', hi, hlt⟩ := h.singleUse.inTime ((haccepted ..).mp ha)
    exact ⟨expiresAtMs', (hadded ..).mpr (.inl hi), hlt⟩
  · refine mem_edit_add.mpr ?_
    rcases (hadded ..).mp hnew with hold | ⟨rfl, rfl⟩
    · exact .inl ⟨h.singleUse.kept hold hlt fun u now' ha ↦ hnone u now' ((haccepted ..).mpr ha),
        (h.read ht hpc).trans_lt hlt⟩
    · exact .inr rfl

/-- An invite that is found is consumed, and no other one. -/
theorem Accounted.saveConsume (h : Accounted s) (ht : s.calls[t]? = some call) {now : Nat}
    {secret : Str} (hpc : call.pc = .saving s.invites now) (hop : call.op = .consume secret) :
    Accounted { s.setPc t (.done now (call.op.edit s.invites now).2) with
      file := some (call.op.edit s.invites now).1 } := by
  have hcall : call.pc.isDone = false := by rw [hpc]; rfl
  have hread := h.read ht hpc
  obtain ⟨op, pc⟩ := call
  obtain rfl : op = .consume secret := hop
  have hadded (secret' : Str) (expiresAtMs' : Nat) :
      (s.setPc t (.done now ((InviteOp.consume secret).edit s.invites now).2)).Added secret'
        expiresAtMs' ↔ s.Added secret' expiresAtMs' := by
    refine (added_setPc_iff ht hcall).trans (or_iff_left ?_)
    rintro ⟨hop, -⟩
    cases hop
  have haccepted {u : Nat} {secret' : Str} {now' : Nat} :
      (s.setPc t (.done now ((InviteOp.consume secret).edit s.invites now).2)).Accepted u secret'
        now' ↔ s.Accepted u secret' now' ∨ (t = u ∧ secret = secret' ∧ now = now' ∧
          ∃ i ∈ s.invites, now < i.expiresAtMs ∧ i.secretHash = hashSecret secret) := by
    rw [accepted_setPc_iff ht hcall, InviteOp.consume.injEq, InvitePc.done.injEq, found_consume]
  -- an invite with the hash was added with the secret
  have hsame {i : PendingInvite} {secret' : Str} (hi : s.Added secret' i.expiresAtMs)
      (hhash : hashSecret secret' = hashSecret secret) : secret' = secret := by
    obtain ⟨u, now', found, hu⟩ := hi
    exact (h.secrets hu ht hhash).1
  refine ⟨h.secrets.setPc _, h.read.setPc ht le_rfl (by simp), fun i hi ↦ ?_, fun ha i hi ↦ ?_,
    ⟨fun ha ha' ↦ ?_, fun ha ↦ ?_, fun hnew hlt hnone ↦ ?_⟩⟩
  · obtain ⟨secret', hhash, hi⟩ := h.filed i (mem_edit_consume.mp hi).1
    exact ⟨secret', hhash, (hadded ..).mpr hi⟩
  · obtain ⟨hi, -, hne⟩ := mem_edit_consume.mp hi
    rcases haccepted.mp ha with ha | ⟨-, rfl, -⟩
    · exact h.spent ha i hi
    · exact hne
  · rcases haccepted.mp ha with ha | ⟨rfl, rfl, -, i, hi, -, hhash⟩ <;>
      rcases haccepted.mp ha' with ha' | ⟨rfl, hsecret, -, i', hi', -, hhash'⟩
    · exact h.singleUse.once ha ha'
    · exact absurd hhash' (hsecret ▸ h.spent ha i' hi')
    · exact absurd hhash (h.spent ha' i hi)
    · rfl
  · rcases haccepted.mp ha with ha | ⟨rfl, rfl, rfl, i, hi, hlt, hhash⟩
    · obtain ⟨expiresAtMs', hi, hlt⟩ := h.singleUse.inTime ha
      exact ⟨expiresAtMs', (hadded ..).mpr hi, hlt⟩
    · obtain ⟨secret', hhash', hi⟩ := h.filed i hi
      obtain rfl := hsame hi (hhash'.symm.trans hhash)
      exact ⟨i.expiresAtMs, (hadded ..).mpr hi, hlt⟩
  · have hold := (hadded ..).mp hnew
    have hmem := h.singleUse.kept hold hlt fun u now' ha ↦ hnone u now' (haccepted.mpr (.inl ha))
    refine mem_edit_consume.mpr ⟨hmem, hread.trans_lt hlt, fun hhash ↦ ?_⟩
    obtain ⟨u, now', found, hu⟩ := hold
    obtain rfl := (h.secrets hu ht hhash).1
    exact hnone t now (haccepted.mpr (.inr ⟨rfl, rfl, rfl, _, hmem, hread.trans_lt hlt, rfl⟩))

/-- A call that saves over what it has loaded. -/
theorem Accounted.save (h : Accounted s) (ht : s.calls[t]? = some call) {now : Nat}
    (hpc : call.pc = .saving s.invites now) :
    Accounted { s.setPc t (.done now (call.op.edit s.invites now).2) with
      file := some (call.op.edit s.invites now).1 } := by
  cases hop : call.op with
  | add secret expiresAtMs => exact hop ▸ h.saveAdd ht hpc hop
  | consume secret => exact hop ▸ h.saveConsume ht hpc hop

theorem Accounted.next (h : Accounted s) {act : InviteAct} (hown : OwnSecret s act)
    (hover : SavesOverLoaded s act) (hnext : s.next act = some s') : Accounted s' := by
  cases act with
  | call op =>
    obtain rfl := Option.some.inj hnext
    exact h.newCall hown
  | run t weather =>
    obtain ⟨call, ht, hrun⟩ := Option.bind_eq_some_iff.mp hnext
    rcases runCall_cases hrun with ⟨pc, latest, hcall, hpc, hread, hlatest, rfl⟩ |
      ⟨invites, now, hpc, hsaves, rfl⟩ | ⟨loaded, now, hpc, hio, rfl⟩
    · exact h.move ht hcall hpc hread hlatest
    · exact h.finish ht hpc hsaves
    · obtain rfl : s.invites = loaded := hover (by rw [hio]; rfl) call ht loaded (by rw [hpc]; rfl)
      exact h.save ht hpc

/-- The machine of the calls, held to what `P` allows. -/
def machine (P : InviteSystem → InviteAct → Prop) : Machine InviteSystem :=
  .ofActions NoInvites next P

/-- As long as every call saves over what it has loaded, invites are for single use. -/
theorem singleUse_of_savesOverLoaded
    (h : (machine fun s act ↦ OwnSecret s act ∧ SavesOverLoaded s act).Reachable s) :
    SingleUse s := by
  refine (h.invariant (I := Accounted) (fun s hs ↦ NoInvites.accounted hs) ?_).singleUse
  rintro s s' - hs ⟨act, ⟨hown, hover⟩, hnext⟩
  exact hs.next hown hover hnext

end Invariant

/-! ## Overlapping calls -/

section Runs

variable [Blake3]

instance (s : InviteSystem) (act : InviteAct) : Decidable (OwnSecret s act) :=
  match act with
  | .call op => inferInstanceAs (Decidable (∀ call ∈ s.calls,
      hashSecret call.op.secret = hashSecret op.secret →
        call.op.secret = op.secret ∧ ¬ (call.op.isAdd ∧ op.isAdd)))
  | .run .. => isTrue trivial

instance (s : InviteSystem) (act : InviteAct) : Decidable (SavesOverLoaded s act) :=
  match act with
  | .call _ => isTrue trivial
  | .run t weather => inferInstanceAs (Decidable (weather.io.isOk → ∀ call ∈ s.calls[t]?,
      ∀ loaded ∈ call.pc.savesOver, s.invites = loaded))

/-- No invites, at the time 0. -/
def noInvites : InviteSystem := ⟨none, [], 0⟩

/-- Nothing fails, and it is the time 1. -/
def fair : InviteWeather := ⟨.ok (), .ok 1⟩

/-- An invite is added, and two nodes join with it, one after the other. -/
def joinTwice : List InviteAct :=
  [.call (.add (lit "s") 9), .run 0 fair, .run 0 fair, .run 0 fair,
    .call (.consume (lit "s")), .run 1 fair, .run 1 fair, .run 1 fair,
    .call (.consume (lit "s")), .run 2 fair, .run 2 fair]

omit [Blake3] in
theorem singleUse_after_joinTwice :
    letI : Blake3 := Blake3.reference
    ∃ s, Machine.runs next (fun s act ↦ OwnSecret s act ∧ SavesOverLoaded s act) noInvites
      joinTwice = some s ∧ SingleUse s := by
  let _ : Blake3 := Blake3.reference
  obtain ⟨s, hs⟩ : ∃ s, Machine.runs next (fun s act ↦ OwnSecret s act ∧ SavesOverLoaded s act)
      noInvites joinTwice = some s := Option.isSome_iff_exists.mp (by decide +kernel)
  exact ⟨s, hs, singleUse_of_savesOverLoaded (Machine.reachable_runs (.init ⟨rfl, rfl⟩) hs)⟩

/-- The invite is added, and two nodes join with it at the same time. -/
def joinTogether : List InviteAct :=
  [.call (.add (lit "s") 9), .run 0 fair, .run 0 fair, .run 0 fair,
    .call (.consume (lit "s")), .call (.consume (lit "s")), .run 1 fair, .run 2 fair,
    .run 1 fair, .run 2 fair, .run 1 fair, .run 2 fair]

omit [Blake3] in
/-- The counterexample: both nodes are accepted. -/
theorem not_forall_singleUse :
    ¬ ∀ (_ : Blake3) s, (machine OwnSecret).Reachable s → SingleUse s := by
  intro h
  let _ : Blake3 := Blake3.reference
  obtain ⟨s, hs, htwice⟩ := (Option.any_eq_true _ _).mp
    (show (Machine.runs next OwnSecret noInvites joinTogether).any (fun s ↦
      s.calls[1]? == some ⟨.consume (lit "s"), .done 1 true⟩ &&
        s.calls[2]? == some ⟨.consume (lit "s"), .done 1 true⟩) by decide +kernel)
  simp only [Bool.and_eq_true, beq_iff_eq] at htwice
  have hone := (h _ s (Machine.reachable_runs (.init ⟨rfl, rfl⟩) hs)).once htwice.1 htwice.2
  cases hone

end Runs

end InviteSystem

end Lilsync
