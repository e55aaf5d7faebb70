import Lilsync.Lib.Machine

/-!
# Calls over pooled connections

A call sends one request over a connection and reads the answer.  A connection that
has brought an answer is kept for its peer, up to a number, and another call may take
it; one on which anything goes wrong is dropped, whatever may still arrive on it.  A
call that fails on a kept connection may be tried again on a new one.

Calls overlap in any way.  If a reader that is content has read the whole of an answer
(`Exact`), then no call is ever given the answer to another one
(`answered_of_reachable`), and a kept connection has nothing left on it
(`idle_of_reachable`).
-/

namespace Lilsync.Lib

namespace Calls

variable {κ Req Item Resp : Type}

/-- A connection. -/
structure Link (κ Req Item : Type) where
  peer : κ
  /-- The requests that the server has not taken up. -/
  up : List Req
  /-- What the server has yet to send of its answer. -/
  pending : List Item
  /-- What it has sent and the client has not read. -/
  down : List Item

/-- How far a call has got; a connection was either pooled or is new. -/
inductive Stage (Resp : Type) where
  | waiting
  | holding (link : ℕ) (pooled : Bool)
  | sent (link : ℕ) (pooled : Bool)
  | done (resp : Resp)
  | failed

/-- The connection of a call. -/
def Stage.link? : Stage Resp → Option ℕ
  | .holding link _ | .sent link _ => some link
  | _ => none

structure Call (κ Req Resp : Type) where
  peer : κ
  request : Req
  stage : Stage Resp

/-- The connections and the calls, by number, and the pool. -/
structure State (κ Req Item Resp : Type) where
  links : ℕ → Option (Link κ Req Item)
  idle : κ → List ℕ
  calls : ℕ → Option (Call κ Req Resp)
  /-- Ghost: the answers of the servers, with the connection and the request. -/
  served : List (ℕ × Req × List Item)

/-- No connections and no calls. -/
def State.empty : State κ Req Item Resp := ⟨fun _ ↦ none, fun _ ↦ [], fun _ ↦ none, []⟩

inductive Act (κ Req Item Resp : Type) where
  /-- A call begins: it takes a connection from the pool if there is one. -/
  | start (call : ℕ) (peer : κ) (request : Req)
  /-- A new connection is made for a call. -/
  | connect (call link : ℕ)
  | send (call : ℕ)
  /-- The server takes up a request, and has an answer. -/
  | serve (link : ℕ) (answer : List Item)
  /-- A bit more of an answer arrives. -/
  | transmit (link : ℕ)
  /-- The call is content with what it has read.  Its connection is kept if there is room. -/
  | finish (call : ℕ) (resp : Resp) (rest : List Item)
  /-- The call gives up its connection, and perhaps tries again. -/
  | fail (call : ℕ) (retry : Bool)

/-! ## Steps -/

section Next

variable [DecidableEq κ] (cap : ℕ)

/-- A connection as it is now. -/
def State.setLink (s : State κ Req Item Resp) (l : ℕ) (link : Link κ Req Item) :
    State κ Req Item Resp :=
  { s with links := Function.update s.links l (some link) }

/-- The call in a new stage. -/
def State.setStage (s : State κ Req Item Resp) (c : ℕ) (call : Call κ Req Resp)
    (stage : Stage Resp) : State κ Req Item Resp :=
  { s with calls := Function.update s.calls c (some { call with stage }) }

/-- What an action leads to, if it can happen. -/
def next (s : State κ Req Item Resp) : Act κ Req Item Resp → Option (State κ Req Item Resp)
  | .start c peer request =>
    if (s.calls c).isSome then none
    else
      match s.idle peer with
      | [] => some (s.setStage c ⟨peer, request, .waiting⟩ .waiting)
      | link :: rest =>
        let s := { s with idle := Function.update s.idle peer rest }
        some (s.setStage c ⟨peer, request, .waiting⟩ (.holding link true))
  | .connect c l => (s.calls c).bind fun call ↦
    match call.stage with
    | .waiting =>
      if (s.links l).isSome then none
      else some ((s.setLink l ⟨call.peer, [], [], []⟩).setStage c call (.holding l false))
    | _ => none
  | .send c => (s.calls c).bind fun call ↦
    match call.stage with
    | .holding l pooled => (s.links l).map fun link ↦
      (s.setLink l { link with up := link.up ++ [call.request] }).setStage c call (.sent l pooled)
    | _ => none
  | .serve l answer => (s.links l).bind fun link ↦
    match link.up, link.pending with
    | request :: up, [] => some { s.setLink l { link with up, pending := answer } with
        served := s.served ++ [(l, request, answer)] }
    | _, _ => none
  | .transmit l => (s.links l).bind fun link ↦
    match link.pending with
    | item :: pending => some (s.setLink l { link with pending, down := link.down ++ [item] })
    | [] => none
  | .finish c resp rest => (s.calls c).bind fun call ↦
    match call.stage with
    | .sent l _ => (s.links l).map fun link ↦
      let idle :=
        if (s.idle call.peer).length < cap then
          Function.update s.idle call.peer (s.idle call.peer ++ [l])
        else s.idle
      { (s.setLink l { link with down := rest }).setStage c call (.done resp) with idle }
    | _ => none
  | .fail c retry => (s.calls c).bind fun call ↦
    match call.stage with
    | .waiting => some (s.setStage c call .failed)
    | .holding _ pooled | .sent _ pooled =>
      some (s.setStage c call (if retry && pooled then .waiting else .failed))
    | _ => none

/-- Servers answer as `answers` says, and calls read as `reads` says. -/
def Allowed (answers : κ → Req → List Item → Prop)
    (reads : Req → List Item → Resp → List Item → Prop) (s : State κ Req Item Resp) :
    Act κ Req Item Resp → Prop
  | .serve l answer => ∀ link, s.links l = some link → ∀ request, link.up.head? = some request →
      answers link.peer request answer
  | .finish c resp rest => ∀ call l pooled link, s.calls c = some call →
      call.stage = .sent l pooled → s.links l = some link →
      reads call.request link.down resp rest
  | _ => True

/-- Any number of calls. -/
def machine (answers : κ → Req → List Item → Prop)
    (reads : Req → List Item → Resp → List Item → Prop) : Machine (State κ Req Item Resp) :=
  .ofActions (· = .empty) (next cap) (Allowed answers reads)

end Next

/-- Who is content with the front of an answer has read all of it, and has read something. -/
structure Exact (answers : κ → Req → List Item → Prop)
    (reads : Req → List Item → Resp → List Item → Prop) : Prop where
  whole : ∀ peer request answer front resp rest, answers peer request answer → front <+: answer →
    reads request front resp rest → front = answer ∧ rest = []
  not_nil : ∀ request resp rest, ¬ reads request [] resp rest

/-! ## The invariant -/

/-- Nothing is under way on a connection. -/
structure Link.Clean (link : Link κ Req Item) : Prop where
  up_eq : link.up = []
  pending_eq : link.pending = []
  down_eq : link.down = []

/-- What is under way on the connection of a call. -/
def Fits (served : List (ℕ × Req × List Item)) (request : Req) (link : Link κ Req Item) (l : ℕ) :
    Stage Resp → Prop
  | .holding _ _ => link.Clean
  | .sent _ _ => link.up = [request] ∧ link.pending = [] ∧ link.down = [] ∨
      link.up = [] ∧ (l, request, link.down ++ link.pending) ∈ served
  | _ => True

/-- A call that is done has the answer to its request. -/
def Answered (answers : κ → Req → List Item → Prop)
    (reads : Req → List Item → Resp → List Item → Prop) (served : List (ℕ × Req × List Item))
    (call : Call κ Req Resp) : Prop :=
  ∀ resp, call.stage = .done resp → ∃ l answer, (l, call.request, answer) ∈ served ∧
    answers call.peer call.request answer ∧ reads call.request answer resp []

/-- Every connection is in one place. -/
structure Neat (cap : ℕ) (answers : κ → Req → List Item → Prop)
    (reads : Req → List Item → Resp → List Item → Prop) (s : State κ Req Item Resp) : Prop where
  idle : ∀ peer, ∀ l ∈ s.idle peer, ∃ link, s.links l = some link ∧ link.peer = peer ∧ link.Clean
  nodup : ∀ peer, (s.idle peer).Nodup
  length_le : ∀ peer, (s.idle peer).length ≤ cap
  apart : ∀ c call l, s.calls c = some call → call.stage.link? = some l → ∀ peer, l ∉ s.idle peer
  alone : ∀ c call d call' l, s.calls c = some call → call.stage.link? = some l →
    s.calls d = some call' → call'.stage.link? = some l → c = d
  linked : ∀ c call l, s.calls c = some call → call.stage.link? = some l → ∃ link,
    s.links l = some link ∧ link.peer = call.peer ∧ Fits s.served call.request link l call.stage
  served : ∀ x ∈ s.served, ∃ link, s.links x.1 = some link ∧ answers link.peer x.2.1 x.2.2
  answered : ∀ c call, s.calls c = some call → Answered answers reads s.served call

section Neat

variable {cap : ℕ} {answers : κ → Req → List Item → Prop}
  {reads : Req → List Item → Resp → List Item → Prop} {s s' : State κ Req Item Resp}
  {served served' : List (ℕ × Req × List Item)} {request : Req} {link link' : Link κ Req Item}
  {stage : Stage Resp} {c l : ℕ} {call : Call κ Req Resp}

theorem Fits.mono (h : Fits served request link l stage) (hserved : served ⊆ served') :
    Fits served' request link l stage := by
  cases stage with
  | sent _ _ => exact h.imp_right fun h ↦ ⟨h.1, hserved h.2⟩
  | _ => exact h

theorem Answered.mono (h : Answered answers reads served call) (hserved : served ⊆ served') :
    Answered answers reads served' call := by
  intro resp hresp
  obtain ⟨l, answer, hmem, hrest⟩ := h resp hresp
  exact ⟨l, answer, hserved hmem, hrest⟩

/-- On the connection of a call, nothing is idle. -/
theorem Neat.peer_eq (h : Neat cap answers reads s) (hcall : s.calls c = some call)
    (hstage : call.stage.link? = some l) (hl : s.links l = some link) : link.peer = call.peer := by
  obtain ⟨link', hl', hpeer, -⟩ := h.linked c call l hcall hstage
  obtain rfl := Option.some.inj (hl.symm.trans hl')
  exact hpeer

/-- Something happens on a connection. -/
theorem Neat.setLink (h : Neat cap answers reads s) (hl : s.links l = some link)
    (hpeer : link'.peer = link.peer) (hserved : s.served ⊆ served')
    (hclean : ∀ peer, l ∈ s.idle peer → link.Clean → link'.Clean)
    (hfits : ∀ c call, s.calls c = some call → call.stage.link? = some l →
      Fits s.served call.request link l call.stage → Fits served' call.request link' l call.stage)
    (hanswers : ∀ x ∈ served', x ∈ s.served ∨ x.1 = l ∧ answers link.peer x.2.1 x.2.2) :
    Neat cap answers reads { s.setLink l link' with served := served' } := by
  -- the other connections stay as they are, and all keep their peers
  have hlinks : ∀ k x, s.links k = some x → ∃ x',
      Function.update s.links l (some link') k = some x' ∧ x'.peer = x.peer ∧
      (k = l ∧ x = link ∧ x' = link' ∨ k ≠ l ∧ x' = x) := by
    intro k x hk
    by_cases hkl : k = l
    · subst hkl
      obtain rfl := Option.some.inj (hl.symm.trans hk)
      exact ⟨link', Function.update_self .., hpeer, .inl ⟨rfl, rfl, rfl⟩⟩
    · exact ⟨x, (Function.update_of_ne hkl ..).trans hk, rfl, .inr ⟨hkl, rfl⟩⟩
  refine ⟨fun peer k hk ↦ ?_, h.nodup, h.length_le, h.apart, h.alone, fun c call k hcall hk ↦ ?_,
    fun x hx ↦ ?_, fun c call hcall ↦ (h.answered c call hcall).mono hserved⟩
  · obtain ⟨x, hx, hxpeer, hxclean⟩ := h.idle peer k hk
    obtain ⟨x', hx', hsame, ⟨rfl, rfl, rfl⟩ | ⟨-, rfl⟩⟩ := hlinks k x hx
    · exact ⟨_, hx', hsame.trans hxpeer, hclean peer hk hxclean⟩
    · exact ⟨_, hx', hxpeer, hxclean⟩
  · obtain ⟨x, hx, hxpeer, hxfits⟩ := h.linked c call k hcall hk
    obtain ⟨x', hx', hsame, ⟨rfl, rfl, rfl⟩ | ⟨-, rfl⟩⟩ := hlinks k x hx
    · exact ⟨_, hx', hsame.trans hxpeer, hfits c call hcall hk hxfits⟩
    · exact ⟨_, hx', hxpeer, hxfits.mono hserved⟩
  · rcases hanswers x hx with hx | ⟨hxl, hans⟩
    · obtain ⟨y, hy, hans⟩ := h.served x hx
      obtain ⟨y', hy', hsame, -⟩ := hlinks x.1 y hy
      exact ⟨y', hy', hsame ▸ hans⟩
    · obtain ⟨y', hy', hsame, -⟩ := hlinks l link hl
      exact ⟨y', hxl ▸ hy', hsame ▸ hans⟩

/-- Nobody has this connection, except for this call. -/
def Free (s : State κ Req Item Resp) (c l : ℕ) : Prop :=
  (∀ peer, l ∉ s.idle peer) ∧
    ∀ d call, d ≠ c → s.calls d = some call → call.stage.link? ≠ some l

/-- A call, new or not, has a connection that nobody else has, or none. -/
theorem Neat.putCall (h : Neat cap answers reads s) (hfree : ∀ l, call.stage.link? = some l →
      Free s c l ∧ ∃ link, s.links l = some link ∧ link.peer = call.peer ∧
        Fits s.served call.request link l call.stage)
    (hanswered : Answered answers reads s.served call) :
    Neat cap answers reads { s with calls := Function.update s.calls c (some call) } := by
  have hcalls : ∀ d call', Function.update s.calls c (some call) d = some call' →
      d = c ∧ call' = call ∨ d ≠ c ∧ s.calls d = some call' := by
    intro d call' hd
    by_cases hdc : d = c
    · subst hdc
      rw [Function.update_self] at hd
      exact .inl ⟨rfl, (Option.some.inj hd).symm⟩
    · rw [Function.update_of_ne hdc] at hd
      exact .inr ⟨hdc, hd⟩
  refine ⟨h.idle, h.nodup, h.length_le, fun d call' l hd hl ↦ ?_,
    fun d call' e call'' l hd hl he hl' ↦ ?_, fun d call' l hd hl ↦ ?_, h.served,
    fun d call' hd ↦ ?_⟩
  · rcases hcalls d call' hd with ⟨rfl, rfl⟩ | ⟨-, hd⟩
    · exact (hfree l hl).1.1
    · exact h.apart d call' l hd hl
  · rcases hcalls d call' hd with ⟨rfl, rfl⟩ | ⟨hdc, hd'⟩ <;>
      rcases hcalls e call'' he with ⟨rfl, rfl⟩ | ⟨hec, he'⟩
    · rfl
    · exact absurd hl' ((hfree l hl).1.2 e call'' hec he')
    · exact absurd hl ((hfree l hl').1.2 d call' hdc hd')
    · exact h.alone d call' e call'' l hd' hl he' hl'
  · rcases hcalls d call' hd with ⟨rfl, rfl⟩ | ⟨-, hd⟩
    · exact (hfree l hl).2
    · exact h.linked d call' l hd hl
  · rcases hcalls d call' hd with ⟨rfl, rfl⟩ | ⟨-, hd⟩
    · exact hanswered
    · exact h.answered d call' hd

/-- A call gives up its connection, if it has one. -/
theorem Neat.drop (h : Neat cap answers reads s) (c : ℕ) (call : Call κ Req Resp)
    (hlink : call.stage.link? = none) (hanswered : Answered answers reads s.served call) :
    Neat cap answers reads { s with calls := Function.update s.calls c (some call) } := by
  refine h.putCall (fun l hl ↦ ?_) hanswered
  rw [hlink] at hl
  cases hl

/-- The connection that a call has given up is free. -/
theorem Neat.free (h : Neat cap answers reads s) (hcall : s.calls c = some call)
    (hl : call.stage.link? = some l) : Free s c l :=
  ⟨h.apart c call l hcall hl, fun d call' hdc hd hl' ↦
    hdc (h.alone d call' c call l hd hl' hcall hl)⟩

/-- A connection is taken from the pool. -/
theorem Neat.takeIdle [DecidableEq κ] (h : Neat cap answers reads s) {peer : κ} {rest : List ℕ}
    (hidle : s.idle peer = l :: rest) :
    Neat cap answers reads { s with idle := Function.update s.idle peer rest } ∧
      Free { s with idle := Function.update s.idle peer rest } c l := by
  have hnodup := h.nodup peer
  have hlen := h.length_le peer
  rw [hidle] at hnodup hlen
  have hl : l ∈ s.idle peer := hidle ▸ List.mem_cons_self
  have hcases : ∀ p, p = peer ∧ Function.update s.idle peer rest p = rest ∨
      p ≠ peer ∧ Function.update s.idle peer rest p = s.idle p := by
    intro p
    by_cases hp : p = peer
    · exact .inl ⟨hp, hp ▸ Function.update_self ..⟩
    · exact .inr ⟨hp, Function.update_of_ne hp ..⟩
  have hsub : ∀ p, ∀ k ∈ Function.update s.idle peer rest p, k ∈ s.idle p := by
    intro p k hk
    rcases hcases p with ⟨rfl, hp⟩ | ⟨-, hp⟩ <;> rw [hp] at hk
    · rw [hidle]
      exact List.mem_cons_of_mem _ hk
    · exact hk
  refine ⟨⟨fun p k hk ↦ h.idle p k (hsub p k hk), fun p ↦ ?_, fun p ↦ ?_,
    fun c call k hc hk p hkp ↦ h.apart c call k hc hk p (hsub p k hkp), h.alone, h.linked,
    h.served, h.answered⟩, fun p hlp ↦ ?_, fun d call _ hd hld ↦ h.apart d call l hd hld peer hl⟩
  · show (Function.update s.idle peer rest p).Nodup
    rcases hcases p with ⟨-, hp⟩ | ⟨-, hp⟩ <;> rw [hp]
    · exact (List.nodup_cons.mp hnodup).2
    · exact h.nodup p
  · show (Function.update s.idle peer rest p).length ≤ cap
    rcases hcases p with ⟨-, hp⟩ | ⟨-, hp⟩ <;> rw [hp]
    · exact (Nat.le_succ _).trans hlen
    · exact h.length_le p
  · replace hlp : l ∈ Function.update s.idle peer rest p := hlp
    rcases hcases p with ⟨-, hp⟩ | ⟨hne, -⟩
    · exact (List.nodup_cons.mp hnodup).1 (hp ▸ hlp)
    · -- a connection is kept for one peer only
      obtain ⟨link, hlink, rfl, -⟩ := h.idle peer l hl
      obtain ⟨link', hlink', rfl, -⟩ := h.idle p l (hsub p l hlp)
      obtain rfl := Option.some.inj (hlink.symm.trans hlink')
      exact hne rfl

/-- A connection is put into the pool. -/
theorem Neat.putIdle [DecidableEq κ] (h : Neat cap answers reads s) {peer : κ}
    (hfree : ∀ c, Free s c l) (hl : s.links l = some link) (hpeer : link.peer = peer)
    (hclean : link.Clean) (hroom : (s.idle peer).length < cap) :
    Neat cap answers reads
      { s with idle := Function.update s.idle peer (s.idle peer ++ [l]) } := by
  have hcases : ∀ p, p = peer ∧ Function.update s.idle peer (s.idle peer ++ [l]) p =
      s.idle peer ++ [l] ∨ Function.update s.idle peer (s.idle peer ++ [l]) p = s.idle p := by
    intro p
    by_cases hp : p = peer
    · exact .inl ⟨hp, hp ▸ Function.update_self ..⟩
    · exact .inr (Function.update_of_ne hp ..)
  have hmem : ∀ p k, k ∈ Function.update s.idle peer (s.idle peer ++ [l]) p →
      k ∈ s.idle p ∨ p = peer ∧ k = l := by
    intro p k hk
    rcases hcases p with ⟨rfl, hp⟩ | hp <;> rw [hp] at hk
    · exact (List.mem_append.mp hk).imp_right fun hk ↦ ⟨rfl, List.mem_singleton.mp hk⟩
    · exact .inl hk
  refine ⟨fun p k hk ↦ ?_, fun p ↦ ?_, fun p ↦ ?_, fun c call k hc hk p hkp ↦ ?_, h.alone,
    h.linked, h.served, h.answered⟩
  · rcases hmem p k hk with hk | ⟨rfl, rfl⟩
    · exact h.idle p k hk
    · exact ⟨link, hl, hpeer, hclean⟩
  · show (Function.update s.idle peer (s.idle peer ++ [l]) p).Nodup
    rcases hcases p with ⟨-, hp⟩ | hp <;> rw [hp]
    · rw [List.nodup_append]
      refine ⟨h.nodup peer, List.nodup_singleton l, fun k hk k' hk' ↦ ?_⟩
      rw [List.mem_singleton.mp hk']
      exact fun heq ↦ (hfree 0).1 peer (heq ▸ hk)
    · exact h.nodup p
  · show (Function.update s.idle peer (s.idle peer ++ [l]) p).length ≤ cap
    rcases hcases p with ⟨-, hp⟩ | hp <;> rw [hp]
    · rw [List.length_append, List.length_singleton]
      exact hroom
    · exact h.length_le p
  · rcases hmem p k hkp with hkp | ⟨rfl, rfl⟩
    · exact h.apart c call k hc hk p hkp
    · exact (hfree (c + 1)).2 c call (Nat.ne_of_lt (Nat.lt_succ_self c)) hc hk

/-- A new connection. -/
theorem Neat.newLink (h : Neat cap answers reads s) (link : Link κ Req Item)
    (hl : s.links l = none) :
    Neat cap answers reads (s.setLink l link) ∧ ∀ c, Free (s.setLink l link) c l := by
  have hkeep : ∀ k x, s.links k = some x → (s.setLink l link).links k = some x := by
    intro k x hk
    refine (Function.update_of_ne ?_ ..).trans hk
    rintro rfl
    rw [hl] at hk
    cases hk
  refine ⟨⟨fun p k hk ↦ ?_, h.nodup, h.length_le, h.apart, h.alone, fun c call k hc hk ↦ ?_,
    fun x hx ↦ ?_, h.answered⟩, fun c ↦ ⟨fun p hlp ↦ ?_, fun d call _ hd hld ↦ ?_⟩⟩
  · obtain ⟨x, hx, hrest⟩ := h.idle p k hk
    exact ⟨x, hkeep k x hx, hrest⟩
  · obtain ⟨x, hx, hrest⟩ := h.linked c call k hc hk
    exact ⟨x, hkeep k x hx, hrest⟩
  · obtain ⟨y, hy, hrest⟩ := h.served x hx
    exact ⟨y, hkeep x.1 y hy, hrest⟩
  · obtain ⟨x, hx, -⟩ := h.idle p l hlp
    rw [hl] at hx
    cases hx
  · obtain ⟨x, hx, -⟩ := h.linked d call l hd hld
    rw [hl] at hx
    cases hx

/-! ## Every step -/

/-- Something happens on the connection of a call. -/
theorem Neat.relink (h : Neat cap answers reads s) (hcall : s.calls c = some call)
    (hheld : call.stage.link? = some l) (hl : s.links l = some link)
    (link' : Link κ Req Item) (hpeer : link'.peer = link.peer) :
    Neat cap answers reads ((s.setStage c call .waiting).setLink l link') ∧
      ∀ d, Free ((s.setStage c call .waiting).setLink l link') d l := by
  have hdrop : Neat cap answers reads (s.setStage c call .waiting) :=
    h.drop _ _ rfl fun resp hresp ↦ by cases hresp
  have hnone : ∀ d call', (s.setStage c call .waiting).calls d = some call' →
      call'.stage.link? ≠ some l := by
    intro d call' hd hl'
    dsimp only [State.setStage] at hd
    by_cases hdc : d = c
    · subst hdc
      rw [Function.update_self] at hd
      obtain rfl := Option.some.inj hd
      cases hl'
    · rw [Function.update_of_ne hdc] at hd
      exact (h.free hcall hheld).2 d call' hdc hd hl'
  have hidle : ∀ peer, l ∉ s.idle peer := h.apart c call l hcall hheld
  refine ⟨hdrop.setLink hl hpeer (List.Subset.refl _) (fun peer hp ↦ absurd hp (hidle peer))
    (fun d call' hd hl' ↦ absurd hl' (hnone d call' hd)) fun x hx ↦ .inl hx,
    fun d ↦ ⟨hidle, fun e call' _ he ↦ hnone e call' he⟩⟩

theorem setStage_setLink (c l : ℕ) (call : Call κ Req Resp) (stage stage' : Stage Resp)
    (link : Link κ Req Item) : ((s.setStage c call stage).setLink l link).setStage c call stage' =
      (s.setLink l link).setStage c call stage' := by
  simp only [State.setStage, State.setLink, Function.update_idem]

variable [DecidableEq κ] {act : Act κ Req Item Resp}

theorem Neat.next (hexact : Exact answers reads) (h : Neat cap answers reads s)
    (hallowed : Allowed answers reads s act) (hnext : next cap s act = some s') :
    Neat cap answers reads s' := by
  cases act with
  | start c peer request =>
    rw [Calls.next] at hnext
    split at hnext
    · cases hnext
    split at hnext
    · obtain rfl := Option.some.inj hnext
      exact h.drop _ _ rfl fun resp hresp ↦ by cases hresp
    · next l rest hidle =>
      obtain rfl := Option.some.inj hnext
      obtain ⟨hneat, hfree⟩ := h.takeIdle (c := c) hidle
      refine hneat.putCall (fun k hk ↦ ?_) fun resp hresp ↦ by cases hresp
      obtain rfl := Option.some.inj hk
      exact ⟨hfree, h.idle peer l (hidle ▸ List.mem_cons_self)⟩
  | connect c l =>
    obtain ⟨call, hcall, hnext⟩ := Option.bind_eq_some_iff.mp hnext
    split at hnext
    · split at hnext
      · cases hnext
      · next hl =>
        rw [Option.not_isSome_iff_eq_none] at hl
        obtain rfl := Option.some.inj hnext
        obtain ⟨hneat, hfree⟩ := h.newLink ⟨call.peer, [], [], []⟩ hl
        refine hneat.putCall (fun k hk ↦ ?_) fun resp hresp ↦ by cases hresp
        obtain rfl := Option.some.inj hk
        exact ⟨hfree c, _, Function.update_self .., rfl, rfl, rfl, rfl⟩
    · cases hnext
  | send c =>
    obtain ⟨call, hcall, hnext⟩ := Option.bind_eq_some_iff.mp hnext
    split at hnext
    · next l pooled hstage =>
      obtain ⟨link, hl, rfl⟩ := Option.map_eq_some_iff.mp hnext
      have hheld : call.stage.link? = some l := by
        rw [hstage]
        rfl
      obtain ⟨link', hl', hpeer, hfits⟩ := h.linked c call l hcall hheld
      obtain rfl := Option.some.inj (hl.symm.trans hl')
      rw [hstage] at hfits
      obtain ⟨hneat, hfree⟩ := h.relink hcall hheld hl
        { link with up := link.up ++ [call.request] } rfl
      rw [← setStage_setLink c l call .waiting]
      refine hneat.putCall (fun k hk ↦ ?_) fun resp hresp ↦ by cases hresp
      obtain rfl := Option.some.inj hk
      refine ⟨hfree c, _, Function.update_self .., hpeer,
        .inl ⟨?_, hfits.pending_eq, hfits.down_eq⟩⟩
      rw [hfits.up_eq]
      rfl
    · cases hnext
  | serve l answer =>
    obtain ⟨link, hl, hnext⟩ := Option.bind_eq_some_iff.mp hnext
    split at hnext
    · next request up hup hpending =>
      obtain rfl := Option.some.inj hnext
      have hup' : link.up ≠ [] := by
        rw [hup]
        exact List.cons_ne_nil _ _
      refine h.setLink hl rfl (List.subset_append_left _ _)
        (fun _ _ hclean ↦ absurd hclean.up_eq hup') (fun c call hcall hheld hfits ↦ ?_)
        fun x hx ↦ ?_
      · cases hstage : call.stage with
        | sent _ _ =>
          rw [hstage] at hfits
          rcases hfits with ⟨hone, -, hdown⟩ | ⟨hnil, -⟩
          · rw [hup] at hone
            obtain ⟨rfl, rfl⟩ := List.cons.inj hone
            refine .inr ⟨rfl, List.mem_append_right _ ?_⟩
            rw [hdown]
            exact List.mem_singleton_self _
          · exact absurd hnil hup'
        | holding _ _ =>
          rw [hstage] at hfits
          exact absurd hfits.up_eq hup'
        | waiting | done _ | failed => trivial
      · rcases List.mem_append.mp hx with hx | hx
        · exact .inl hx
        · obtain rfl := List.mem_singleton.mp hx
          exact .inr ⟨rfl, hallowed link hl request (by rw [hup]; rfl)⟩
    · cases hnext
  | transmit l =>
    obtain ⟨link, hl, hnext⟩ := Option.bind_eq_some_iff.mp hnext
    split at hnext
    · next item pending hpending =>
      obtain rfl := Option.some.inj hnext
      have hpending' : link.pending ≠ [] := by
        rw [hpending]
        exact List.cons_ne_nil _ _
      refine h.setLink hl rfl (List.Subset.refl _)
        (fun _ _ hclean ↦ absurd hclean.pending_eq hpending')
        (fun c call hcall hheld hfits ↦ ?_) fun x hx ↦ .inl hx
      cases hstage : call.stage with
      | sent _ _ =>
        rw [hstage] at hfits
        rcases hfits with ⟨-, hnil, -⟩ | ⟨hup, hmem⟩
        · exact absurd hnil hpending'
        · rw [hpending] at hmem
          refine .inr ⟨hup, ?_⟩
          rwa [List.append_assoc, List.singleton_append]
      | holding _ _ =>
        rw [hstage] at hfits
        exact absurd hfits.pending_eq hpending'
      | waiting | done _ | failed => trivial
    · cases hnext
  | finish c resp rest =>
    obtain ⟨call, hcall, hnext⟩ := Option.bind_eq_some_iff.mp hnext
    split at hnext
    · next l pooled hstage =>
      obtain ⟨link, hl, rfl⟩ := Option.map_eq_some_iff.mp hnext
      have hheld : call.stage.link? = some l := by
        rw [hstage]
        rfl
      obtain ⟨link', hl', hpeer, hfits⟩ := h.linked c call l hcall hheld
      obtain rfl := Option.some.inj (hl.symm.trans hl')
      rw [hstage] at hfits
      have hreads := hallowed call l pooled link hcall hstage hl
      -- the call has read the whole of the answer to its own request
      obtain ⟨hup, hmem⟩ := hfits.resolve_left fun ⟨_, _, hdown⟩ ↦
        hexact.not_nil _ _ _ (hdown ▸ hreads)
      obtain ⟨_, hl', hans⟩ := h.served _ hmem
      obtain rfl := Option.some.inj (hl.symm.trans hl')
      replace hans : answers link.peer call.request (link.down ++ link.pending) := hans
      obtain ⟨hwhole, rfl⟩ := hexact.whole _ _ _ _ _ _ hans (List.prefix_append _ _) hreads
      have hpending : link.pending = [] := List.self_eq_append_right.mp hwhole
      have hanswered : Answered answers reads s.served { call with stage := .done resp } := by
        intro resp' hresp
        obtain rfl := Stage.done.inj hresp
        rw [hpending, List.append_nil] at hmem hans
        exact ⟨l, link.down, hmem, hpeer ▸ hans, hreads⟩
      obtain ⟨hneat, hfree⟩ := h.relink hcall hheld hl { link with down := [] } rfl
      have hdone := hneat.drop c { call with stage := .done resp } rfl hanswered
      rw [← setStage_setLink c l call .waiting]
      split
      · next hroom =>
        refine hdone.putIdle (fun d ↦ ⟨(hfree d).1, fun e call' he hcall' ↦ ?_⟩)
          (Function.update_self ..) hpeer ⟨hup, hpending, rfl⟩ hroom
        dsimp only at hcall'
        by_cases hec : e = c
        · subst hec
          rw [Function.update_self] at hcall'
          obtain rfl := Option.some.inj hcall'
          exact fun hlink ↦ by cases hlink
        · rw [Function.update_of_ne hec] at hcall'
          exact (hfree (e + 1)).2 e call' (Nat.ne_of_lt (Nat.lt_succ_self e)) hcall'
      · exact hdone
    · cases hnext
  | fail c retry =>
    obtain ⟨call, hcall, hnext⟩ := Option.bind_eq_some_iff.mp hnext
    have hgone : Neat cap answers reads (s.setStage c call .waiting) ∧
        Neat cap answers reads (s.setStage c call .failed) :=
      ⟨h.drop _ _ rfl fun resp hresp ↦ (by cases hresp), h.drop _ _ rfl fun resp hresp ↦ (by cases hresp)⟩
    split at hnext
    · obtain rfl := Option.some.inj hnext
      exact hgone.2
    · obtain rfl := Option.some.inj hnext
      split
      · exact hgone.1
      · exact hgone.2
    · obtain rfl := Option.some.inj hnext
      split
      · exact hgone.1
      · exact hgone.2
    · cases hnext

theorem neat_of_reachable (hexact : Exact answers reads)
    (h : (machine cap answers reads).Reachable s) : Neat cap answers reads s := by
  refine Machine.Reachable.invariant (M := machine cap answers reads) ?_ ?_ h
  · rintro s rfl
    refine ⟨fun _ _ hl ↦ ?_, fun _ ↦ List.nodup_nil, fun _ ↦ Nat.zero_le _, fun _ _ _ hc ↦ ?_,
      fun _ _ _ _ _ hc ↦ ?_, fun _ _ _ hc ↦ ?_, fun _ hx ↦ ?_, fun _ _ hc ↦ ?_⟩
    · cases hl
    · cases hc
    · cases hc
    · cases hc
    · cases hx
    · cases hc
  · rintro s s' - ih ⟨act, hallowed, hnext⟩
    exact ih.next hexact hallowed hnext

/-- The rest of an answer may arrive. -/
theorem reachable_transmit (h : (machine cap answers reads).Reachable s)
    (hl : s.links l = some link) : (machine cap answers reads).Reachable
      (s.setLink l { link with pending := [], down := link.down ++ link.pending }) := by
  obtain ⟨peer, up, pending, down⟩ := link
  induction pending generalizing s down with
  | nil =>
    rw [List.append_nil, State.setLink, ← hl, Function.update_eq_self]
    exact h
  | cons item pending ih =>
    have hnext : (machine cap answers reads).Reachable
        (s.setLink l ⟨peer, up, pending, down ++ [item]⟩) := by
      refine .step h ⟨.transmit l, trivial, ?_⟩
      rw [Calls.next, hl]
      rfl
    have hrest := ih hnext (down ++ [item]) (Function.update_self ..)
    rw [State.setLink, State.setLink, Function.update_idem, List.append_assoc] at hrest
    exact hrest

/-- A call that is done has read the answer to its own request, and nothing else. -/
theorem answered_of_reachable (hexact : Exact answers reads)
    (h : (machine cap answers reads).Reachable s) (hcall : s.calls c = some call) :
    Answered answers reads s.served call :=
  (neat_of_reachable hexact h).answered c call hcall

/-- The connections that are kept for a peer lead to it, nothing is left on them, and there are
not too many. -/
theorem idle_of_reachable (hexact : Exact answers reads)
    (h : (machine cap answers reads).Reachable s) (peer : κ) :
    (s.idle peer).Nodup ∧ (s.idle peer).length ≤ cap ∧ ∀ l ∈ s.idle peer, ∃ link,
      s.links l = some link ∧ link.peer = peer ∧ link.Clean :=
  have hneat := neat_of_reachable hexact h
  ⟨hneat.nodup peer, hneat.length_le peer, hneat.idle peer⟩

end Neat

end Calls

end Lilsync.Lib
