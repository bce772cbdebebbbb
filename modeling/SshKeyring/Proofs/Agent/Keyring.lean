import SshKeyring.Proofs.Agent.Serving
import SshKeyring.Proofs.Agent.Session
import SshKeyring.Proofs.Key.Lifecycle

/-! A session with an agent that holds keys in memory does what it would do with a plain list of
keys and comments: nothing is lost or changed on the way through messages, frames and streams, as
long as no message is longer than a client takes. -/

namespace SshKeyring

/-! ### Keys in a list -/

/-- Well-formed, as every key is from its creation on, and unlocked, with the public half that its
private half gives. -/
structure Key.Paired (key : Key) : Prop where
  wellFormed : key.WellFormed
  halves : ∃ p k, key.secret = .unlocked p ∧ key.publicHalf = some k ∧ p.publicKey = .ok k

theorem Key.Paired.known {key : Key} (h : key.Paired) :
    ∃ p k, key.privateKey = .ok p ∧ key.publicKey = .ok k ∧ p.publicKey = .ok k ∧ p.WellFormed ∧
      k.WellFormed := by
  obtain ⟨p, k, hsecret, hpublic, hderived⟩ := h.halves
  refine ⟨p, k, ?_, ?_, hderived, (h.wellFormed.unlocked p hsecret).2,
    (h.wellFormed.publicHalf_some k hpublic).2⟩
  · rw [Key.privateKey, hsecret]
  · rw [Key.publicKey, hpublic]

/-- The key that an operation is about, if it is about one. -/
def Operation.key? : Operation → Option Key
  | .add key _ => some key
  | .remove key => some key
  | .check key => some key
  | .removeAdded _ => none
  | .removeAll => none
  | .list => none

namespace Session

/-- What a key's public half is needed for fails without it. -/
def withPublic {α : Type} (key : Key) (st : α) (f : PublicKey → Except AgentError Report × α) :
    Except AgentError Report × α :=
  match key.publicKey with
  | .ok k => f k
  | .error e => (.error (.key e), st)

/-- Forgets those of the keys that are held. -/
def forgetHeld (s : Session) (keys : List PublicKey) (held : List Identity) : Session :=
  { s with remembered := s.remembered.filter fun e => !(e.1 ∈ keys && holds held e.1) }

/-- What an operation reports, and what is remembered and held after it, where the agent is a list
of keys and comments: an added key goes to the end and takes the place of an equal one, a key that
is not held cannot be removed. -/
def onList (operation : Operation) (st : Session × List Identity) :
    Except AgentError Report × (Session × List Identity) :=
  let (s, held) := st
  match operation with
  | .add key options => withPublic key st fun k =>
    (.ok .done, (s.remember k options.removeOnClose,
      held.filter (·.publicKey ≠ k) ++ [{ publicKey := k, comment := key.comment }]))
  | .remove key => withPublic key st fun k =>
    if holds held k then (.ok .done, (s.forget k, held.filter (·.publicKey ≠ k)))
    else (.error .failure, st)
  | .removeAdded _ =>
    (if s.flagged.all (holds held) then .ok .done else .error .failure,
      (s.forgetHeld s.flagged held, held.filter (·.publicKey ∉ s.flagged)))
  | .removeAll => (.ok .done, ({ s with remembered := [] }, []))
  | .list => (.ok (.listed held), st)
  | .check key => withPublic key st fun k => (.ok (.checked (holds held k)), st)

def onListAll : List Operation → Session × List Identity →
    List (Except AgentError Report) × (Session × List Identity)
  | [], st => ([], st)
  | operation :: rest, st =>
    let (result, st) := onList operation st
    let (results, st) := onListAll rest st
    (result :: results, st)

/-- The requests that an operation comes to. -/
def requests (s : Session) : Operation → List Request
  | .add key options =>
    match key.privateKey with
    | .ok privateKey => [addRequest { privateKey, comment := key.comment } options.constraints]
    | .error _ => []
  | .remove key =>
    match key.publicKey with
    | .ok k => [.removeIdentity k]
    | .error _ => []
  | .removeAdded order => (order.arrange s.flagged).map .removeIdentity
  | .removeAll => [.removeAllIdentities]
  | .list => [.requestIdentities]
  | .check _ => [.requestIdentities]

/-- Every message of an operation fits. Of the answers only lists of keys can be too long. -/
def Fits (st : Session × List Identity) (operation : Operation) : Prop :=
  ∀ r ∈ requests st.1 operation, r.Fits ∧
    (r = .requestIdentities → (Response.identities st.2).Fits)

def AllFit : List Operation → Session × List Identity → Prop
  | [], _ => True
  | operation :: rest, st => Fits st operation ∧ AllFit rest (onList operation st).2

instance (st : Session × List Identity) (operation : Operation) : Decidable (Fits st operation) :=
  inferInstanceAs (Decidable (∀ r ∈ _, _))

instance decidableAllFit : (operations : List Operation) → (st : Session × List Identity) →
    Decidable (AllFit operations st)
  | [], _ => isTrue trivial
  | operation :: rest, st =>
    have := decidableAllFit rest (onList operation st).2
    inferInstanceAs (Decidable (Fits st operation ∧ AllFit rest (onList operation st).2))

/-! ### Requests of a session -/

/-- There is a path, and a socket can have it for its address. -/
def Connects (s : Session) : Prop := ∃ path, s.path = some path ∧ pathFault? path = none

/-- Where nothing else is in the way a connection comes about. -/
theorem reach_of_connects {σ : Type} {link : Link σ} {s : Session} {agent : σ} (hs : s.Connects)
    (h : ∀ path, link.obstacle path agent = none) : reach link s.path agent = .ok () := by
  obtain ⟨path, hpath, hfault⟩ := hs
  simp only [reach, hpath, hfault, h]
  rfl

theorem reach_of_serving {s : Session} {a : MemoryAgent} {held : List Identity} (hs : s.Connects)
    (ha : a.Serving held) : reach MemoryAgent.link s.path a = .ok () :=
  reach_of_connects hs fun _ => if_pos ha.listening

/-- An agent that can be reached listens, at a path that stays. -/
theorem connects_of_isReachable {s : Session} {a : MemoryAgent}
    (h : isReachable MemoryAgent.link s a = true) : s.Connects ∧ a.listening = true := by
  unfold isReachable at h
  rw [perform_connect] at h
  unfold reach at h
  cases hpath : s.path with
  | none => simp [hpath, Except.isOk, Except.toBool] at h
  | some path =>
    cases hfault : pathFault? path with
    | some e => simp [hpath, hfault, Except.isOk, Except.toBool] at h
    | none =>
      by_cases hl : a.listening
      · exact ⟨⟨path, hpath, hfault⟩, hl⟩
      · simp [hpath, hfault, MemoryAgent.link, hl, Except.isOk, Except.toBool] at h

section Serving

variable {s : Session} {held : List Identity} {a : MemoryAgent}

theorem exchange_of_serving {r : Request} (hs : s.Connects) (ha : a.Serving held)
    (hr : r.WellFormed) (hf : r.Fits) (hr' : ((MemoryAgent.holding held).handle r).1.WellFormed)
    (hf' : ((MemoryAgent.holding held).handle r).1.Fits) :
    ∃ later : MemoryAgent, later.Serving ((MemoryAgent.holding held).handle r).2.held ∧
      (exchange MemoryAgent.link r).perform (s, a) =
        (.ok ((MemoryAgent.holding held).handle r).1, (s, later)) := by
  obtain ⟨later, hlater, hx⟩ := ha.exchange hr hf hr' hf'
  refine ⟨later, hlater, ?_⟩
  rw [perform_exchange, reach_of_serving hs ha]
  dsimp only [MemoryAgent.link]
  rw [hx]

theorem command_of_serving {r : Request} (hs : s.Connects) (ha : a.Serving held)
    (hr : r.WellFormed) (hf : r.Fits) (hcommand : r ≠ .requestIdentities) :
    ∃ later : MemoryAgent, later.Serving ((MemoryAgent.holding held).handle r).2.held ∧
      (command MemoryAgent.link r).perform (s, a) =
        (((MemoryAgent.holding held).handle r).1.accepted, (s, later)) := by
  obtain ⟨hr', hf'⟩ := Response.fits_of_short (MemoryAgent.short_answer (.holding held) hcommand)
  obtain ⟨later, hlater, hx⟩ := exchange_of_serving hs ha hr hf hr' hf'
  refine ⟨later, hlater, ?_⟩
  rw [perform_command, hx]
  rfl

theorem list_of_serving (hs : s.Connects) (ha : a.Serving held)
    (hheld : ∀ i ∈ held, i.publicKey.WellFormed) (hf : Request.requestIdentities.Fits)
    (hf' : (Response.identities held).Fits) :
    ∃ later : MemoryAgent, later.Serving held ∧
      (list MemoryAgent.link).perform (s, a) = (.ok held, (s, later)) := by
  obtain ⟨later, hlater, hx⟩ :=
    exchange_of_serving (r := .requestIdentities) hs ha trivial hf hheld hf'
  refine ⟨later, hlater, ?_⟩
  rw [perform_list, hx]
  rfl

theorem remove_of_serving {k : PublicKey} (hs : s.Connects) (ha : a.Serving held)
    (hk : k.WellFormed) (hf : (Request.removeIdentity k).Fits) :
    ∃ later : MemoryAgent, later.Serving (held.filter (·.publicKey ≠ k)) ∧
      (command MemoryAgent.link (.removeIdentity k)).perform (s, a) =
        (if holds held k then .ok () else .error .failure, (s, later)) := by
  obtain ⟨later, hlater, hx⟩ :=
    command_of_serving (r := .removeIdentity k) hs ha hk hf (by simp)
  rw [MemoryAgent.handle_removeIdentity] at hlater hx
  refine ⟨later, hlater, ?_⟩
  rw [hx]
  cases holds held k <;> rfl

theorem forgetHeld_cons_of_holds {k : PublicKey} {keys : List PublicKey}
    (h : holds held k = true) :
    (s.forget k).forgetHeld keys (held.filter (·.publicKey ≠ k)) =
      s.forgetHeld (k :: keys) held := by
  unfold forgetHeld forget
  rw [List.filter_filter]
  congr 2
  funext e
  by_cases he : e.1 = k
  · simp [he, h]
  · rw [holds_filter held he]
    simp [he]

theorem forgetHeld_cons_of_not_holds {k : PublicKey} {keys : List PublicKey}
    (h : holds held k = false) : s.forgetHeld keys held = s.forgetHeld (k :: keys) held := by
  unfold forgetHeld
  congr 2
  funext e
  by_cases he : e.1 = k
  · simp [he, h]
  · simp [he]

/-- Keys that are removed one after the other are gone, and those of them that were held are
forgotten; the result tells if one was not. -/
theorem removeEach_of_serving {keys : List PublicKey} (hnodup : keys.Nodup)
    (hw : ∀ k ∈ keys, k.WellFormed) (hf : ∀ k ∈ keys, (Request.removeIdentity k).Fits)
    (hs : s.Connects) (ha : a.Serving held) (result : Except AgentError Unit) :
    ∃ later : MemoryAgent, later.Serving (held.filter (·.publicKey ∉ keys)) ∧
      (removeEach MemoryAgent.link result keys).perform (s, a) =
        (if keys.all (holds held) then result else .error .failure,
          (s.forgetHeld keys held, later)) := by
  induction keys generalizing s held a result with
  | nil =>
    refine ⟨a, by simpa using ha, ?_⟩
    simp [removeEach, forgetHeld]
  | cons k keys ih =>
    obtain ⟨hk, hnodup⟩ := List.nodup_cons.1 hnodup
    obtain ⟨hwk, hw⟩ := List.forall_mem_cons.1 hw
    obtain ⟨hfk, hf⟩ := List.forall_mem_cons.1 hf
    obtain ⟨next, hnext, hcommand⟩ := remove_of_serving hs ha hwk hfk
    rw [perform_removeEach_cons, hcommand, ← filter_filter_ne, List.all_cons]
    cases h : holds held k with
    | true =>
      have others : keys.all (holds (held.filter (·.publicKey ≠ k))) = keys.all (holds held) := by
        rw [Bool.eq_iff_iff, List.all_eq_true, List.all_eq_true]
        refine forall₂_congr fun k' hk' => ?_
        have hne : k' ≠ k := by
          rintro rfl
          exact hk hk'
        rw [holds_filter held hne]
      obtain ⟨later, hlater, hrest⟩ := ih hnodup hw hf (s := s.forget k) hs hnext result
      rw [others, forgetHeld_cons_of_holds h] at hrest
      exact ⟨later, hlater, hrest⟩
    | false =>
      rw [filter_of_not_holds h] at hnext ⊢
      obtain ⟨later, hlater, hrest⟩ := ih hnodup hw hf hs hnext (.error .failure)
      rw [ite_self, forgetHeld_cons_of_not_holds h] at hrest
      exact ⟨later, hlater, hrest⟩

theorem addRequest_wellFormed {x : Addition} (h : x.privateKey.WellFormed)
    (constraints : List Constraint) : (addRequest x constraints).WellFormed := by
  unfold addRequest
  split
  · exact h
  · exact h

theorem addRequest_ne_requestIdentities (x : Addition) (constraints : List Constraint) :
    addRequest x constraints ≠ .requestIdentities := by
  unfold addRequest
  split <;> simp

theorem add_of_serving {key : Key} {x : Addition} {k : PublicKey} {options : AddOptions}
    (hs : s.Connects) (ha : a.Serving held) (hsecret : key.privateKey = .ok x.privateKey)
    (hcomment : x.comment = key.comment) (hpublic : key.publicKey = .ok k)
    (hp : x.privateKey.WellFormed) (hderived : x.privateKey.publicKey = .ok k)
    (hf : (addRequest x options.constraints).Fits) :
    ∃ later : MemoryAgent,
      later.Serving (held.filter (·.publicKey ≠ k) ++ [{ publicKey := k, comment := x.comment }]) ∧
      (add MemoryAgent.link key options).perform (s, a) =
        (.ok (), (s.remember k options.removeOnClose, later)) := by
  obtain ⟨later, hlater, hx⟩ := command_of_serving hs ha (addRequest_wellFormed hp _) hf
    (addRequest_ne_requestIdentities x _)
  rw [MemoryAgent.handle_addRequest held hderived] at hlater hx
  refine ⟨later, hlater, ?_⟩
  rw [perform_add, hpublic, hsecret, ← hcomment]
  dsimp only
  rw [hx]
  rfl

end Serving

/-! ### Whole runs -/

/-- What is remembered and held are well-formed keys, each remembered once. -/
structure Sound (st : Session × List Identity) : Prop where
  nodup : (st.1.remembered.map (·.1)).Nodup
  remembered : ∀ k ∈ st.1.remembered.map (·.1), k.WellFormed
  held : ∀ i ∈ st.2, i.publicKey.WellFormed

theorem withPublic_of_ok {α : Type} {key : Key} {k : PublicKey} (h : key.publicKey = .ok k) (st : α)
    (f : PublicKey → Except AgentError Report × α) : withPublic key st f = f k := by
  unfold withPublic
  rw [h]

theorem Sound.onList {st : Session × List Identity} (h : Sound st) {operation : Operation}
    (hkey : ∀ key, operation.key? = some key → key.Paired) : Sound (onList operation st).2 := by
  obtain ⟨s, held⟩ := st
  have less : ∀ keep : Identity → Bool, ∀ i ∈ held.filter keep, i.publicKey.WellFormed :=
    fun keep i hi => h.held i (List.mem_of_mem_filter hi)
  cases operation with
  | add key options =>
    obtain ⟨_, k, -, hpub, -, -, hk⟩ := (hkey key rfl).known
    simp only [Session.onList, withPublic_of_ok hpub]
    refine ⟨nodup_record h.nodup (.added k options.removeOnClose), ?_, ?_⟩
    · dsimp only
      rw [map_fst_remember]
      split
      · exact h.remembered
      · exact List.forall_mem_append.2 ⟨h.remembered, by simpa using hk⟩
    · exact List.forall_mem_append.2 ⟨less _, by simpa using hk⟩
  | remove key =>
    obtain ⟨_, k, -, hpub, -⟩ := (hkey key rfl).known
    simp only [Session.onList, withPublic_of_ok hpub]
    split
    · have sub : ((s.forget k).remembered.map (·.1)).Sublist (s.remembered.map (·.1)) :=
        List.filter_sublist.map _
      exact ⟨h.nodup.sublist sub, fun k' hk' => h.remembered k' (sub.subset hk'), less _⟩
    · exact h
  | removeAdded order =>
    have sub : ((s.forgetHeld s.flagged held).remembered.map (·.1)).Sublist
        (s.remembered.map (·.1)) := List.filter_sublist.map _
    exact ⟨h.nodup.sublist sub, fun k hk => h.remembered k (sub.subset hk), less _⟩
  | removeAll => exact ⟨List.nodup_nil, by simp [Session.onList], by simp [Session.onList]⟩
  | list => exact h
  | check key =>
    obtain ⟨_, k, -, hpub, -⟩ := (hkey key rfl).known
    simp only [Session.onList, withPublic_of_ok hpub]
    exact h

/-- In whatever order the keys to be removed are gone through, the same ones are gone and forgotten
in the end. -/
theorem removeAdded_of_serving {s : Session} {held : List Identity} {a : MemoryAgent}
    (order : Order) (hs : s.Connects) (ha : a.Serving held) (hsound : Sound (s, held))
    (hf : ∀ k ∈ order.arrange s.flagged, (Request.removeIdentity k).Fits) :
    ∃ later : MemoryAgent, later.Serving (held.filter (·.publicKey ∉ s.flagged)) ∧
      (removeAddedIn order.arrange MemoryAgent.link).perform (s, a) =
        (if s.flagged.all (holds held) then .ok () else .error .failure,
          (s.forgetHeld s.flagged held, later)) := by
  have perm := order.perm s.flagged
  have remembered : s.flagged.Sublist (s.remembered.map (·.1)) := List.filter_sublist.map _
  have nodup : (order.arrange s.flagged).Nodup :=
    perm.nodup_iff.2 (hsound.nodup.sublist remembered)
  have wellFormed : ∀ k ∈ order.arrange s.flagged, k.WellFormed := fun k hk =>
    hsound.remembered k (remembered.subset (perm.mem_iff.1 hk))
  obtain ⟨later, hlater, hx⟩ := removeEach_of_serving nodup wellFormed hf hs ha (.ok ())
  have gone : held.filter (·.publicKey ∉ order.arrange s.flagged) =
      held.filter (·.publicKey ∉ s.flagged) := by
    simp only [perm.mem_iff]
  have forgotten : s.forgetHeld (order.arrange s.flagged) held = s.forgetHeld s.flagged held := by
    simp only [forgetHeld, perm.mem_iff]
  rw [gone] at hlater
  rw [perm.all_eq, forgotten] at hx
  exact ⟨later, hlater, (perform_removeAddedIn _ _ _).trans hx⟩

/-- An operation with an agent that serves does what it does with a list of keys. -/
theorem operate_of_serving {s : Session} {held : List Identity} {a : MemoryAgent}
    {operation : Operation} (hs : s.Connects) (ha : a.Serving held) (hsound : Sound (s, held))
    (hkey : ∀ key, operation.key? = some key → key.Paired) (hf : Fits (s, held) operation) :
    ∃ later : MemoryAgent, later.Serving (onList operation (s, held)).2.2 ∧
      (operate MemoryAgent.link operation).perform (s, a) =
        ((onList operation (s, held)).1, ((onList operation (s, held)).2.1, later)) := by
  cases operation with
  | add key options =>
    obtain ⟨p, k, hsecret, hpublic, hderived, hp, -⟩ := (hkey key rfl).known
    let x : Addition := { privateKey := p, comment := key.comment }
    have fits : (addRequest x options.constraints).Fits := (hf _ (by simp [requests, hsecret, x])).1
    obtain ⟨later, hlater, hx⟩ := add_of_serving hs ha hsecret rfl hpublic hp hderived fits
    simp only [onList, withPublic_of_ok hpublic]
    refine ⟨later, hlater, ?_⟩
    rw [operate, Steps.perform_bind_pure, hx]
    rfl
  | remove key =>
    obtain ⟨_, k, -, hpublic, -, -, hk⟩ := (hkey key rfl).known
    have fits : (Request.removeIdentity k).Fits := (hf _ (by simp [requests, hpublic])).1
    obtain ⟨later, hlater, hx⟩ := remove_of_serving hs ha hk fits
    simp only [onList, withPublic_of_ok hpublic]
    rw [operate, Steps.perform_bind_pure, perform_remove, hpublic]
    dsimp only
    rw [hx]
    cases h : holds held k with
    | true => exact ⟨later, hlater, rfl⟩
    | false =>
      rw [filter_of_not_holds h] at hlater
      exact ⟨later, hlater, rfl⟩
  | removeAdded order =>
    have fits : ∀ k ∈ order.arrange s.flagged, (Request.removeIdentity k).Fits := fun k hk =>
      (hf _ (List.mem_map_of_mem hk)).1
    obtain ⟨later, hlater, hx⟩ := removeAdded_of_serving order hs ha hsound fits
    refine ⟨later, hlater, ?_⟩
    rw [operate, Steps.perform_bind_pure, hx, onList]
    cases s.flagged.all (holds held) <;> rfl
  | removeAll =>
    have fits : Request.removeAllIdentities.Fits := (hf _ (by simp [requests])).1
    obtain ⟨later, hlater, hx⟩ :=
      command_of_serving (r := .removeAllIdentities) hs ha trivial fits (by simp)
    refine ⟨later, hlater, ?_⟩
    rw [operate, Steps.perform_bind_pure, perform_removeAll, hx]
    rfl
  | list =>
    have fits := hf .requestIdentities (by simp [requests])
    obtain ⟨later, hlater, hx⟩ := list_of_serving hs ha hsound.held fits.1 (fits.2 rfl)
    refine ⟨later, hlater, ?_⟩
    rw [operate, Steps.perform_bind_pure, hx]
    rfl
  | check key =>
    obtain ⟨_, k, -, hpublic, -⟩ := (hkey key rfl).known
    have fits := hf .requestIdentities (by simp [requests])
    obtain ⟨later, hlater, hx⟩ := list_of_serving hs ha hsound.held fits.1 (fits.2 rfl)
    simp only [onList, withPublic_of_ok hpublic]
    refine ⟨later, hlater, ?_⟩
    rw [operate, Steps.perform_bind_pure, perform_check, hpublic]
    dsimp only
    rw [hx]
    rfl

theorem path_onList (operation : Operation) (st : Session × List Identity) :
    (onList operation st).2.1.path = st.1.path := by
  have unchanged : ∀ key (f : PublicKey → Except AgentError Report × (Session × List Identity)),
      (∀ k, (f k).2.1.path = st.1.path) → (withPublic key st f).2.1.path = st.1.path := by
    intro key f hf
    unfold withPublic
    split
    · exact hf _
    · rfl
  cases operation with
  | add key options => exact unchanged key _ fun _ => rfl
  | remove key =>
    refine unchanged key _ fun k => ?_
    split <;> rfl
  | removeAdded order => rfl
  | removeAll => rfl
  | list => rfl
  | check key => exact unchanged key _ fun _ => rfl

theorem connects_onList {s : Session} {held : List Identity} (hs : s.Connects)
    (operation : Operation) : (onList operation (s, held)).2.1.Connects := by
  unfold Connects
  rw [path_onList]
  exact hs

theorem operateAll_of_serving {s : Session} {held : List Identity} {a : MemoryAgent}
    {operations : List Operation} (hs : s.Connects) (ha : a.Serving held) (hsound : Sound (s, held))
    (hkeys : ∀ operation ∈ operations, ∀ key, operation.key? = some key → key.Paired)
    (hf : AllFit operations (s, held)) :
    ∃ later : MemoryAgent, later.Serving (onListAll operations (s, held)).2.2 ∧
      operateAll MemoryAgent.link operations (s, a) =
        ((onListAll operations (s, held)).1, ((onListAll operations (s, held)).2.1, later)) := by
  induction operations generalizing s held a with
  | nil => exact ⟨a, ha, rfl⟩
  | cons operation operations ih =>
    obtain ⟨hkey, hkeys⟩ := List.forall_mem_cons.1 hkeys
    obtain ⟨hfits, hf⟩ := hf
    obtain ⟨next, hnext, hx⟩ := operate_of_serving hs ha hsound hkey hfits
    obtain ⟨later, hlater, hrest⟩ :=
      ih (connects_onList hs operation) hnext (hsound.onList hkey) hkeys hf
    refine ⟨later, hlater, ?_⟩
    rw [operateAll, List.map_cons, Steps.performAll, hx]
    dsimp only
    rw [← operateAll, hrest]
    rfl

/-- A session with an agent that can be reached and serves reports what it would report of a list of
keys, and leaves the agent with that list, as long as the keys it is given are unlocked pairs and
every message fits its frame. -/
theorem operateAll_onListAll (config : AgentConfig) (environment : Option String)
    (agent : MemoryAgent) (operations : List Operation) (hserve : agent.manner = .serve)
    (hreach : isReachable MemoryAgent.link (ofConfig config environment) agent = true)
    (hheld : ∀ i ∈ agent.held, i.publicKey.WellFormed)
    (hkeys : ∀ operation ∈ operations, ∀ key, operation.key? = some key → key.Paired)
    (hf : AllFit operations (ofConfig config environment, agent.held)) :
    ∃ later : MemoryAgent,
      later.held = (onListAll operations (ofConfig config environment, agent.held)).2.2 ∧
      operateAll MemoryAgent.link operations (ofConfig config environment, agent) =
        ((onListAll operations (ofConfig config environment, agent.held)).1,
          ((onListAll operations (ofConfig config environment, agent.held)).2.1, later)) := by
  obtain ⟨hs, hlistening⟩ := connects_of_isReachable hreach
  have hsound : Sound (ofConfig config environment, agent.held) :=
    ⟨List.nodup_nil, by simp [ofConfig], hheld⟩
  obtain ⟨later, hlater, hx⟩ :=
    operateAll_of_serving hs ⟨hserve, hlistening, rfl⟩ hsound hkeys hf
  exact ⟨later, hlater.held, hx⟩

/-- A key with strings of one byte. -/
def byteKey : Key where
  type := .ed25519
  format := .openSsh
  publicHalf := some shortIdentity.publicKey
  comment := shortIdentity.comment
  cipher := noneName
  kdf := noneName
  kdfOptions := []
  secret := .unlocked shortAddition.addition.privateKey

theorem byteKey_paired : byteKey.Paired where
  wellFormed := Key.wellFormed_of_halves rfl rfl ⟨rfl, rfl⟩ ⟨rfl, rfl, rfl⟩ (by simp [byteKey])
  halves := ⟨_, _, rfl, rfl, rfl⟩

/-- A key comes and goes. -/
def visit : List Operation :=
  [.add byteKey { confirm := true, removeOnClose := true }, .list, .check byteKey,
    .removeAdded .standing, .check byteKey, .remove byteKey, .removeAll]

theorem visit_onListAll :
    ∃ later : MemoryAgent, later.held = [] ∧
      operateAll MemoryAgent.link visit (ofConfig { socket := some "/agent" } none, {}) =
        ([.ok .done, .ok (.listed [shortIdentity]), .ok (.checked true), .ok .done,
          .ok (.checked false), .error .failure, .ok .done],
          (ofConfig { socket := some "/agent" } none, later)) := by
  have hkeys : ∀ operation ∈ visit, ∀ key, operation.key? = some key → key.Paired := by
    intro operation hoperation key hkey
    have h : key = byteKey := by
      simp only [visit, List.mem_cons, List.not_mem_nil, or_false] at hoperation
      rcases hoperation with rfl | rfl | rfl | rfl | rfl | rfl | rfl <;>
        simp_all [Operation.key?]
    exact h ▸ byteKey_paired
  exact operateAll_onListAll { socket := some "/agent" } none {} visit rfl
    (by decide +kernel) (by simp) hkeys (by decide +kernel)

end Session

end SshKeyring
