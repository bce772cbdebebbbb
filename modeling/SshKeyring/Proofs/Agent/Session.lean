import Mathlib.Data.List.DropRight
import SshKeyring.Agent.Session

/-! The operations of a session, one after the other with any agent, and what the session remembers
of them. The keys it remembers are those that it has added since the agent last took them away, and
a key is to be removed if one of those additions said so. The agent, and whether it can be reached,
may change in any way from one request to the next. -/

namespace SshKeyring

/-- An order in which keys are gone through. -/
structure Order where
  arrange : List PublicKey → List PublicKey
  perm : ∀ keys, (arrange keys).Perm keys

/-- The keys as they stand. -/
def Order.standing : Order := ⟨id, fun _ => .refl _⟩

inductive Operation
  | add (key : Key) (options : AddOptions)
  | remove (key : Key)
  | removeAdded (order : Order)
  | removeAll
  | list
  | check (key : Key)

/-- What an operation reports when it goes well. -/
inductive Report
  | done
  | listed (held : List Identity)
  | checked (holds : Bool)
  deriving DecidableEq, Repr

namespace Session

variable {σ : Type}

def operate (link : Link σ) : Operation → Call σ Report
  | .add key options => do
    add link key options
    return .done
  | .remove key => do
    remove link key
    return .done
  | .removeAdded order => do
    removeAddedIn order.arrange link
    return .done
  | .removeAll => do
    removeAll link
    return .done
  | .list => return .listed (← list link)
  | .check key => return .checked (← check link key)

/-- Operations one after the other: their results, and the session and the agent afterwards. -/
def operateAll (link : Link σ) (operations : List Operation) (st : Session × σ) :
    List (Except AgentError Report) × (Session × σ) :=
  Steps.performAll (operations.map (operate link)) st

/-! ### What the agent does for a session -/

/-- Something that the agent has done. -/
inductive Deed
  | added (k : PublicKey) (remove : Bool)
  | removed (k : PublicKey)
  | removedAll
  deriving DecidableEq, Repr

/-- Whether a key is gone after it. -/
def Deed.takes (k : PublicKey) : Deed → Bool
  | .added _ _ => false
  | .removed k' => k' = k
  | .removedAll => true

/-- The keys that the agent takes away when it is asked for one after the other. -/
def takenAway (link : Link σ) : List PublicKey → Session × σ → List PublicKey
  | [], _ => []
  | k :: rest, st =>
    match (command link (.removeIdentity k)).perform st with
    | (.ok (), st) => k :: takenAway link rest st
    | (.error _, st) => takenAway link rest st

/-- What the agent does in the course of an operation. -/
def deeds (link : Link σ) (st : Session × σ) : Operation → List Deed
  | .add key options =>
    match key.publicHalf, ((add link key options).perform st).1 with
    | some k, .ok () => [.added k options.removeOnClose]
    | _, _ => []
  | .remove key =>
    match key.publicHalf, ((remove link key).perform st).1 with
    | some k, .ok () => [.removed k]
    | _, _ => []
  | .removeAdded order => (takenAway link (order.arrange st.1.flagged) st).map .removed
  | .removeAll =>
    match ((removeAll link).perform st).1 with
    | .ok () => [.removedAll]
    | .error _ => []
  | .list => []
  | .check _ => []

/-- What the agent does in the course of some operations. -/
def history (link : Link σ) : List Operation → Session × σ → List Deed
  | [], _ => []
  | operation :: rest, st =>
    deeds link st operation ++ history link rest ((operate link operation).perform st).2

/-- What was done since the key was last taken away. -/
def sinceTaken (k : PublicKey) (history : List Deed) : List Deed :=
  history.rtakeWhile fun d => !d.takes k

/-! ### The steps of the operations -/

/-- Whether a connection comes about, as far as the path and the agent go. -/
def reach (link : Link σ) (path : Option String) (agent : σ) : Except AgentError Unit :=
  match path with
  | none => .error .noAgent
  | some path =>
    match pathFault? path <|> link.obstacle path agent with
    | some e => .error (.connect path e)
    | none => .ok ()

theorem perform_connect (link : Link σ) (s : Session) (agent : σ) :
    (connect link).perform (s, agent) = (reach link s.path agent, (s, agent)) := by
  unfold connect reach
  rw [Steps.perform_bind, Steps.perform_get]
  dsimp only
  cases s.path with
  | none => rfl
  | some path =>
    dsimp only
    cases pathFault? path <|> link.obstacle path agent <;> rfl

theorem perform_exchange (link : Link σ) (r : Request) (s : Session) (agent : σ) :
    (exchange link r).perform (s, agent) =
      match reach link s.path agent with
      | .error e => (.error e, (s, agent))
      | .ok () => ((link.exchange r agent).1, (s, (link.exchange r agent).2)) := by
  unfold exchange
  rw [Steps.perform_bind, perform_connect]
  cases reach link s.path agent <;> rfl

theorem perform_command (link : Link σ) (r : Request) (st : Session × σ) :
    (command link r).perform st =
      (((exchange link r).perform st).1.bind Response.accepted,
        ((exchange link r).perform st).2) := by
  unfold command
  rw [Steps.perform_bind]
  rcases (exchange link r).perform st with ⟨_ | _, _⟩ <;> rfl

theorem exchange_session (link : Link σ) (r : Request) (st : Session × σ) :
    ((exchange link r).perform st).2.1 = st.1 := by
  rw [perform_exchange]
  cases reach link st.1.path st.2 <;> rfl

/-- A command leaves the session as it was, and of the session only the path matters to it. -/
theorem perform_command_session (link : Link σ) (r : Request) (s s' : Session) (agent : σ)
    (h : s'.path = s.path) :
    (command link r).perform (s', agent) =
      (((command link r).perform (s, agent)).1,
        (s', ((command link r).perform (s, agent)).2.2)) := by
  rw [perform_command, perform_command, perform_exchange, perform_exchange, h]
  cases reach link s.path agent <;> rfl

theorem command_eq (link : Link σ) (r : Request) (st : Session × σ) :
    ∃ result agent, (command link r).perform st = (result, (st.1, agent)) :=
  ⟨_, _, perform_command_session link r st.1 st.1 st.2 rfl⟩

theorem perform_add (link : Link σ) (key : Key) (options : AddOptions) (st : Session × σ) :
    (add link key options).perform st =
      match key.publicKey, key.privateKey with
      | .error e, _ => (.error (.key e), st)
      | .ok _, .error e => (.error (.key e), st)
      | .ok publicKey, .ok privateKey =>
        match (command link (addRequest { privateKey, comment := key.comment }
            options.constraints)).perform st with
        | (.error e, st) => (.error e, st)
        | (.ok (), st) => (.ok (), (st.1.remember publicKey options.removeOnClose, st.2)) := by
  unfold add ofKey
  rw [Steps.perform_bind]
  cases key.publicKey with
  | error e => rfl
  | ok publicKey =>
    cases key.privateKey with
    | error e => rfl
    | ok privateKey =>
      simp only [Steps.perform_bind, Steps.perform_ofExcept, mapError_ok]
      rcases (command link _).perform st with ⟨_ | _, _⟩ <;> rfl

theorem perform_remove (link : Link σ) (key : Key) (st : Session × σ) :
    (remove link key).perform st =
      match key.publicKey with
      | .error e => (.error (.key e), st)
      | .ok publicKey =>
        match (command link (.removeIdentity publicKey)).perform st with
        | (.error e, st) => (.error e, st)
        | (.ok (), st) => (.ok (), (st.1.forget publicKey, st.2)) := by
  unfold remove ofKey
  rw [Steps.perform_bind]
  cases key.publicKey with
  | error e => rfl
  | ok publicKey =>
    simp only [Steps.perform_bind, Steps.perform_ofExcept, mapError_ok]
    rcases (command link _).perform st with ⟨_ | _, _⟩ <;> rfl

theorem perform_removeAll (link : Link σ) (st : Session × σ) :
    (removeAll link).perform st =
      match (command link .removeAllIdentities).perform st with
      | (.error e, st) => (.error e, st)
      | (.ok (), st) => (.ok (), ({ st.1 with remembered := [] }, st.2)) := by
  unfold removeAll
  rw [Steps.perform_bind]
  rcases (command link .removeAllIdentities).perform st with ⟨_ | _, _⟩ <;> rfl

theorem perform_removeEach_cons (link : Link σ) (result : Except AgentError Unit) (k : PublicKey)
    (keys : List PublicKey) (st : Session × σ) :
    (removeEach link result (k :: keys)).perform st =
      match (command link (.removeIdentity k)).perform st with
      | (.ok (), st) => (removeEach link result keys).perform (st.1.forget k, st.2)
      | (.error e, st) => (removeEach link (.error e) keys).perform st := by
  rw [removeEach, Steps.perform_bind, Steps.perform_observing]
  rcases (command link (.removeIdentity k)).perform st with ⟨_ | _, _⟩ <;> rfl

theorem perform_removeAddedIn (order : List PublicKey → List PublicKey) (link : Link σ)
    (st : Session × σ) :
    (removeAddedIn order link).perform st =
      (removeEach link (.ok ()) (order st.1.flagged)).perform st := rfl

theorem perform_list (link : Link σ) (st : Session × σ) :
    (list link).perform st =
      (((exchange link .requestIdentities).perform st).1.bind Response.listed,
        ((exchange link .requestIdentities).perform st).2) := by
  unfold list
  rw [Steps.perform_bind]
  rcases (exchange link .requestIdentities).perform st with ⟨_ | _, _⟩ <;> rfl

theorem list_session (link : Link σ) (st : Session × σ) : ((list link).perform st).2.1 = st.1 := by
  rw [perform_list, exchange_session]

theorem perform_check (link : Link σ) (key : Key) (st : Session × σ) :
    (check link key).perform st =
      match key.publicKey with
      | .error e => (.error (.key e), st)
      | .ok k =>
        (((list link).perform st).1.map (·.any (·.publicKey = k)), ((list link).perform st).2) := by
  unfold check ofKey
  rw [Steps.perform_bind]
  cases key.publicKey with
  | error e => rfl
  | ok k =>
    simp only [mapError_ok, Steps.perform_ofExcept]
    rw [Steps.perform_bind_pure]

theorem check_session (link : Link σ) (key : Key) (st : Session × σ) :
    ((check link key).perform st).2.1 = st.1 := by
  rw [perform_check]
  cases key.publicKey with
  | error e => rfl
  | ok k => exact list_session link st

/-! ### How a session keeps count -/

def record (s : Session) : Deed → Session
  | .added k remove => s.remember k remove
  | .removed k => s.forget k
  | .removedAll => { s with remembered := [] }

theorem takenAway_session (link : Link σ) (keys : List PublicKey) {s s' : Session} (agent : σ)
    (h : s'.path = s.path) : takenAway link keys (s', agent) = takenAway link keys (s, agent) := by
  induction keys generalizing agent with
  | nil => rfl
  | cons k keys ih =>
    rw [takenAway, takenAway, perform_command_session link _ s s' agent h]
    obtain ⟨e | _, agent', hc⟩ := command_eq link (.removeIdentity k) (s, agent)
    · rw [hc]
      exact ih agent'
    · rw [hc]
      exact congrArg (k :: ·) (ih agent')

theorem removeEach_session (link : Link σ) (result : Except AgentError Unit) (keys : List PublicKey)
    (st : Session × σ) :
    ((removeEach link result keys).perform st).2.1 =
      ((takenAway link keys st).map .removed).foldl record st.1 := by
  induction keys generalizing result st with
  | nil => rfl
  | cons k keys ih =>
    rw [perform_removeEach_cons, takenAway]
    obtain ⟨e | _, agent', hc⟩ := command_eq link (.removeIdentity k) st
    · rw [hc]
      exact ih _ (st.1, agent')
    · have rest :
          takenAway link keys (st.1.forget k, agent') = takenAway link keys (st.1, agent') :=
        takenAway_session link keys agent' rfl
      rw [hc]
      dsimp only
      rw [ih, rest]
      rfl

/-- After an operation a session has recorded what the agent did for it, and nothing else. -/
theorem operate_session (link : Link σ) (operation : Operation) (st : Session × σ) :
    ((operate link operation).perform st).2.1 = (deeds link st operation).foldl record st.1 := by
  cases operation with
  | add key options =>
    rw [operate, Steps.perform_bind_pure, deeds, perform_add, Key.publicKey]
    cases key.publicHalf with
    | none => rfl
    | some k =>
      cases key.privateKey with
      | error e => rfl
      | ok privateKey =>
        obtain ⟨e | _, agent, hc⟩ := command_eq link
          (addRequest { privateKey, comment := key.comment } options.constraints) st
        · simp only [hc]
          rfl
        · simp only [hc]
          rfl
  | remove key =>
    rw [operate, Steps.perform_bind_pure, deeds, perform_remove, Key.publicKey]
    cases key.publicHalf with
    | none => rfl
    | some k =>
      obtain ⟨e | _, agent, hc⟩ := command_eq link (.removeIdentity k) st
      · simp only [hc]
        rfl
      · simp only [hc]
        rfl
  | removeAdded order =>
    rw [operate, Steps.perform_bind_pure, perform_removeAddedIn]
    exact removeEach_session link (.ok ()) (order.arrange st.1.flagged) st
  | removeAll =>
    rw [operate, Steps.perform_bind_pure, deeds, perform_removeAll]
    obtain ⟨e | _, agent, hc⟩ := command_eq link .removeAllIdentities st
    · simp only [hc]
      rfl
    · simp only [hc]
      rfl
  | list =>
    rw [operate, Steps.perform_bind_pure]
    exact list_session link st
  | check key =>
    rw [operate, Steps.perform_bind_pure]
    exact check_session link key st

theorem operateAll_session (link : Link σ) (operations : List Operation) (st : Session × σ) :
    (operateAll link operations st).2.1 = (history link operations st).foldl record st.1 := by
  induction operations generalizing st with
  | nil => rfl
  | cons operation operations ih =>
    rw [history, List.foldl_append, ← operate_session]
    exact ih _

/-! ### What is remembered -/

theorem mem_remember_iff (s : Session) (k k' : PublicKey) (b remove : Bool) :
    (k, b) ∈ (s.remember k' remove).remembered ↔
      (k ≠ k' ∧ (k, b) ∈ s.remembered) ∨
        (k = k' ∧ ((∃ b', (k, b') ∈ s.remembered ∧ b = (b' || remove)) ∨
          (∀ b', (k, b') ∉ s.remembered) ∧ b = remove)) := by
  have known : s.remembered.any (·.1 = k') = true ↔ ∃ b', (k', b') ∈ s.remembered := by
    simp [List.any_eq_true]
  unfold remember
  by_cases hk : ∃ b', (k', b') ∈ s.remembered
  · rw [if_pos (known.2 hk)]
    simp only [List.mem_map, Prod.exists]
    constructor
    · rintro ⟨k₀, b₀, hmem, h⟩
      split at h
      · next he =>
        subst he
        obtain ⟨rfl, rfl⟩ := Prod.mk.inj h
        exact .inr ⟨rfl, .inl ⟨b₀, hmem, rfl⟩⟩
      · next hne =>
        obtain ⟨rfl, rfl⟩ := Prod.mk.inj h
        exact .inl ⟨hne, hmem⟩
    · rintro (⟨hne, hmem⟩ | ⟨rfl, ⟨b', hmem, rfl⟩ | ⟨hnone, -⟩⟩)
      · exact ⟨k, b, hmem, if_neg hne⟩
      · exact ⟨k, b', hmem, if_pos rfl⟩
      · exact absurd hk.choose_spec (hnone _)
  · rw [if_neg (mt known.1 hk)]
    rw [not_exists] at hk
    simp only [List.mem_append, List.mem_singleton, Prod.mk.injEq]
    constructor
    · rintro (hmem | ⟨rfl, rfl⟩)
      · refine .inl ⟨?_, hmem⟩
        rintro rfl
        exact hk b hmem
      · exact .inr ⟨rfl, .inr ⟨hk, rfl⟩⟩
    · rintro (⟨-, hmem⟩ | ⟨rfl, ⟨b', hmem, -⟩ | ⟨-, rfl⟩⟩)
      · exact .inl hmem
      · exact absurd hmem (hk b')
      · exact .inr ⟨rfl, rfl⟩

theorem mem_forget_iff (s : Session) (k k' : PublicKey) (b : Bool) :
    (k, b) ∈ (s.forget k').remembered ↔ k ≠ k' ∧ (k, b) ∈ s.remembered := by
  simp [forget, and_comm]

/-- A key that is remembered keeps its place; a new one goes to the end. -/
theorem map_fst_remember (s : Session) (k : PublicKey) (remove : Bool) :
    (s.remember k remove).remembered.map (·.1) =
      if s.remembered.any (·.1 = k) then s.remembered.map (·.1)
      else s.remembered.map (·.1) ++ [k] := by
  unfold remember
  by_cases hk : s.remembered.any (·.1 = k)
  · rw [if_pos hk, if_pos hk]
    dsimp only
    rw [List.map_map]
    apply List.map_congr_left
    rintro ⟨k', flag⟩ -
    dsimp only [Function.comp_apply]
    split <;> rfl
  · rw [if_neg hk, if_neg hk]
    exact List.map_append

theorem nodup_record {s : Session} (h : (s.remembered.map (·.1)).Nodup) (d : Deed) :
    ((s.record d).remembered.map (·.1)).Nodup := by
  cases d with
  | added k remove =>
    rw [record, map_fst_remember]
    split
    · exact h
    · next hk =>
      rw [List.any_eq_true] at hk
      refine List.nodup_append.2 ⟨h, by simp, fun k' hk' last hlast he => ?_⟩
      obtain ⟨entry, hentry, rfl⟩ := List.mem_map.1 hk'
      exact hk ⟨entry, hentry, by simpa [he] using hlast⟩
  | removed k => exact h.sublist (List.filter_sublist.map _)
  | removedAll => exact List.nodup_nil

theorem nodup_foldl_record {s : Session} (h : (s.remembered.map (·.1)).Nodup)
    (history : List Deed) : ((history.foldl record s).remembered.map (·.1)).Nodup := by
  induction history generalizing s with
  | nil => exact h
  | cons d history ih => exact ih (nodup_record h d)

theorem sinceTaken_concat (k : PublicKey) (history : List Deed) (d : Deed) :
    sinceTaken k (history ++ [d]) = if d.takes k then [] else sinceTaken k history ++ [d] := by
  unfold sinceTaken
  rw [List.rtakeWhile_concat]
  cases d.takes k <;> rfl

/-- Recording a history from the start leaves each key that was added since it was last taken away,
to be removed if one of those additions said so, and no other key. -/
theorem mem_foldl_record_iff {s : Session} (hs : s.remembered = []) (history : List Deed)
    (k : PublicKey) (b : Bool) :
    (k, b) ∈ (history.foldl record s).remembered ↔
      (∃ remove, .added k remove ∈ sinceTaken k history) ∧
        (b = true ↔ .added k true ∈ sinceTaken k history) := by
  induction history using List.reverseRecOn generalizing b with
  | nil => simp [hs, sinceTaken]
  | append_singleton history d ih =>
    rw [List.foldl_append, sinceTaken_concat]
    simp only [List.foldl_cons, List.foldl_nil]
    cases d with
    | added k' remove =>
      simp only [record, Deed.takes, mem_remember_iff, ih, Bool.false_eq_true, if_false,
        List.mem_append, List.mem_singleton, Deed.added.injEq]
      by_cases hk : k = k'
      · subst hk
        by_cases marked : .added k true ∈ sinceTaken k history
        · have before : ∃ remove, .added k remove ∈ sinceTaken k history := ⟨true, marked⟩
          cases b <;> simp [before, marked]
        · by_cases before : ∃ remove, .added k remove ∈ sinceTaken k history
          · cases b <;> cases remove <;> simp [before, marked]
          · cases b <;> cases remove <;> simp [before, marked]
      · simp [hk]
    | removed k' =>
      rw [record, mem_forget_iff, ih]
      by_cases hk : k = k'
      · simp [Deed.takes, hk]
      · simp [Deed.takes, hk, Ne.symm hk]
    | removedAll => simp [record, Deed.takes]

/-- Whatever a session does, with whatever agent, it remembers each key once. It remembers just the
keys that it has added since the agent last took them away for it, and has marked for removal those
that one of these additions wants removed. -/
theorem remembered_iff (link : Link σ) (config : AgentConfig) (environment : Option String)
    (agent : σ) (operations : List Operation) :
    let start := (ofConfig config environment, agent)
    let s := (operateAll link operations start).2.1
    (s.remembered.map (·.1)).Nodup ∧
      ∀ k b, (k, b) ∈ s.remembered ↔
        (∃ remove, .added k remove ∈ sinceTaken k (history link operations start)) ∧
          (b = true ↔ .added k true ∈ sinceTaken k (history link operations start)) := by
  intro start s
  have recorded : s = (history link operations start).foldl record start.1 :=
    operateAll_session link operations start
  rw [recorded]
  exact ⟨nodup_foldl_record (s := start.1) List.nodup_nil _, mem_foldl_record_iff rfl _⟩

end Session

end SshKeyring
