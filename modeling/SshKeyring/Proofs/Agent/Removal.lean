import Mathlib.Data.List.Nodup
import SshKeyring.Proofs.Agent.Session

/-! The end of a session, at which the keys that are to be removed are taken away. Each of them is
tried once, in some order and whatever came of the others. The keys that the agent has taken away
are forgotten, and the last failure is reported. If the agent's answer to a removal depends on
nothing but the key, then what is remembered afterwards and whether all went well do not depend on
the order. -/

namespace SshKeyring.Session

variable {σ : Type} {link : Link σ} {s : Session} {a : σ}
  {answer : PublicKey → Except AgentError Unit}

/-! ### Removals in a row -/

/-- One removal for each of the keys, whatever came of those before it: the agent's answers, and the
session and the agent afterwards. -/
def attempts (link : Link σ) (keys : List PublicKey) (st : Session × σ) :
    List (Except AgentError Unit) × (Session × σ) :=
  Steps.performAll (keys.map fun k => command link (.removeIdentity k)) st

theorem attempts_cons (link : Link σ) (k : PublicKey) (keys : List PublicKey) (st : Session × σ) :
    attempts link (k :: keys) st =
      (((command link (.removeIdentity k)).perform st).1 ::
          (attempts link keys ((command link (.removeIdentity k)).perform st).2).1,
        (attempts link keys ((command link (.removeIdentity k)).perform st).2).2) := rfl

/-- Removals leave the session as it was, and of the session only the path matters to them. -/
theorem attempts_session (link : Link σ) (keys : List PublicKey) {s s' : Session} (a : σ)
    (h : s'.path = s.path) :
    attempts link keys (s', a) =
      ((attempts link keys (s, a)).1, (s', (attempts link keys (s, a)).2.2)) := by
  induction keys generalizing a with
  | nil => rfl
  | cons k keys ih =>
    rw [attempts_cons, attempts_cons, perform_command_session link _ s s' a h]
    obtain ⟨result, a', hc⟩ := command_eq link (.removeIdentity k) (s, a)
    rw [hc]
    dsimp only
    rw [ih]

/-- The last failure, or what stood before if there is none. -/
def verdict (result : Except AgentError Unit) (answers : List (Except AgentError Unit)) :
    Except AgentError Unit :=
  answers.foldl (fun result answer => if answer.isOk then result else answer) result

theorem isOk_iff {answer : Except AgentError Unit} : answer.isOk = true ↔ answer = .ok () := by
  cases answer with
  | ok u => simp [Except.isOk, Except.toBool]
  | error e => simp [Except.isOk, Except.toBool]

theorem verdict_eq (result : Except AgentError Unit) (answers : List (Except AgentError Unit)) :
    verdict result answers = (answers.reverse.find? (!·.isOk)).getD result := by
  induction answers using List.reverseRecOn with
  | nil => rfl
  | append_singleton answers last ih =>
    have concat : verdict result (answers ++ [last]) =
        if last.isOk then verdict result answers else last := List.foldl_append
    rw [concat, ih, List.reverse_append]
    cases last <;> rfl

theorem verdict_eq_ok_iff {answers : List (Except AgentError Unit)} :
    verdict (.ok ()) answers = .ok () ↔ ∀ answer ∈ answers, answer = .ok () := by
  rw [verdict_eq]
  cases h : answers.reverse.find? (!·.isOk) with
  | none => simpa [isOk_iff] using List.find?_eq_none.1 h
  | some failure =>
    have failed := List.find?_some h
    have tried := List.mem_reverse.1 (List.mem_of_find?_eq_some h)
    refine iff_of_false ?_ fun all => ?_
    · rintro rfl
      cases failed
    · rw [all failure tried] at failed
      cases failed

theorem verdict_eq_error_iff {answers : List (Except AgentError Unit)} {e : AgentError} :
    verdict (.ok ()) answers = .error e ↔
      ∃ before after, answers = before ++ .error e :: after ∧
        ∀ answer ∈ after, answer = .ok () := by
  have last : verdict (.ok ()) answers = .error e ↔
      answers.reverse.find? (!·.isOk) = some (.error e) := by
    rw [verdict_eq]
    cases answers.reverse.find? (!·.isOk) <;> simp
  rw [last, List.find?_eq_some_iff_append]
  constructor
  · rintro ⟨-, after, before, h, all⟩
    refine ⟨before.reverse, after.reverse, ?_, fun answer ha => ?_⟩
    · simpa using congrArg List.reverse h
    · simpa [isOk_iff] using all answer (List.mem_reverse.1 ha)
  · rintro ⟨before, after, rfl, all⟩
    refine ⟨rfl, after.reverse, before.reverse, by simp, fun answer ha => ?_⟩
    rw [all answer (List.mem_reverse.1 ha)]
    rfl

/-- What comes of removing keys one after the other: each is tried, the last failure is the result,
and those that the agent has taken away are forgotten. -/
theorem perform_removeEach (link : Link σ) (result : Except AgentError Unit)
    (keys : List PublicKey) (st : Session × σ) :
    (removeEach link result keys).perform st =
      (verdict result (attempts link keys st).1,
        (((takenAway link keys st).map .removed).foldl record st.1,
          (attempts link keys st).2.2)) := by
  rw [← removeEach_session link result]
  induction keys generalizing result st with
  | nil => rfl
  | cons k keys ih =>
    rw [perform_removeEach_cons, attempts_cons]
    obtain ⟨e | _, a', hc⟩ := command_eq link (.removeIdentity k) st
    · rw [hc]
      exact ih _ _
    · have same : attempts link keys (st.1.forget k, a') =
          ((attempts link keys (st.1, a')).1,
            (st.1.forget k, (attempts link keys (st.1, a')).2.2)) :=
        attempts_session link keys a' rfl
      rw [hc]
      dsimp only
      rw [ih, same]
      rfl

/-! ### Agents whose answer depends on the key -/

/-- Whatever removals came before, the answer to a removal is that of its key. -/
def Steady (link : Link σ) (st : Session × σ)
    (answer : PublicKey → Except AgentError Unit) : Prop :=
  ∀ before k,
    ((command link (.removeIdentity k)).perform (attempts link before st).2).1 = answer k

/-- An agent stays steady under removals. -/
theorem Steady.command (h : Steady link (s, a) answer) (k : PublicKey) :
    ∃ a', (command link (.removeIdentity k)).perform (s, a) = (answer k, (s, a')) ∧
      Steady link (s, a') answer := by
  obtain ⟨result, a', hc⟩ := command_eq link (.removeIdentity k) (s, a)
  have first := h [] k
  have rest := fun before => h (k :: before)
  simp only [attempts_cons, hc] at rest
  change ((Session.command link (.removeIdentity k)).perform (s, a)).1 = answer k at first
  rw [hc] at first
  exact ⟨a', hc.trans (by rw [← first]), rest⟩

theorem Steady.attempts (h : Steady link (s, a) answer) (keys : List PublicKey) :
    (attempts link keys (s, a)).1 = keys.map answer := by
  induction keys generalizing a with
  | nil => rfl
  | cons k keys ih =>
    obtain ⟨a', hc, h'⟩ := h.command k
    rw [attempts_cons, hc, List.map_cons, ih h']

theorem Steady.takenAway (h : Steady link (s, a) answer) (keys : List PublicKey) :
    takenAway link keys (s, a) = keys.filter fun k => (answer k).isOk := by
  induction keys generalizing a with
  | nil => rfl
  | cons k keys ih =>
    obtain ⟨a', hc, h'⟩ := h.command k
    rw [Session.takenAway, hc]
    cases hk : answer k with
    | ok u =>
      have granted : (answer k).isOk = true := isOk_iff.2 hk
      rw [List.filter_cons, if_pos granted, ← ih h']
    | error e =>
      have refused : ¬ (answer k).isOk = true := by simp [isOk_iff, hk]
      rw [List.filter_cons, if_neg refused, ← ih h']

/-- Keys that have been taken away one after the other are forgotten, and nothing else changes. -/
theorem foldl_record_removed (s : Session) (keys : List PublicKey) :
    (keys.map .removed).foldl record s =
      { s with remembered := s.remembered.filter (·.1 ∉ keys) } := by
  induction keys generalizing s with
  | nil => simp
  | cons k keys ih =>
    rw [List.map_cons, List.foldl_cons, ih, record, forget]
    simp [List.filter_filter, Bool.and_comm]

theorem mem_flagged_iff {k : PublicKey} : k ∈ s.flagged ↔ (k, true) ∈ s.remembered := by
  simp [flagged]

theorem nodup_flagged (h : (s.remembered.map (·.1)).Nodup) : s.flagged.Nodup :=
  h.sublist (List.filter_sublist.map _)

/-- Whether a key is to be removed can be read off any entry of it. -/
theorem flag_eq (h : (s.remembered.map (·.1)).Nodup) {k : PublicKey} {flag : Bool}
    (hk : (k, flag) ∈ s.remembered) : flag = decide (k ∈ s.flagged) := by
  cases flag with
  | true => simpa [mem_flagged_iff] using hk
  | false =>
    have other : (k, true) ∉ s.remembered := by
      intro hk'
      cases List.inj_on_of_nodup_map h hk hk' rfl
    simpa [mem_flagged_iff] using other

/-- At the end of a session each of the keys that are to be removed is tried once and no other key
is, in whatever order and whatever comes of it. With an agent whose answer depends on the key alone
just those of them are forgotten that it grants. All went well if it grants them all, and else the
result is the failure of the last one that it does not. -/
theorem perform_removeAddedIn_of_steady (order : Order) (hs : (s.remembered.map (·.1)).Nodup)
    (h : Steady link (s, a) answer) :
    let tried := order.arrange s.flagged
    tried.Nodup ∧ (∀ k, k ∈ tried ↔ (k, true) ∈ s.remembered) ∧
      ∃ result, (removeAddedIn order.arrange link).perform (s, a) =
          (result,
            ({ s with remembered := s.remembered.filter fun e => !(e.2 && (answer e.1).isOk) },
              (attempts link tried (s, a)).2.2)) ∧
        (result = .ok () ↔ ∀ k ∈ tried, answer k = .ok ()) ∧
        ∀ e, result = .error e ↔ ∃ before k after, tried = before ++ k :: after ∧
          answer k = .error e ∧ ∀ k' ∈ after, answer k' = .ok () := by
  intro tried
  have perm : tried.Perm s.flagged := order.perm s.flagged
  have kept : s.remembered.filter (·.1 ∉ tried.filter fun k => (answer k).isOk) =
      s.remembered.filter fun e => !(e.2 && (answer e.1).isOk) := by
    refine List.filter_congr fun e he => ?_
    rw [flag_eq hs he]
    simp [perm.mem_iff]
  refine ⟨perm.nodup_iff.2 (nodup_flagged hs), fun k => perm.mem_iff.trans mem_flagged_iff,
    verdict (.ok ()) (tried.map answer), ?_, ?_, fun e => ?_⟩
  · rw [perform_removeAddedIn, perform_removeEach, h.attempts, h.takenAway, foldl_record_removed,
      kept]
  · rw [verdict_eq_ok_iff, List.forall_mem_map]
  · rw [verdict_eq_error_iff]
    constructor
    · rintro ⟨before, after, hsplit, all⟩
      obtain ⟨before, behind, rest, rfl, hbehind⟩ := List.map_eq_append_iff.1 hsplit
      obtain ⟨k, after, rfl, hk, rfl⟩ := List.map_eq_cons_iff.1 hbehind
      exact ⟨before, k, after, rest, hk, List.forall_mem_map.1 all⟩
    · rintro ⟨before, k, after, hsplit, hk, all⟩
      refine ⟨before.map answer, after.map answer, ?_, List.forall_mem_map.2 all⟩
      rw [hsplit, List.map_append, List.map_cons, hk]

/-- The keys in reverse. -/
def backwards : Order := ⟨List.reverse, List.reverse_perm⟩

/-- A public half with one byte in its string. -/
def byteHalf (b : UInt8) : PublicKey := { type := .ed25519, parts := [[b]] }

/-- An agent that gives up one key, does not answer about another and refuses to remove any other.
It writes down what it is asked for. -/
def reluctant : Link (List Request) where
  obstacle _ _ := none
  exchange r log :=
    (if r = .removeIdentity (byteHalf 1) then .ok .success
      else if r = .removeIdentity (byteHalf 2) then .error .timeout
      else .ok .failure, log ++ [r])

/-- Three keys to be removed, and one that is not. -/
def crowded : Session where
  path := some "/agent"
  timeout := 10
  remembered := [(byteHalf 1, true), (byteHalf 2, true), (byteHalf 4, false), (byteHalf 3, true)]

/-- What that agent answers. -/
def reluctance (k : PublicKey) : Except AgentError Unit :=
  if k = byteHalf 1 then .ok ()
  else if k = byteHalf 2 then .error .timeout
  else .error .failure

theorem reluctant_steady : Steady reluctant (crowded, []) reluctance := by
  intro before k
  have reached : ∀ log, reach reluctant crowded.path log = .ok () := by
    have fine : pathFault? "/agent" = none := by decide +kernel
    intro log
    simp [reach, crowded, fine, reluctant]
  rw [attempts_session reluctant before [] (rfl : crowded.path = crowded.path), perform_command,
    perform_exchange, reached]
  simp only [reluctant, reluctance, Request.removeIdentity.injEq]
  split
  · rfl
  · split <;> rfl

theorem reluctant_removeAddedIn :
    (removeAddedIn backwards.arrange reluctant).perform (crowded, []) =
      (.error .timeout,
        ({ crowded with
            remembered := [(byteHalf 2, true), (byteHalf 4, false), (byteHalf 3, true)] },
          [.removeIdentity (byteHalf 3), .removeIdentity (byteHalf 2),
            .removeIdentity (byteHalf 1)])) := by
  obtain ⟨-, -, result, hx, -, failed⟩ :=
    perform_removeAddedIn_of_steady backwards (by decide) reluctant_steady
  have last : result = .error .timeout :=
    (failed .timeout).2 ⟨[byteHalf 3], byteHalf 2, [byteHalf 1], by decide, by decide, by decide⟩
  rw [hx, last]
  rfl

end SshKeyring.Session
