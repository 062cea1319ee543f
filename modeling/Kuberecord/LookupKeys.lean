import Kuberecord.ProcessTags

namespace Kuberecord

open Threads

def Op.Beyond (p : Key → Prop) : Op → Prop
  | .listerGet key => ¬ p key
  | .lastKnownStates _ | .scopeSynced _ => True
  | _ => False

def ScopeRef.Names (ref : ScopeRef) (states : List KnownState) (key : Key) : Prop :=
  ∃ x ∈ states, ref.key x.ns x.name = key

theorem Op.Beyond.outside {p : Key → Prop} (o : Op) (h : o.Beyond p) : o.Outside := by
  cases o with
  | listerGet | lastKnownStates | scopeSynced => trivial
  | _ => exact h.elim

theorem Op.Beyond.remote {p : Key → Prop} (o : Op) (h : o.Beyond p) : o.Remote :=
  Op.Outside.remote o (Op.Beyond.outside o h)

section Avoids

variable {cfg : Config} {p : Key → Prop} {st : Inst} {ref : ScopeRef}

theorem sweep_within {targets : List GcTarget} (hp : ∀ t ∈ targets, p (ref.key t.ns t.name))
    (reincarnated : List GcTarget) : (sweep cfg ref st targets reincarnated).Avoids (Op.Beyond p) := by
  induction targets generalizing reincarnated with
  | nil => trivial
  | cons target targets ih =>
    obtain ⟨htarget, htargets⟩ := List.forall_mem_cons.mp hp
    simp only [sweep, Program.perform_bind]
    refine ⟨id, fun stop => ?_⟩
    cases stop with
    | true => trivial
    | false =>
      refine ⟨not_not_intro htarget, fun lookup => ?_⟩
      cases lookup with
      | none => trivial
      | some lookup =>
        simp only
        split_ifs
        · trivial
        · exact ih htargets _
        · refine (emitDelete_avoids.mono Op.Beyond.remote).bind ?_
          rintro ⟨outcome, err⟩
          simp only
          split_ifs
          · trivial
          · exact ih htargets _
          · exact ih htargets _

theorem collectZombies_within (n : Nat) {seeded : List GcTarget}
    (hp : ∀ t ∈ seeded, p (ref.key t.ns t.name)) :
    (collectZombies cfg ref n seeded).Avoids (Op.Beyond p) := by
  refine (retry_avoids (fun _ => ?_) id n _).bind fun _ => trivial
  refine ⟨id, fun writer => ?_⟩
  cases writer with
  | none => trivial
  | some writer => exact ⟨id, fun st => sweep_within hp []⟩

theorem scopeWasActive_within (epochStart n : Nat) :
    (scopeWasActive ref epochStart n).Avoids (Op.Beyond p) := by
  refine retry_avoids (fun _ => (readState_avoids (call_avoids id) id).bind ?_) id n _
  rintro (e | active) <;> trivial

end Avoids

inductive Gate
  | unread (key : Key)
  | seek
  | told (ref : ScopeRef) (states : List KnownState)
  | passed (ref : ScopeRef) (states : List KnownState)
  | shut

namespace Gate

def Allowed : Gate → Op → Prop
  | .unread key, o => o = .listerGet key
  | .seek, o => (∃ ref, o = .lastKnownStates ref) ∨ ¬ o.Beyond fun _ => False
  | .told ref _, o => o = .scopeSynced ref ∨ ¬ o.Beyond fun _ => False
  | .passed ref states, o => o = .lastKnownStates ref ∨ ¬ o.Beyond (ref.Names states)
  | .shut, o => ¬ o.Beyond fun _ => False

def next : Gate → (o : Op) → o.Ans → Gate
  | .unread _, _, _ => .shut
  | .seek, .lastKnownStates ref, some states => .told ref states
  | .told ref states, .scopeSynced _, true => .passed ref states
  | .passed ref _, .lastKnownStates _, some states => .passed ref states
  | p, _, _ => p

def protocol : Protocol Op Op.Ans Gate where
  allowed := Allowed
  answers := Op.Answers
  next := next

def start : Tid → Gate
  | .worker key => .unread key
  | .warm _ => .seek
  | .boot _ | .evict _ => .shut

variable {cfg : Config} {ref : ScopeRef} {states : List KnownState} {α : Type} {x : Prog α}

theorem obeys_shut (hx : x.Avoids Op.Outside) : protocol.Obeys x .shut (fun _ _ => True) :=
  protocol.obeys_of_avoids (hx.mono Op.Beyond.outside) (fun _ ho => ⟨ho, fun _ => rfl⟩) fun _ => trivial

theorem next_passed {o : Op} (ho : ¬ o.Beyond (ref.Names states)) (a : o.Ans) :
    next (.passed ref states) o a = .passed ref states := by
  cases o with
  | lastKnownStates => exact absurd trivial ho
  | _ => rfl

theorem obeys_passed (hx : x.Avoids (Op.Beyond (ref.Names states))) :
    protocol.Obeys x (.passed ref states) (fun _ p => p = .passed ref states) :=
  protocol.obeys_of_avoids hx (fun _ ho => ⟨.inr ho, next_passed ho⟩) fun _ => rfl

theorem obeys_told (hx : x.Avoids (Op.Beyond fun _ => False)) :
    protocol.Obeys x (.told ref states) (fun _ p => p = .told ref states) := by
  refine protocol.obeys_of_avoids hx (fun o ho => ⟨.inr ho, fun a => ?_⟩) fun _ => rfl
  cases o with
  | scopeSynced => exact absurd trivial ho
  | _ => rfl

def Seeded (ref : ScopeRef) : Option Err × List GcTarget × List Reincarnation → Gate → Prop
  | (none, seeded, priors), p => ∃ states, p = .told ref states ∧ (seeded = [] → priors = []) ∧
      ∀ t ∈ seeded, ref.Names states (ref.key t.ns t.name)
  | (some _, _), p => p = .seek

theorem seedScope_obeys (ref : ScopeRef) (n : Nat) :
    protocol.Obeys (seedScope ref n) .seek (Seeded ref) := by
  refine retry_rule (I := fun _ (p : Gate) => p = .seek) ?_ (fun e s p (hp : p = .seek) => ?_) n rfl
  · rintro _ _ rfl
    simp only [readState, Program.perform_bind, Program.op_bind, Protocol.obeys_op]
    refine ⟨.inr id, fun answer _ => ?_⟩
    cases answer with
    | noStateReader | notLive => rfl
    | reader =>
      refine ⟨.inl ⟨ref, rfl⟩, fun states _ => ?_⟩
      cases states with
      | none => rfl
      | some states =>
        refine ⟨.inr id, fun st _ => ?_⟩
        refine Protocol.Obeys.bind _ (obeys_told (.forM (fun _ => call_avoids id) _)) ?_
        rintro _ _ rfl
        refine ⟨states, rfl, fun h => ?_, fun t ht => ?_⟩
        · rw [List.map_eq_nil_iff.mp h]
          rfl
        · obtain ⟨g, hg, rfl⟩ := List.mem_map.mp ht
          exact ⟨_, (groupByIdentity_grouped states g hg _ (split_current_mem g)).1, rfl⟩
  · subst hp
    exact ⟨.inr id, rfl, rfl⟩

theorem awaitScopeSync_obeys (n : Nat) : protocol.Obeys (awaitScopeSync ref n) (.told ref states)
    (fun synced p => p = if synced then .passed ref states else .told ref states) := by
  induction n with
  | zero => rfl
  | succ n ih =>
    refine ⟨.inl rfl, fun synced _ => ?_⟩
    cases synced with
    | true => rfl
    | false =>
      refine ⟨.inr id, fun desired _ => ?_⟩
      cases desired with
      | false => rfl
      | true =>
        refine ⟨.inr id, fun again _ => ?_⟩
        cases again with
        | false => rfl
        | true => exact ih

theorem recoverRefusedReincarnations_obeys (n : Nat) (refused : List GcTarget) :
    protocol.Obeys (recoverRefusedReincarnations cfg ref n refused) (.passed ref states)
      (fun _ _ => True) := by
  unfold recoverRefusedReincarnations
  split_ifs
  · trivial
  · refine Protocol.Obeys.bind _ (Q := fun _ p => ∃ states, p = .passed ref states)
      (retry_rule (I := fun _ p => ∃ states, p = .passed ref states) ?_ ?_ n ⟨states, rfl⟩) fun _ _
      _ => trivial
    · rintro pending _ ⟨states, rfl⟩
      simp only [readState, Program.perform_bind, Program.op_bind, Protocol.obeys_op]
      refine ⟨.inr id, fun answer _ => ?_⟩
      cases answer with
      | noStateReader | notLive => exact ⟨states, rfl⟩
      | reader =>
        refine ⟨.inl rfl, fun told _ => ?_⟩
        cases told with
        | none => exact ⟨states, rfl⟩
        | some states =>
          refine ⟨.inr id, fun order _ => ?_⟩
          exact Protocol.Obeys.bind _ (obeys_passed ((emitCloseOuts_avoids n _).mono Op.Beyond.outside))
            fun _ _ hp => ⟨states, hp⟩
    · rintro e s _ ⟨states, rfl⟩
      exact ⟨.inr id, ⟨states, rfl⟩, states, rfl⟩

theorem reconcileHistory_obeys (epochStart n : Nat) {seeded : List GcTarget}
    (priors : List Reincarnation) (hne : seeded ≠ [])
    (hs : ∀ t ∈ seeded, ref.Names states (ref.key t.ns t.name)) :
    protocol.Obeys (reconcileHistory cfg ref epochStart n seeded priors) (.told ref states)
      (fun _ _ => True) := by
  have hempty : seeded.isEmpty = false := by simpa using hne
  simp only [reconcileHistory, hempty, Bool.false_eq_true, ↓reduceIte]
  refine Protocol.Obeys.bind _ (awaitScopeSync_obeys n) ?_
  rintro synced _ rfl
  cases synced with
  | false => trivial
  | true =>
    refine Protocol.Obeys.bind _ (obeys_passed (scopeWasActive_within epochStart n)) ?_
    rintro ⟨err, wasActive⟩ _ rfl
    simp only
    split_ifs
    · trivial
    · refine Protocol.Obeys.bind _
        (obeys_passed ((emitCloseOuts_avoids n priors).mono Op.Beyond.outside)) ?_
      rintro _ _ rfl
      refine Protocol.Obeys.bind _ (obeys_passed (collectZombies_within n hs)) ?_
      rintro refused _ rfl
      exact recoverRefusedReincarnations_obeys n refused

theorem warm_obeys (ref : ScopeRef) (epochStart n : Nat) :
    protocol.Obeys (do warm cfg ref epochStart n; return none : Prog (Option Err)) .seek
    (fun _ _ => True) := by
  rw [Protocol.obeys_bind]
  refine Protocol.Obeys.bind _ (seedScope_obeys ref n) ?_
  rintro ⟨err, seeded, priors⟩ p hp
  cases err with
  | some e => trivial
  | none =>
    obtain ⟨states, rfl, hnil, hs⟩ := hp
    refine ⟨.inr id, fun _ _ => ?_⟩
    simp only
    split_ifs with he hempty
    · trivial
    · trivial
    · refine reconcileHistory_obeys epochStart n priors (fun h => ?_) hs
      simp [h, hnil h] at hempty

theorem safe (cfg : Config) : (machine cfg).Safe protocol start (fun _ _ _ => True) := by
  refine ⟨fun shared tid b shared' code hs => ?_, (machine_safe cfg).answers⟩
  cases tid <;> cases b <;>
    simp only [machine, Kuberecord.start, Option.ite_none_right_eq_some,
      Option.ite_none_left_eq_some, Option.some.injEq, Prod.mk.injEq, reduceCtorEq] at hs
  case worker.run key =>
    obtain ⟨rest, heq, hrest⟩ := @process_asks_once cfg key
    rw [← hs.2.2, heq]
    exact ⟨rfl, fun lookup _ => obeys_shut (hrest lookup)⟩
  case warm.warm id ref epochStart n => exact hs.2.2 ▸ warm_obeys ref epochStart n
  case boot.run sink =>
    refine hs.2.2 ▸ protocol.obeys_of_avoids ((closeOrphanedScopes_boots sink).mono fun o ho => ?_)
      (fun _ ho => ⟨ho, fun _ => rfl⟩) fun _ => trivial
    cases o <;> first | exact id | exact ho.elim
  case evict.run ref => exact hs.2 ▸ ⟨id, fun _ _ => ⟨id, fun _ _ => ⟨id, fun _ _ => trivial⟩⟩⟩

def Backed (tid : Tid) (tr : List (Sigma Op.Ans)) : Gate → Prop
  | .unread key => tid = .worker key ∧ tr = []
  | .told ref states => ⟨.lastKnownStates ref, some states⟩ ∈ tr
  | .passed ref states => ⟨.scopeSynced ref, true⟩ ∈ tr ∧ ⟨.lastKnownStates ref, some states⟩ ∈ tr
  | _ => True

theorem Backed.next {tid : Tid} {tr : List (Sigma Op.Ans)} {p : Gate} {o : Op} {a : o.Ans}
    (h : p.Backed tid tr) (hall : p.Allowed o) : (p.next o a).Backed tid (tr ++ [⟨o, a⟩]) := by
  have last : (⟨o, a⟩ : Sigma Op.Ans) ∈ tr ++ [⟨o, a⟩] := List.mem_append_right _ (.head _)
  cases p with
  | unread | shut => trivial
  | seek =>
    cases o with
    | lastKnownStates ref =>
      cases a with
      | none => trivial
      | some states => exact last
    | _ => trivial
  | told ref states =>
    rcases hall with rfl | hin
    · cases a with
      | false => exact List.mem_append_left _ h
      | true => exact ⟨last, List.mem_append_left _ h⟩
    · cases o with
      | scopeSynced => exact absurd trivial hin
      | _ => exact List.mem_append_left _ h
  | passed ref states =>
    rcases hall with rfl | hin
    · cases a with
      | none => exact ⟨List.mem_append_left _ h.1, List.mem_append_left _ h.2⟩
      | some states => exact ⟨List.mem_append_left _ h.1, last⟩
    · rw [next_passed hin]
      exact ⟨List.mem_append_left _ h.1, List.mem_append_left _ h.2⟩

end Gate

theorem lookup_entitled {cfg : Config} {ok : System → Action → Prop} {as : List Action} {s : System}
    (hrun : Runs.Run (machine cfg).step ok { shared := {} } as s) {x : LogEntry Op.Ans Tid}
    (hx : x ∈ s.log) {key : Key} (hkey : x.event.1 = .listerGet key) :
    x.tid = .worker key ∧ x.trace = [] ∨
      ∃ ref states, ⟨.scopeSynced ref, true⟩ ∈ x.trace ∧ ⟨.lastKnownStates ref, some states⟩ ∈ x.trace ∧
        ref.Names states key := by
  have hb := (Gate.safe cfg).trace_invariant (B := fun t p tr => p.Backed t tr) hrun
    (fun t => by cases t <;> trivial) fun s tid i o tr s' a _ _ hall _ h => h.next hall
  obtain ⟨hall, hback⟩ := hb.2 x hx
  generalize Gate.protocol.after (Gate.start x.tid) x.trace = p at hall hback
  rw [hkey] at hall
  cases p with
  | unread key' =>
    cases hall
    exact .inl hback
  | seek | told => exact (hall.resolve_left (by simp) id).elim
  | passed ref states => exact .inr ⟨ref, states, hback.1, hback.2,
      not_not.mp (hall.resolve_left (by simp))⟩
  | shut => exact (hall id).elim

end Kuberecord
