import Kuberecord.ProcessTags

namespace Kuberecord

open Threads

inductive Filing
  | silent
  | asking (sink : String)
  | doomed (sink : String) (scope : ScopeKey)
  | dated (sink : String) (scope : ScopeKey) (ts : Nat)
deriving DecidableEq

namespace Filing

def Allowed : Filing → Op → Prop
  | .silent, o => ¬ o.Reports
  | .asking sink, o => ¬ o.Reports ∧ ∀ ref, o = .scopeDesired ref → ref.sink = sink
  | .doomed _ _, o => o = .now
  | .dated sink scope ts, o => o =
      .enqueueScopeEvent sink { action := .stopped, scope := scope, ts := ts }

def next : Filing → (o : Op) → o.Ans → Filing
  | .asking sink, .scopeDesired ref, wanted => if wanted then .asking sink else .doomed sink ref.scope
  | .doomed sink scope, .now, ts => .dated sink scope ts
  | .dated sink _ _, .enqueueScopeEvent _ _, _ => .asking sink
  | p, _, _ => p

def protocol : Protocol Op Op.Ans Filing where
  allowed := Allowed
  next := next

def start : Tid → Filing
  | .boot sink => .asking sink
  | _ => .silent

def OfSink (sink : String) : Filing → Prop
  | .silent => False
  | .asking sink' | .doomed sink' _ | .dated sink' _ _ => sink' = sink

def date (ref : ScopeRef) : Filing → Option Nat
  | .dated sink scope ts => if (⟨sink, scope⟩ : ScopeRef) = ref then some ts else none
  | _ => none

theorem obeys_silent {α : Type} {x : Prog α} (hx : x.Avoids Op.Reports) :
    protocol.Obeys x .silent (fun _ _ => True) :=
  protocol.obeys_of_avoids hx (fun _ ho => ⟨ho, fun _ => rfl⟩) fun _ => trivial

theorem closeScopes_obeys (sink : String) (scopes : List ScopeKey) :
    protocol.Obeys (closeScopes sink scopes) (.asking sink) (fun _ _ => True) := by
  induction scopes with
  | nil => trivial
  | cons scope scopes ih =>
    refine ⟨⟨id, fun _ h => (by cases h; rfl)⟩, fun wanted _ => ?_⟩
    cases wanted with
    | true => exact ih
    | false =>
      refine ⟨rfl, fun ts _ => ⟨rfl, fun accepted _ => ?_⟩⟩
      cases accepted with
      | true => exact ih
      | false => trivial

theorem closeOrphanedScopes_obeys (sink : String) :
    protocol.Obeys (closeOrphanedScopes sink) (.asking sink) (fun _ _ => True) := by
  refine ⟨⟨id, by simp⟩, fun answer _ => ?_⟩
  cases answer with
  | noStateReader | notLive => trivial
  | reader =>
    refine ⟨⟨id, by simp⟩, fun live _ => ?_⟩
    cases live with
    | false => trivial
    | true =>
      refine ⟨⟨id, by simp⟩, fun scopes _ => ?_⟩
      cases scopes with
      | none => trivial
      | some scopes => exact closeScopes_obeys sink scopes

theorem seedScope_avoids (ref : ScopeRef) (n : Nat) : (seedScope ref n).Avoids Op.Reports := by
  refine retry_avoids (fun _ => (readState_avoids (call_avoids id) id).bind fun r => ?_) id n _
  cases r with
  | error e => trivial
  | ok states =>
    refine ⟨id, fun st => ?_⟩
    have hgroups : ((groupByIdentity states).forM (seedGroup ref st)).Avoids Op.Reports :=
      .forM (fun _ => call_avoids id) _
    exact hgroups.bind fun _ => trivial

theorem warm_avoids {cfg : Config} (ref : ScopeRef) (epochStart n : Nat) :
    (warm cfg ref epochStart n).Avoids Op.Reports := by
  refine (seedScope_avoids ref n).bind ?_
  rintro ⟨err, seeded, priors⟩
  dsimp only
  split_ifs
  · trivial
  · exact ⟨id, fun _ => trivial⟩
  · exact ⟨id, fun _ => trivial⟩
  · exact ⟨id, fun _ => (reconcileHistory_avoids epochStart n seeded priors).mono Op.Reports.foreign⟩

theorem safe (cfg : Config) : (machine cfg).Safe protocol start (fun _ _ _ => True) := by
  refine ⟨fun shared t b shared' code h => ?_, fun _ _ _ _ _ _ _ => trivial⟩
  cases t <;> cases b <;> simp only [machine, Kuberecord.start, Option.ite_none_right_eq_some,
    Option.ite_none_left_eq_some, Option.some.injEq, Prod.mk.injEq, reduceCtorEq] at h
  case worker.run key => exact h.2.2 ▸ obeys_silent (process_avoids.mono Op.Reports.foreign)
  case warm.warm id ref epochStart n =>
    exact h.2.2 ▸ obeys_silent ((warm_avoids ref epochStart n).bind fun _ => trivial)
  case boot.run sink => exact h.2.2 ▸ closeOrphanedScopes_obeys sink
  case evict.run ref => exact h.2 ▸ obeys_silent ⟨id, fun _ => ⟨id, fun _ => ⟨id, fun _ => trivial⟩⟩⟩

theorem after_ofSink (sink : String) (tr : List (Sigma Op.Ans)) :
    (protocol.after (.asking sink) tr).OfSink sink := by
  refine protocol.after_induction (I := OfSink sink) rfl fun p o a hp => ?_
  unfold protocol next
  simp only
  split
  · split_ifs <;> exact hp
  · exact hp
  · exact hp
  · exact hp

theorem after_silent (tr : List (Sigma Op.Ans)) : protocol.after .silent tr = .silent := by
  refine protocol.after_induction (I := (· = .silent)) rfl fun p o a hp => ?_
  subst hp
  cases o <;> rfl

end Filing

def Shared.closings (s : Shared) (ref : ScopeRef) : List ScopeEvent :=
  (s.scopeLog.filter fun row => (⟨row.1, row.2.scope⟩ : ScopeRef) = ref).map Prod.snd

theorem exec_scopeLog {s s' : Shared} {tid : Tid} {o : Op} {i : Input} {a : o.Ans}
    (h : exec s tid o i = some (s', a)) :
    s'.scopeLog = s.scopeLog ∨ ∃ sink event,
      (⟨o, a⟩ : Sigma Op.Ans) = ⟨.enqueueScopeEvent sink event, true⟩ ∧
      s'.scopeLog = s.scopeLog ++ [(sink, event)] := by
  cases o <;> cases i <;> simp only [exec, reduceCtorEq] at h
  case enqueueScopeEvent.flag sink event accepted =>
    cases accepted <;> cases h
    · exact .inl rfl
    · exact .inr ⟨sink, event, rfl, rfl⟩
  case enqueue.flag sink job accepted => cases accepted <;> cases h <;> exact .inl rfl
  all_goals
    first
    | cases h
      exact .inl rfl
    | split_ifs at h
      cases h
      exact .inl rfl

theorem exec_clock {s s' : Shared} {tid : Tid} {o : Op} {i : Input} {a : o.Ans}
    (h : exec s tid o i = some (s', a)) :
    s'.clock = s.clock ∨ ∃ ts, o = .now ∧ i = .time ts ∧ s'.clock = ts := by
  cases o <;> cases i <;> simp only [exec, reduceCtorEq] at h
  case now.time ts =>
    cases h
    exact .inr ⟨_, rfl, rfl, rfl⟩
  case enqueue.flag sink job accepted => cases accepted <;> cases h <;> exact .inl rfl
  case enqueueScopeEvent.flag sink event accepted => cases accepted <;> cases h <;> exact .inl rfl
  all_goals
    first
    | cases h
      exact .inl rfl
    | split_ifs at h
      cases h
      exact .inl rfl

theorem start_scopeLog {cfg : Config} {s s' : Shared} {tid : Tid} {b : Boot} {c : Prog (Option Err)}
    (h : start cfg s tid b = some (s', c)) : s'.scopeLog = s.scopeLog ∧ s'.clock = s.clock := by
  cases tid <;> cases b <;> simp only [start, reduceCtorEq] at h
  case evict.run =>
    cases h
    exact ⟨rfl, rfl⟩
  all_goals
    split_ifs at h
    cases h
    exact ⟨rfl, rfl⟩

theorem finish_scopeLog (s : Shared) (tid : Tid) (r : Option Err) :
    (finish s tid r).scopeLog = s.scopeLog ∧ (finish s tid r).clock = s.clock := by
  unfold finish
  split <;> exact ⟨rfl, rfl⟩

theorem callback_scopeLog (s : Shared) (c : Commit) (ok : Bool) :
    (s.callback c ok).scopeLog = s.scopeLog ∧ (s.callback c ok).clock = s.clock := by
  rcases c with ⟨_, _, _, _, _, _ | _⟩ | _ | _ <;> cases ok <;> exact ⟨rfl, rfl⟩

theorem env_scopeLog {s s' : Shared} {e : Env} (h : env s e = some s') :
    s'.scopeLog = s.scopeLog ∧ s'.clock = s.clock := by
  cases e with
  | insert j =>
    simp only [env] at h
    split at h <;> cases h
    exact ⟨rfl, rfl⟩
  | settle j ok =>
    simp only [env] at h
    split at h
    · split_ifs at h
      cases h
      exact callback_scopeLog _ _ _
    · cases h
  | add | removeSink | stopScope | forgetSink =>
    cases h
    exact ⟨rfl, rfl⟩

theorem Shared.closings_eq {s s' : Shared} (h : s'.scopeLog = s.scopeLog) (ref : ScopeRef) :
    s'.closings ref = s.closings ref := by
  rw [closings, h, closings]

theorem Shared.closings_append {s s' : Shared} {sink : String} {event : ScopeEvent}
    (h : s'.scopeLog = s.scopeLog ++ [(sink, event)]) (ref : ScopeRef) :
    s'.closings ref = s.closings ref ++ if (⟨sink, event.scope⟩ : ScopeRef) = ref then
      [event] else [] := by
  by_cases hr : (⟨sink, event.scope⟩ : ScopeRef) = ref <;> simp [closings, h, hr]

theorem Filing.allowed_reports {t : Tid} {tr : List (Sigma Op.Ans)} {sink : String} {event : ScopeEvent}
    (h : protocol.allowed (protocol.after (start t) tr) (.enqueueScopeEvent sink event)) :
    t = .boot sink ∧ event.action = .stopped ∧ protocol.after
      (start t) tr = .dated sink event.scope event.ts := by
  cases t with
  | boot sink' =>
    have hsink := after_ofSink sink' tr
    simp only [start] at h ⊢
    generalize protocol.after (.asking sink') tr = p at h hsink
    cases p with
    | silent => exact hsink.elim
    | asking => exact absurd trivial h.1
    | doomed => cases h
    | dated =>
      cases h
      cases hsink
      exact ⟨rfl, rfl, rfl⟩
  | worker | warm | evict =>
    simp only [start, after_silent] at h
    exact absurd trivial h

def filings (v : View Op.Ans Tid Shared Filing) (ref : ScopeRef) : List Nat :=
  (v.shared.closings ref).map ScopeEvent.ts ++ ((v.phase (.boot ref.sink)).bind (Filing.date ref)).toList

section

variable {cfg : Config} {v v' : View Op.Ans Tid Shared Filing} {d : Deed} {ref : ScopeRef}

theorem filings_sublist (hlog : v'.shared.closings ref = v.shared.closings ref)
    (hp : (v'.phase (.boot ref.sink)).bind (Filing.date ref) = none ∨
      v'.phase (.boot ref.sink) = v.phase (.boot ref.sink)) : (filings v' ref).Sublist
        (filings v ref) := by
  rw [filings, hlog, filings]
  rcases hp with hp | hp
  · rw [hp]
    exact List.Sublist.append_left (List.nil_sublist _) _
  · rw [hp]

theorem closings_move (ref : ScopeRef)
    (h : (machine cfg).Move Filing.protocol Filing.start (fun _ _ _ => True) v d v') (hd : d ≠ .crash) :
    v'.shared.closings ref = v.shared.closings ref ∨
      ∃ event, event.action = .stopped ∧ v.phase (.boot ref.sink) = some
        (.dated ref.sink ref.scope event.ts) ∧
        v'.phase (.boot ref.sink) = some (.asking ref.sink) ∧
          v'.shared.closings ref = v.shared.closings ref ++ [event] := by
  cases h with
  | start t b shared code hn hs => exact .inl (Shared.closings_eq (start_scopeLog hs).1 ref)
  | finish t a p => exact .inl (Shared.closings_eq (finish_scopeLog _ t a).1 ref)
  | env e shared he => exact .inl (Shared.closings_eq (env_scopeLog he).1 ref)
  | crash => exact absurd rfl hd
  | exec t i o tr shared a hq hall _ hx =>
    rcases exec_scopeLog hx with hlog | ⟨sink, event, heq, hlog⟩
    · exact .inl (Shared.closings_eq hlog ref)
    · cases heq
      obtain ⟨rfl, hact, hphase⟩ := Filing.allowed_reports hall
      have hclosings := Shared.closings_append hlog ref
      by_cases hr : (⟨sink, event.scope⟩ : ScopeRef) = ref
      · subst hr
        rw [if_pos rfl] at hclosings
        refine .inr ⟨event, hact, hphase ▸ hq, ?_, hclosings⟩
        rw [hphase]
        exact Function.update_self ..
      · rw [if_neg hr, List.append_nil] at hclosings
        exact .inl hclosings

theorem Filing.date_next {p : Filing} {o : Op} {a : o.Ans} {ts : Nat} (hall : Allowed p o)
    (h : (next p o a).date ref = some ts) :
    p = .doomed ref.sink ref.scope ∧ (⟨o, a⟩ : Sigma Op.Ans) = ⟨.now, ts⟩ := by
  cases p with
  | silent => cases o <;> cases h
  | asking sink =>
    cases o with
    | scopeDesired ref' =>
      simp only [next] at h
      split_ifs at h <;> cases h
    | _ => cases h
  | doomed sink scope =>
    cases hall
    simp only [next, date, Option.ite_none_right_eq_some, Option.some.injEq] at h
    obtain ⟨rfl, rfl⟩ := h
    exact ⟨rfl, rfl⟩
  | dated sink scope ts' =>
    cases hall
    cases h

theorem filings_move (ref : ScopeRef)
    (h : (machine cfg).Move Filing.protocol Filing.start (fun _ _ _ => True) v d v') (hd : d ≠ .crash) :
    (filings v' ref).Sublist (filings v ref) ∨
      ∃ ts, d = .exec (.boot ref.sink) (.now, .time ts) ∧
        v.phase (.boot ref.sink) = some (.doomed ref.sink ref.scope) ∧
          filings v' ref = filings v ref ++ [ts] := by
  rcases closings_move ref h hd with hlog | ⟨event, -, hp, hp', hlog⟩
  · cases hp' : v'.phase (.boot ref.sink) with
    | none => exact .inl (filings_sublist hlog (.inl (by rw [hp']; rfl)))
    | some p =>
      rcases h.phase_cases hp' with hsame | ⟨b, -, rfl⟩ | ⟨tr, o, i, a, rfl, hq, hall, hx, rfl⟩
      · exact .inl (filings_sublist hlog (.inr (hp'.trans hsame.symm)))
      · exact .inl (filings_sublist hlog (.inl (by rw [hp']; rfl)))
      · cases hdate : (Filing.next (Filing.protocol.after (.asking ref.sink) tr) o a).date ref with
        | none => exact .inl (filings_sublist hlog (.inl (by rw [hp']; exact hdate)))
        | some ts =>
          obtain ⟨hdoomed, heq⟩ := Filing.date_next hall hdate
          cases heq
          have hi : i = .time ts := by
            cases i <;> simp only [machine, exec, reduceCtorEq, Option.some.injEq, Prod.mk.injEq] at hx
            rw [hx.2]
          subst hi
          have hq' : v.phase (.boot ref.sink) = some (.doomed ref.sink ref.scope) := hdoomed ▸ hq
          refine .inr ⟨ts, rfl, hq', ?_⟩
          rw [filings, hlog, hp', filings, hq']
          simp only [Option.bind_some, Filing.date, Option.toList_none, List.append_nil]
          exact congrArg (fun o : Option Nat => _ ++ o.toList) hdate
  · refine .inl ?_
    rw [filings, hlog, hp', filings, hp]
    simp [Filing.date]

end

end Kuberecord
