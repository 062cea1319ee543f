import Kuberecord.Control.Readiness
import Kuberecord.Control.SinkReconcile

namespace Kuberecord.SinkControl

open Threads

open Control (Condition ConditionStatus ConditionType GetError NamespacedName Reason Reconciled
    StatusWriter UpdateAnswer
  findCondition readyFor defaultRetrySteps findCondition_set_self findCondition_set_of_ne
  findCondition_apply)

variable {Spec Cfg : Type}

abbrev Trace (Spec Cfg : Type) := List (Sigma (@Op.Ans Cfg Spec))

def Trace.Has (tr : Trace Spec Cfg) (o : Op Cfg) (a : o.Ans Spec) : Prop :=
  (⟨o, a⟩ : Sigma (Op.Ans Spec)) ∈ tr

theorem Trace.Has.mono {tr tr' : Trace Spec Cfg} {o : Op Cfg} {a : o.Ans Spec} (h : tr.Has o a)
    (hp : tr <+: tr') :
    tr'.Has o a := hp.subset h

theorem Trace.has_snoc (tr : Trace Spec Cfg) (o : Op Cfg) (a : o.Ans Spec) :
    Trace.Has (tr ++ [⟨o, a⟩]) o a := by
  simp [Trace.Has]

def passwordIn : Except GetError (List (String × String)) → Option String
  | .ok data => (data.lookup defaultCredentialsSecretKey).filter (· ≠ "")
  | .error _ => none

def Reads (lib : SinkControlLib Spec Cfg) (tr : Trace Spec Cfg) (chSink : SinkObject Spec)
    (password : Option String) :
    Prop :=
  ∃ answer, tr.Has (.getSecret (secretRef lib chSink)) answer ∧ passwordIn answer = password

structure Declared (lib : SinkControlLib Spec Cfg) (tr : Trace Spec Cfg) (name : String)
    (chSink : SinkObject Spec) (password : String) (cfg : Cfg) : Prop where
  sink : tr.Has (.getSink name) (.ok chSink)
  secret : Reads lib tr chSink (some password)
  built : lib.buildConfig name chSink.spec password = .ok (some cfg)

def readyStatus : Option String → Option ProbeResult → ConditionStatus
  | none, _ => .conditionFalse
  | some _, none => .conditionUnknown
  | some _, some result => if result.err = none then .conditionTrue else .conditionFalse

structure Learned (lib : SinkControlLib Spec Cfg) (tr : Trace Spec Cfg) (name : String)
    (chSink : SinkObject Spec) (password : Option String) (probe : Option ProbeResult) :
    Prop where
  sink : tr.Has (.getSink name) (.ok chSink)
  secret : Reads lib tr chSink password
  accepted : ∀ p ∈ password, ∃ cfg, Declared lib tr name chSink p cfg ∧
    tr.Has (.ensure name cfg) (.ok ())
  probed : password ≠ none → tr.Has (.latest name) probe

def Reported (lib : SinkControlLib Spec Cfg) (tr : Trace Spec Cfg) (name : String)
    (status : SinkStatus) : Prop :=
  ∃ chSink password probe c, Learned lib tr name chSink password probe ∧
    findCondition status.conditions .ready = some c ∧ c.status = readyStatus password probe ∧
    c.observedGeneration = chSink.generation ∧ status.observedGeneration = chSink.generation

def Changed (tr : Trace Spec Cfg) (name : String) (event : ReadyEvent) : Prop :=
  ∃ chSink status c, tr.Has (.getSink name) (.ok chSink) ∧ tr.Has (.updateStatus name status) .updated ∧
    findCondition status.conditions .ready = some c ∧
    readyEvent (findCondition chSink.conditions .ready) c = some event

def Justified (lib : SinkControlLib Spec Cfg) (tr : Trace Spec Cfg) : Op Cfg → Prop
  | .ensure name cfg => ∃ chSink password, Declared lib tr name chSink password cfg
  | .delete name => tr.Has (.getSink name) (.error .notFound)
  | .updateStatus name status => Reported lib tr name status
  | .event name event => Changed tr name event
  | _ => True

section

variable {lib : SinkControlLib Spec Cfg} {tr tr' : Trace Spec Cfg} {name : String}
  {chSink : SinkObject Spec}
  {password : Option String} {probe : Option ProbeResult}

theorem Reads.mono (h : Reads lib tr chSink password) (hp : tr <+: tr') :
    Reads lib tr' chSink password := by
  obtain ⟨answer, ha, he⟩ := h
  exact ⟨answer, ha.mono hp, he⟩

theorem Declared.mono {pw : String} {cfg : Cfg} (h : Declared lib tr name chSink pw cfg)
    (hp : tr <+: tr') :
    Declared lib tr' name chSink pw cfg := ⟨h.sink.mono hp, h.secret.mono hp, h.built⟩

theorem Learned.mono (h : Learned lib tr name chSink password probe) (hp : tr <+: tr') :
    Learned lib tr' name chSink password probe where
  sink := h.sink.mono hp
  secret := h.secret.mono hp
  accepted p hm := by
    obtain ⟨cfg, hd, he⟩ := h.accepted p hm
    exact ⟨cfg, hd.mono hp, he.mono hp⟩
  probed hne := (h.probed hne).mono hp

def rollUp (w : StatusWriter) : Condition :=
  readyFor w .ready sinkReadyOrder reasonConnected
    "ClickHouse is reachable, authenticated and carries the expected schema"

theorem rollUp_status {w : StatusWriter} {cred schema : Condition}
    (hc : findCondition w.conditions .credentialsResolved = some cred)
    (hs : findCondition w.conditions .schemaValid = some schema) :
    (rollUp w).status =
      if cred.status ≠ .conditionTrue then
        if cred.status = .conditionUnknown ∧ cred.reason = .unreachable then .conditionFalse else
          cred.status
      else if schema.status ≠ .conditionTrue then
        if schema.status = .conditionUnknown ∧
          schema.reason = .unreachable then .conditionFalse else schema.status
      else .conditionTrue := by
  unfold rollUp readyFor sinkReadyOrder
  by_cases h₁ : cred.status = .conditionTrue
  · by_cases h₂ : schema.status = .conditionTrue
    · simp [hc, hs, h₁, h₂]
    · simp [hc, hs, h₁, h₂, Option.filter]
  · simp [hc, h₁, Option.filter]

theorem rollUp_generation (w : StatusWriter) : (rollUp w).observedGeneration = w.generation := by
  unfold rollUp readyFor
  split <;> rfl

theorem rolledUp_spec (password : Option String) (probe : Option ProbeResult) {w : StatusWriter}
    {cred : Condition} (hc : findCondition w.conditions .credentialsResolved = some cred)
    (hcred : cred.status = if password = none then .conditionFalse else .conditionTrue)
    (verdict : Verdict) (hv : password ≠ none → verdict = schemaVerdict probe) :
    (rollUp (w.set .schemaValid verdict.status verdict.reason verdict.message)).status =
    readyStatus password probe := by
  have hc' : findCondition (w.set .schemaValid verdict.status verdict.reason verdict.message).conditions
      .credentialsResolved = some cred := (findCondition_set_of_ne (by simp)).trans hc
  rw [rollUp_status hc' findCondition_set_self]
  cases password with
  | none => simp [hcred, readyStatus]
  | some pw =>
    rw [hv (by simp)]
    simp only [hcred, readyStatus, reduceCtorEq, if_false, ne_eq, not_true_eq_false]
    cases probe with
    | none => simp [schemaVerdict, reasonProbePending]
    | some result =>
      cases herr : result.err with
      | none => simp [schemaVerdict, herr]
      | some err =>
        by_cases hinvalid : result.reason = probeReasonSchemaInvalid
        · simp [schemaVerdict, herr, hinvalid]
        · simp [schemaVerdict, herr, hinvalid]

theorem resolveCredential_spec (chSink : SinkObject Spec) :
    (chronicle (Justified lib)).Obeys
    (resolveCredential lib chSink) tr fun r tr' => Reads lib tr' chSink r.toOption := by
  refine ⟨trivial, fun answer _ => ?_⟩
  have hread : Reads lib (tr ++ [⟨.getSecret (secretRef lib chSink), answer⟩]) chSink
    (passwordIn answer) :=
    ⟨answer, Trace.has_snoc .., rfl⟩
  rcases answer with (_ | _) | data
  · exact hread
  · exact hread
  · simp only [passwordIn] at hread
    simp only [Program.bind]
    split
    · next h =>
      rw [h] at hread
      exact hread
    · next h =>
      rw [h] at hread
      exact hread

theorem declare_spec {pw : String} (hsink : tr.Has (.getSink name) (.ok chSink))
    (hread : Reads lib tr chSink (some pw)) :
    (chronicle (Justified lib)).Obeys (declare lib name chSink pw) tr fun r (tr' : Trace Spec Cfg) =>
      r = .ok () → ∃ cfg, Declared lib tr' name chSink pw cfg ∧ tr'.Has (.ensure name cfg) (.ok ()) := by
  unfold declare
  split
  · exact nofun
  · exact nofun
  · next cfg hbuilt =>
    have hdecl : Declared lib tr name chSink pw cfg := ⟨hsink, hread, hbuilt⟩
    refine ⟨⟨chSink, pw, hdecl⟩, fun answer _ hok => ?_⟩
    subst hok
    exact ⟨cfg, hdecl.mono (List.prefix_append ..), Trace.has_snoc ..⟩

structure Concluded (w : StatusWriter) (ready : Condition) (chSink : SinkObject Spec)
    (password : Option String) (probe : Option ProbeResult) : Prop where
  rollUp : findCondition w.conditions .ready = some ready
  status : ready.status = readyStatus password probe
  observed : ready.observedGeneration = chSink.generation
  generation : w.generation = chSink.generation

theorem Concluded.find {w : StatusWriter} {ready : Condition}
    (h : Concluded w ready chSink password probe) (existing : List Condition) :
    findCondition (w.apply existing) .ready = some ready := by
  rw [findCondition_apply, h.rollUp]
  rfl

theorem updateStatus_spec {w : StatusWriter} {ready : Condition}
    (hl : Learned lib tr name chSink password probe)
    (hw : Concluded w ready chSink password probe) (attempts : Nat) :
    (chronicle (Justified lib)).Obeys
      (Control.updateStatus (call (.getSink name)) (fun status => call (.updateStatus name status))
        (fun fresh => ⟨w.apply fresh.conditions, w.generation⟩) (attempts + 1)) tr
      fun r (tr' : Trace Spec Cfg) => r = .ok () →
        ∃ status : SinkStatus, tr'.Has (.updateStatus name status) .updated ∧
        findCondition status.conditions .ready = some ready := by
  induction attempts using Nat.strong_induction_on generalizing tr with
  | h attempts ih =>
    refine ⟨trivial, fun answer _ => ?_⟩
    rcases answer with (_ | _) | fresh
    · exact nofun
    · exact nofun
    · refine ⟨⟨chSink, password, probe, ready, hl.mono (List.prefix_append ..), hw.find _,
        hw.status, hw.observed,
        hw.generation⟩, fun answer _ => ?_⟩
      cases answer with
      | updated => exact fun _ => ⟨_, Trace.has_snoc .., hw.find _⟩
      | failed => exact nofun
      | conflict =>
        cases attempts with
        | zero => exact nofun
        | succ m => exact ih m (Nat.lt_succ_self m) ((hl.mono (List.prefix_append ..)).mono (List.prefix_append ..))

theorem conclude_spec {w : StatusWriter} (hl : Learned lib tr name chSink password probe)
    (hgen : w.generation = chSink.generation) (hready : (rollUp w).status = readyStatus password probe) :
    (chronicle (Justified lib)).Obeys (conclude lib name chSink w) tr fun _ _ => True := by
  set ready := rollUp w with hdef
  have hobserved : ready.observedGeneration = w.generation := rollUp_generation w
  have htype : ready = ⟨.ready, ready.status, ready.reason, ready.message, w.generation⟩ := by
    rw [← hobserved]
    have : ready.type = .ready := by
      rw [hdef]
      unfold rollUp readyFor
      split <;> rfl
    rw [← this]
  have hw : Concluded (w.set .ready ready.status ready.reason ready.message) ready chSink
    password probe :=
    ⟨htype ▸ findCondition_set_self, hready, hobserved.trans hgen, hgen⟩
  refine ((updateStatus_spec hl hw 4).grows).bind _ fun r tr' ⟨hr, hp⟩ => ?_
  rcases r with err | ⟨⟩
  · trivial
  · obtain ⟨status, hupdated, hfind⟩ := hr rfl
    dsimp only
    rw [← rollUp, ← hdef]
    cases hev : readyEvent (findCondition chSink.conditions .ready) ready with
    | none => trivial
    | some event => exact ⟨⟨chSink, status, ready, hl.sink.mono hp, hupdated, hfind, hev⟩,
        fun _ _ => trivial⟩

theorem reconcile_spec (lib : SinkControlLib Spec Cfg) (name : String) :
    (chronicle (Justified lib)).Obeys (reconcile lib name) [] fun _ _ => True := by
  refine ⟨trivial, fun answer _ => ?_⟩
  rcases answer with (_ | _) | chSink
  · refine ⟨trivial, fun _ _ => ⟨?_, fun _ _ => trivial⟩⟩
    exact (Trace.has_snoc ..).mono (List.prefix_append ..)
  · trivial
  · have hsink := Trace.has_snoc [] (.getSink name : Op Cfg)
      (.ok chSink : Except GetError (SinkObject Spec))
    refine ((resolveCredential_spec chSink).grows).bind _ fun r tr₁ ⟨hread, hp₁⟩ => ?_
    have hsink := hsink.mono hp₁
    rcases r with credErr | password
    · have hl : Learned lib tr₁ name chSink none none := ⟨hsink, hread, nofun, fun h => absurd rfl h⟩
      refine conclude_spec hl rfl ?_
      exact rolledUp_spec none none findCondition_set_self rfl ⟨_, _, _⟩ fun h => absurd rfl h
    · refine ((declare_spec hsink hread).grows).bind _ fun r tr₂ ⟨hdecl, hp₂⟩ => ?_
      rcases r with err | ⟨⟩
      · trivial
      · refine ⟨trivial, fun probe _ => ?_⟩
        have hlast : tr₂ <+: tr₂ ++ [⟨.latest name, probe⟩] := List.prefix_append ..
        have hl : Learned lib (tr₂ ++ [⟨.latest name, probe⟩]) name chSink (some password) probe := by
          refine ⟨(hsink.mono hp₂).mono hlast, (hread.mono hp₂).mono hlast, ?_,
            fun _ => Trace.has_snoc ..⟩
          rintro p ⟨⟩
          obtain ⟨cfg, hd, he⟩ := hdecl rfl
          exact ⟨cfg, hd.mono hlast, he.mono hlast⟩
        exact conclude_spec hl rfl (rolledUp_spec (some password) probe findCondition_set_self rfl _
          fun _ => rfl)

end

theorem sinks_safe (lib : SinkControlLib Spec Cfg) :
    (sinkMachine lib).Safe (chronicle (Justified lib)) (fun _ => []) fun _ _ _ => True where
  start shared name b shared' code h := by
    cases h
    exact reconcile_spec lib name
  answers _ _ _ _ _ _ _ := trivial

def writesReady (x : LogEntry (@Op.Ans String Unit) String) : Bool :=
  match x.event with
  | ⟨.updateStatus _ status, _⟩ =>
    (findCondition status.conditions .ready).any (·.status = .conditionTrue)
  | _ => false

theorem writesReady_event {x : LogEntry (@Op.Ans String Unit) String} (h : writesReady x = true) :
    ∃ name status, x.event.1 = .updateStatus name status ∧
      ∃ c, findCondition status.conditions .ready = some c ∧ c.status = .conditionTrue := by
  obtain ⟨tid, tr, o, a⟩ := x
  cases o with
  | updateStatus name status =>
    obtain ⟨c, hc, hs⟩ := (Option.any_eq_true _ _).mp h
    exact ⟨name, status, rfl, c, hc, by simpa using hs⟩
  | _ => cases h

end Kuberecord.SinkControl
