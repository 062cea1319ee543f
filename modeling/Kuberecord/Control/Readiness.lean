import Kuberecord.Control.Plans

namespace Kuberecord.Control

open Threads

variable {Sel : Type}

theorem findCondition_apply (w : StatusWriter) (existing : List Condition) (t : ConditionType) :
    findCondition (w.apply existing) t = (findCondition w.conditions t).or
      (findCondition existing t) := by
  obtain ⟨conditions, generation, nodup⟩ := w
  simp only [StatusWriter.apply]
  induction conditions generalizing existing with
  | nil => rfl
  | cons c rest ih =>
    rw [List.map_cons, List.nodup_cons] at nodup
    rw [List.foldl_cons, ih _ nodup.2]
    by_cases ht : c.type = t
    · have hnone : findCondition rest t = none :=
        List.find?_eq_none.mpr fun c' hc' he => nodup.1 (List.mem_map.mpr ⟨c', hc', by
          rw [ht]
          simpa using he⟩)
      rw [hnone, ← ht, findCondition_set_self, findCondition, List.find?_cons_of_pos (by simp)]
      rfl
    · rw [findCondition_set_of_ne (Ne.symm ht), findCondition, findCondition, findCondition,
        List.find?_cons_of_neg (by simpa using ht)]

theorem ready_written (w : StatusWriter) (verdict : Option SinkVerdict) (existing : List Condition) :
    ∃ c, findCondition ((w.rolledUp verdict).apply existing) .ready = some c ∧
      c.status = (readyCondition w verdict).status := by
  obtain ⟨c, hc, hs⟩ : (w.rolledUp verdict).Says .ready (readyCondition w verdict).status :=
    StatusWriter.says_set
  refine ⟨c, ?_, hs⟩
  rw [findCondition_apply, hc]
  rfl

def ClickHouseSink.Ready (chSink : ClickHouseSink) : Prop :=
  ∃ c, findCondition chSink.conditions .ready = some c ∧ c.status = .conditionTrue

theorem judgeSink_none {lib : ControlLib Sel} {name : String} {chSink : ClickHouseSink}
    (h : judgeSink lib name chSink = none) : chSink.Ready := by
  unfold judgeSink at h
  split at h
  · cases h
  · rename_i c hc
    refine ⟨c, hc, ?_⟩
    by_contra hne
    rw [if_pos hne] at h
    cases h

theorem gateStatus_true {failures : List String} (h : gateStatus failures = .conditionTrue) :
    failures = [] := by
  unfold gateStatus at h
  split_ifs at h with hf
  exact hf

section

variable {lib : ControlLib Sel} {kind : RuleKind} {req : NamespacedName} {obj : Rule Sel}
  {tr : Trace Sel}
  {w₀ w w' : StatusWriter} {outcome : PlanOutcome}

theorem rolled_up_true (hplan : Planned lib kind obj tr w₀ outcome w)
    (hinst : Installed (ruleKey kind req) tr outcome w w')
    (hready : (readyCondition w' outcome.verdict).status = .conditionTrue)
    (hget : ∀ err, ¬ tr.Has (.getSink obj.sinkRef) (.error (.failed err))) :
    ∃ chSink namespaces resolution reviewed,
      Survey lib kind obj tr chSink namespaces resolution reviewed ∧
      chSink.Ready ∧ resolution.failures = [] ∧ reviewed.denials = [] ∧
      tr.Has (.upsert (ruleKey kind req) reviewed.targets) (.ok ()) ∧
      ∀ t ∈ ruleReadyOrder, w'.Says t .conditionTrue := by
  have hnone : outcome.verdict = none := by
    cases hv : outcome.verdict with
    | none => rfl
    | some v => simp [hv, readyCondition] at hready
  rw [hnone] at hready
  have htrue {t : ConditionType} {status : ConditionStatus} (ht : t ∈ ruleReadyOrder)
    (hs : w'.Says t status) :
      status = .conditionTrue := readyFor_true hready ht hs
  have hinstalled (hi : outcome.install = true) :
      w' = w ∧ tr.Has (.upsert (ruleKey kind req) outcome.targets) (.ok ()) := by
    cases hinst with
    | kept h => simp [hi] at h
    | replaced _ ht => exact ⟨rfl, ht⟩
    | refused err => cases htrue (t := .resourceResolved) (by decide) StatusWriter.says_set
  cases hplan with
  | sinkFailed err text h => exact absurd h (hget err)
  | sinkMissing v => cases hnone
  | denied _ _ _ _ _ hw | namespacesInvalid _ _ _ _ _ _ hw =>
    obtain ⟨rfl, -⟩ := hinstalled rfl
    cases htrue (by decide) hw
  | namespacesUnavailable _ err _ _ _ hw | reviewFailed _ err _ _ _ hw =>
    cases hinst with
    | kept => cases htrue (by decide) hw
    | replaced h | refused _ h => cases h
  | surveyed chSink namespaces resolution reviewed _ hsurvey hpol hres hrbac =>
    obtain ⟨rfl, hup⟩ := hinstalled rfl
    have hfail := htrue (by decide) hres
    have hdeny := htrue (by decide) hrbac
    refine ⟨chSink, namespaces, resolution, reviewed, hsurvey, judgeSink_none hnone,
      gateStatus_true hfail,
      gateStatus_true hdeny, hup, fun t ht => ?_⟩
    simp only [ruleReadyOrder, List.mem_cons, List.not_mem_nil, or_false] at ht
    rcases ht with rfl | rfl | rfl
    · exact hpol
    · exact hfail ▸ hres
    · exact hdeny ▸ hrbac

theorem Planned.of_sinkFailed (hplan : Planned lib kind obj tr w₀ outcome w)
    (hinst : Installed (ruleKey kind req) tr outcome w w')
    (hsink : ∀ a, tr.Has (.getSink obj.sinkRef) a → ∃ err, a = .error (.failed err)) :
    w' = w₀ ∧ outcome.verdict = none := by
  cases hplan with
  | sinkFailed err text h =>
    cases hinst with
    | kept => exact ⟨rfl, rfl⟩
    | replaced h | refused _ h => cases h
  | sinkMissing _ _ h | denied _ _ _ h | namespacesInvalid _ _ _ h
  | namespacesUnavailable _ _ _ h | reviewFailed _ _ _ h =>
    obtain ⟨err, he⟩ := hsink _ h
    cases he
  | surveyed _ _ _ _ _ h =>
    obtain ⟨err, he⟩ := hsink _ h.sink
    cases he

end

def RuleStatus.Ready (status : RuleStatus) : Prop :=
  ∃ c, findCondition status.conditions .ready = some c ∧ c.status = .conditionTrue

/--
A status update with Ready=True comes from a pass that has read a ready sink, has passed every gate
for all that the rule names, and has installed what came out of them, unless the sink could not be
read at all.
-/
theorem ready_true_earned {lib : ControlLib Sel} {c₀ : ControlState} {as : List (Action Sel)}
    {s : System Sel}
    (hrun : Runs.Run (controlMachine lib).step (fun _ _ => True) { shared := c₀ } as s)
    {x : LogEntry (Op.Ans Sel) Tid} (hx : x ∈ s.log) {kind : RuleKind} {req : NamespacedName}
    {status : RuleStatus} {a : UpdateAnswer} (he : x.event = ⟨.updateStatus kind req status, a⟩) :
    ((∃ name err, Trace.Has x.trace (.getSink name) (.error (.failed err))) →
      status.Ready ∧ ∀ name chSink, ¬ Trace.Has x.trace (.getSink name) (.ok chSink)) ∧
    (status.Ready → (∀ name err, ¬ Trace.Has x.trace (.getSink name) (.error (.failed err))) →
      ∃ (obj : Rule Sel) (chSink : ClickHouseSink) (namespaces : List Namespace)
        (targets : List Target) (w : StatusWriter) (fresh : List Condition),
      Trace.About x.trace kind req (.ok obj) ∧
      Trace.Has x.trace (.getSink obj.sinkRef) (.ok chSink) ∧ chSink.Ready ∧
      status.conditions = w.apply fresh ∧ (∀ t ∈ ruleReadyOrder, w.Says t .conditionTrue) ∧
      checkPolicy obj.resources chSink.policy = none ∧
      Expanded lib kind obj x.trace (.ok namespaces) ∧
      (∀ res ∈ obj.resources, ∃ r, Vetted lib kind.scope namespaces x.trace res r ∧
        ∀ ns ∈ r.namespaces, Granted x.trace r.gvr ns ∧
          targetOf obj.sinkRef
            (canonicalRedaction lib.quoting chSink.policy.redaction obj.extraRedaction)
            (r, ns) ∈ targets) ∧
      Trace.Has x.trace (.upsert (ruleKey kind req) targets) (.ok ())) := by
  have hs : Sanctioned lib x.trace x.event.1 := (control_safe lib).chronicled hrun x hx
  rw [he] at hs
  obtain ⟨obj, outcome, w, w', fresh, habout, hplan, hinst, hcond⟩ := hs
  obtain ⟨c', hc', hrolled⟩ := ready_written w' outcome.verdict fresh
  refine ⟨fun ⟨name, err, hfailed⟩ => ?_, fun ⟨c, hc, hstatus⟩ hget => ?_⟩
  · obtain ⟨rfl, hnone⟩ := hplan.of_sinkFailed hinst fun a ha => ⟨err, getSink_unique hrun hx ha hfailed⟩
    refine ⟨⟨c', hcond ▸ hc', ?_⟩, fun name' chSink hok => ?_⟩
    · rw [hrolled, hnone]
      rfl
    · cases getSink_unique hrun hx hok hfailed
  rw [hcond, hc'] at hc
  cases hc
  obtain ⟨chSink, namespaces, resolution, reviewed, hsurvey, hsink, hfail, hdeny, hup, hdecided⟩ :=
    rolled_up_true hplan hinst (hrolled ▸ hstatus) (hget obj.sinkRef)
  refine ⟨obj, chSink, namespaces, reviewed.targets, w'.rolledUp outcome.verdict, fresh, habout,
    hsurvey.sink, hsink, hcond,
    fun t ht => (hdecided t ht).set ?_, hsurvey.policy, hsurvey.expanded, fun res hres => ?_, hup⟩
  · rintro rfl
    simp [ruleReadyOrder] at ht
  · obtain ⟨r, hr, hv⟩ : ∃ r ∈ resolution.resolved, Vetted lib kind.scope namespaces x.trace res r :=
      (hsurvey.vets.complete res hres).resolve_right fun h => h.2 hfail
    refine ⟨r, hv, fun ns hns => ?_⟩
    exact (hsurvey.judged.complete (r, ns) (mem_pairsOf.mpr ⟨hr, hns⟩)).resolve_right fun h => h.2 hdeny

def openLib : ControlLib Unit := ⟨fun _ => .ok "", .ok, .verbatim⟩

def podResource : WatchedResource Unit := ⟨coreGroup, "v1", podKind, none⟩

def podMapping : Mapping := ⟨⟨"", "v1", "pods"⟩, true, by decide⟩

def podRequest : NamespacedName := ⟨namespaceA, "pods"⟩

def podRule : Rule Unit where
  ns := namespaceA
  generation := 1
  sinkRef := "s"
  resources := [podResource]

def readySink : ClickHouseSink := ⟨{}, [⟨.ready, .conditionTrue, .other "Connected", "", 1⟩]⟩

def passSteps (inputs : List (Input Unit)) : List (Action Unit) :=
  [.start (.reconciler .streamRule podRequest) .reconcile] ++
    inputs.map (.exec (.reconciler .streamRule podRequest)) ++
    [.finish (.reconciler .streamRule podRequest)]

def statusInputs : List (Input Unit) := [.go, .rule (.ok podRule), .update .updated]

noncomputable def podInputs : List (Input Unit) :=
  [.rule (.ok podRule), .sink (.ok readySink), .time 0, .mapping (.ok podMapping), .go,
    .allowed (.ok true),
    .allowed (.ok true), .allowed (.ok true), .orders (anyOrder Target) (anyOrder Target)] ++
    statusInputs

def writesReady (x : LogEntry (Op.Ans Unit) Tid) : Bool :=
  match x.event with
  | ⟨.updateStatus _ _ status, _⟩ =>
    (findCondition status.conditions .ready).any (·.status = .conditionTrue)
  | _ => false

theorem writesReady_event {x : LogEntry (Op.Ans Unit) Tid} (h : writesReady x = true) :
    ∃ kind req status a, x.event = ⟨.updateStatus kind req status, a⟩ ∧
      status.Ready := by
  obtain ⟨tid, tr, o, a⟩ := x
  cases o with
  | updateStatus kind req status =>
    obtain ⟨c, hc, hs⟩ := (Option.any_eq_true _ _).mp h
    exact ⟨kind, req, status, a, rfl, c, hc, by simpa using hs⟩
  | _ => cases h

def readsSink (e : Sigma (Op.Ans Unit)) : Bool :=
  match e with
  | ⟨.getSink _, .ok _⟩ => true
  | _ => false

def sinkFails (e : Sigma (Op.Ans Unit)) : Bool :=
  match e with
  | ⟨.getSink _, .error (.failed _)⟩ => true
  | _ => false

theorem pods_ready : ∃ (kind : RuleKind) (req : NamespacedName) (obj : Rule Unit)
    (chSink : ClickHouseSink) (targets : List Target) (tr : Trace Unit),
    tr.About kind req (.ok obj) ∧ tr.Has (.getSink obj.sinkRef) (.ok chSink) ∧ chSink.Ready ∧
      tr.Has (.upsert (ruleKey kind req) targets) (.ok ()) := by
  obtain ⟨s, hrun, x, hx, hready, htrace⟩ :=
    Runs.Run.exists_of_exec (controlMachine openLib).step (fun _ _ => True)
    { shared := {} } (passSteps podInputs)
    (fun s => ∃ x ∈ s.log, writesReady x = true ∧ ∀ e ∈ x.trace, sinkFails e = false) (by decide)
  obtain ⟨kind, req, status, a, he, hc⟩ := writesReady_event hready
  obtain ⟨obj, chSink, -, targets, -, -, habout, hsink, hr, -, -, -, -, -, hup⟩ :=
    (ready_true_earned hrun hx he).2 hc fun name err h => by simpa [sinkFails] using htrace _ h
  exact ⟨kind, req, obj, chSink, targets, x.trace, habout, hsink, hr, hup⟩

/--
The sink cannot be read: `plan` returns before any condition is set, and nothing is the matter with
no condition.
-/
theorem unread_sink_reported_ready : ∃ (as : List (Action Unit))
    (s : System Unit) (x : LogEntry (Op.Ans Unit) Tid) (kind : RuleKind)
    (req : NamespacedName) (status : RuleStatus) (a : UpdateAnswer),
    Runs.Run (controlMachine openLib).step (fun _ _ => True) { shared := {} } as s ∧ x ∈ s.log ∧
      x.event = ⟨.updateStatus kind req status, a⟩ ∧
      status.Ready ∧
      ∀ name chSink, ¬ Trace.Has x.trace (.getSink name) (.ok chSink) := by
  obtain ⟨s, hrun, x, hx, hready, htrace⟩ :=
    Runs.Run.exists_of_exec (controlMachine openLib).step (fun _ _ => True)
    { shared := {} } (passSteps ([.rule (.ok podRule), .sink (.error (.failed "timeout"))] ++
    statusInputs))
    (fun s => ∃ x ∈ s.log, writesReady x = true ∧ ∀ e ∈ x.trace, readsSink e = false) (by decide)
  obtain ⟨kind, req, status, a, he, hc⟩ := writesReady_event hready
  exact ⟨_, s, x, kind, req, status, a, hrun, hx, he, hc,
    fun name chSink h => by simpa [readsSink] using htrace _ h⟩

end Kuberecord.Control
