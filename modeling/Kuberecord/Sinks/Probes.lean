import Kuberecord.Sinks.Routing

namespace Kuberecord

structure ProbeResult where
  sink : String
  time : Nat
  err : Option String := none
  reason : String := ""
  -- the instance that was probed; no operation reads it
  producer : LiveSink
deriving DecidableEq

def probeReasonUnreachable : String := "Unreachable"

def probeReasonSchemaInvalid : String := "SchemaInvalid"

-- the flag says that the error wraps `ErrSchemaInvalid`
abbrev ProbeFailure := Option (String × Bool)

def probe (inst : LiveSink) (time : Nat) : ProbeFailure → ProbeResult
  | none => { sink := inst.name, time := time, producer := inst }
  | some (err, schemaInvalid) =>
    { sink := inst.name
      time := time
      err := some err
      reason := if schemaInvalid then probeReasonSchemaInvalid else probeReasonUnreachable
      producer := inst }

inductive ProbePhase
  | probing
  | probed (result : ProbeResult)
  | posting (result : ProbeResult)
  | waiting
  | ended
deriving DecidableEq

structure ProbeLoop where
  inst : LiveSink
  phase : ProbePhase := .probing
deriving DecidableEq

inductive ProbeMove
  | settle (time : Nat) (failure : ProbeFailure)
  | check
  | post
  | quit
  | wake
deriving DecidableEq

def ProbeLoop.step (done room : Bool) (l : ProbeLoop) :
    ProbeMove → Option (ProbePhase × Option ProbeResult)
  | .settle time failure =>
    if l.phase = .probing then some (.probed (probe l.inst time failure), none) else none
  | .check =>
    match l.phase with
    | .probed result => some (if done then .ended else .posting result, none)
    | _ => none
  | .post =>
    match l.phase with
    | .posting result => if room then some (.waiting, some result) else none
    | _ => none
  | .quit =>
    match l.phase with
    | .posting _ | .waiting => if done then some (.ended, none) else none
    | _ => none
  | .wake => if l.phase = .waiting then some (.probing, none) else none

inductive ProbeLoop.Turn (done : Bool) (l : ProbeLoop) : ProbePhase → Option ProbeResult → Prop
  | settle (time : Nat) (failure : ProbeFailure) : Turn done l (.probed (probe l.inst time failure)) none
  | pass (result : ProbeResult) (hphase : l.phase = .probed result) (hdone : done = false) :
      Turn done l (.posting result) none
  | post (result : ProbeResult) (hphase : l.phase = .posting result) : Turn done l .waiting (some result)
  | stop : Turn done l .ended none
  | wake : Turn done l .probing none

theorem ProbeLoop.step_cases {done room : Bool} {l : ProbeLoop} {move : ProbeMove} {phase : ProbePhase}
    {sent : Option ProbeResult} (h : l.step done room move = some (phase, sent)) :
    l.Turn done phase sent ∧ (∀ result, phase = .posting result → move = .check) := by
  cases move with
  | settle time failure =>
    simp only [step, Option.ite_none_right_eq_some, Option.some.injEq, Prod.mk.injEq] at h
    obtain ⟨-, rfl, rfl⟩ := h
    exact ⟨.settle time failure, fun _ hr => (by cases hr)⟩
  | check =>
    simp only [step] at h
    split at h
    · rename_i result hphase
      simp only [Option.some.injEq, Prod.mk.injEq] at h
      obtain ⟨rfl, rfl⟩ := h
      refine ⟨?_, fun _ _ => rfl⟩
      split_ifs with hdone
      · exact .stop
      · exact .pass result hphase (by simpa using hdone)
    · cases h
  | post =>
    simp only [step] at h
    split at h
    · rename_i result hphase
      simp only [Option.ite_none_right_eq_some, Option.some.injEq, Prod.mk.injEq] at h
      obtain ⟨-, rfl, rfl⟩ := h
      exact ⟨.post result hphase, fun _ hr => (by cases hr)⟩
    · cases h
  | quit =>
    simp only [step] at h
    split at h
    · simp only [Option.ite_none_right_eq_some, Option.some.injEq, Prod.mk.injEq] at h
      obtain ⟨-, rfl, rfl⟩ := h
      exact ⟨.stop, fun _ hr => (by cases hr)⟩
    · simp only [Option.ite_none_right_eq_some, Option.some.injEq, Prod.mk.injEq] at h
      obtain ⟨-, rfl, rfl⟩ := h
      exact ⟨.stop, fun _ hr => (by cases hr)⟩
    · cases h
  | wake =>
    simp only [step, Option.ite_none_right_eq_some, Option.some.injEq, Prod.mk.injEq] at h
    obtain ⟨-, rfl, rfl⟩ := h
    exact ⟨.wake, fun _ hr => (by cases hr)⟩

inductive WatcherPhase
  | idle
  | holding (result : ProbeResult)
  | waking (name : String)
  | stopped
deriving DecidableEq

/--
`deleting` holds the reconcile passes that have forgotten a verdict and have yet to call `Delete`;
`retired` the instances that an `Ensure` or a `Delete` has taken out of the routing table. No
operation reads `retired`.
-/
structure ProbeRuntime (Cfg : Type) where
  manager : SinkManager Cfg := {}
  halted : Bool := false
  cancelled : List LiveSink := []
  loops : List ProbeLoop := []
  channel : List ProbeResult := []
  watcher : WatcherPhase := .idle
  results : String → Option ProbeResult := fun _ => none
  deleting : List String := []
  retired : List LiveSink := []

inductive ProbeStep (Cfg : Type)
  | declare (name : String) (cfg : Cfg) (factory : Except String Unit)
  | forget (name : String)
  | delete (name : String)
  | manager (a : SinkStep Cfg)
  | halt
  | cancel (inst : LiveSink)
  | loop (n : Nat) (move : ProbeMove)
  | receive
  | record
  | woken
  | unwatch

namespace ProbeRuntime

variable {Cfg : Type}

def latest (s : ProbeRuntime Cfg) (name : String) : Option ProbeResult := s.results name

def done (s : ProbeRuntime Cfg) (inst : LiveSink) : Bool := s.halted || s.cancelled.contains inst

def adopt (s : ProbeRuntime Cfg) (m : SinkManager Cfg) : ProbeRuntime Cfg :=
  { s with
    manager := m
    loops := s.loops ++ (m.instances.drop s.manager.instances.length).map fun inst => { inst := inst } }

def displaced (s : ProbeRuntime Cfg) (m : SinkManager Cfg) (name : String) : List LiveSink :=
  (s.manager.live.lookup name).toList.filter fun inst => m.live.lookup name ≠ some inst

def reroute (s : ProbeRuntime Cfg) (m : SinkManager Cfg) (name : String) : ProbeRuntime Cfg :=
  { s.adopt m with retired := s.retired ++ s.displaced m name }

def step (lib : SinkLib Cfg) (resultBuffer : Nat) (s : ProbeRuntime Cfg) :
    ProbeStep Cfg → Option (ProbeRuntime Cfg)
  | .declare name cfg factory => some (s.reroute (s.manager.ensure lib name (some cfg) factory).2 name)
  | .forget name =>
    some { s with results := Function.update s.results name none, deleting := name :: s.deleting }
  | .delete name =>
    if name ∈ s.deleting then
      some { s.reroute (s.manager.delete name) name with deleting := s.deleting.erase name }
    else none
  | .manager (.ensure _ _ _) | .manager (.delete _) => none
  | .manager .shutdown => if s.halted then (s.manager.step lib .shutdown).map s.adopt else none
  | .manager a => (s.manager.step lib a).map s.adopt
  | .halt => some { s with halted := true }
  | .cancel inst =>
    if inst ∈ s.manager.drains then some { s with cancelled := inst :: s.cancelled } else none
  | .loop n move =>
    match s.loops[n]? with
    | some l =>
      (l.step (s.done l.inst) (s.channel.length < resultBuffer) move).map fun (phase, sent) =>
        { s with loops := s.loops.set n { l with phase := phase }, channel := s.channel ++ sent.toList }
    | none => none
  | .receive =>
    match s.watcher, s.channel with
    | .idle, result :: rest => some { s with watcher := .holding result, channel := rest }
    | _, _ => none
  | .record =>
    match s.watcher with
    | .holding result =>
      some { s with
        results := Function.update s.results result.sink (some result)
        watcher := .waking result.sink }
    | _ => none
  | .woken =>
    match s.watcher with
    | .waking _ => some { s with watcher := .idle }
    | _ => none
  | .unwatch =>
    match s.watcher with
    | .idle | .waking _ => if s.halted then some { s with watcher := .stopped } else none
    | _ => none

end ProbeRuntime

def ProbePhase.sending : ProbePhase → Option ProbeResult
  | .posting result => some result
  | _ => none

def WatcherPhase.held : WatcherPhase → Option ProbeResult
  | .holding result => some result
  | _ => none

namespace ProbeRuntime

variable {Cfg : Type} {lib : SinkLib Cfg} {resultBuffer : Nat} {s s' : ProbeRuntime Cfg}

def underway (s : ProbeRuntime Cfg) : List ProbeResult :=
  s.channel ++ s.watcher.held.toList ++ s.loops.filterMap fun l => l.phase.sending

def Traceless (s : ProbeRuntime Cfg) (inst : LiveSink) : Prop :=
  (∀ r ∈ s.results inst.name, r.producer ≠ inst) ∧ ∀ r ∈ s.underway, r.producer ≠ inst

/--
An instance is replaced or deleted only when nothing tells of it any more, and its loop, where it
gets to look at its context after that, finds it cancelled.
-/
def Clear (lib : SinkLib Cfg) (s : ProbeRuntime Cfg) : ProbeStep Cfg → Prop
  | .declare name cfg factory =>
    ∀ inst ∈ s.displaced (s.manager.ensure lib name (some cfg) factory).2 name, s.Traceless inst
  | .delete name => ∀ inst ∈ s.displaced (s.manager.delete name) name, s.Traceless inst
  | .loop n .check => ∀ l ∈ s.loops[n]?, l.inst ∈ s.retired → s.done l.inst = true
  | _ => True

instance (s : ProbeRuntime Cfg) (inst : LiveSink) : Decidable (s.Traceless inst) := by
  unfold Traceless
  infer_instance

instance (lib : SinkLib Cfg) (s : ProbeRuntime Cfg) (a : ProbeStep Cfg) : Decidable (Clear lib s a) := by
  unfold Clear
  split <;> infer_instance

def Vouches (s : ProbeRuntime Cfg) (r : ProbeResult) : Prop :=
  r.sink = r.producer.name ∧ r.producer ∉ s.retired

structure Current (s : ProbeRuntime Cfg) : Prop where
  stored : ∀ name r, s.results name = some r → r.sink = name ∧ s.Vouches r
  underway : ∀ r ∈ s.underway, s.Vouches r
  loops : ∀ l ∈ s.loops, ∀ r, l.phase = .probed r ∨ l.phase = .posting r → r.sink = l.inst.name ∧
    r.producer = l.inst

theorem underway_adopt (s : ProbeRuntime Cfg) (m : SinkManager Cfg) :
    (s.adopt m).underway = s.underway := by
  have hfresh : ∀ insts : List LiveSink,
      (insts.map fun inst => ({ inst := inst } : ProbeLoop)).filterMap (fun l =>
      l.phase.sending) = [] := by
    intro insts
    rw [List.filterMap_map]
    exact List.filterMap_eq_nil_iff.mpr fun _ _ => rfl
  rw [underway, underway, adopt, List.filterMap_append, hfresh, List.append_nil]

theorem Current.adopt (h : s.Current) (m : SinkManager Cfg) : (s.adopt m).Current where
  stored := h.stored
  underway r hr := by
    rw [underway_adopt] at hr
    exact h.underway r hr
  loops l hl r hr := by
    rcases List.mem_append.mp hl with hl | hl
    · exact h.loops l hl r hr
    · obtain ⟨inst, -, rfl⟩ := List.mem_map.mp hl
      rcases hr with hr | hr <;> cases hr

theorem Current.reroute (h : s.Current) {m : SinkManager Cfg} {name : String}
    (hclear : ∀ inst ∈ s.displaced m name, s.Traceless inst) : (s.reroute m name).Current where
  stored name' r hr := by
    obtain ⟨hsink, hname, hretired⟩ := h.stored name' r hr
    refine ⟨hsink, hname, fun hmem => ?_⟩
    rcases List.mem_append.mp hmem with hmem | hmem
    · exact hretired hmem
    · refine (hclear _ hmem).1 r ?_ rfl
      rw [← hname, hsink]
      exact hr
  underway r hr := by
    have hr' : r ∈ s.underway := by
      rw [← underway_adopt s m]
      exact hr
    refine ⟨(h.underway r hr').1, fun hmem => ?_⟩
    rcases List.mem_append.mp hmem with hmem | hmem
    · exact (h.underway r hr').2 hmem
    · exact (hclear _ hmem).2 r hr' rfl
  loops := (h.adopt m).loops

theorem mem_underway {r : ProbeResult} : r ∈ s.underway ↔
    r ∈ s.channel ∨ s.watcher.held = some r ∨ ∃ l ∈ s.loops, l.phase = .posting r := by
  have hsending : ∀ l : ProbeLoop, l.phase.sending = some r ↔ l.phase = .posting r := by
    intro l
    cases l.phase <;> simp [ProbePhase.sending]
  simp only [underway, List.mem_append, Option.mem_toList, List.mem_filterMap, hsending, or_assoc]

theorem Current.loop (h : s.Current) {n : Nat} {l : ProbeLoop} (hl : s.loops[n]? = some l)
    {phase : ProbePhase} {sent : Option ProbeResult} (hturn : l.Turn (s.done l.inst) phase sent)
    (hpass : ∀ r, phase = .posting r → l.inst ∉ s.retired) :
    Current { s with loops := s.loops.set n { l with phase := phase }, channel := s.channel ++ sent.toList } := by
  have hmem := List.mem_of_getElem? hl
  have hown : ∀ r, phase = .probed r ∨ phase = .posting r → r.sink = l.inst.name ∧
    r.producer = l.inst := by
    intro r hr
    cases hturn with
    | settle time failure =>
      rcases hr with hr | hr
      · cases hr
        cases failure <;> exact ⟨rfl, rfl⟩
      · cases hr
    | pass result hphase _ =>
      rcases hr with hr | hr
      · cases hr
      · cases hr
        exact h.loops l hmem _ (.inl hphase)
    | post | stop | wake => rcases hr with hr | hr <;> cases hr
  refine ⟨h.stored, fun r hr => ?_, fun l' hl' r hr => ?_⟩
  · rcases mem_underway.mp hr with hr | hr | ⟨l', hl', hr⟩
    · rcases List.mem_append.mp hr with hold | hsent
      · exact h.underway r (mem_underway.mpr (.inl hold))
      · have hphase : l.phase = .posting r := by
          cases Option.mem_toList.mp hsent
          cases hturn with
          | post _ hphase => exact hphase
        exact h.underway r (mem_underway.mpr (.inr (.inr ⟨l, hmem, hphase⟩)))
    · exact h.underway r (mem_underway.mpr (.inr (.inl hr)))
    · rcases List.mem_or_eq_of_mem_set hl' with hl' | rfl
      · exact h.underway r (mem_underway.mpr (.inr (.inr ⟨l', hl', hr⟩)))
      · obtain ⟨hsink, hproducer⟩ := hown r (.inr hr)
        rw [Vouches, hproducer]
        exact ⟨hsink, hpass r hr⟩
  · rcases List.mem_or_eq_of_mem_set hl' with hl' | rfl
    · exact h.loops l' hl' r hr
    · exact hown r hr

theorem Current.keep (h : s.Current) (hretired : s'.retired = s.retired) (hloops : s'.loops = s.loops)
    (hstored : ∀ name r, s'.results name = some r → s.results name = some r ∨ r.sink = name ∧
      r ∈ s.underway)
    (hunderway : ∀ r, r ∈ s'.channel ∨ s'.watcher.held = some r → r ∈ s.underway) : s'.Current := by
  refine ⟨fun name r hr => ?_, fun r hr => ?_, hloops ▸ h.loops⟩
  · rw [Vouches, hretired]
    rcases hstored name r hr with hr | ⟨hsink, hr⟩
    · exact h.stored name r hr
    · exact ⟨hsink, h.underway r hr⟩
  · rw [Vouches, hretired]
    rcases mem_underway.mp hr with hr | hr | ⟨l, hl, hr⟩
    · exact h.underway r (hunderway r (.inl hr))
    · exact h.underway r (hunderway r (.inr hr))
    · exact h.underway r (mem_underway.mpr (.inr (.inr ⟨l, hloops ▸ hl, hr⟩)))

theorem step_manager {a : SinkStep Cfg} (h : s.step lib resultBuffer (.manager a) = some s') :
    ∃ m, s' = s.adopt m := by
  have hmap : (s.manager.step lib a).map s.adopt = some s' := by
    cases a with
    | ensure | delete => cases h
    | start | drainOwed | tail => exact h
    | shutdown =>
      simp only [ProbeRuntime.step, Option.ite_none_right_eq_some] at h
      exact h.2
  obtain ⟨m, -, rfl⟩ := Option.map_eq_some_iff.mp hmap
  exact ⟨m, rfl⟩

theorem Current.step (h : s.Current) {a : ProbeStep Cfg} (hclear : Clear lib s a)
    (hst : s.step lib resultBuffer a = some s') : s'.Current := by
  have hkept : ∀ r, r ∈ s.channel ∨ s.watcher.held = some r → r ∈ s.underway := fun r hr =>
    mem_underway.mpr (hr.imp_right .inl)
  have hidle : ∀ r, r ∈ s.channel ∨ (none : Option ProbeResult) = some r → r ∈ s.underway := fun r hr =>
    hkept r (.inl (hr.resolve_right (by simp)))
  cases a with
  | declare name cfg factory =>
    cases hst
    exact h.reroute hclear
  | forget name =>
    cases hst
    refine h.keep rfl rfl (fun name' r hr => .inl ?_) hkept
    by_cases hn : name' = name
    · simp [hn] at hr
    · simpa [hn] using hr
  | delete name =>
    simp only [ProbeRuntime.step, Option.ite_none_right_eq_some, Option.some.injEq] at hst
    obtain ⟨-, rfl⟩ := hst
    have hroute := h.reroute hclear
    exact ⟨hroute.stored, hroute.underway, hroute.loops⟩
  | manager a =>
    obtain ⟨m, rfl⟩ := step_manager hst
    exact h.adopt m
  | halt =>
    cases hst
    exact h.keep rfl rfl (fun _ _ => .inl) hkept
  | cancel inst =>
    simp only [ProbeRuntime.step, Option.ite_none_right_eq_some, Option.some.injEq] at hst
    obtain ⟨-, rfl⟩ := hst
    exact h.keep rfl rfl (fun _ _ => .inl) hkept
  | loop n move =>
    simp only [ProbeRuntime.step] at hst
    split at hst
    · rename_i l hl
      obtain ⟨⟨phase, sent⟩, hmove, rfl⟩ := Option.map_eq_some_iff.mp hst
      obtain ⟨hturn, hcheck⟩ := ProbeLoop.step_cases hmove
      refine h.loop hl hturn fun r hr hretired => ?_
      obtain rfl := hcheck r hr
      have hdone := hclear l hl hretired
      subst hr
      cases hturn with
      | pass _ _ hopen => simp [hdone] at hopen
    · cases hst
  | receive =>
    simp only [ProbeRuntime.step] at hst
    split at hst
    · rename_i result rest _ hchannel
      cases hst
      refine h.keep rfl rfl (fun _ _ => .inl) fun r hr => hkept r (.inl ?_)
      rw [hchannel]
      rcases hr with hr | hr
      · exact .tail _ hr
      · cases hr
        exact .head _
    · cases hst
  | record =>
    simp only [ProbeRuntime.step] at hst
    split at hst
    · rename_i result hholding
      cases hst
      refine h.keep rfl rfl (fun name r hr => ?_) hidle
      by_cases hn : name = result.sink
      · right
        have hr' : result = r := by simpa [hn] using hr
        subst hr'
        exact ⟨hn.symm, hkept _ (.inr (by rw [hholding]; rfl))⟩
      · left
        simpa [hn] using hr
    · cases hst
  | woken =>
    simp only [ProbeRuntime.step] at hst
    split at hst
    · cases hst
      exact h.keep rfl rfl (fun _ _ => .inl) hidle
    · cases hst
  | unwatch =>
    simp only [ProbeRuntime.step] at hst
    split at hst
    · simp only [Option.ite_none_right_eq_some, Option.some.injEq] at hst
      obtain ⟨-, rfl⟩ := hst
      exact h.keep rfl rfl (fun _ _ => .inl) hidle
    · simp only [Option.ite_none_right_eq_some, Option.some.injEq] at hst
      obtain ⟨-, rfl⟩ := hst
      exact h.keep rfl rfl (fun _ _ => .inl) hidle
    · cases hst

theorem current_empty : ({} : ProbeRuntime Cfg).Current :=
  ⟨fun _ _ hr => (by cases hr), fun _ hr => (by cases hr), fun _ hl => (by cases hl)⟩

end ProbeRuntime

section

variable {Cfg : Type}

theorem verdict_of_current_instance (lib : SinkLib Cfg) (resultBuffer : Nat)
    {steps : List (ProbeStep Cfg)} {s : ProbeRuntime Cfg}
    (h : Runs.Run (ProbeRuntime.step lib resultBuffer) (ProbeRuntime.Clear lib) {} steps s) :
    ∀ name r, s.latest name = some r → r.sink = name ∧ r.producer.name = name ∧
      r.producer ∉ s.retired := by
  have hcurrent : s.Current :=
    h.invariant (fun _ _ _ hi hclear hst => hi.step hclear hst) ProbeRuntime.current_empty
  intro name r hr
  obtain ⟨hsink, hname, hretired⟩ := hcurrent.stored name r hr
  exact ⟨hsink, hname ▸ hsink, hretired⟩

end

def firstInstance : LiveSink := ⟨0, "a", "v1"⟩

def sentSteps : List (ProbeStep String) :=
  [.manager (.start fun _ => .ok ()), .declare "a" "v1" (.ok ()), .loop 0 (.settle 1 none),
    .loop 0 .check, .loop 0 .post]

def renewSteps : List (ProbeStep String) :=
  [.receive, .record, .woken, .forget "a", .delete "a", .cancel firstInstance, .loop 0 .quit,
    .declare "a" "v1" (.ok ()),
    .declare "a" "v2" (.ok ()), .loop 2 (.settle 5 (some ("refused", false))), .loop 2 .check,
    .loop 2 .post, .receive,
    .record]

theorem renewed_sink_judged_anew : ∃ s : ProbeRuntime String,
    Runs.Run (ProbeRuntime.step sampleSinkLib 64) (ProbeRuntime.Clear sampleSinkLib) {}
      (sentSteps ++ renewSteps) s ∧
    s.retired.length = 2 ∧ ∃ r, s.latest "a" = some r ∧ r.reason = probeReasonUnreachable ∧
      r.producer ∉ s.retired := by
  obtain ⟨s, hrun, hlen, hr⟩ := Runs.Run.exists_of_exec (ProbeRuntime.step sampleSinkLib 64)
    (ProbeRuntime.Clear sampleSinkLib) {} (sentSteps ++ renewSteps)
    (fun s => s.retired.length = 2 ∧
      (s.latest "a").any (fun r => r.reason = probeReasonUnreachable)) (by decide)
  obtain ⟨r, hr, hreason⟩ := (Option.any_eq_true _ _).mp hr
  exact ⟨s, hrun, hlen, r, hr, of_decide_eq_true hreason,
    (verdict_of_current_instance sampleSinkLib 64 hrun "a" r hr).2.2⟩

def Misjudged (s : ProbeRuntime String) : Prop :=
  (s.latest "a").any (fun r => r.producer = firstInstance) ∧ firstInstance ∈ s.retired ∧
    (s.manager.live.lookup "a").any (· ≠ firstInstance)

instance (s : ProbeRuntime String) : Decidable (Misjudged s) := inferInstanceAs (Decidable (_ ∧ _))

/--
Replaced when its verdict is in the store, or deleted and created anew while its result is in the
channel.
-/
theorem retired_instance_judged :
    (∃ s, Runs.Run (ProbeRuntime.step sampleSinkLib 64) (fun _ _ => True) {}
      (sentSteps ++ [.receive, .record, .declare "a" "v2" (.ok ())]) s ∧ Misjudged s) ∧
    ∃ s, Runs.Run (ProbeRuntime.step sampleSinkLib 64) (fun _ _ => True) {}
      (sentSteps ++ [.forget "a", .delete "a", .declare "a" "v1" (.ok ()), .receive, .record]) s ∧
        Misjudged s :=
  ⟨Runs.Run.exists_of_exec _ (fun _ _ => True) _ _ Misjudged (by decide),
    Runs.Run.exists_of_exec _ (fun _ _ => True) _ _ Misjudged (by decide)⟩

end Kuberecord
