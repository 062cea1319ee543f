import Kuberecord.Control.SinkReadiness
import Kuberecord.Sinks.Fingerprints

namespace Kuberecord.SinkControl

open Threads

variable {Spec Cfg : Type} {lib : SinkControlLib Spec Cfg} {s s' : System Spec Cfg}

structure Asked (log : List (LogEntry (@Op.Ans Cfg Spec) String)) (name : String)
    (cfg : Cfg) : Prop where
  named : name ≠ ""
  entry : ∃ x ∈ log, x.event.1 = .ensure name cfg

theorem Asked.mono {log log' : List (LogEntry (@Op.Ans Cfg Spec) String)} {name : String} {cfg : Cfg}
    (h : Asked log name cfg) (hl : log <+: log') : Asked log' name cfg := by
  obtain ⟨hname, x, hx, ho⟩ := h
  exact ⟨hname, x, hl.subset hx, ho⟩

theorem exec_runtime {c c' : SinkState Cfg} {t : String} {o : Op Cfg} {i : Input Spec} {a : o.Ans Spec}
    (h : exec lib c t o i = some (c', a)) :
    c'.runtime = c.runtime ∨ (∃ name, c.runtime.step lib.sinks (.delete name) = some c'.runtime) ∨
      ∃ name cfg factory, o = .ensure name cfg ∧
        c.runtime.step lib.sinks (.ensure name (some cfg) factory) = some c'.runtime := by
  cases o <;> cases i <;> cases h
  case ensure.factory.refl name cfg factory => exact .inr (.inr ⟨name, cfg, factory, rfl, rfl⟩)
  case delete.go.refl name => exact .inr (.inl ⟨name, rfl⟩)
  all_goals exact .inl rfl

theorem env_runtime {c c' : SinkState Cfg} {e : Env Cfg} (h : env lib c e = some c') :
    c'.runtime = c.runtime ∨ ∃ a, (∀ name cfg factory, a ≠ .ensure name (some cfg) factory) ∧
      c.runtime.step lib.sinks a = some c'.runtime := by
  cases e with
  | record result =>
    cases h
    exact .inl rfl
  | start factory | shutdown | drainOwed inst | tail n =>
    simp only [env, Env.step?, Option.bind_some, Option.map_eq_some_iff] at h
    obtain ⟨runtime, hstep, rfl⟩ := h
    refine .inr ⟨_, fun name cfg factory ha => ?_, hstep⟩
    cases ha

theorem runtime_of_run {as : List (Action Spec Cfg)}
    (h : Runs.Run (sinkMachine lib).step (fun _ _ => True) { shared := {} } as s) :
    s.shared.runtime.Consistent ∧ s.shared.runtime.Built lib.sinks (Asked s.log) := by
  have fresh (log : List (LogEntry (@Op.Ans Cfg Spec) String)) :
      ({} : SinkManager Cfg).Consistent ∧ ({} : SinkManager Cfg).Built lib.sinks (Asked log) :=
    ⟨.empty, nofun, nofun, fun hne => absurd rfl hne⟩
  induction h with
  | nil => exact fresh []
  | @snoc s s' as a hrun _ hst ih =>
    cases (sinkMachine lib).step_cases hst with
    | start name b shared code hn hs =>
      cases hs
      exact ih
    | exec t i o k tr shared answer hth hx =>
      have hgrow : s.log <+: s.log ++ [⟨t, tr, ⟨o, answer⟩⟩] := List.prefix_append ..
      have hbuilt := ih.2.mono fun name cfg hasked => hasked.mono hgrow
      rcases exec_runtime (t := t) hx with hr | ⟨name, hstep⟩ | ⟨name, cfg, factory, rfl, hstep⟩
      · rw [show shared.runtime = s.shared.runtime from hr]
        exact ⟨ih.1, hbuilt⟩
      · exact ⟨ih.1.step hstep, hbuilt.step ih.1 hstep fun _ _ _ ha => (by cases ha)⟩
      · refine ⟨ih.1.step hstep, hbuilt.step ih.1 hstep ?_⟩
        intro name' cfg' factory' ha hname
        cases ha
        exact ⟨hname, _, List.mem_append_right _ (List.mem_singleton_self _), rfl⟩
    | finish t r tr hth => exact ih
    | env e shared he =>
      rcases env_runtime he with hr | ⟨a, hne, hstep⟩
      · rw [show shared.runtime = s.shared.runtime from hr]
        exact ih
      · exact ⟨ih.1.step hstep, ih.2.step ih.1 hstep
          fun name cfg factory ha => absurd ha (hne name cfg factory)⟩
    | crash => exact fresh s.log

theorem Asked.declared {as : List (Action Spec Cfg)}
    (h : Runs.Run (sinkMachine lib).step (fun _ _ => True) { shared := {} } as s) {name : String}
    {cfg : Cfg} (hasked : Asked s.log name cfg) :
    ∃ x ∈ s.log, ∃ chSink password, password ≠ "" ∧ Declared lib x.trace name chSink password cfg := by
  obtain ⟨-, x, hx, ho⟩ := hasked
  have hjust := (sinks_safe lib).chronicled h x hx
  rw [ho] at hjust
  obtain ⟨chSink, password, hd⟩ := hjust
  refine ⟨x, hx, chSink, password, ?_, hd⟩
  obtain ⟨answer, -, hp⟩ := hd.secret
  cases answer with
  | error err => cases hp
  | ok data => simpa using (Option.filter_eq_some_iff.mp hp).2

end Kuberecord.SinkControl

namespace Kuberecord.ClickHouse

open SinkControl

structure ConnectionSpec where
  addr : String
  database : String
  username : String
  credentialsSecretRef : Control.NamespacedName
  dialTimeout : Option Duration := none
  readTimeout : Option Duration := none

structure WriterSpec where
  queueSize : Option Int := none
  workers : Option Int := none
  batchMaxRows : Option Int := none
  batchMaxWait : Option Duration := none
  enqueueTimeout : Option Duration := none
  drainTimeout : Option Duration := none
  checkpointEvery : Option Int := none

structure ClickHouseSinkSpec where
  connection : ConnectionSpec
  writer : WriterSpec := {}

structure WriterTuning where
  queueSize : Int
  workers : Int
  batchMaxRows : Int
  batchMaxWait : Duration
  enqueueTimeout : Duration
  drainTimeout : Duration

def defaultSinkDialTimeout : Duration := 5000000000

def defaultSinkReadTimeout : Duration := 10000000000

def defaultCheckpointEvery : Int := 50

def newSinkConfigBuilder (defaults : WriterTuning) (autoCreateSchema : Bool) (spec : ClickHouseSinkSpec)
    (password : String) : Config where
  addr := spec.connection.addr
  database := spec.connection.database
  username := spec.connection.username
  password := password
  dialTimeout := spec.connection.dialTimeout.getD defaultSinkDialTimeout
  readTimeout := spec.connection.readTimeout.getD defaultSinkReadTimeout
  autoCreateSchema := autoCreateSchema
  writeQueueSize := spec.writer.queueSize.getD defaults.queueSize
  writeWorkers := spec.writer.workers.getD defaults.workers
  batchMaxRows := spec.writer.batchMaxRows.getD defaults.batchMaxRows
  batchMaxWait := spec.writer.batchMaxWait.getD defaults.batchMaxWait
  enqueueTimeout := spec.writer.enqueueTimeout.getD defaults.enqueueTimeout
  shutdownDrainTimeout := spec.writer.drainTimeout.getD defaults.drainTimeout
  checkpointEvery := spec.writer.checkpointEvery.getD defaultCheckpointEvery

def sinkControlLib (f : Format) (defaults : WriterTuning) (autoCreateSchema : Bool)
    (operatorNamespace : Namespace) :
    SinkControlLib ClickHouseSinkSpec Config where
  sinks := sinkLib f
  ref spec := spec.connection.credentialsSecretRef
  buildConfig _ spec password :=
    .ok (some (newSinkConfigBuilder defaults autoCreateSchema spec password))
  operatorNamespace := operatorNamespace

variable {f : Format} {defaults : WriterTuning} {autoCreateSchema : Bool} {operatorNamespace : Namespace}

theorem instances_run_read_credentials (hf : f.Faithful)
    {as : List (SinkControl.Action ClickHouseSinkSpec Config)}
    {s : SinkControl.System ClickHouseSinkSpec Config}
    (h : Runs.Run (sinkMachine (sinkControlLib f defaults autoCreateSchema operatorNamespace)).step
      (fun _ _ => True) { shared := {} } as s)
    {name : String} {inst : LiveSink} (hlive : s.shared.runtime.live.lookup name = some inst) :
    ∃ x ∈ s.log, ∃ chSink password, password ≠ "" ∧
      Declared (sinkControlLib f defaults autoCreateSchema operatorNamespace) x.trace name
        chSink password (newSinkConfigBuilder defaults autoCreateSchema chSink.spec password) ∧
      inst.fingerprint =
        (newSinkConfigBuilder defaults autoCreateSchema chSink.spec password).fingerprint f ∧
      ∀ spec password' factory,
        s.shared.runtime.Idles (sinkLib f) name
          (newSinkConfigBuilder defaults autoCreateSchema spec password') factory →
        password' = password ∧ newSinkConfigBuilder defaults autoCreateSchema spec password' =
          newSinkConfigBuilder defaults autoCreateSchema chSink.spec password := by
  obtain ⟨hcons, hbuilt⟩ := runtime_of_run h
  obtain ⟨l₁, l₂, hl, -⟩ := List.lookup_eq_some_iff.mp hlive
  have hmem : (name, inst) ∈ s.shared.runtime.live := hl ▸ List.mem_append_right l₁ (.head l₂)
  obtain ⟨running, hasked, hprint⟩ := hbuilt.live _ hmem
  obtain ⟨x, hx, chSink, password, hne, hd⟩ := hasked.declared h
  obtain rfl : newSinkConfigBuilder defaults autoCreateSchema chSink.spec password = running :=
    Option.some.inj (Except.ok.inj hd.built)
  refine ⟨x, hx, chSink, password, hne, hd, hprint, fun spec password' factory hidle => ?_⟩
  have hsame : newSinkConfigBuilder defaults autoCreateSchema spec password' =
      newSinkConfigBuilder defaults autoCreateSchema chSink.spec password := by
    have hup := hbuilt.up (List.ne_nil_of_mem hmem)
    rw [SinkManager.idles_iff hasked.named hup hlive, hprint] at hidle
    exact (Config.settings_injective hf (hf.digest_inj hidle)).symm
  exact ⟨congrArg Config.password hsame, hsame⟩

def auditSpec : ClickHouseSinkSpec :=
  ⟨⟨"ch:9000", "audit", "writer", ⟨allNamespaces, "credentials"⟩, none, none⟩, {}⟩

def auditTuning : WriterTuning := ⟨5000, 4, 1000, 1000000000, 2000000000, 15000000000⟩

def auditSteps : List (SinkControl.Action ClickHouseSinkSpec Config) :=
  [.env (.start fun _ => .ok ()), .start "s" (), .exec "s" (.sink (.ok ⟨1, auditSpec, []⟩)),
    .exec "s" (.secret (.ok [("password", "p")])), .exec "s" (.factory (.ok ()))]

theorem audit_sink_recycled_by_rotation :
    ∃ (s : SinkControl.System ClickHouseSinkSpec Config) (password : String), password ≠ "" ∧
      ∀ spec password' factory, password' ≠ password →
        ¬ s.shared.runtime.Idles (sinkLib plainFormat) "s"
          (newSinkConfigBuilder auditTuning false spec password') factory :=
  by
  obtain ⟨s, hrun, hlive⟩ := Runs.Run.exists_of_exec
    (sinkMachine (sinkControlLib plainFormat auditTuning false namespaceA)).step (fun _ _ => True)
    { shared := {} }
    auditSteps (fun s => (s.shared.runtime.live.lookup "s").isSome = true) (by decide)
  obtain ⟨inst, hinst⟩ := Option.isSome_iff_exists.mp hlive
  obtain ⟨x, -, chSink, password, hne, -, -, hidle⟩ :=
    instances_run_read_credentials plainFormat_faithful hrun hinst
  exact ⟨s, password, hne, fun spec password' factory hp h => hp (hidle spec password' factory h).1⟩

end Kuberecord.ClickHouse
