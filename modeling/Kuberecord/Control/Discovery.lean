import Kuberecord.Control.Readiness
import Kuberecord.Library.Histories

/-!
The resolver's gate over whole runs. Lookups of a kind overlap and the gate is taken twice in each
of them; what it answers is nevertheless a function of the failures since the kind was last
resolved.
-/

namespace Kuberecord.Control

open Threads

variable {Sel : Type}
variable {lib : ControlLib Sel} {s : System Sel}

inductive GateEvent
  | failed (now : Nat) (err : ResolveError)
  | resolved

def gateEvent (gvk : GroupVersionKind) (s : System Sel) (a : Action Sel) : Option GateEvent :=
  match s.deed a with
  | some (.exec _ (.park gvk' err, .time now)) => if gvk' = gvk then some (.failed now err) else none
  | some (.exec _ (.unpark gvk', _)) => if gvk' = gvk then some .resolved else none
  | some .crash => some .resolved
  | _ => none

def gateHistory (lib : ControlLib Sel) (gvk : GroupVersionKind) (as : List (Action Sel)) :
    List GateEvent :=
  Runs.history (controlMachine lib).step (gateEvent gvk) { shared := {} } as

def GateEvent.extend (streak : List (Nat × ResolveError)) : GateEvent → List (Nat × ResolveError)
  | .failed now err => streak ++ [(now, err)]
  | .resolved => []

def streak (events : List GateEvent) : List (Nat × ResolveError) := events.foldl GateEvent.extend []

theorem streak_append (events events' : List GateEvent) :
    streak (events ++ events') = events'.foldl GateEvent.extend (streak events) := List.foldl_append

def backoff (n : Nat) : Nat := min (baseRetryDelay * 2 ^ (n - 1)) maxRetryDelay

theorem backoff_succ {n : Nat} (h : 0 < n) : backoff (n + 1) = min (backoff n * 2) maxRetryDelay := by
  obtain ⟨n, rfl⟩ := Nat.exists_eq_succ_of_ne_zero (Nat.pos_iff_ne_zero.mp h)
  have hpow : baseRetryDelay * 2 ^ (n + 1) = baseRetryDelay * 2 ^ n * 2 :=
    by rw [Nat.pow_succ, Nat.mul_assoc]
  simp only [backoff, Nat.succ_eq_add_one, Nat.add_sub_cancel, hpow]
  omega

def verdict (failures : List (Nat × ResolveError)) (now : Nat) : Option ResolveError :=
  match failures.getLast? with
  | none => none
  | some (at', err) => if now < at' + backoff failures.length then some err else none

def gateAfter (failures : List (Nat × ResolveError)) : Option ParkedKind :=
  match failures.getLast? with
  | none => none
  | some (at', err) => some ⟨err, backoff failures.length, at' + backoff failures.length⟩

theorem gateAfter_snoc (failures : List (Nat × ResolveError)) (now : Nat) (err : ResolveError) :
    gateAfter (failures ++ [(now, err)]) =
      some ⟨err, backoff (failures.length + 1), now + backoff (failures.length + 1)⟩ := by
  simp [gateAfter]

theorem delay_of_gateAfter {failures : List (Nat × ResolveError)} {now : Nat} {err : ResolveError}
    {r : Resolver} {gvk : GroupVersionKind} (h : r.parked gvk = gateAfter failures) :
    (r.park now gvk err).parked gvk = gateAfter (failures ++ [(now, err)]) := by
  rw [gateAfter_snoc]
  simp only [Resolver.park, Function.update_self, h]
  cases hlast : failures.getLast? with
  | none =>
    obtain rfl := List.getLast?_eq_none_iff.mp hlast
    rfl
  | some last =>
    have hpos : 0 < failures.length := List.length_pos_of_mem (List.mem_of_getLast? hlast)
    simp only [gateAfter, hlast, backoff_succ hpos]

theorem exec_resolver {c c' : ControlState} {t : Tid} {o : Op} {i : Input Sel} {a : o.Ans Sel}
    (h : exec lib c t o i = some (c', a)) :
    c'.resolver = c.resolver ∧ (∀ gvk err, o ≠ .park gvk err) ∧ (∀ gvk, o ≠ .unpark gvk) ∨
      (∃ gvk err now, o = .park gvk err ∧ i = .time now ∧ c'.resolver = c.resolver.park now gvk err) ∨
      ∃ gvk, o = .unpark gvk ∧ c'.resolver = c.resolver.unpark gvk := by
  cases o <;> cases i <;> cases h
  case park.time.refl gvk err now => exact .inr (.inl ⟨gvk, err, now, rfl, rfl, rfl⟩)
  case unpark.go.refl gvk => exact .inr (.inr ⟨gvk, rfl, rfl⟩)
  all_goals exact .inl ⟨rfl, nofun, nofun⟩

theorem exec_gate {t : Tid} {o : Op} {k : o.Ans Sel → Prog Sel Reconciled}
    {tr : Trace Sel} {i : Input Sel} {c' : ControlState} {a : o.Ans Sel} {gvk : GroupVersionKind}
    {events : List GateEvent} (hth : s.threads t = some { code := .op o k, trace := tr })
    (hx : exec lib s.shared t o i = some (c', a))
    (h : s.shared.resolver.parked gvk = gateAfter (streak events)) :
    c'.resolver.parked gvk = gateAfter (streak (events ++ (gateEvent gvk s (.exec t i)).toList)) := by
  have hdeed : s.deed (.exec t i : Action Sel) = some (.exec t (o, i)) := by simp [System.deed, hth]
  have other {gvk' : GroupVersionKind} {x : Option ParkedKind} (hne : gvk' ≠ gvk) :
      Function.update s.shared.resolver.parked gvk' x gvk = gateAfter (streak events) :=
    (Function.update_of_ne (Ne.symm hne) ..).trans h
  rw [streak_append]
  rcases exec_resolver hx with ⟨hr, hpark, hunpark⟩ | ⟨gvk', err, now, rfl, rfl, hr⟩ | ⟨gvk', rfl, hr⟩
  · have hnone : gateEvent gvk s (.exec t i) = none := by
      simp only [gateEvent, hdeed]
      cases o with
      | park => exact absurd rfl (hpark _ _)
      | unpark => exact absurd rfl (hunpark _)
      | _ => rfl
    rw [hnone, hr]
    exact h
  · simp only [gateEvent, hdeed, hr]
    split_ifs with hgvk
    · subst hgvk
      exact delay_of_gateAfter h
    · exact other hgvk
  · simp only [gateEvent, hdeed, hr]
    split_ifs with hgvk
    · subst hgvk
      exact Function.update_self ..
    · exact other hgvk

theorem parked_of_run {as : List (Action Sel)}
    (h : Runs.Run (controlMachine lib).step (fun _ _ => True) { shared := {} } as s)
    (gvk : GroupVersionKind) :
    s.shared.resolver.parked gvk = gateAfter (streak (gateHistory lib gvk as)) := by
  induction h with
  | nil => rfl
  | @snoc s _ as a hrun _ hst ih =>
    rw [gateHistory, Runs.history_snoc _ hrun, ← gateHistory]
    cases (controlMachine lib).step_cases hst with
    | start t b shared code hn hs =>
      have hshared : shared = s.shared := by
        cases t <;> cases b <;> cases hs <;> rfl
      subst hshared
      simpa [gateEvent, System.deed] using ih
    | exec t i o k tr shared answer hth hx => exact exec_gate hth hx ih
    | finish t r tr hth => simpa [gateEvent, System.deed, controlMachine] using ih
    | env e shared he =>
      cases e
      cases he
      simpa [gateEvent, System.deed] using ih
    | crash => simp [gateEvent, System.deed, streak_append, GateEvent.extend, gateAfter, controlMachine]

def Gated (tr : Trace Sel) : Op → Prop
  | .restMapping gvk => tr.getLast? = some ⟨.gatedError gvk, none⟩
  | .park gvk err => ∃ e, tr.getLast? = some ⟨.restMapping gvk, .error e⟩ ∧ err = classify gvk e
  | .unpark gvk => ∃ m, tr.getLast? = some ⟨.restMapping gvk, .ok m⟩
  | _ => True

def Paced {α : Type} (x : Prog Sel α) : Prop := ∀ tr, (chronicle Gated).Obeys x tr fun _ _ => True

section

variable {α β : Type}

theorem Paced.ret (a : α) : Paced (.ret a : Prog Sel α) := fun _ => trivial

theorem Paced.call {o : Op} (h : ∀ tr : Trace Sel, Gated tr o) :
    Paced (Control.call o : Prog Sel (o.Ans Sel)) :=
  fun tr => ⟨h tr, fun _ _ => trivial⟩

theorem Paced.bind {x : Prog Sel α} {f : α → Prog Sel β} (hx : Paced x) (hf : ∀ a, Paced (f a)) :
    Paced (x >>= f) :=
  fun tr => (hx tr).bind _ fun a tr' _ => hf a tr'

theorem Paced.foldlM {f : α → β → Prog Sel α} (hf : ∀ a b, Paced (f a b)) (bs : List β) (a : α) :
    Paced (bs.foldlM f a) := by
  induction bs generalizing a with
  | nil => exact .ret a
  | cons b bs ih => exact (hf a b).bind ih

end

theorem resolve_paced (gvk : GroupVersionKind) : Paced (resolve gvk : Prog Sel _) := by
  intro tr
  refine ⟨trivial, fun gate _ => ?_⟩
  cases gate with
  | some err => trivial
  | none =>
    refine ⟨by simp [Gated, chronicle], fun answer _ => ?_⟩
    cases answer with
    | error e => exact ⟨⟨e, by simp [chronicle], rfl⟩, fun _ _ => trivial⟩
    | ok m => exact ⟨⟨m, by simp [chronicle]⟩, fun _ _ => trivial⟩

theorem targetNamespaces_paced (lib : ControlLib Sel) (kind : RuleKind) (obj : Rule Sel) :
    Paced (targetNamespaces lib kind obj) := by
  unfold targetNamespaces
  split
  · exact .ret _
  · split
    · exact .ret _
    · split
      · exact .ret _
      · refine .bind (.call fun _ => trivial) fun a => ?_
        cases a <;> exact .ret _

theorem resolveResources_paced (lib : ControlLib Sel) (scope : RuleScope) (namespaces : List Namespace)
    (resources : List (WatchedResource Sel)) :
    Paced (resolveResources lib scope namespaces resources) := by
  refine Paced.foldlM (fun acc res => ?_) resources _
  refine .bind (.bind (resolve_paced res.gvk) fun r => ?_) fun r => ?_
  · cases r with
    | error => exact .ret _
    | ok m =>
      dsimp only
      split <;> exact .ret _
  · cases r with
    | error => exact .ret _
    | ok m =>
      dsimp only
      split <;> exact .ret _

theorem review_paced (lib : ControlLib Sel) (gvr : GroupVersionResource) (ns : Namespace) (verb : Verb) :
    Paced (review lib gvr ns verb) := by
  refine .bind (.call fun _ => trivial) fun a => ?_
  cases a <;> exact .ret _

theorem missingVerbs_paced (lib : ControlLib Sel) (gvr : GroupVersionResource) (ns : Namespace)
    (verbs missing : List Verb) :
    Paced (missingVerbs lib gvr ns verbs missing) := by
  induction verbs generalizing missing with
  | nil => exact .ret _
  | cons verb verbs ih =>
    refine .bind (.bind (review_paced lib gvr _ verb) fun a => ?_) fun a => ?_
    · rcases a with err | allowed
      · exact .ret _
      · cases allowed with
        | true => exact .ret _
        | false =>
          dsimp only
          split
          · exact .ret _
          · exact review_paced _ _ _ _
    · cases a with
      | error => exact .ret _
      | ok allowed => exact ih _

theorem reviewTargets_paced (lib : ControlLib Sel) (sinkName redaction : String)
    (pairs : List (ResolvedResource × Namespace)) (acc : Reviewed) :
    Paced (reviewTargets lib sinkName redaction pairs acc) := by
  induction pairs generalizing acc with
  | nil => exact .ret _
  | cons p pairs ih =>
    obtain ⟨res, ns⟩ := p
    refine .bind ?_ fun a => ?_
    · unfold verdictFor
      split
      · exact .ret _
      · refine .bind (.bind (missingVerbs_paced _ _ _ _ _) fun a => ?_) fun a => ?_
        · rcases a with err | missing
          · exact .ret _
          · cases missing <;> exact .ret _
        · cases a <;> exact .ret _
    · cases a with
      | error => exact .ret _
      | ok r =>
        dsimp only
        split <;> exact ih _

theorem plan_paced (lib : ControlLib Sel) (kind : RuleKind) (obj : Rule Sel) (status : StatusWriter) :
    Paced (plan lib kind obj status) := by
  refine .bind (.bind (.call fun _ => trivial) fun a => ?_) fun a => ?_
  · rcases a with (_ | _) | _ <;> exact .ret _
  · rcases a with err | ⟨chSink, verdict⟩
    · exact .ret _
    · cases chSink with
      | none => exact .ret _
      | some chSink =>
        dsimp only
        split
        · exact .ret _
        · refine .bind (targetNamespaces_paced lib kind obj) fun a => ?_
          rcases a with (_ | _) | namespaces
          · exact .ret _
          · exact .ret _
          · refine .bind (resolveResources_paced _ _ _ _) fun resolution =>
              .bind (reviewTargets_paced _ _ _ _ _) fun a => ?_
            cases a <;> exact .ret _

theorem updateStatus_paced (kind : RuleKind) (name : NamespacedName)
    (mutate : Rule Sel → RuleStatus) (attempts : Nat) :
    Paced (updateStatus (call (.getRule kind name)) (fun status =>
        call (.updateStatus kind name status)) mutate attempts) := by
  induction attempts with
  | zero => exact .ret _
  | succ attempts ih =>
    refine .bind (.call fun _ => trivial) fun a => ?_
    rcases a with (_ | _) | fresh
    · exact .ret _
    · exact .ret _
    · refine .bind (.call fun _ => trivial) fun a => ?_
      cases a with
      | updated | failed => exact .ret _
      | conflict =>
        dsimp only
        split
        · exact .ret _
        · exact ih

theorem report_paced (kind : RuleKind) (req : NamespacedName) (outcome : PlanOutcome)
    (status : StatusWriter) :
    Paced (report kind req outcome status : Prog Sel Reconciled) := by
  refine .bind ?_ fun status => .bind (.call fun _ => trivial) fun activeWatches =>
    .bind (updateStatus_paced _ _ _ _) fun a => ?_
  · unfold install
    split
    · refine .bind (.call fun _ => trivial) fun a => ?_
      cases a <;> exact .ret _
    · exact .ret _
  · cases a with
    | error => exact .ret _
    | ok =>
      dsimp only
      split <;> exact .ret _

theorem reconcile_paced (lib : ControlLib Sel) (kind : RuleKind) (req : NamespacedName) :
    Paced (reconcile lib kind req) := by
  refine .bind (.call fun _ => trivial) fun a => ?_
  rcases a with (_ | _) | obj
  · exact .bind (.call fun _ => trivial) fun _ => .ret _
  · exact .ret _
  · dsimp only
    split
    · exact .bind (.call fun _ => trivial) fun _ => .ret _
    · exact .bind (plan_paced _ _ _ _) fun _ => report_paced _ _ _ _

theorem control_gated (lib : ControlLib Sel) :
    (controlMachine lib).Safe (chronicle Gated) (fun _ => []) fun _ _ _ => True where
  start shared t b shared' code h := by
    cases t <;> cases b <;> cases h
    · exact reconcile_paced lib _ _ []
    · exact Paced.bind (resolve_paced _) (fun _ => .ret _) []
  answers _ _ _ _ _ _ _ := trivial

def Noted (log : List (LogEntry (Op.Ans Sel) Tid)) (gvk : GroupVersionKind)
    (err : ResolveError) : Prop :=
  ∃ x ∈ log, ∃ e, x.event = ⟨.restMapping gvk, .error e⟩ ∧ err = classify gvk e

theorem Noted.mono {log log' : List (LogEntry (Op.Ans Sel) Tid)} {gvk : GroupVersionKind}
    {err : ResolveError} (h : Noted log gvk err) (hl : log <+: log') : Noted log' gvk err := by
  obtain ⟨x, hx, he⟩ := h
  exact ⟨x, hl.subset hx, he⟩

theorem noted_of_park {as : List (Action Sel)}
    (h : Runs.Run (controlMachine lib).step (fun _ _ => True) { shared := {} } as s)
    {x : LogEntry (Op.Ans Sel) Tid} (hx : x ∈ s.log) {gvk : GroupVersionKind} {err : ResolveError}
    (ho : x.event.1 = .park gvk err) : Noted s.log gvk err := by
  have hgated := (control_gated lib).chronicled h x hx
  rw [ho] at hgated
  obtain ⟨e, hlast, rfl⟩ := hgated
  obtain ⟨before, hbefore⟩ := List.getLast?_eq_some_iff.mp hlast
  exact ⟨_, (Machine.logged_of_run h).2 x hx before _ [] hbefore, e, rfl, rfl⟩

theorem noted_of_run {as : List (Action Sel)}
    (h : Runs.Run (controlMachine lib).step (fun _ _ => True) { shared := {} } as s)
    (gvk : GroupVersionKind) :
    ∀ f ∈ streak (gateHistory lib gvk as), Noted s.log gvk f.2 := by
  induction h with
  | nil => exact nofun
  | @snoc s s' as a hrun _ hst ih =>
    have hrun' := hrun.snoc trivial hst
    have hlast : Runs.Run (controlMachine lib).step (fun _ _ => True) s [a] s' := .snoc .nil trivial hst
    have kept : ∀ f ∈ streak (gateHistory lib gvk as), Noted s'.log gvk f.2 :=
      fun f hf => (ih f hf).mono (Machine.log_prefix hlast)
    rw [gateHistory, Runs.history_snoc _ hrun, ← gateHistory, streak_append]
    cases hev : gateEvent gvk s a with
    | none => exact kept
    | some event =>
      cases event with
      | resolved => exact nofun
      | failed now err =>
        intro f hf
        rcases List.mem_append.mp hf with hf | hf
        · exact kept f hf
        · obtain rfl := List.mem_singleton.mp hf
          -- only a lookup that parks this kind is noted as a failure
          cases (controlMachine lib).step_cases hst with
          | exec t i o k tr shared answer hth hx =>
            have hdeed : s.deed (.exec t i : Action Sel) = some (.exec t (o, i)) :=
              by simp [System.deed, hth]
            simp only [gateEvent, hdeed] at hev
            split at hev
            · next hop =>
              simp only [Option.some.injEq, Threads.Action.exec.injEq, Prod.mk.injEq] at hop
              obtain ⟨rfl, rfl, rfl⟩ := hop
              split_ifs at hev with hgvk
              cases hev
              subst hgvk
              exact noted_of_park hrun' (List.mem_append_right _ (List.mem_singleton_self _)) rfl
            · split_ifs at hev
              cases hev
            · cases hev
            · cases hev
          | start | finish | env | crash => cases hev

theorem gate_replays_failures {lib : ControlLib Sel} {as : List (Action Sel)} {s : System Sel}
    (h : Runs.Run (controlMachine lib).step (fun _ _ => True) { shared := {} } as s)
    (gvk : GroupVersionKind) :
    (∀ now, s.shared.resolver.gatedError now gvk = verdict (streak (gateHistory lib gvk as)) now) ∧
      (∀ f ∈ streak (gateHistory lib gvk as), Noted s.log gvk f.2) ∧
      ∀ x ∈ s.log, x.event.1 = .restMapping gvk → x.trace.getLast? = some ⟨.gatedError gvk, none⟩ := by
  refine ⟨fun now => ?_, noted_of_run h gvk, fun x hx ho => ?_⟩
  · rw [Resolver.gatedError, parked_of_run h, gateAfter, verdict]
    cases (streak (gateHistory lib gvk as)).getLast? <;> rfl
  · have hgated := (control_gated lib).chronicled h x hx
    rw [ho] at hgated
    exact hgated

def missingSteps : List (Action Unit) :=
  let lookup (now : Nat) : List (Action Unit) :=
    [.start .manager (.resolve podResource.gvk), .exec .manager (.time now),
      .exec .manager (.mapping (.error (.noMatch "none"))), .exec .manager (.time now), .finish .manager]
  lookup 0 ++ lookup 1000000000

theorem second_failure_shuts_gate_longer : ∃ s : System Unit,
    s.shared.resolver.gatedError 2999999999 podResource.gvk =
      some (.kindNotFound podResource.gvk "none") ∧
    s.shared.resolver.gatedError 3000000000 podResource.gvk = none := by
  obtain ⟨s, hrun, -⟩ := Runs.Run.exists_of_exec (controlMachine openLib).step (fun _ _ => True)
    { shared := {} }
    missingSteps (fun _ => True) (by decide)
  have hanswer := (gate_replays_failures hrun podResource.gvk).1
  refine ⟨s, ?_, ?_⟩
  · rw [hanswer]
    decide
  · rw [hanswer]
    decide

end Kuberecord.Control
