import Kuberecord.Closings
import Kuberecord.LostWrites
import Kuberecord.Watch.Convergence
import Kuberecord.Watch.Machine

/-!
The boot reconciliation asks the interest table whether a scope is wanted. The table is what the
last snapshot of the registry was translated to, if the pass that took it has come that far.
-/

namespace Kuberecord

open Threads Tallies

variable {Sel : Type} {lib : WatchLib Sel} {queueLimit : Nat} {w w' : Watching Sel}

def TargetKey.ref (key : WatchTargetKey) : ScopeRef := ⟨key.sink, ⟨key.gvk.group, key.gvk.kind, key.ns⟩⟩

def PassPhase.installed : PassPhase Sel → Bool
  | .snapped | .translated _ | .stamped _ _ => false
  | _ => true

theorem InterestTable.scopeDesired_iff {t : InterestTable Sel} {ref : ScopeRef} :
    t.scopeDesired ref = true ↔ ∃ i ∈ t.current, i.ref = ref := by
  have hid (i : ScopeInterest Sel) : i.identity =
    ⟨ref.scope.group, ref.scope.kind, ref.scope.ns, ref.sink⟩ ↔ i.ref = ref := by
    obtain ⟨sink, group, kind, ns⟩ := ref
    simp only [ScopeInterest.identity, ScopeInterest.ref, ScopeInterest.scope, IdentityKey.mk.injEq,
      ScopeRef.mk.injEq, ScopeKey.mk.injEq]
    tauto
  simp only [scopeDesired, interestsForScope, byIdentity, decide_eq_true_eq, gt_iff_lt,
    List.length_pos_iff_exists_mem, List.mem_filter, hid]

theorem mem_foldl_putInterest {l : List (ScopeInterest Sel)} {i : ScopeInterest Sel} (h : i ∈ l) :
    ∃ j ∈ l.foldl putInterest [], j ∈ l ∧ j.id = i.id := by
  induction l using List.reverseRecOn with
  | nil => cases h
  | append_singleton l x ih =>
    rw [List.foldl_append, List.foldl_cons, List.foldl_nil, putInterest]
    rcases List.mem_append.mp h with h | h
    · obtain ⟨j, hj, hl, he⟩ := ih h
      by_cases hx : j.id = x.id
      · exact ⟨x, by simp, by simp, hx.symm.trans he⟩
      · exact ⟨j, List.mem_append_left _ (List.mem_filter.mpr ⟨hj, by simpa using hx⟩),
          List.mem_append_left _ hl, he⟩
    · obtain rfl := List.mem_singleton.mp h
      exact ⟨i, by simp, by simp, rfl⟩

theorem mem_translate {resolve : Resolver} {snapshot : List WatchTargetState}
    (hd : DistinctKinds resolve snapshot) {state : WatchTargetState} (hs : state ∈ snapshot)
    (ht : (translateTarget lib resolve state).isSome) :
    ∃ i ∈ translate lib resolve snapshot, i.ref = state.key.ref := by
  obtain ⟨i, hi⟩ := Option.isSome_iff_exists.mp ht
  obtain ⟨j, hj, hmem, hid⟩ := mem_foldl_putInterest (List.mem_filterMap.mpr ⟨state, hs, hi⟩)
  obtain ⟨state', hs', hj'⟩ := List.mem_filterMap.mp hmem
  have hkey := hd.key_eq hs' hs hj' hi hid
  obtain ⟨r, -, hinf, hgvk, hsink⟩ := translateTarget_some hj'
  exact ⟨j, hj, by rw [ScopeInterest.ref, ScopeInterest.scope, hgvk, hsink, hinf, ← hkey]; rfl⟩

def Watching.Covering (w : Watching Sel) : Prop :=
  match w.phase with
  | .snapped => True
  | .translated desired | .stamped desired _ =>
    ∀ state ∈ w.snapshot, state ∈ w.skipped ∨ ∃ i ∈ desired, i.ref = state.key.ref
  | _ => ∀ state ∈ w.snapshot, state ∈ w.skipped ∨ w.table.scopeDesired state.key.ref = true

theorem Watching.Covering.move {a : WatchStep Sel} (h : w.Covering) (hm : Move lib queueLimit w a w')
    (ha : ∀ resolve, a = .translate resolve → DistinctKinds resolve w.snapshot) : w'.Covering := by
  cases hm with
  | snapshot => trivial
  | translate resolve hp =>
    intro state hs
    by_cases ht : (translateTarget lib resolve state).isSome
    · exact .inr (mem_translate (ha resolve rfl) hs ht)
    · exact .inl (List.mem_filter.mpr ⟨hs, by simpa using ht⟩)
  | stamp desired instant hp =>
    simpa only [Covering, hp] using h
  | replace order desired instant hp =>
    simp only [Covering, hp] at h ⊢
    intro state hs
    refine (h state hs).imp_right fun ⟨i, hi, hr⟩ => ?_
    exact InterestTable.scopeDesired_iff.mpr ⟨i, (order.perm _).mem_iff.mpr hi, hr⟩
  | receive => exact h
  | flush => exact h
  | scopeStopped _ _ _ _ hp | evicted _ _ _ _ hp | retain _ _ _ hp | halt _ _ _ _ hp | halted _ _ hp
  | launch _ _ _ _ _ _ hp | serve _ _ _ hp | scopeStarted _ _ _ _ hp | finish _ _ hp =>
    simpa only [Covering, hp] using h

theorem Watching.Covering.desired_of_wanted (h : w.Covering) (hp : w.phase.installed = true)
    {state : WatchTargetState} (hs : state ∈ w.snapshot) :
    state ∈ w.skipped ∨ w.table.scopeDesired state.key.ref = true := by
  unfold Covering at h
  split at h
  case h_4 => exact h state hs
  all_goals
    rename_i he
    rw [he] at hp
    cases hp

theorem Closing.Dooms.of_next {q : Closing} {o : Op} {a : o.Ans} {ref : ScopeRef}
    (h : (next q o a).Dooms ref) :
    q.Dooms ref ∨ (⟨o, a⟩ : Sigma Op.Ans) = ⟨.scopeDesired ref, false⟩ := by
  unfold next at h
  split at h
  · exact h.elim
  · split_ifs at h with hw
    · exact h.elim
    · cases h
      simp_all
  · exact .inl h
  · exact h.elim
  · exact .inl h

namespace Joint

variable {cfg : Config} {s s' : Joint Sel}

def closing (s : Joint Sel) (sink : String) : Option Closing :=
  (s.plane.view Closing.protocol Closing.start).phase (.boot sink)

/--
The boot goroutine finds a scope unwanted when no pass is under way to the table and no target of
the scope was skipped, and no snapshot with a target of the scope is taken before it has closed it.
-/
def BootsOnTime (s : Joint Sel) : JointStep Sel → Prop
  | .plane a => ∀ sink ref i,
      s.plane.deed (s.supply a) = some (.exec (.boot sink) (.scopeDesired ref, i)) →
      s.watch.table.scopeDesired ref = false →
      s.watch.phase.installed = true ∧ ∀ state ∈ s.watch.skipped, state.key.ref ≠ ref
  | .watch (.snapshot states) => ∀ sink, ∀ p ∈ s.closing sink, ∀ state ∈ states, ¬ p.Dooms state.key.ref
  | .watch (.translate resolve) => DistinctKinds resolve s.watch.snapshot
  | _ => True

def Unwanted (s : Joint Sel) : Prop :=
  ∀ sink, ∀ p ∈ s.closing sink, ∀ state ∈ s.watch.snapshot, ¬ p.Dooms state.key.ref

theorem Unwanted.step {x : JointStep Sel} (h : s.Unwanted) (hcov : s.watch.Covering)
    (hconf : s.plane.Conforms Closing.protocol Closing.start fun _ _ _ => True) (hok : s.BootsOnTime x)
    (hst : s.step cfg lib queueLimit x = some s') : s'.Unwanted := by
  obtain ⟨a, rfl, -, hp, hw⟩ | ⟨-, hp, hw⟩ | ⟨w, rfl, hm, hp⟩ := step_cases hst
  · obtain ⟨d, hd, hmove⟩ := (Closing.safe cfg).move hconf ((machine cfg).step_cases hp)
    intro sink p hph state hs hdoom
    rw [hw] at hs
    obtain hph | ⟨b, -, rfl⟩ | ⟨tr, o, i, ans, rfl, hq, -, hx, rfl⟩ := hmove.phase_cases hph
    · exact h sink p hph state hs hdoom
    · exact hdoom
    · obtain hold | hnew := Closing.Dooms.of_next hdoom
      · exact h sink _ hq state hs hold
      · cases hnew
        obtain ⟨j, rfl⟩ := supply_exec hd
        simp only [machine, exec, Watching.answer, Option.some.injEq, Prod.mk.injEq] at hx
        obtain ⟨hinst, hskip⟩ := hok sink _ _ hd hx.2
        rcases hcov.desired_of_wanted hinst hs with hsk | hdes
        · exact hskip state hsk rfl
        · exact Bool.false_ne_true (hx.2.symm.trans hdes)
  · intro sink p hph state hs
    rw [hw] at hs
    cases hs
  · have hclosing (sink : String) : s'.closing sink = s.closing sink := by rw [closing, hp, closing]
    intro sink p hph state hs
    rw [hclosing] at hph
    generalize s'.watch = w' at hm hs
    cases hm with
    | snapshot states => exact hok sink p hph state hs
    | _ => exact h sink p hph state hs

theorem bootsOnTime_invariant {steps : List (JointStep Sel)}
    (h : Runs.Run (Joint.step cfg lib queueLimit) BootsOnTime {} steps s) :
    s.watch.Covering ∧ s.Unwanted := by
  induction h with
  | nil => exact ⟨fun _ hs => (by cases hs), fun _ _ hp => (by cases hp)⟩
  | @snoc s s' _ x hrun hok hst ih =>
    obtain ⟨as, hplane⟩ := plane_run hrun
    refine ⟨?_, ih.2.step ih.1 ((Closing.safe cfg).conforms_of_run hplane) hok hst⟩
    obtain ⟨-, -, -, -, hw⟩ | ⟨-, -, hw⟩ | ⟨w, rfl, hm, -⟩ := step_cases hst
    · exact hw ▸ ih.1
    · rw [hw]
      exact fun _ hs => by cases hs
    · exact ih.1.move hm (by rintro resolve rfl; exact hok)

end Joint

def Joint.closes (s : Joint Sel) (a : Action) : Option (String × ScopeEvent) :=
  match s.plane.deed (s.supply a) with
  | some (.exec (.boot _) (.enqueueScopeEvent sink event, _)) => some (sink, event)
  | _ => none

theorem boot_closes_unwanted {cfg : Config} {steps : List (JointStep Sel)} {s : Joint Sel}
    {a : Action} {sink : String} {event : ScopeEvent}
    (h : Runs.Run (Joint.step cfg lib queueLimit) Joint.BootsOnTime {} steps s)
    (hc : s.closes a = some (sink, event)) :
    event.action = .stopped ∧ ∀ state ∈ s.watch.snapshot, state.key.ref ≠ ⟨sink, event.scope⟩ := by
  unfold Joint.closes at hc
  split at hc
  · rename_i boot sink' event' i hd
    cases hc
    obtain ⟨as, hplane⟩ := Joint.plane_run h
    obtain ⟨k, tr, ht⟩ := System.deed_exec hd
    obtain ⟨hact, hphase⟩ := Closing.allowed_enqueue ((Closing.safe cfg).conforms_of_run hplane _ _ ht).1
    refine ⟨hact, fun state hs he => ?_⟩
    refine (Joint.bootsOnTime_invariant h).2 boot
      (.dated ⟨sink, event.scope⟩ event.ts) ?_ state hs he.symm
    exact (Machine.view_phase ht).trans (congrArg some hphase)
  · cases hc

instance (resolve : Resolver) (snapshot : List WatchTargetState) :
    Decidable (DistinctKinds resolve snapshot) := by
  unfold DistinctKinds
  infer_instance

def installSteps (resolve : Resolver) (instant : Nat) : List (JointStep String) :=
  [.watch (.translate resolve), .watch (.stamp instant), .watch (.replace .id)]

def serveSteps (n : Nat) : List (JointStep String) :=
  [.watch .retain, .watch .halt] ++ List.replicate n (.watch (.launch true)) ++ [.watch (.serve .id)] ++
    List.replicate n (.watch .scopeStarted) ++ [.watch .finish]

def bootSteps (scope : ScopeKey) (ts : Nat) : List (JointStep String) :=
  .plane (.start (.boot "s") .run) ::
    [.reader .reader, .flag true, .scopes (some [scope]), .go, .time ts].map (.plane ∘ .exec (.boot "s"))

def Joint.Settled (s : Joint Sel) : JointStep Sel → Prop
  | .plane _ => s.watch.phase.installed = true ∧ s.watch.skipped.isEmpty
  | .watch (.snapshot _) => False
  | .watch (.translate resolve) => DistinctKinds resolve s.watch.snapshot
  | _ => True

instance (s : Joint Sel) (x : JointStep Sel) : Decidable (s.Settled x) := by
  unfold Joint.Settled
  split <;> infer_instance

theorem Joint.Settled.bootsOnTime {s : Joint Sel} {x : JointStep Sel} (h : s.Settled x) :
    s.BootsOnTime x := by
  cases x with
  | plane a =>
    refine fun _ _ _ _ _ => ⟨h.1, fun state hs => ?_⟩
    rw [List.isEmpty_iff.mp h.2] at hs
    cases hs
  | watch step =>
    cases step with
    | snapshot => exact h.elim
    | translate => exact h
    | _ => trivial

theorem orphan_closed : ∃ (s : Joint String) (a : Action) (event : ScopeEvent),
    s.closes a = some ("s", event) ∧ s.watch.snapshot.length = 1 ∧
      ∀ state ∈ s.watch.snapshot, state.key.ref ≠ ⟨"s", event.scope⟩ := by
  have hfirst : Runs.Run (Joint.step sampleConfig sampleWatchLib 10) Joint.BootsOnTime {}
      [.watch (.snapshot [podTarget "v1"])]
      { watch := { phase := .snapped, snapshot := [podTarget "v1"] } } :=
    .snoc .nil (fun _ _ hp => by cases hp) rfl
  obtain ⟨s, hrun, hc, hlen⟩ := Runs.Run.exists_of_exec
    (Joint.step sampleConfig sampleWatchLib 10) Joint.Settled
    { watch := { phase := .snapped, snapshot := [podTarget "v1"] } }
    (installSteps knowsPods 1 ++ serveSteps 1 ++ bootSteps unknownTarget.key.ref.scope 2)
    (fun s => s.closes (.exec (.boot "s") (.flag true)) =
      some ("s", { action := .stopped, scope := unknownTarget.key.ref.scope, ts := 2 }) ∧
      s.watch.snapshot.length = 1)
    (by decide)
  exact ⟨s, _, _, hc, hlen, (boot_closes_unwanted
    (hfirst.append (hrun.mono fun _ _ h => h.bootsOnTime)) hc).2⟩

def Joint.Misclosed (s : Joint Sel) : Prop :=
  ∃ row ∈ s.plane.shared.scopeLog, row.2.action = .stopped ∧
    ∃ state ∈ s.watch.snapshot, state.key.ref = ⟨row.1, row.2.scope⟩

instance (s : Joint Sel) : Decidable s.Misclosed := by
  unfold Joint.Misclosed
  infer_instance

/-- The kind does not resolve; or the target is new and its pass has not installed it yet. -/
theorem wanted_scope_closed :
    (∃ s : Joint String, Runs.Run (Joint.step sampleConfig sampleWatchLib 10) (fun _ _ => True) {}
      ([.watch (.snapshot [unknownTarget])] ++ installSteps knowsPods 1 ++ serveSteps 0 ++
        bootSteps unknownTarget.key.ref.scope 2 ++
        [.plane (.exec (.boot "s") (.flag true))]) s ∧ s.Misclosed) ∧
    ∃ s : Joint String, Runs.Run (Joint.step sampleConfig sampleWatchLib 10) (fun _ _ => True) {}
      ([.watch (.snapshot [])] ++ installSteps knowsPods 1 ++ serveSteps 0 ++
        [.watch (.snapshot [podTarget "v1"])] ++ bootSteps (podTarget "v1").key.ref.scope 2 ++
        [.plane (.exec (.boot "s") (.flag true))]) s ∧ s.Misclosed :=
  ⟨Runs.Run.exists_of_exec _ _ _ _ _ (by decide), Runs.Run.exists_of_exec _ _ _ _ _ (by decide)⟩

end Kuberecord
