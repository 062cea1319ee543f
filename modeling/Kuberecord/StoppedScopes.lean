import Kuberecord.ScopeAccess
import Kuberecord.KnownObjects
import Kuberecord.Slots

namespace Kuberecord

open Threads

abbrev ErrandView := View Op.Ans Tid Shared Errand

def Errand.Holds (ref : ScopeRef) : Errand → Prop
  | .told ref' states => ref' = ref ∨ ∃ x ∈ states, ref.Covers (ref'.key x.ns x.name)
  | _ => False

instance (ref : ScopeRef) (p : Errand) : Decidable (p.Holds ref) := by
  unfold Errand.Holds
  split <;> infer_instance

def Unwatched (ref : ScopeRef) : Deed → Prop
  | .exec _ (.listerGet key, .lookup _ l) => ref.Covers key → l.any Lookup.scopeActive = false
  | .env (.removeSink sink) => sink ≠ ref.sink
  | _ => True

instance (ref : ScopeRef) (d : Deed) : Decidable (Unwatched ref d) := by
  induction d using Threads.Action.casesOn with
  | exec _ x =>
    induction x using Prod.casesOn with | mk o i
    induction o using Op.casesOn with
    | listerGet key =>
      induction i using Input.casesOn with
      | lookup _ l => exact inferInstanceAs (Decidable (ref.Covers key →
          l.any Lookup.scopeActive = false))
      | _ => exact instDecidableTrue
    | _ => exact instDecidableTrue
  | env e =>
    induction e using Env.casesOn with
    | removeSink sink => exact inferInstanceAs (Decidable (sink ≠ ref.sink))
    | _ => exact instDecidableTrue
  | _ => exact instDecidableTrue

section

variable (ref : ScopeRef) (v : ErrandView)

def Unheld : Prop := ∀ tid p, v.phase tid = some p → ¬ p.Holds ref

def Unarmed : Prop := ∀ key, ref.Covers key → v.phase (.worker key) ≠ some .armed

/-- The eviction finds nobody about to write, and a history read that it outruns does not return. -/
def Orderly : Deed → Prop
  | .exec tid (.lastKnownStates ref', .states _ (some states)) =>
    v.phase tid = some .seek → ¬ (Errand.told ref' states).Holds ref
  | .exec tid (.unmarkWarm _ _, _) => tid = .evict ref → Unheld ref v
  | .exec tid (.deletePrefix _ _, _) => tid = .evict ref → Unheld ref v ∧ Unarmed ref v
  | _ => True

end

structure Shared.Vacant (s : Shared) (ref : ScopeRef) : Prop where
  entries : ∀ key, ref.Covers key → (s.slot (s.inst ref.sink) key.cacheKey).entry = none
  mark : s.marked (s.inst ref.sink) ref.scope = false

def Evicting (ref : ScopeRef) (v : ErrandView) : Option Errand → Prop
  | some (.opening ref') => ref' = ref
  | some (.opened ref' st) => ref' = ref ∧ st = v.shared.inst ref.sink
  | some (.unmarked ref' st) =>
    ref' = ref ∧ st = v.shared.inst ref.sink ∧ Unheld ref v ∧
      v.shared.marked (v.shared.inst ref.sink) ref.scope = false
  | some .swept | none => Unheld ref v ∧ Unarmed ref v ∧ v.shared.Vacant ref
  | _ => False

theorem ScopeRef.Covers.begins {ref : ScopeRef} {key : Key} (h : ref.Covers key) :
    ref.scope.scopeKeyPrefix.toList <+: key.cacheKey.toList :=
  ScopeKey.begins_iff_spans.mpr (ref.covers_iff.mp h).2

namespace Errand

variable {ref : ScopeRef} {q : Errand} {o : Op} {a : o.Ans}

theorem Holds.of_next (h : (next q o a).Holds ref) : q.Holds ref ∨ q = .seek ∧ ∃ ref' states,
    (⟨o, a⟩ : Sigma Op.Ans) = ⟨.lastKnownStates ref', some states⟩ ∧ (told ref' states).Holds ref := by
  unfold next at h
  split at h
  · split_ifs at h <;> exact h.elim
  · exact .inr ⟨rfl, _, _, rfl, h⟩
  all_goals first | exact h.elim | exact .inl h

theorem armed_of_next (h : next q o a = .armed) : q = .armed ∨ ∃ key key' l,
    q = .unread key ∧ (⟨o, a⟩ : Sigma Op.Ans) = ⟨.listerGet key', l⟩ ∧
      l.any Lookup.scopeActive = true := by
  unfold next at h
  split at h
  · split_ifs at h with hl
    exact .inr ⟨_, _, _, rfl, rfl, hl⟩
  all_goals first | exact .inl h | cases h

theorem worker_after (key : Key) (tr : Trace) : protocol.after (.unread key) tr = .unread key ∨
    protocol.after (.unread key) tr = .armed ∨ protocol.after (.unread key) tr = .done := by
  refine protocol.after_induction (I := fun p => p = .unread key ∨ p = .armed ∨ p = .done) (.inl rfl) ?_
  rintro _ o a (rfl | rfl | rfl)
  · simp only [protocol, next]
    split
    · split_ifs
      · exact .inr (.inl rfl)
      · exact .inr (.inr rfl)
    all_goals first | contradiction | exact .inl rfl
  · exact .inr (.inl rfl)
  · exact .inr (.inr rfl)

theorem Allowed.told_of_plants (h : Allowed q o) (ho : o.Plants) :
    ∃ ref states, q = .told ref states := by
  cases q with
  | told ref states => exact ⟨ref, states, rfl⟩
  | armed | seek | calm => exact absurd ho h
  | done | swept => exact h.elim
  | unread | opening | opened | unmarked =>
    cases h
    exact ho.elim

end Errand

theorem exec_lastKnownStates {s s' : Shared} {tid : Tid} {ref : ScopeRef} {i : Input}
    {states : Option (List KnownState)}
    (h : exec s tid (.lastKnownStates ref) i = some (s', states)) : i = .states ref states := by
  cases i <;> simp only [exec, reduceCtorEq, Option.ite_none_right_eq_some, Option.some.injEq,
    Prod.mk.injEq] at h
  rw [h.1, h.2.2]

theorem exec_listerGet {s s' : Shared} {tid : Tid} {key : Key} {i : Input} {l : Option Lookup}
    (h : exec s tid (.listerGet key) i = some (s', l)) : i = .lookup key l := by
  cases i <;> simp only [exec, reduceCtorEq, Option.ite_none_right_eq_some, Option.some.injEq,
    Prod.mk.injEq] at h
  rw [h.1, h.2.2]

section

variable {cfg : Config} {ref : ScopeRef} {v v' : ErrandView} {d : Deed}
  (hm : (machine cfg).Move Errand.protocol Errand.start Errand.Ended v d v')

include hm

theorem Unheld.move (h : Unheld ref v) (hd : Orderly ref v d) : Unheld ref v' := by
  intro tid p hp
  rcases hm.phase_cases hp with hp | ⟨b, -, rfl⟩ | ⟨tr, o, i, a, rfl, hq, -, hx, rfl⟩
  · exact h tid p hp
  · cases tid <;> exact id
  · intro hold
    rcases hold.of_next with hold | ⟨hseek, ref', states, heq, htold⟩
    · exact h tid _ hq hold
    · cases heq
      obtain rfl := exec_lastKnownStates hx
      exact hd (hseek ▸ hq) htold

theorem Unarmed.move (h : Unarmed ref v) (hd : Unwatched ref d) : Unarmed ref v' := by
  intro key hcov hp
  rcases hm.phase_cases hp with hp | ⟨b, -, hp⟩ | ⟨tr, o, i, a, rfl, hq, hall, hx, hp⟩
  · exact h key hcov hp
  · cases hp
  · rcases Errand.armed_of_next hp.symm with hp | ⟨key', key'', l, hun, heq, hl⟩
    · exact h key hcov (hp ▸ hq)
    · cases heq
      have hkey : key' = key := by
        rcases Errand.worker_after key tr with ha | ha | ha <;> cases hun.symm.trans ha
        rfl
      rw [hun, hkey] at hall
      cases hall
      obtain rfl := exec_listerGet hx
      have hl' := hd hcov
      rw [hl] at hl'
      cases hl'

theorem Unheld.plants {tid : Tid} {o : Op} {i : Input} (hu : Unheld ref v)
    (hd : d = .exec tid (o, i)) (ho : o.Plants) :
    ∃ ref' states, ¬ (Errand.told ref' states).Holds ref ∧ (Errand.told ref' states).Allowed o := by
  subst hd
  obtain ⟨tr, hq, hall⟩ := hm.allowed
  obtain ⟨ref', states, hp⟩ := Errand.Allowed.told_of_plants hall ho
  rw [hp] at hq hall
  exact ⟨ref', states, hu tid _ hq, hall⟩

theorem mark_move (hu : Unheld ref v) (h : v.shared.marked (v.shared.inst ref.sink) ref.scope = false)
    (hc : d ≠ .crash) : v'.shared.marked (v.shared.inst ref.sink) ref.scope = false := by
  have hmark := move_marking hm
  generalize v'.shared = s' at hmark ⊢
  cases hmark with
  | keep _ _ hk => rwa [hk]
  | mark tid ref' i =>
    rw [Shared.marked_setWarm]
    split_ifs with heq
    · obtain ⟨ref'', states, hold, rfl⟩ := hu.plants hm rfl trivial
      obtain ⟨hinst, hscope⟩ := heq
      have hsink : ref.sink = ref'.sink := congrArg Inst.sink hinst
      exact absurd (.inl (by cases ref; cases ref'; simp_all)) hold
    · exact h
  | unmark =>
    rw [Shared.marked_setWarm]
    split_ifs
    · rfl
    · exact h
  | crash => exact absurd rfl hc

theorem entries_move {c c' : View Op.Ans Tid Shared Hand} (hs : (viewWorld c).Sound cfg)
    (ht : Turn cfg (viewWorld c) d (viewWorld c')) (hshared : v.shared = c.shared)
    (hshared' : v'.shared = c'.shared) (hu : Unheld ref v) (ha : Unarmed ref v) {key : Key}
    (hcov : ref.Covers key)
    (h : (v.shared.slot (v.shared.inst ref.sink) key.cacheKey).entry = none) :
    (v'.shared.slot (v.shared.inst ref.sink) key.cacheKey).entry = none := by
  rw [hshared']
  rcases (hs.touch ht (v.shared.inst ref.sink) key.cacheKey).absent (hshared ▸ h) with h | ⟨key', e,
    hown, hd⟩ | ⟨tid, e, hd⟩
  · exact h
  · obtain rfl : key = key' := Key.Owns.unique ⟨hcov.1, rfl⟩ hown
    subst hd
    obtain ⟨tr, hq, hall⟩ := hm.allowed
    rcases Errand.worker_after key tr with hp | hp | hp
    · rw [Errand.start, hp] at hall
      cases hall
    · rw [Errand.start, hp] at hq
      exact absurd hq (ha key hcov)
    · rw [Errand.start, hp] at hall
      exact hall.elim
  · obtain ⟨ref', states, hold, hsink, x, hx, hkey⟩ := hu.plants hm hd trivial
    refine absurd (.inr ⟨x, hx, ?_⟩) hold
    rwa [← Key.eq_of_cacheKey (l := ref'.key x.ns x.name) (hcov.1.symm.trans hsink) hkey]

end

structure Stopping (cfg : Config) (ref : ScopeRef) (c : View Op.Ans Tid Shared Hand)
    (v : ErrandView) : Prop where
  shared : v.shared = c.shared
  sound : (viewWorld c).Sound cfg
  evicting : Evicting ref v (v.phase (.evict ref))

section

variable {cfg : Config} {ref : ScopeRef} {c c' : View Op.Ans Tid Shared Hand}
  {v v' : ErrandView} {d : Deed}
  (h : Stopping cfg ref c v) (hd : Unwatched ref d) (ho : Orderly ref v d) (hc : d ≠ .crash)
  (hm : (machine cfg).Move (custody cfg) Hand.start Hand.Ended c d c')
  (hm' : (machine cfg).Move Errand.protocol Errand.start Errand.Ended v d v')
    (hshared : v'.shared = c'.shared)

include h hd hc hm hshared in
theorem Stopping.inst : v'.shared.inst ref.sink = v.shared.inst ref.sink := by
  have hg := (move_turn hm).gens ref.sink (by rintro rfl; exact hd rfl) hc
  rw [hshared, h.shared]
  exact congrArg (Inst.mk ref.sink) hg

include h hd ho hc hm hm' hshared in
theorem Stopping.keep {x : Option Errand} (hx : Evicting ref v x) : Evicting ref v' x := by
  have hinst := h.inst hd hc hm hshared
  have vacant (hu : Unheld ref v) (ha : Unarmed ref v)
    (hv : v.shared.Vacant ref) : v'.shared.Vacant ref := by
    refine ⟨fun key hcov => ?_, ?_⟩
    · rw [hinst]
      exact entries_move hm' h.sound (move_turn hm) h.shared hshared hu ha hcov (hv.entries key hcov)
    · rw [hinst]
      exact mark_move hm' hu hv.mark hc
  match x with
  | some (.opening _) => exact hx
  | some (.opened _ _) => exact ⟨hx.1, hx.2.trans hinst.symm⟩
  | some (.unmarked _ _) =>
    obtain ⟨hr, hst, hu, hmark⟩ := hx
    refine ⟨hr, hst.trans hinst.symm, hu.move hm' ho, ?_⟩
    rw [hinst]
    exact mark_move hm' hu hmark hc
  | some .swept => exact ⟨hx.1.move hm' ho, hx.2.1.move hm' hd, vacant hx.1 hx.2.1 hx.2.2⟩
  | none => exact ⟨hx.1.move hm' ho, hx.2.1.move hm' hd, vacant hx.1 hx.2.1 hx.2.2⟩

include h hd ho hc hm hm' hshared in
theorem Stopping.evict {p : Errand} {o : Op} {i : Input} {a : o.Ans}
    (hdo : d = .exec (.evict ref) (o, i)) (hp : Evicting ref v (some p)) (hall : p.Allowed o)
    (hx : exec v.shared (.evict ref) o i = some (v'.shared, a)) :
    Evicting ref v' (some (p.next o a)) := by
  have hinst := h.inst hd hc hm hshared
  subst hdo
  match p with
  | .opening ref' =>
    cases hall
    obtain rfl : ref' = ref := hp
    cases i <;> simp only [exec, Option.some.injEq, Prod.mk.injEq, reduceCtorEq] at hx
    exact ⟨rfl, hx.2 ▸ hinst.symm⟩
  | .opened ref' st =>
    cases hall
    obtain ⟨rfl, rfl⟩ := hp
    refine ⟨rfl, hinst.symm, (ho rfl).move hm' ho, ?_⟩
    rw [hinst]
    cases i <;> simp only [exec, Option.some.injEq, Prod.mk.injEq, reduceCtorEq] at hx
    rw [← hx.1, Shared.marked_setWarm, if_pos ⟨rfl, rfl⟩]
  | .unmarked ref' st =>
    cases hall
    obtain ⟨rfl, rfl, -, hmark⟩ := hp
    obtain ⟨hu, ha⟩ := ho rfl
    refine ⟨hu.move hm' ho, ha.move hm' hd, fun key hcov => ?_, ?_⟩
    · rw [hinst]
      cases i <;> simp only [exec, Option.some.injEq, Prod.mk.injEq, reduceCtorEq] at hx
      rw [← hx.1, Shared.slot_deletePrefix, if_pos ⟨rfl, hcov.begins⟩]
      rfl
    · rw [hinst]
      exact mark_move hm' hu hmark hc
  | .swept => exact hall.elim

end

theorem Stopping.move {cfg : Config} {ref : ScopeRef} {c c' : View Op.Ans Tid Shared Hand}
    {v v' : ErrandView} {d : Deed} (h : Stopping cfg ref c v) (hd : Unwatched ref d)
    (ho : Orderly ref v d) (hm : (machine cfg).Move (custody cfg) Hand.start Hand.Ended c d c')
    (hm' : (machine cfg).Move Errand.protocol Errand.start Errand.Ended v d v')
    (hshared : v'.shared = c'.shared) :
    Stopping cfg ref c' v' := by
  refine ⟨hshared, h.sound.turn (move_turn hm), ?_⟩
  have keep (hc : d ≠ .crash) : Evicting ref v' (v.phase (.evict ref)) :=
    h.keep hd ho hc hm hm' hshared h.evicting
  by_cases hact : d.actor = some (.evict ref)
  · have hc : d ≠ .crash := by
      rintro rfl
      cases hact
    have hmove := hm'
    cases hm' with
    | start t b s' code =>
      cases hact
      simp only [Function.update_self]
      rfl
    | exec t i o tr s' a hq hall _ hx =>
      cases hact
      simp only [Function.update_self]
      exact h.evict hd ho hc hm hmove hshared rfl (hq ▸ h.evicting) hall hx
    | finish t a p hq hend =>
      cases hact
      simp only [Function.update_self]
      obtain rfl : p = .swept := hend
      have hswept := keep hc
      rw [hq] at hswept
      exact hswept
    | env | crash => cases hact
  · by_cases hc : d = .crash
    · subst hc
      cases hm'
      exact ⟨fun _ _ hp => (by cases hp), fun _ _ hp => (by cases hp), fun _ _ => rfl, rfl⟩
    · rw [hm'.phase_of_ne hact hc]
      exact keep hc

def System.Clears (ref : ScopeRef) (s : System) (d : Deed) : Prop :=
  Unwatched ref d ∧ Orderly ref (s.view Errand.protocol Errand.start) d

theorem stopped_scope_vacant {cfg : Config} {ref : ScopeRef} {as bs : List Action} {s₀ s₁ s : System}
    (h : Runs.Run (machine cfg).step (fun _ _ => True) { shared := {} } as s₀)
    (hev : (machine cfg).step s₀ (.start (.evict ref) .run) = some s₁)
    (h' : Runs.Run (machine cfg).step (fun s a => ∀ d ∈ s.deed a, System.Clears ref s d) s₁ bs s)
    (hend : s.threads (.evict ref) = none) : s.shared.Vacant ref := by
  have hrun := h.snoc trivial hev
  have hsound : (worldOf cfg s₁).Sound cfg :=
    World.invariant_deed (fun _ _ => True) (hrun.mono fun _ _ _ _ _ => trivial)
      (fun _ _ _ hw _ ht => hw.turn ht) .empty
  have hstart : Stopping cfg ref (s₁.view (custody cfg) Hand.start)
    (s₁.view Errand.protocol Errand.start) := by
    refine ⟨rfl, hsound, ?_⟩
    cases (machine cfg).step_cases hev with
    | start t b s' code hn hs => simp [System.view, Evicting, Errand.start]
  have hstop := ((machine_safe cfg).invariant_from (Errand.safe cfg) (I := fun s =>
    Stopping cfg ref (s.view (custody cfg) Hand.start) (s.view Errand.protocol Errand.start)) h'
    ((machine_safe cfg).conforms_of_run hrun) ((Errand.safe cfg).conforms_of_run hrun) ?_ hstart).2.2
  · have hevicting := hstop.evicting
    simp only [System.view, hend, Option.map_none] at hevicting
    exact hevicting.2.2
  · intro s a d s' hi hok hd hm hm'
    obtain ⟨hun, hord⟩ := hok d hd
    exact hi.move hun hord hm hm' rfl

def evictSteps : List Action :=
  [.go, .go, .go].map (.exec (.evict sampleScope)) ++ [.finish (.evict sampleScope)] ++
    processSteps [.lookup sampleKey (some ⟨none, false⟩)]

def sampleTids : List Tid := [.warm 0, .worker sampleKey, .evict sampleScope]

theorem late_commit_leaves_scope_vacant : ∃ s₀ s : System,
    (s₀.shared.slot (s₀.shared.inst "s") sampleKey.cacheKey).entry ≠ none ∧
      s₀.shared.marked (s₀.shared.inst "s") sampleKey.scope = true ∧ s.shared.Vacant sampleScope := by
  obtain ⟨s₀, hrun, hentry, hmark, hrest⟩ :=
    Runs.Run.exists_of_exec (machine sampleConfig).step (fun _ _ => True)
    { shared := {} } (seedSteps "u" "h1" 1 ++ modifiedSteps "u" 2 2 ++ [.env (.stopScope sampleScope)])
    (fun s => (s.shared.slot (s.shared.inst "s") sampleKey.cacheKey).entry ≠ none ∧
      s.shared.marked (s.shared.inst "s") sampleKey.scope = true ∧
      ((machine sampleConfig).step s (.start (.evict sampleScope) .run)).any (fun s =>
        (Runs.exec (machine sampleConfig).step
          (fun s a => (∀ d ∈ s.deed a, Unwatched sampleScope d) ∧
            (∀ tid ∈ sampleTids, ∀ p ∈ (s.view Errand.protocol Errand.start).phase tid,
              ¬ p.Holds sampleScope ∧ p ≠ .seek) ∧
            (s.view Errand.protocol Errand.start).phase (.worker sampleKey) ≠ some .armed)
          s (evictSteps ++ landSteps 0)).any (fun s => (s.threads (.evict sampleScope)).isNone)) =
          true) (by decide)
  obtain ⟨s₁, hev, hrest⟩ := (Option.any_eq_true _ _).mp hrest
  obtain ⟨s, hs, hend⟩ := (Option.any_eq_true _ _).mp hrest
  refine ⟨s₀, s, hentry, hmark, stopped_scope_vacant hrun hev ((Runs.Run.of_exec hs).mono_of_run ?_)
    (Option.isNone_iff_eq_none.mp hend)⟩
  rintro bs t a hp hbs ⟨hun, hphase, hwork⟩ d hd
  have hother (tid : Tid) (ht : tid ∉ sampleTids) : t.threads tid = none := by
    refine Machine.threads_of_starts ((hrun.snoc trivial hev).append (hbs.mono fun _ _ _ => trivial))
      (p := (· ∈ sampleTids)) (fun b hb => ?_) ht
    have hall : ∀ a ∈ seedSteps "u" "h1" 1 ++ modifiedSteps "u" 2 2 ++ [.env (.stopScope sampleScope)] ++
        [.start (.evict sampleScope) .run] ++ (evictSteps ++ landSteps 0), ∀ t ∈ a.starts,
        t ∈ sampleTids := by decide
    refine hall b ?_
    rcases List.mem_append.mp hb with hb | hb
    · exact List.mem_append_left _ hb
    · exact List.mem_append_right _ (hp.subset (List.mem_append_left _ hb))
  have hclear (tid : Tid) (p : Errand) (hp : (t.view Errand.protocol Errand.start).phase tid = some p) :
      ¬ p.Holds sampleScope ∧ p ≠ .seek := by
    by_cases ht : tid ∈ sampleTids
    · exact hphase tid ht p hp
    · simp [System.view, hother tid ht] at hp
  have hunarmed : Unarmed sampleScope (t.view Errand.protocol Errand.start) := by
    intro key _ hp
    by_cases ht : key = sampleKey
    · exact hwork (ht ▸ hp)
    · simp [System.view, hother (.worker key) (by simp [sampleTids, ht])] at hp
  refine ⟨hun d hd, ?_⟩
  unfold Orderly
  split
  · exact fun hseek => absurd rfl (hclear _ _ hseek).2
  · exact fun _ tid p hp => (hclear tid p hp).1
  · exact fun _ => ⟨fun tid p hp => (hclear tid p hp).1, hunarmed⟩
  · trivial

def StopRun (ref : ScopeRef) (as bs : List Action) (s : System) : Prop :=
  (∃ s₀, Runs.Run (machine sampleConfig).step (fun _ _ => True) { shared := {} } as s₀ ∧
    Runs.Run (machine sampleConfig).step (fun s a => ∀ d ∈ s.deed a, Unwatched ref d) s₀
      ([.env (.stopScope ref), .start (.evict ref) .run] ++ bs) s) ∧
    (∀ a ∈ bs, a.starts = none) ∧ (∀ t, s.threads t = none) ∧ ∀ h ∈ s.shared.jobs, h.status ≠ .inFlight

theorem StopRun.of_exec (as bs : List Action) (P : System → Prop) [DecidablePred P]
    (hstarts : ∀ a ∈ as, ∀ t ∈ a.starts, t ∈ sampleTids) (hnone : ∀ a ∈ bs, a.starts = none)
    (h : (Runs.exec (machine sampleConfig).step (fun _ _ => True) { shared := {} } as).any (fun s =>
      (Runs.exec (machine sampleConfig).step (fun s a => ∀ d ∈ s.deed a, Unwatched sampleScope d) s
        ([.env (.stopScope sampleScope), .start (.evict sampleScope) .run] ++ bs)).any (fun s =>
          (∀ t ∈ sampleTids, (s.threads t).isNone) ∧ (∀ h ∈ s.shared.jobs, h.status ≠ .inFlight) ∧
            P s)) = true) :
    ∃ s, StopRun sampleScope as bs s ∧ P s := by
  obtain ⟨s₀, hs₀, h⟩ := (Option.any_eq_true _ _).mp h
  obtain ⟨s, hs, h⟩ := (Option.any_eq_true _ _).mp h
  obtain ⟨hthreads, hjobs, hP⟩ := of_decide_eq_true h
  have hrun := Runs.Run.of_exec hs₀
  have hrun' := Runs.Run.of_exec hs
  refine ⟨s, ⟨⟨s₀, hrun, hrun'⟩, hnone, fun t => ?_, hjobs⟩, hP⟩
  by_cases ht : t ∈ sampleTids
  · exact Option.isNone_iff_eq_none.mp (hthreads t ht)
  · have hall := hrun.append (hrun'.mono fun _ _ _ => trivial)
    have hpass : ∀ a ∈ ([.env (.stopScope sampleScope), .start (.evict sampleScope) .run] : List Action),
        ∀ t ∈ a.starts, t ∈ sampleTids := by decide
    have hp : ∀ a ∈ as ++ ([.env (.stopScope sampleScope), .start (.evict sampleScope) .run] ++ bs),
        ∀ t ∈ a.starts, t ∈ sampleTids := by
      intro a ha t' ht'
      rcases List.mem_append.mp ha with ha | ha
      · exact hstarts a ha t' ht'
      · rcases List.mem_append.mp ha with ha | ha
        · exact hpass a ha t' ht'
        · rw [hnone a ha] at ht'
          cases ht'
    exact Machine.threads_of_starts hall hp ht

def overtakenSteps (tid : Tid) (inputs : List Input) : List Action :=
  [.go, .go, .go].map (.exec (.evict sampleScope)) ++ [.finish (.evict sampleScope)] ++
    inputs.map (.exec tid) ++
    [.finish tid]

/--
A worker past its lister read puts an entry back; a history read that returns late puts the entry
and the mark back.
-/
theorem stopped_scope_repopulated :
    (∃ as bs s, StopRun sampleScope as bs s ∧
      (s.shared.slot (s.shared.inst "s") sampleKey.cacheKey).entry ≠ none) ∧
    ∃ as bs s, StopRun sampleScope as bs s ∧
      (s.shared.slot (s.shared.inst "s") sampleKey.cacheKey).entry ≠ none ∧
      s.shared.marked (s.shared.inst "s") sampleKey.scope = true := by
  have hworker := StopRun.of_exec
    [.env (.add sampleKey), .start (.worker sampleKey) .run,
      .exec (.worker sampleKey) (.lookup sampleKey (some ⟨some (sampleObject "u" 1), true⟩))]
    (overtakenSteps (.worker sampleKey)
      [.writer (some {}), .go, .go, .policy (some none), .go, .go, .go, .time 1, .flag true] ++
      landSteps 0)
    (fun s => (s.shared.slot (s.shared.inst "s") sampleKey.cacheKey).entry ≠ none) (by decide)
      (by decide) (by decide)
  have hwarm := StopRun.of_exec [.start (.warm 0) (.warm sampleScope 0 1),
    .exec (.warm 0) (.reader .reader)]
    (overtakenSteps (.warm 0)
      [.states sampleScope (some [sampleState "u" "h1" 1]), .go, .go, .go, .flag false, .flag false])
    (fun s => (s.shared.slot (s.shared.inst "s") sampleKey.cacheKey).entry ≠ none ∧
      s.shared.marked (s.shared.inst "s") sampleKey.scope = true) (by decide) (by decide) (by decide)
  exact ⟨⟨_, _, hworker⟩, ⟨_, _, hwarm⟩⟩

end Kuberecord
