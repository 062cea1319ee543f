import Kuberecord.Turns

namespace Kuberecord

open Threads Shared

def ScopeRef.Covers (ref : ScopeRef) (key : Key) : Prop :=
  ref.sink = key.sink ∧ (ref.scope = key.scope ∨ ref.scope = { key.scope with ns := allNamespaces })

instance (ref : ScopeRef) (key : Key) : Decidable (ref.Covers key) := inferInstanceAs (Decidable (_ ∧ _))

theorem ScopeRef.covers_iff (ref : ScopeRef) {key : Key} :
    ref.Covers key ↔ ref.sink = key.sink ∧ ref.scope.Spans key := by
  refine and_congr_right fun _ => ?_
  obtain ⟨sink, group, kind, ns⟩ := ref
  simp only [ScopeKey.Spans, Key.scope, ScopeKey.mk.injEq]
  constructor
  · rintro (⟨hgroup, hkind, hns⟩ | ⟨hgroup, hkind, hns⟩)
    · exact ⟨hgroup.symm, hkind.symm, .inr hns⟩
    · exact ⟨hgroup.symm, hkind.symm, .inl (congrArg Subtype.val hns)⟩
  · rintro ⟨hgroup, hkind, hns | hns⟩
    · exact .inr ⟨hgroup.symm, hkind.symm, Subtype.ext hns⟩
    · exact .inl ⟨hgroup.symm, hkind.symm, hns⟩

def Shared.marked (s : Shared) (st : Inst) (scope : ScopeKey) : Bool := (s.heap st).warm scope

section

variable {s s' : Shared} {st st' : Inst} {k : String} {slot : Slot} {records : List Record}
  {scope scope' : ScopeKey}
  {b : Bool} {key : Key}

theorem Shared.scopeWarm_eq (s : Shared) (st : Inst) (key : Key) : s.scopeWarm st key =
    (s.marked st key.scope || s.marked st { key.scope with ns := allNamespaces }) := rfl

@[simp]
theorem Shared.marked_setSlot : (s.setSlot st k slot).marked st' scope = s.marked st' scope := by
  by_cases hst : st' = st
  · subst hst
    simp [Shared.marked, setSlot, modify]
  · simp [Shared.marked, setSlot, modify, hst]

@[simp]
theorem Shared.marked_setCloseOuts :
    (s.setCloseOuts st k records).marked st' scope = s.marked st' scope := by
  by_cases hst : st' = st
  · subst hst
    simp [Shared.marked, setCloseOuts, modify]
  · simp [Shared.marked, setCloseOuts, modify, hst]

theorem Shared.marked_setWarm : (s.setWarm st scope b).marked st' scope' =
    if st' = st ∧ scope' = scope then b else s.marked st' scope' := by
  by_cases hst : st' = st
  · subst hst
    by_cases hs : scope' = scope
    · subst hs
      simp [Shared.marked, setWarm, modify]
    · simp [Shared.marked, setWarm, modify, hs]
  · simp [Shared.marked, setWarm, modify, hst]

theorem Shared.marked_deletePrefix {pre : String} :
    (s.modify st (fun ss => { ss with cache := ss.cache.deletePrefix pre })).marked st' scope =
    s.marked st' scope := by
  by_cases hst : st' = st
  · subst hst
    simp [Shared.marked, modify]
  · simp [Shared.marked, modify, hst]

theorem Shared.marked_callback {c : Commit} {ok : Bool} :
    (s.callback c ok).marked st scope = s.marked st scope := by
  rcases c with ⟨_, _, _, _, _, _ | _⟩ | _ | _ <;> cases ok <;>
    simp only [Shared.callback, Shared.marked_setSlot]
  all_goals rw [Shared.marked, addKey]
  all_goals first | exact Shared.marked_setSlot | exact Shared.marked_setCloseOuts

end

inductive Marking (s : Shared) : Deed → Shared → Prop
  | keep (d : Deed) (s' : Shared) : (∀ st scope, s'.marked st scope = s.marked st scope) → Marking s d s'
  | mark (tid : Tid) (ref : ScopeRef) (i : Input) :
      Marking s (.exec tid (.markScopeWarm ref, i)) (s.setWarm (s.inst ref.sink) ref.scope true)
  | unmark (tid : Tid) (st : Inst) (scope : ScopeKey) (i : Input) :
      Marking s (.exec tid (.unmarkWarm st scope, i)) (s.setWarm st scope false)
  | crash : Marking s .crash (crash s)

theorem exec_marking {s s' : Shared} {tid : Tid} {o : Op} {i : Input} {a : o.Ans}
    (h : exec s tid o i = some (s', a)) :
    Marking s (.exec tid (o, i)) s' := by
  have keep (hm : ∀ st scope, s'.marked st scope = s.marked st scope) : Marking s
    (.exec tid (o, i)) s' := .keep _ _ hm
  cases o <;> cases i <;>
    simp only [exec, Option.some.injEq, Prod.mk.injEq, reduceCtorEq, Option.ite_none_left_eq_some,
      Option.ite_none_right_eq_some] at h
  case markScopeWarm.go ref => exact h.1 ▸ .mark tid ref .go
  case unmarkWarm.go st scope => exact h.1 ▸ .unmark tid st scope .go
  case enqueue.flag => exact keep fun _ _ => by rw [← h.1]; split_ifs <;> rfl
  case enqueueScopeEvent.flag => exact keep fun _ _ => by rw [← h.1]; split_ifs <;> rfl
  case deletePrefix.go => exact keep fun _ _ => by rw [← h.1]; exact Shared.marked_deletePrefix
  case listerGet.lookup => exact keep fun _ _ => by rw [h.2.1]
  case lastKnownStates.states => exact keep fun _ _ => by rw [h.2.1]
  case scopeWasActive.active => exact keep fun _ _ => by rw [h.2.1]
  case ctxErr.flag => exact keep fun _ _ => by rw [h.2.1]
  case backoff.flag => exact keep fun _ _ => by rw [h.2.1]
  case mapOrder.order => exact keep fun _ _ => by rw [h.2.1]
  all_goals refine keep fun _ _ => ?_
  all_goals rw [← h.1]
  all_goals first | rfl | exact Shared.marked_setSlot | exact Shared.marked_setCloseOuts

theorem heap_start {cfg : Config} {s s' : Shared} {t : Tid} {b : Boot} {code : Prog (Option Err)}
    (h : start cfg s t b = some (s', code)) : s'.heap = s.heap ∧ s'.gens = s.gens := by
  cases t <;> cases b <;>
    simp only [start, Option.ite_none_right_eq_some, Option.ite_none_left_eq_some,
      Option.some.injEq, Prod.mk.injEq, reduceCtorEq] at h
  · rw [← h.2.1]
    exact ⟨rfl, rfl⟩
  · rw [← h.2.1]
    exact ⟨rfl, rfl⟩
  · rw [h.2.1]
    exact ⟨rfl, rfl⟩
  · rw [h.1]
    exact ⟨rfl, rfl⟩

theorem Shared.marked_start {cfg : Config} {s s' : Shared} {t : Tid} {b : Boot}
    {code : Prog (Option Err)} (h : start cfg s t b = some (s', code)) (st : Inst)
    (scope : ScopeKey) :
    s'.marked st scope = s.marked st scope := by
  rw [Shared.marked, (heap_start h).1, Shared.marked]

theorem Shared.marked_finish (s : Shared) (t : Tid) (r : Option Err) (st : Inst) (scope : ScopeKey) :
    (finish s t r).marked st scope = s.marked st scope := by
  unfold finish
  split <;> rfl

theorem Shared.marked_env {s s' : Shared} {e : Env} (h : env s e = some s') (st : Inst)
    (scope : ScopeKey) :
    s'.marked st scope = s.marked st scope := by
  cases e with
  | insert j =>
    simp only [env] at h
    split at h
    · cases h
      rfl
    · cases h
  | settle j ok =>
    simp only [env] at h
    split at h
    · split_ifs at h
      cases h
      exact Shared.marked_callback
    · cases h
  | add | removeSink | stopScope | forgetSink =>
    cases h
    rfl

theorem step_marking {cfg : Config} {p p' : System} {a : Action} (h : (machine cfg).Step p a p') :
    ∃ d, p.deed a = some d ∧ Marking p.shared d p'.shared := by
  cases h with
  | start t b s' code hn hs => exact ⟨_, rfl, .keep _ _ (Shared.marked_start hs)⟩
  | exec t i o k tr s' a hth hx => exact ⟨.exec t (o, i), by simp [System.deed, hth], exec_marking hx⟩
  | finish t a => exact ⟨_, rfl, .keep _ _ (Shared.marked_finish _ t a)⟩
  | env e s' he => exact ⟨_, rfl, .keep _ _ (Shared.marked_env he)⟩
  | crash => exact ⟨_, rfl, .crash⟩

theorem move_marking {cfg : Config} {φ : Type} {P : Protocol Op Op.Ans φ} {p₀ : Tid → φ}
    {Q : Tid → Option Err → φ → Prop} {v v' : View Op.Ans Tid Shared φ} {d : Deed}
    (h : (machine cfg).Move P p₀ Q v d v') : Marking v.shared d v'.shared := by
  cases h with
  | start t b s' code hn hs => exact .keep _ _ (Shared.marked_start hs)
  | exec t i o tr s' a _ _ _ hx => exact exec_marking hx
  | finish t a p => exact .keep _ _ (Shared.marked_finish _ t a)
  | env e s' he => exact .keep _ _ (Shared.marked_env he)
  | crash => exact .crash

end Kuberecord
