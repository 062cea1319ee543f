import Kuberecord.ProcessTags

namespace Kuberecord

open Threads

inductive Errand
  | unread (key : Key)
  | armed
  | done
  | seek
  | told (ref : ScopeRef) (states : List KnownState)
  | calm
  | opening (ref : ScopeRef)
  | opened (ref : ScopeRef) (st : Inst)
  | unmarked (ref : ScopeRef) (st : Inst)
  | swept
deriving DecidableEq

namespace Errand

def Allowed : Errand → Op → Prop
  | .unread key, o => o = .listerGet key
  | .told ref states, o =>
    match o with
    | .markScopeWarm ref' => ref' = ref
    | .storeIfAbsent st k _ => st.sink = ref.sink ∧ ∃ x ∈ states, k = (ref.key x.ns x.name).cacheKey
    | _ => True
  | .opening ref, o => o = .sinkState ref.sink
  | .opened ref st, o => o = .unmarkWarm st ref.scope
  | .unmarked ref st, o => o = .deletePrefix st ref.scope.scopeKeyPrefix
  | .done, _ | .swept, _ => False
  | .armed, o | .seek, o | .calm, o => ¬ o.Plants

def next : Errand → (o : Op) → o.Ans → Errand
  | .unread _, .listerGet _, l => if l.any Lookup.scopeActive then .armed else .done
  | .seek, .lastKnownStates ref, some states => .told ref states
  | .told _ _, .markScopeWarm _, _ => .calm
  | .opening ref, .sinkState _, st => .opened ref st
  | .opened ref st, .unmarkWarm _ _, _ => .unmarked ref st
  | .unmarked _ _, .deletePrefix _ _, _ => .swept
  | p, _, _ => p

def protocol : Protocol Op Op.Ans Errand where
  allowed := Allowed
  answers := Op.Answers
  next := next

def start : Tid → Errand
  | .worker key => .unread key
  | .warm _ => .seek
  | .boot _ => .calm
  | .evict ref => .opening ref

def Ended : Tid → Option Err → Errand → Prop
  | .evict _, _, p => p = .swept
  | _, _, _ => True

variable {cfg : Config} {key : Key} {ref : ScopeRef} {α : Type}

theorem obeys_calm {x : Prog α} (hx : x.Avoids Op.Plants) : protocol.Obeys x .calm (fun _ _ => True) :=
  protocol.obeys_of_avoids hx (fun _ ho => ⟨ho, fun _ => rfl⟩) (fun _ => trivial)

theorem obeys_armed {x : Prog α} (hx : x.Avoids Op.Plants) : protocol.Obeys x .armed (fun _ _ => True) :=
  protocol.obeys_of_avoids hx (fun _ ho => ⟨ho, fun _ => rfl⟩) (fun _ => trivial)

theorem process_obeys : protocol.Obeys (process cfg key) (.unread key) (fun _ _ => True) := by
  refine ⟨rfl, fun lookup _ => ?_⟩
  have hx := ((@process_avoids cfg key).mono Op.Plants.foreign).2 lookup
  cases lookup with
  | none => trivial
  | some l =>
    obtain ⟨obj, active⟩ := l
    cases active with
    | false => trivial
    | true => exact obeys_armed hx

theorem seed_obeys {states : List KnownState} {st : Inst} (hst : st.sink = ref.sink) :
    protocol.Obeys ((groupByIdentity states).forM (seedGroup ref st)) (.told ref states)
      (fun _ p => p = .told ref states) := by
  have loop : protocol.Obeys ((groupByIdentity states).forM (seedGroup ref st)) (.told ref states)
      (fun _ p => p = .told ref states ∧ ∀ g ∈ ([] : List Group), g ∈ groupByIdentity states) := by
    refine Protocol.Obeys.forM protocol (I := fun gs p => p = .told ref states ∧
      ∀ g ∈ gs, g ∈ groupByIdentity states) ?_
      ⟨rfl, fun _ => id⟩
    rintro g gs _ ⟨rfl, hgs⟩
    have hg := groupByIdentity_grouped states g (hgs g (.head _)) _ (split_current_mem g)
    exact ⟨⟨hst, _, hg.1, rfl⟩, fun _ _ => ⟨rfl, fun g hg => hgs g (.tail _ hg)⟩⟩
  exact loop.mono _ fun _ _ h => h.1

def Seeded (ref : ScopeRef) : Option Err → Errand → Prop
  | none, p => ∃ states, p = .told ref states
  | some _, p => p = .seek

theorem seedScope_obeys (ref : ScopeRef) (n : Nat) :
    protocol.Obeys (seedScope ref n) .seek (fun r p => Seeded ref r.1 p) := by
  refine retry_rule (I := fun _ (p : Errand) => p = .seek) ?_ ?_ n rfl
  · rintro _ _ rfl
    simp only [readState, Program.perform_bind, Program.op_bind, Protocol.obeys_op]
    refine ⟨id, fun answer _ => ?_⟩
    cases answer with
    | noStateReader | notLive => rfl
    | reader =>
      refine ⟨id, fun states _ => ?_⟩
      cases states with
      | none => rfl
      | some states =>
        refine ⟨trivial, fun st hst => ?_⟩
        refine Protocol.Obeys.bind _ (seed_obeys hst) ?_
        rintro _ _ rfl
        exact ⟨states, rfl⟩
  · rintro e s p rfl
    exact ⟨id, rfl, rfl⟩

theorem warm_obeys (ref : ScopeRef) (epochStart n : Nat) :
    protocol.Obeys (do warm cfg ref epochStart n; return none : Prog (Option Err)) .seek
    (fun _ _ => True) := by
  rw [Protocol.obeys_bind]
  refine Protocol.Obeys.bind _ (seedScope_obeys ref n) ?_
  rintro ⟨err, seeded, priors⟩ p hp
  cases err with
  | some e => trivial
  | none =>
    obtain ⟨states, rfl⟩ := hp
    refine ⟨rfl, fun _ _ => ?_⟩
    simp only
    split_ifs
    · trivial
    · trivial
    · exact obeys_calm ((reconcileHistory_avoids epochStart n seeded priors).mono Op.Plants.foreign)

theorem safe (cfg : Config) : (machine cfg).Safe protocol start Ended := by
  refine ⟨fun shared tid b shared' code hs => ?_, (machine_safe cfg).answers⟩
  cases tid <;> cases b <;>
    simp only [machine, Kuberecord.start, Option.ite_none_right_eq_some,
      Option.ite_none_left_eq_some, Option.some.injEq, Prod.mk.injEq, reduceCtorEq] at hs
  case worker.run key => exact hs.2.2 ▸ process_obeys
  case warm.warm id ref epochStart n => exact hs.2.2 ▸ warm_obeys ref epochStart n
  case boot.run sink => exact hs.2.2 ▸ obeys_calm (closeOrphanedScopes_avoids sink)
  case evict.run ref =>
    rw [← hs.2]
    exact ⟨rfl, fun _ _ => ⟨rfl, fun _ _ => ⟨rfl, fun _ _ => rfl⟩⟩⟩

end Errand

end Kuberecord
