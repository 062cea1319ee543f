import Kuberecord.Custody

namespace Kuberecord

open Threads

inductive Closing
  | free
  | asking
  | doomed (ref : ScopeRef)
  | dated (ref : ScopeRef) (ts : Nat)
deriving DecidableEq

namespace Closing

def Allowed : Closing → Op → Prop
  | .free, _ => True
  | p, .enqueueScopeEvent sink event => event.action = .stopped ∧ p = .dated ⟨sink, event.scope⟩ event.ts
  | p, .now => ∃ ref, p = .doomed ref
  | _, _ => True

def next : Closing → (o : Op) → o.Ans → Closing
  | .free, _, _ => .free
  | _, .scopeDesired ref, wanted => if wanted then .asking else .doomed ref
  | .doomed ref, .now, ts => .dated ref ts
  | _, .enqueueScopeEvent _ _, _ => .asking
  | p, _, _ => p

def protocol : Protocol Op Op.Ans Closing where
  allowed := Allowed
  next := next

def start : Tid → Closing
  | .boot _ => .asking
  | _ => .free

def Dooms (ref : ScopeRef) : Closing → Prop
  | .doomed ref' | .dated ref' _ => ref' = ref
  | _ => False

instance (ref : ScopeRef) (p : Closing) : Decidable (p.Dooms ref) := by
  unfold Dooms
  split <;> infer_instance

theorem closeScopes_obeys (sink : String) (scopes : List ScopeKey) :
    protocol.Obeys (closeScopes sink scopes) .asking (fun _ _ => True) := by
  induction scopes with
  | nil => trivial
  | cons scope scopes ih =>
    refine ⟨trivial, fun wanted _ => ?_⟩
    cases wanted with
    | true => exact ih
    | false =>
      refine ⟨⟨_, rfl⟩, fun ts _ => ⟨⟨rfl, rfl⟩, fun accepted _ => ?_⟩⟩
      cases accepted with
      | true => exact ih
      | false => trivial

theorem closeOrphanedScopes_obeys (sink : String) :
    protocol.Obeys (closeOrphanedScopes sink) .asking (fun _ _ => True) := by
  refine ⟨trivial, fun answer _ => ?_⟩
  cases answer with
  | noStateReader | notLive => trivial
  | reader =>
    refine ⟨trivial, fun live _ => ?_⟩
    cases live with
    | false => trivial
    | true =>
      refine ⟨trivial, fun scopes _ => ?_⟩
      cases scopes with
      | none => trivial
      | some scopes => exact closeScopes_obeys sink scopes

theorem safe (cfg : Config) : (machine cfg).Safe protocol start (fun _ _ _ => True) := by
  refine ⟨fun shared t b shared' code h => ?_, fun _ _ _ _ _ _ _ => trivial⟩
  cases t with
  | boot sink =>
    cases b <;> simp only [machine, Kuberecord.start, Option.ite_none_left_eq_some,
      Option.some.injEq, Prod.mk.injEq,
      reduceCtorEq] at h
    exact h.2.2 ▸ closeOrphanedScopes_obeys sink
  | worker | warm | evict => exact protocol.obeys_of_absorbing _ (fun _ => ⟨trivial, fun _ => rfl⟩) fun _ => trivial

theorem after_asking (tr : List (Sigma Op.Ans)) : protocol.after .asking tr ≠ .free := by
  refine protocol.after_induction (I := (· ≠ .free)) (by simp) fun p o a hp => ?_
  unfold protocol next
  simp only
  split
  · exact absurd rfl hp
  · split_ifs <;> simp
  · simp
  · simp
  · exact hp

theorem allowed_enqueue {tr : List (Sigma Op.Ans)} {sink : String} {event : ScopeEvent}
    (h : protocol.allowed (protocol.after .asking tr) (.enqueueScopeEvent sink event)) :
    event.action = .stopped ∧ protocol.after .asking tr = .dated ⟨sink, event.scope⟩ event.ts := by
  have hfree := after_asking tr
  generalize protocol.after .asking tr = p at h hfree
  cases p with
  | free => exact absurd rfl hfree
  | asking | doomed | dated => exact h

end Closing

end Kuberecord
