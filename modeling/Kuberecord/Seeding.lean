import Kuberecord.ProcessTags

namespace Kuberecord

open Threads

inductive Seeding
  | seeking
  | failing
  | marked
  | excused
deriving DecidableEq

namespace Seeding

def next : Seeding → (o : Op) → o.Ans → Seeding
  | .seeking, .readerFor _, answer =>
    match answer with
    | .reader => .seeking
    | .notLive => .failing
    | .noStateReader => .excused
  | .seeking, .lastKnownStates _, states => if states.isNone then .failing else .seeking
  | .failing, .backoff, again | .excused, .backoff, again => if again then .seeking else .excused
  | .seeking, .markScopeWarm _, _ => .marked
  | p, _, _ => p

def protocol (ref : ScopeRef) : Protocol Op Op.Ans Seeding where
  allowed := fun p o => (∀ ref', o = .markScopeWarm ref' → ref' = ref) ∧
    (p = .seeking → ∀ sink, o = .readerFor sink → sink = ref.sink)
  next := next

def reached (tr : List (Sigma Op.Ans)) : Seeding := tr.foldl (fun p e => next p e.1 e.2) .seeking

def OnItsWay (p : Seeding) : Prop := p = .seeking ∨ p = .failing

instance (p : Seeding) : Decidable p.OnItsWay := inferInstanceAs (Decidable (_ ∨ _))

variable {cfg : Config} {ref : ScopeRef} {α : Type}

theorem obeys_marked {x : Prog α} (hx : x.Avoids Op.Plants) :
    (protocol ref).Obeys x .marked (fun _ p => p = .marked) := by
  refine (protocol ref).obeys_of_avoids hx
    (fun o ho => ⟨⟨?_, fun h => (by cases h)⟩, fun _ => rfl⟩) fun _ => rfl
  rintro ref' rfl
  exact absurd trivial ho

theorem OnItsWay.next {p : Seeding} (h : p.OnItsWay) (o : Op) (a : o.Ans) : (next p o a).OnItsWay ∨
    (∃ ref, o = .markScopeWarm ref) ∨
    (⟨o, a⟩ : Sigma Op.Ans) = ⟨.backoff, false⟩ ∨
    p = .seeking ∧ ∃ sink, (⟨o, a⟩ : Sigma Op.Ans) = ⟨.readerFor sink, .noStateReader⟩ := by
  rcases h with rfl | rfl
  · cases o with
    | readerFor sink =>
      cases a with
      | reader => exact .inl (.inl rfl)
      | notLive => exact .inl (.inr rfl)
      | noStateReader => exact .inr (.inr (.inr ⟨rfl, sink, rfl⟩))
    | lastKnownStates ref =>
      cases a with
      | none => exact .inl (.inr rfl)
      | some states => exact .inl (.inl rfl)
    | markScopeWarm ref => exact .inr (.inl ⟨ref, rfl⟩)
    | _ => exact .inl (.inl rfl)
  · cases o with
    | backoff =>
      cases a with
      | true => exact .inl (.inl rfl)
      | false => exact .inr (.inr (.inl rfl))
    | _ => exact .inl (.inr rfl)

theorem seedGroups_obeys (st : Inst) (groups : List Group) :
    (protocol ref).Obeys (groups.forM (seedGroup ref st)) .seeking (fun _ p => p = .seeking) := by
  refine Protocol.Obeys.forM (I := fun _ (p : Seeding) => p = .seeking) _ ?_ rfl
  rintro group groups _ rfl
  exact ⟨by simp [protocol], fun _ _ => rfl⟩

def Told : Option Err → Seeding → Prop
  | none, p => p = .seeking
  | some _, p => p = .failing ∨ p = .excused

theorem seedScope_obeys (ref : ScopeRef) (n : Nat) :
    (protocol ref).Obeys (seedScope ref n) .seeking (fun r p => Told r.1 p) := by
  refine retry_rule (I := fun _ (p : Seeding) => p = .seeking) ?_ ?_ n rfl
  · rintro _ _ rfl
    simp only [readState, Program.perform_bind, Program.op_bind, Protocol.obeys_op]
    refine ⟨by simp [protocol], fun answer _ => ?_⟩
    cases answer with
    | noStateReader => exact .inr rfl
    | notLive => exact .inl rfl
    | reader =>
      refine ⟨by simp [protocol], fun states _ => ?_⟩
      cases states with
      | none => exact .inl rfl
      | some states =>
        refine ⟨by simp [protocol], fun st _ => ?_⟩
        refine Protocol.Obeys.bind _ (seedGroups_obeys st _) ?_
        rintro _ _ rfl
        rfl
  · rintro e s p (rfl | rfl)
    · exact ⟨by simp [protocol], rfl, .inr rfl⟩
    · exact ⟨by simp [protocol], rfl, .inr rfl⟩

theorem warm_obeys (ref : ScopeRef) (epochStart n : Nat) :
    (protocol ref).Obeys (do warm cfg ref epochStart n; return none : Prog (Option Err)) .seeking
      (fun _ p => p ≠ .seeking) := by
  rw [Protocol.obeys_bind]
  refine Protocol.Obeys.bind _ (seedScope_obeys ref n) ?_
  rintro ⟨err, seeded, priors⟩ p hp
  cases err with
  | some e => rcases hp with rfl | rfl <;> simp
  | none =>
    cases hp
    refine ⟨by simp [protocol], fun _ _ => ?_⟩
    simp only
    split_ifs
    · exact Seeding.noConfusion
    · exact Seeding.noConfusion
    · refine (obeys_marked ((reconcileHistory_avoids epochStart n seeded priors).mono
        Op.Plants.foreign)).mono _ ?_
      rintro _ p rfl
      simp

end Seeding

end Kuberecord
