import Kuberecord.ProcessTags
import Mathlib.Data.List.Induction

/-!
What a goroutine has to do with a sink: whose writer or reader it has looked up, the state it has
attached itself to since, and the entry it has loaded from there.
-/

namespace Kuberecord

open Threads

structure Grip where
  owner : Tid
  sink : Option String := none
  st : Option Inst := none
  base : Option (String × CacheEntry) := none

def Op.compares : Op → Bool
  | .dedupSkip => true
  | .enqueue _ ⟨record, .upsert _ _ _ _ _ _⟩ =>
    record.eventType = .modified ∨ record.eventType = .checkpoint
  | _ => false

namespace Grip

def Based (g : Grip) : Prop := ∀ key, g.owner = .worker key →
  ∃ st e, g.st = some st ∧ st.sink = key.sink ∧ g.base = some (key.cacheKey, e)

def Allowed (g : Grip) : Op → Prop
  | .storeIfAbsent st _ _ => g.st = some st
  | .load st _ | .reserve st _ _ => g.owner.isWorker = true → g.st = some st
  | .dedupSkip => g.Based
  | .enqueue _ ⟨record, .upsert _ _ _ _ _ _⟩ =>
    record.eventType = .modified ∨ record.eventType = .checkpoint → g.Based
  | _ => True

def next (g : Grip) : (o : Op) → o.Ans → Grip
  | .writerFor sink, w => { owner := g.owner, sink := w.map fun _ => sink }
  | .readerFor sink, .reader => { owner := g.owner, sink := some sink }
  | .readerFor _, _ => { owner := g.owner }
  | .sinkState _, st =>
    -- a grip is good for one state
    if g.st = none ∧ g.sink = some st.sink then { g with st := some st, base := none } else
      { owner := g.owner }
  | .load st k, e => { g with base := if g.st = some st then e.map (k, ·) else none }
  | _, _ => g

def protocol : Protocol Op Op.Ans Grip where
  allowed := Allowed
  answers := Op.Answers
  next := next

def start (tid : Tid) : Grip := { owner := tid }

variable {cfg : Config} {key : Key} {st : Inst} {g : Grip} {ref : ScopeRef}

theorem enqueueCloseOut_obeys {k : String} {r : Record} :
    protocol.Obeys (enqueueCloseOut key st k r) g (fun _ g' => g' = g) := by
  simp only [enqueueCloseOut, Program.perform_bind, Protocol.obeys_op]
  refine ⟨trivial, fun accepted _ => ?_⟩
  cases accepted with
  | true => rfl
  | false => exact ⟨trivial, fun _ _ => ⟨trivial, fun _ _ => rfl⟩⟩

theorem retryPendingCloseOuts_obeys {k : String} :
    protocol.Obeys (retryPendingCloseOuts key st k) g (fun _ g' => g' = g) := by
  simp only [retryPendingCloseOuts, Program.perform_bind, Protocol.obeys_op]
  refine ⟨trivial, fun records _ => ?_⟩
  refine Protocol.Obeys.forM _ (I := fun _ g' => g' = g) ?_ rfl
  rintro record records g' rfl
  exact enqueueCloseOut_obeys

theorem closeOutSuperseded_obeys {e : CacheEntry} :
    protocol.Obeys (closeOutSuperseded cfg key st e) g (fun _ g' => g' = g) := by
  unfold closeOutSuperseded
  split_ifs
  · rfl
  · refine ⟨trivial, fun claim _ => ?_⟩
    cases claim with
    | claimed e t => exact ⟨trivial, fun ts _ => enqueueCloseOut_obeys⟩
    | absent | inFlight | uidMismatch => rfl

theorem emitDelete_obeys {uid : String} :
    protocol.Obeys (emitDelete cfg key st uid) g (fun _ _ => True) := by
  simp only [emitDelete, Program.perform_bind, Protocol.obeys_op]
  refine ⟨trivial, fun claim _ => ?_⟩
  cases claim with
  | claimed e t =>
    refine ⟨trivial, fun ts _ => ⟨trivial, fun accepted _ => ?_⟩⟩
    cases accepted with
    | true => trivial
    | false => exact ⟨trivial, fun _ _ => trivial⟩
  | absent | inFlight | uidMismatch => trivial

theorem issueUpsert_obeys {norm : NormalizedObject} {plan : Plan} (hst : g.st = some st)
    (hplan : plan.eventType = .modified ∨ plan.eventType = .checkpoint → g.Based) :
    protocol.Obeys (issueUpsert cfg key st norm plan) g (fun _ _ => True) := by
  simp only [issueUpsert, Program.perform_bind, Protocol.obeys_op]
  refine ⟨fun _ => hst, fun t _ => ⟨trivial, fun ts _ => ⟨hplan, fun accepted _ => ?_⟩⟩⟩
  cases accepted with
  | true => trivial
  | false =>
    rcases plan with ⟨_, _, _, _, _ | revertEntry⟩
    · exact ⟨trivial, fun _ _ => trivial⟩
    · exact ⟨trivial, fun _ _ => trivial⟩

theorem processUpsert_obeys {writer : Writer} {obj : Json} (hg : g.owner = .worker key)
    (hst : g.st = some st) (hsink : st.sink = key.sink) :
    protocol.Obeys (processUpsert cfg key st writer obj) g (fun _ _ => True) := by
  have hfirst {norm : NormalizedObject} {plan : Plan} {g' : Grip} (hst : g'.st = some st)
      (hrow : plan.eventType ≠ .modified ∧ plan.eventType ≠ .checkpoint) :
      protocol.Obeys (issueUpsert cfg key st norm plan) g' (fun _ _ => True) :=
    issueUpsert_obeys hst fun h => (h.elim hrow.1 hrow.2).elim
  simp only [processUpsert, Program.perform_bind, Protocol.obeys_op]
  refine ⟨trivial, fun policy _ => ?_⟩
  cases policy with
  | none => trivial
  | some policy =>
    cases hn : normalizeObject cfg.lib obj policy with
    | none => simp [hn]
    | some norm =>
      simp only [hn]
      refine ⟨fun _ => hst, fun entry _ => ?_⟩
      cases entry with
      | none =>
        simp only
        split_ifs
        · exact hfirst hst (by decide)
        · refine ⟨trivial, fun warm _ => hfirst hst ?_⟩
          cases warm <;> decide
      | some entry =>
        have hbase : (protocol.next g (.load st key.cacheKey) (some entry)).Based := by
          intro key' hk
          obtain rfl : key = key' := Tid.worker.inj (hg.symm.trans hk)
          exact ⟨st, entry, hst, hsink, if_pos hst⟩
        simp only
        split_ifs
        · refine Protocol.Obeys.bind _ closeOutSuperseded_obeys ?_
          rintro _ _ rfl
          exact hfirst hst (by decide)
        · exact ⟨hbase, fun _ _ => trivial⟩
        · exact issueUpsert_obeys hst fun _ => hbase

theorem process_obeys : protocol.Obeys (process cfg key) (start (.worker key)) (fun _ _ => True) := by
  simp only [process, Program.perform_bind, Protocol.obeys_op]
  refine ⟨trivial, fun lookup _ => ?_⟩
  cases lookup with
  | none => trivial
  | some lookup =>
    simp only
    split_ifs
    · trivial
    · refine ⟨trivial, fun st _ => ⟨trivial, fun claim _ => ?_⟩⟩
      cases claim with
      | claimed e t => exact ⟨trivial, fun _ _ => trivial⟩
      | absent | inFlight | uidMismatch => trivial
    · refine ⟨trivial, fun writer _ => ?_⟩
      cases writer with
      | none => trivial
      | some writer =>
        refine ⟨trivial, fun st hst => ?_⟩
        refine Protocol.Obeys.bind _ retryPendingCloseOuts_obeys ?_
        rintro _ _ rfl
        cases lookup.obj with
        | none => exact Protocol.Obeys.bind _ emitDelete_obeys fun _ _ _ => trivial
        | some obj =>
          have hsink : st.sink = key.sink := hst
          exact processUpsert_obeys (by simp [protocol, next, start, hsink])
            (by simp [protocol, next, start, hsink]) hsink

theorem owner_next (g : Grip) (o : Op) (a : o.Ans) : (g.next o a).owner = g.owner := by
  unfold next
  split
  case h_4 => split_ifs <;> rfl
  all_goals rfl

theorem owner_after (t : Tid) (tr : List (Sigma Op.Ans)) : (protocol.after (start t) tr).owner = t :=
  Protocol.after_induction _ (I := fun g : Grip => g.owner = t) rfl
    fun g o a h => (owner_next g o a).trans h

theorem Allowed.based {o : Op} (h : g.Allowed o) (ho : o.compares = true) : g.Based := by
  unfold Op.compares at ho
  split at ho
  · exact h
  · exact h (of_decide_eq_true ho)
  · cases ho

theorem base_of_next {o : Op} {a : o.Ans} {b : String × CacheEntry} (hb : (g.next o a).base = some b) :
    (g.next o a).st = g.st ∧
      (g.base = some b ∨ ∃ st, g.st = some st ∧ (⟨o, a⟩ : Sigma Op.Ans) = ⟨.load st b.1, some b.2⟩) := by
  unfold next at hb ⊢
  split at hb
  · cases hb
  · cases hb
  · cases hb
  · split_ifs at hb
  · split_ifs at hb with hst
    obtain ⟨e, rfl, rfl⟩ := Option.map_eq_some_iff.mp hb
    exact ⟨rfl, .inr ⟨_, hst, rfl⟩⟩
  · exact ⟨rfl, .inl hb⟩

theorem loaded_of_base {t : Tid} {tr : List (Sigma Op.Ans)} {k : String} {e : CacheEntry}
    (hst : (protocol.after (start t) tr).st = some st)
    (hb : (protocol.after (start t) tr).base = some (k, e)) :
    (⟨.load st k, some e⟩ : Sigma Op.Ans) ∈ tr := by
  induction tr using List.reverseRecOn with
  | nil => cases hb
  | append_singleton tr x ih =>
    rw [protocol.after_snoc] at hst hb
    obtain ⟨hkeep, hold | ⟨st', hst', hx⟩⟩ := base_of_next hb
    · exact List.mem_append_left _ (ih (hkeep.symm.trans hst) hold)
    · obtain rfl : st' = st := Option.some.inj (hst'.symm.trans (hkeep.symm.trans hst))
      exact List.mem_append_right _ (List.mem_singleton.mpr hx.symm)

theorem obeys_aside {α : Type} {x : Prog α} (hx : x.Avoids Op.Plants) (hg : g.owner.isWorker = false) :
    protocol.Obeys x g (fun _ g' => g'.owner.isWorker = false) := by
  refine protocol.obeys_of_confined hx
    (fun g o hg ho => ⟨?_, fun a => (congrArg Tid.isWorker (owner_next g o a)).trans hg⟩) hg
  have hnot : g.owner.isWorker ≠ true := by simp [hg]
  change Allowed g o
  unfold Allowed
  split
  · exact absurd trivial ho
  · exact fun h => absurd h hnot
  · exact fun h => absurd h hnot
  · exact fun key hk => absurd (congrArg Tid.isWorker hk) hnot
  · exact fun _ key hk => absurd (congrArg Tid.isWorker hk) hnot
  · trivial

theorem seedScope_obeys (ref : ScopeRef) (n : Nat) (hg : g.owner.isWorker = false) :
    protocol.Obeys (seedScope ref n) g (fun _ g' => g'.owner.isWorker = false) := by
  refine retry_rule (I := fun _ (g : Grip) => g.owner.isWorker = false) (fun _ g hg => ?_) ?_ n hg
  · simp only [readState, Program.perform_bind, Program.op_bind, Protocol.obeys_op]
    refine ⟨trivial, fun answer _ => ?_⟩
    cases answer with
    | noStateReader | notLive => exact hg
    | reader =>
      refine ⟨trivial, fun states _ => ?_⟩
      cases states with
      | none => exact hg
      | some states =>
        refine ⟨trivial, fun st hst => ?_⟩
        refine Protocol.Obeys.bind _ (Protocol.Obeys.forM _
          (I := fun _ (g' : Grip) => g'.owner.isWorker = false ∧ g'.st = some st) ?_ ?_) fun _ _ h => h.1
        · exact fun group groups g' hg' => ⟨hg'.2, fun _ _ => hg'⟩
        · simp [protocol, next, show st.sink = ref.sink from hst, hg]
  · exact fun e s g hg => ⟨trivial, hg, hg⟩

theorem warm_obeys (ref : ScopeRef) (epochStart n : Nat) (hg : g.owner.isWorker = false) :
    protocol.Obeys (do warm cfg ref epochStart n; return none : Prog (Option Err)) g
    (fun _ _ => True) := by
  rw [Protocol.obeys_bind]
  refine Protocol.Obeys.bind _ (seedScope_obeys ref n hg) ?_
  rintro ⟨err, seeded, priors⟩ g' hg'
  cases err with
  | some e => trivial
  | none =>
    refine ⟨trivial, fun _ _ => ?_⟩
    simp only
    split_ifs
    · trivial
    · trivial
    · exact Protocol.Obeys.mono _ (obeys_aside ((reconcileHistory_avoids epochStart n seeded priors).mono
        Op.Plants.foreign) hg') fun _ _ _ => trivial

theorem safe (cfg : Config) : (machine cfg).Safe protocol start (fun _ _ _ => True) := by
  refine ⟨fun shared tid b shared' code hs => ?_, (machine_safe cfg).answers⟩
  cases tid <;> cases b <;>
    simp only [machine, Kuberecord.start, Option.ite_none_right_eq_some, Option.ite_none_left_eq_some,
      Option.some.injEq, Prod.mk.injEq, reduceCtorEq] at hs
  case worker.run key =>
    rw [← hs.2.2]
    exact process_obeys
  case warm.warm id ref epochStart n =>
    rw [← hs.2.2]
    exact warm_obeys ref epochStart n rfl
  case boot.run sink =>
    rw [← hs.2.2]
    exact Protocol.Obeys.mono _ (obeys_aside (closeOrphanedScopes_avoids sink) rfl) fun _ _ _ => trivial
  case evict.run ref =>
    rw [← hs.2]
    exact ⟨trivial, fun _ _ => ⟨trivial, fun _ _ => ⟨trivial, fun _ _ => trivial⟩⟩⟩

end Grip

end Kuberecord
