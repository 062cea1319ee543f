import Kuberecord.DiffChains

/-!
How a `Process` step comes to its row: what the lister, the writer and the redaction policy told it,
the entry it found cached, the version it reserved for the row. Unlike custody this keeps the
checkpoint cadence of the writer.
-/

namespace Kuberecord

open Threads

structure Notes where
  lookup : Option Lookup := none
  every : Option Int := none
  inst : Option Inst := none
  outs : List Record := []
  policy : Option RedactionPolicy := none

inductive Draft
  | aside
  | noting (n : Notes)
  | loaded (n : Notes) (base : Option CacheEntry)
  | superseded (n : Notes) (base : CacheEntry)
  | reserved (n : Notes) (base : Option CacheEntry) (entry : CacheEntry) (t : Ticket) (ts : Option Nat)
  | reverting (n : Notes) (t : Ticket) (revertEntry : Option CacheEntry)
  | claimed (n : Notes) (entry : CacheEntry) (t : Ticket)
  | releasing (n : Notes) (t : Ticket)
  | done

inductive Paced (lib : Lib) (ephemeral : Bool) (every : Int)
    (norm : NormalizedObject) : Option CacheEntry → Plan → Prop
  | miss (eventType : EventType) : eventType = .added ∨ eventType = .snapshot →
      Paced lib ephemeral every norm none { eventType := eventType }
  | superseding (e : CacheEntry) : Supersedes norm e → Paced lib ephemeral every norm (some e) {}
  | modified (e : CacheEntry) : ¬ Supersedes norm e →
      Paced lib ephemeral every norm (some e) (modifiedPlan lib ephemeral every e norm)

structure Drafted (cfg : Config) (key : Key) (n : Notes) (base : Option CacheEntry)
    (norm : NormalizedObject) (plan : Plan) : Prop where
  observed : ∃ l obj, n.lookup = some l ∧ l.obj = some obj ∧
    normalizeObject cfg.lib obj n.policy = some norm
  paced : ∃ every, n.every = some every ∧ Paced cfg.lib key.ephemeral every norm base plan

def Op.Mild : Op → Prop
  | .reserve _ _ _ | .reserveDelete _ _ _ | .commitIfCurrent _ _ _ _ | .deleteIfCurrent _ _ _
  | .unclaimDelete _ _ _
  | .storeIfAbsent _ _ _ | .closeOutsAdd _ _ _ | .closeOutsTakeAll _ _ | .deletePrefix _ _
  | .enqueue _ _ => False
  | _ => True

namespace Draft

def At (key : Key) (n : Notes) (st : Inst) (k : String) : Prop := n.inst = some st ∧ k = key.cacheKey

def Closes (key : Key) (n : Notes) : Op → Prop
  | .enqueue sink job => ∃ st k r, job = ⟨r, .closeOut st k key r⟩ ∧ At key n st k ∧ sink = key.sink ∧
      (r ∈ n.outs ∨ r.eventType = .deleted)
  | .closeOutsAdd st k r => At key n st k ∧ (r ∈ n.outs ∨ r.eventType = .deleted)
  | _ => False

def Allowed (cfg : Config) (key : Key) : Draft → Op → Prop
  | .aside, _ => True
  | .noting n, o =>
    match o with
    | .sinkState sink => sink = key.sink
    | .load st k | .closeOutsTakeAll st k => At key n st k
    | .reserveDelete st k uid => At key n st k ∧ uid = ""
    | o => o.Mild ∨ Closes key n o
  | .loaded n base, o =>
    match o with
    | .reserve st k entry => At key n st k ∧ entry.pendingDelete = false
    | .reserveDelete st k uid => At key n st k ∧ ∃ e, base = some e ∧ e.uid = uid
    | .load _ _ => False
    | o => o.Mild
  | .superseded n _, o =>
    match o with
    | .reserve st k entry => At key n st k ∧ entry.pendingDelete = false
    | .load _ _ => False
    | o => o.Mild ∨ Closes key n o
  | .reserved n base entry t ts, o =>
    match o with
    | .now => ts = none
    | .enqueue sink job => ∃ st norm plan stamp, n.inst = some st ∧ ts = some stamp ∧
        Drafted cfg key n base norm plan ∧
        entry = confirmedEntry cfg.lib key.ephemeral norm plan ∧ sink = key.sink ∧
        job = ⟨upsertRecord cfg.clusterID key norm plan stamp,
        .upsert st key.cacheKey key t entry plan.revertEntry⟩
    | _ => False
  | .reverting n t revertEntry, o =>
    match o with
    | .commitIfCurrent st k t' e => At key n st k ∧ t' = t ∧ revertEntry = some e
    | .deleteIfCurrent st k t' => At key n st k ∧ t' = t ∧ revertEntry = none
    | _ => False
  | .claimed n _ t, o =>
    match o with
    | .now => True
    | .enqueue sink job => ∃ st r, n.inst = some st ∧ sink = key.sink ∧ r.eventType = .deleted ∧
        job = ⟨r, .delete st key.cacheKey key t⟩
    | _ => False
  | .releasing n t, o => ∃ st, n.inst = some st ∧ o = .unclaimDelete st key.cacheKey t
  | .done, _ => False

def note (n : Notes) : (o : Op) → o.Ans → Notes
  | .listerGet _, l => { n with lookup := l }
  | .writerFor _, w => { n with every := w.map checkpointEveryFor }
  | .sinkState _, st => { n with inst := some st }
  | .closeOutsTakeAll _ _, records => { n with outs := records }
  | .redactionFor _, policy => { n with policy := policy.getD none }
  | _, _ => n

def next : Draft → (o : Op) → o.Ans → Draft
  | .noting n, .load _ _, e => .loaded n e
  | .noting n, .reserveDelete _ _ _, .claimed e t => .claimed n e t
  | .noting n, o, a => .noting (note n o a)
  | .loaded n base, .reserve _ _ entry, t => .reserved n base entry t none
  | .loaded n (some e), .reserveDelete _ _ _, _ => .superseded n e
  | .superseded n e, .reserve _ _ entry, t => .reserved n (some e) entry t none
  | .reserved n base entry t _, .now, ts => .reserved n base entry t (some ts)
  | .reserved n _ _ _ _, .enqueue _ ⟨_, .upsert _ _ _ t _ revertEntry⟩, accepted =>
    if accepted then .done else .reverting n t revertEntry
  | .reverting _ _ _, _, _ => .done
  | .claimed n _ t, .enqueue _ _, accepted => if accepted then .done else .releasing n t
  | .releasing _ _, _, _ => .done
  | p, _, _ => p

def protocol (cfg : Config) (key : Key) : Protocol Op Op.Ans Draft where
  allowed := Allowed cfg key
  answers := Op.Answers
  next := next

def start (key : Key) (tid : Tid) : Draft :=
  if tid = .worker key ∧ key.ephemeral = false then .noting {} else .aside

def Ended : Draft → Prop
  | .superseded _ _ | .reserved _ _ _ _ _ | .reverting _ _ _ | .claimed _ _ _ | .releasing _ _ => False
  | _ => True

section

variable {cfg : Config} {key : Key} {n : Notes} {st : Inst} {k : String}

theorem enqueueCloseOut_drafts {p : Draft} {r : Record} (hp : p = .noting n ∨ ∃ e, p = .superseded n e)
    (hat : At key n st k) (hr : r ∈ n.outs ∨ r.eventType = .deleted) :
    (protocol cfg key).Obeys (enqueueCloseOut key st k r) p (fun _ p' => p' = p) := by
  rcases hp with rfl | ⟨e, rfl⟩
  all_goals
    refine ⟨.inr ⟨st, k, r, rfl, hat, rfl, hr⟩, fun accepted _ => ?_⟩
    cases accepted with
    | true => rfl
    | false => exact ⟨.inr ⟨hat, hr⟩, fun _ _ => ⟨.inl trivial, fun _ _ => rfl⟩⟩

theorem retryPendingCloseOuts_drafts (hat : At key n st k) :
    (protocol cfg key).Obeys (retryPendingCloseOuts key st k) (.noting n)
      (fun _ p => ∃ outs, p = .noting { n with outs := outs }) := by
  refine ⟨hat, fun records _ => ?_⟩
  have hloop : (protocol cfg key).Obeys (records.forM (enqueueCloseOut key st k))
    (.noting { n with outs := records })
      (fun _ p => p = .noting { n with outs := records } ∧ ∀ r ∈ ([] : List Record), r ∈ records) := by
    refine Protocol.Obeys.forM _ (I := fun rest (p : Draft) =>
      p = .noting { n with outs := records } ∧ ∀ r ∈ rest, r ∈ records) ?_ ⟨rfl, fun _ => id⟩
    rintro r rest _ ⟨rfl, hrest⟩
    refine (enqueueCloseOut_drafts (n := { n with outs := records }) (.inl rfl) hat
      (.inl (hrest r (.head _)))).mono _ ?_
    rintro _ _ rfl
    exact ⟨rfl, fun r hr => hrest r (.tail _ hr)⟩
  exact hloop.mono _ fun _ _ hp => ⟨records, hp.1⟩

theorem issueUpsert_drafts {p : Draft} {base : Option CacheEntry} {norm : NormalizedObject} {plan : Plan}
    (hp : p = .loaded n base ∨ ∃ e, base = some e ∧ p = .superseded n e) (hi : n.inst = some st)
    (hd : Drafted cfg key n base norm plan) :
    (protocol cfg key).Obeys (issueUpsert cfg key st norm plan) p (fun _ => Ended) := by
  rcases hp with rfl | ⟨e, rfl, rfl⟩
  all_goals
    refine ⟨⟨⟨hi, rfl⟩, rfl⟩, fun t _ => ⟨rfl, fun ts _ => ?_⟩⟩
    refine ⟨⟨st, norm, plan, ts, hi, rfl, hd, rfl, rfl, rfl⟩, fun accepted _ => ?_⟩
    cases accepted with
    | true => trivial
    | false =>
      obtain ⟨eventType, diffString, carriesFullState, modifiedRun, revertEntry⟩ := plan
      cases revertEntry with
      | none | some => exact ⟨⟨⟨hi, rfl⟩, rfl, rfl⟩, fun _ _ => trivial⟩

theorem emitDelete_drafts (hi : n.inst = some st) :
    (protocol cfg key).Obeys (emitDelete cfg key st "") (.noting n) (fun _ => Ended) := by
  refine ⟨⟨⟨hi, rfl⟩, rfl⟩, fun claim _ => ?_⟩
  cases claim with
  | claimed e t =>
    refine ⟨trivial, fun ts _ => ⟨⟨st, _, hi, rfl, rfl, rfl⟩, fun accepted _ => ?_⟩⟩
    cases accepted with
    | true => trivial
    | false => exact ⟨⟨st, hi, rfl⟩, fun _ _ => trivial⟩
  | absent | inFlight | uidMismatch => trivial

theorem closeOutSuperseded_drafts {e : CacheEntry} (he : key.ephemeral = false) (hi : n.inst = some st) :
    (protocol cfg key).Obeys (closeOutSuperseded cfg key st e) (.loaded n (some e))
    (fun _ p => p = .superseded n e) := by
  unfold closeOutSuperseded
  rw [if_neg (by simp [he])]
  refine ⟨⟨⟨hi, rfl⟩, e, rfl, rfl⟩, fun claim _ => ?_⟩
  cases claim with
  | claimed e' t =>
    exact ⟨.inl trivial, fun ts _ => enqueueCloseOut_drafts (.inr ⟨e, rfl⟩) ⟨hi, rfl⟩ (.inr rfl)⟩
  | absent | inFlight | uidMismatch => rfl

theorem processUpsert_drafts {writer : Writer} {l : Lookup} {obj : Json} (he : key.ephemeral = false)
    (hi : n.inst = some st) (hl : n.lookup = some l) (hobj : l.obj = some obj)
    (hw : n.every = some (checkpointEveryFor writer)) :
    (protocol cfg key).Obeys (processUpsert cfg key st writer obj) (.noting n) (fun _ => Ended) := by
  simp only [processUpsert, Program.perform_bind]
  refine ⟨.inl trivial, fun policy _ => ?_⟩
  cases policy with
  | none => trivial
  | some policy =>
    simp only
    split
    · rename_i norm hn
      have hobs : ∃ l obj, n.lookup = some l ∧ l.obj = some obj ∧
        normalizeObject cfg.lib obj policy = some norm :=
        ⟨l, obj, hl, hobj, hn⟩
      refine ⟨⟨hi, rfl⟩, fun entry _ => ?_⟩
      cases entry with
      | none =>
        simp only
        rw [if_neg (by simp [he])]
        refine ⟨trivial, fun warm _ => issueUpsert_drafts (.inl rfl) hi ⟨hobs, _, hw, .miss _ ?_⟩⟩
        split_ifs
        · exact .inl rfl
        · exact .inr rfl
      | some e =>
        simp only
        split_ifs with hsup
        · refine Protocol.Obeys.bind _ (closeOutSuperseded_drafts he hi) ?_
          rintro _ _ rfl
          exact issueUpsert_drafts (.inr ⟨e, rfl, rfl⟩) hi ⟨hobs, _, hw, .superseding e hsup⟩
        · exact ⟨trivial, fun _ _ => trivial⟩
        · exact issueUpsert_drafts (.inl rfl) hi ⟨hobs, _, hw, .modified e hsup⟩
    · trivial

theorem process_drafts (he : key.ephemeral = false) :
    (protocol cfg key).Obeys (process cfg key) (.noting {}) (fun _ => Ended) := by
  simp only [process, Program.perform_bind]
  refine ⟨.inl trivial, fun lookup _ => ?_⟩
  cases lookup with
  | none => trivial
  | some lookup =>
    simp only
    split_ifs with _ hgone
    · trivial
    · simp [he] at hgone
    · refine ⟨.inl trivial, fun writer _ => ?_⟩
      cases writer with
      | none => trivial
      | some writer =>
        refine ⟨rfl, fun st _ => ?_⟩
        refine Protocol.Obeys.bind _ (retryPendingCloseOuts_drafts ⟨rfl, rfl⟩) ?_
        rintro _ _ ⟨outs, rfl⟩
        cases hobj : lookup.obj with
        | none =>
          refine Protocol.Obeys.bind _ (emitDelete_drafts rfl) ?_
          exact fun _ _ hp => hp
        | some obj => exact processUpsert_drafts he rfl rfl hobj rfl

theorem safe (cfg : Config) (key : Key) :
    (machine cfg).Safe (protocol cfg key) (start key) (fun _ _ => Ended) := by
  refine ⟨fun shared t b shared' code h => ?_, (machine_safe cfg).answers⟩
  by_cases hk : t = .worker key ∧ key.ephemeral = false
  · obtain ⟨rfl, he⟩ := hk
    rw [start, if_pos ⟨rfl, he⟩]
    cases b <;> simp only [machine, Kuberecord.start, Option.ite_none_right_eq_some,
      Option.some.injEq, Prod.mk.injEq,
      reduceCtorEq] at h
    exact h.2.2 ▸ process_drafts he
  · rw [start, if_neg hk]
    exact (protocol cfg key).obeys_of_absorbing code (fun o => ⟨trivial, fun _ => rfl⟩) fun _ => trivial

end

end Draft

end Kuberecord
