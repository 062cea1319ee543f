import Kuberecord.Custody.Warm

/-!
What custody does not record of a goroutine: what a worker was shown, found cached and was told
about warmth before it tags a row, and which incarnations a warm goroutine still has to seed before
it may mark its scope.
-/

namespace Kuberecord

open Threads

inductive Tale
  | free
  | work (uid : Option String) (st : Option Inst) (base : Option (Option CacheEntry))
      (warm : Option Bool)
  | seek
  | told (ref : ScopeRef) (states : List KnownState)
  | seeding (ref : ScopeRef) (states : List KnownState) (st : Inst) (pending : List Group)

def Op.Marks : Op → Prop
  | .markScopeWarm _ => True
  | _ => False

def Op.Plants : Op → Prop
  | .markScopeWarm _ | .storeIfAbsent _ _ _ => True
  | _ => False

def Op.Tells : Op → Prop
  | .listerGet _ | .sinkState _ | .load _ _ | .scopeWarm _ _ | .markScopeWarm _ => True
  | .enqueue _ ⟨_, .upsert _ _ _ _ _ _⟩ => True
  | _ => False

def Op.Rare : Op → Prop
  | .storeIfAbsent _ _ _ => True
  | o => o.Tells

def Op.Reports : Op → Prop
  | .enqueueScopeEvent _ _ => True
  | _ => False

def Op.Foreign : Op → Prop
  | .enqueueScopeEvent _ _ => True
  | o => o.Plants

def Op.Boots : Op → Prop
  | .readerFor _ | .scopeEventWriterFor _ | .activeScopes _ | .scopeDesired _ | .now
  | .enqueueScopeEvent _ _ => True
  | _ => False

def Op.Outside : Op → Prop
  | .listerGet _ | .lastKnownStates _ | .scopeSynced _ => True
  | o => o.Foreign

def Op.Remote : Op → Prop
  | .enqueueScopeEvent _ _ | .lastKnownStates _ | .scopeSynced _ => True
  | o => o.Rare

namespace Tale

def MayTag (uid : Option String) (base : Option (Option CacheEntry)) (warm : Option Bool)
    (r : Record) : Prop :=
  uid = some r.uid ∧ (r.eventType = .added → base = some none ∧ warm = some true ∨
    ∃ e, base = some (some e) ∧ e.uid ≠ "" ∧ e.uid ≠ r.uid)

def Allowed (key : Key) : Tale → Op → Prop
  | .work uid st base warm, o =>
    match o with
    | .listerGet key' => key' = key ∧ base = none
    | .sinkState sink => sink = key.sink ∧ base = none
    | .load st' k => st = some st' ∧ k = key.cacheKey ∧ base = none ∧ warm = none
    | .scopeWarm st' key' => st = some st' ∧ key' = key ∧ base = some none ∧ warm = none
    | .markScopeWarm _ => False
    | .enqueue _ ⟨r, .upsert _ _ _ _ _ _⟩ => MayTag uid base warm r
    | _ => True
  | .told ref _, o => o = .sinkState ref.sink
  | .seeding ref _ st pending, o =>
    match pending with
    | [] => o = .markScopeWarm ref
    | g :: _ => o = .storeIfAbsent st
        (ref.key (splitIncarnations g).1.ns (splitIncarnations g).1.name).cacheKey
        (seededEntry (splitIncarnations g).1)
  | _, o => ¬ o.Marks

def next : Tale → (o : Op) → o.Ans → Tale
  | .work _ st base warm, .listerGet _, l => .work ((l.bind Lookup.obj).map Json.getUID) st base warm
  | .work uid _ base warm, .sinkState _, st => .work uid (some st) base warm
  | .work uid st _ warm, .load _ _, e => .work uid st (some e) warm
  | .work uid st base _, .scopeWarm _ _, b => .work uid st base (some b)
  | .seek, .lastKnownStates ref, some states => .told ref states
  | .told ref states, .sinkState _, st => .seeding ref states st (groupByIdentity states)
  | .seeding ref states st (_ :: pending), .storeIfAbsent _ _ _, _ => .seeding ref states st pending
  | .seeding _ _ _ [], .markScopeWarm _, _ => .free
  | p, _, _ => p

def protocol (key : Key) : Protocol Op Op.Ans Tale where
  allowed := Allowed key
  answers := Op.Answers
  next := next

def start (key : Key) : Tid → Tale
  | .worker key' => if key' = key then .work none none none none else .free
  | .warm _ => .seek
  | _ => .free

end Tale

section Avoids

variable {cfg : Config} {key : Key} {st : Inst} {k : String} {ref : ScopeRef} {bad : Op → Prop}

theorem retry_avoids {σ : Type} {attempt : σ → Prog (Option Err × σ)} (ha : ∀ s, (attempt s).Avoids bad)
    (hb : ¬ bad .backoff) (n : Nat) (s : σ) : (retry attempt n s).Avoids bad := by
  induction n generalizing s with
  | zero => exact ha s
  | succ n ih =>
    refine (ha s).bind ?_
    rintro ⟨_ | e, s⟩
    · trivial
    · simp only
      split_ifs
      · trivial
      · refine ⟨hb, fun b => ?_⟩
        cases b with
        | true => exact ih s
        | false => trivial

theorem enqueueCloseOut_avoids {r : Record} : (enqueueCloseOut key st k r).Avoids Op.Remote := by
  simp only [enqueueCloseOut, Program.perform_bind]
  refine ⟨id, fun accepted => ?_⟩
  cases accepted with
  | true => trivial
  | false => exact ⟨id, fun _ => ⟨id, fun _ => trivial⟩⟩

theorem emitDelete_avoids {uid : String} : (emitDelete cfg key st uid).Avoids Op.Remote := by
  simp only [emitDelete, Program.perform_bind]
  refine ⟨id, fun claim => ?_⟩
  cases claim with
  | claimed e t =>
    refine ⟨id, fun ts => ⟨id, fun accepted => ?_⟩⟩
    cases accepted with
    | true => trivial
    | false => exact ⟨id, fun _ => trivial⟩
  | absent | inFlight | uidMismatch => trivial

theorem retryPendingCloseOuts_avoids : (retryPendingCloseOuts key st k).Avoids Op.Remote := by
  simp only [retryPendingCloseOuts, Program.perform_bind]
  exact ⟨id, fun records => .forM (fun _ => enqueueCloseOut_avoids) records⟩

theorem closeOutSuperseded_avoids {e : CacheEntry} :
    (closeOutSuperseded cfg key st e).Avoids Op.Remote := by
  unfold closeOutSuperseded
  split_ifs
  · trivial
  · refine ⟨id, fun claim => ?_⟩
    cases claim with
    | claimed e t => exact ⟨id, fun ts => enqueueCloseOut_avoids⟩
    | absent | inFlight | uidMismatch => trivial

theorem revertVersion_avoids {t : Ticket} {f : Option CacheEntry} :
    (revertVersion st k t f).Avoids Op.Remote := by
  cases f with
  | none | some => exact ⟨id, fun _ => trivial⟩

theorem Op.Marks.plants (o : Op) (h : o.Marks) : o.Plants := by
  cases o with
  | markScopeWarm => trivial
  | _ => exact h.elim

theorem Op.Outside.remote (o : Op) (h : o.Outside) : o.Remote := by
  cases o with
  | markScopeWarm | storeIfAbsent | enqueueScopeEvent | listerGet | lastKnownStates | scopeSynced =>
    trivial
  | _ => exact h.elim

theorem Op.Foreign.outside (o : Op) (h : o.Foreign) : o.Outside := by
  cases o with
  | markScopeWarm | storeIfAbsent | enqueueScopeEvent => trivial
  | _ => exact h.elim

theorem Op.Foreign.remote (o : Op) (h : o.Foreign) : o.Remote :=
  Op.Outside.remote o (Op.Foreign.outside o h)

theorem Op.Tells.remote (o : Op) (h : o.Tells) : o.Remote := by
  cases o with
  | storeIfAbsent | enqueueScopeEvent | lastKnownStates | scopeSynced => trivial
  | _ => exact h

theorem Op.Plants.foreign (o : Op) (h : o.Plants) : o.Foreign := by
  cases o with
  | markScopeWarm | storeIfAbsent => trivial
  | _ => exact h.elim

theorem Op.Reports.foreign (o : Op) (h : o.Reports) : o.Foreign := by
  cases o with
  | enqueueScopeEvent => trivial
  | _ => exact h.elim

theorem issueUpsert_avoids {norm : NormalizedObject} {plan : Plan} :
    (issueUpsert cfg key st norm plan).Avoids Op.Outside := by
  simp only [issueUpsert, Program.perform_bind]
  refine ⟨id, fun t => ⟨id, fun ts => ⟨id, fun accepted => ?_⟩⟩⟩
  cases accepted with
  | true => trivial
  | false => exact (revertVersion_avoids.mono Op.Outside.remote).bind fun _ => trivial

theorem processUpsert_avoids {writer : Writer} {obj : Json} :
    (processUpsert cfg key st writer obj).Avoids Op.Outside := by
  simp only [processUpsert, Program.perform_bind]
  refine ⟨id, fun policy => ?_⟩
  cases policy with
  | none => trivial
  | some policy =>
    simp only
    split
    · refine ⟨id, fun entry => ?_⟩
      cases entry with
      | none =>
        simp only
        split_ifs
        · exact issueUpsert_avoids
        · exact ⟨id, fun warm => issueUpsert_avoids⟩
      | some e =>
        simp only
        split_ifs
        · exact (closeOutSuperseded_avoids.mono Op.Outside.remote).bind fun _ => issueUpsert_avoids
        · exact ⟨id, fun _ => trivial⟩
        · exact issueUpsert_avoids
    · trivial

theorem process_asks_once : ∃ rest, process cfg key = .op (.listerGet key) rest ∧
    ∀ lookup, (rest lookup).Avoids Op.Outside := by
  simp only [process, Program.perform_bind]
  refine ⟨_, rfl, fun lookup => ?_⟩
  cases lookup with
  | none => trivial
  | some lookup =>
    simp only
    split_ifs
    · trivial
    · refine ⟨id, fun st => ⟨id, fun claim => ?_⟩⟩
      cases claim with
      | claimed e t => exact ⟨id, fun _ => trivial⟩
      | absent | inFlight | uidMismatch => trivial
    · refine ⟨id, fun writer => ?_⟩
      cases writer with
      | none => trivial
      | some writer =>
        refine ⟨id, fun st => (retryPendingCloseOuts_avoids.mono Op.Outside.remote).bind fun _ => ?_⟩
        cases lookup.obj with
        | none => exact (emitDelete_avoids.mono Op.Outside.remote).bind fun _ => trivial
        | some obj => exact processUpsert_avoids

theorem process_avoids : (process cfg key).Avoids Op.Foreign := by
  obtain ⟨rest, heq, hrest⟩ := @process_asks_once cfg key
  exact heq ▸ ⟨id, fun lookup => (hrest lookup).mono Op.Foreign.outside⟩

theorem readState_avoids {α : Type} {read : Prog (Option α)} (hr : read.Avoids bad)
    (hb : ¬ bad (.readerFor ref.sink)) : (readState ref read).Avoids bad := by
  simp only [readState, Program.perform_bind]
  refine ⟨hb, fun answer => ?_⟩
  cases answer with
  | reader =>
    refine hr.bind fun a => ?_
    cases a with
    | none | some => trivial
  | noStateReader | notLive => trivial

theorem call_avoids {o : Op} (ho : ¬ bad o) : (call o).Avoids bad := ⟨ho, fun _ => trivial⟩

theorem awaitScopeSync_avoids (n : Nat) : (awaitScopeSync ref n).Avoids Op.Foreign := by
  induction n with
  | zero => trivial
  | succ n ih =>
    simp only [awaitScopeSync, Program.perform_bind]
    refine ⟨id, fun synced => ?_⟩
    cases synced with
    | true => trivial
    | false =>
      refine ⟨id, fun desired => ?_⟩
      cases desired with
      | false => trivial
      | true =>
        refine ⟨id, fun again => ?_⟩
        cases again with
        | false => trivial
        | true => exact ih

theorem emitPriors_avoids (priors : List Reincarnation) :
    (emitPriors cfg ref st priors).Avoids Op.Outside := by
  induction priors with
  | nil => trivial
  | cons prior priors ih =>
    simp only [emitPriors, Program.perform_bind]
    refine ⟨id, fun stop => ?_⟩
    cases stop with
    | true => trivial
    | false => exact (enqueueCloseOut_avoids.mono Op.Outside.remote).bind fun _ => ih

theorem emitCloseOuts_avoids (n : Nat) (priors : List Reincarnation) :
    (emitCloseOuts cfg ref n priors).Avoids Op.Outside := by
  unfold emitCloseOuts
  split_ifs
  · trivial
  · refine (retry_avoids (fun _ => ?_) id n _).bind fun _ => trivial
    refine ⟨id, fun writer => ?_⟩
    cases writer with
    | none => trivial
    | some writer => exact ⟨id, fun st => (emitPriors_avoids priors).bind fun _ => trivial⟩

theorem sweep_avoids (targets reincarnated : List GcTarget) :
    (sweep cfg ref st targets reincarnated).Avoids Op.Foreign := by
  induction targets generalizing reincarnated with
  | nil => trivial
  | cons target targets ih =>
    simp only [sweep, Program.perform_bind]
    refine ⟨id, fun stop => ?_⟩
    cases stop with
    | true => trivial
    | false =>
      refine ⟨id, fun lookup => ?_⟩
      cases lookup with
      | none => trivial
      | some lookup =>
        simp only
        split_ifs
        · trivial
        · exact ih _
        · refine (emitDelete_avoids.mono Op.Foreign.remote).bind ?_
          rintro ⟨outcome, err⟩
          simp only
          split_ifs
          · trivial
          · exact ih _
          · exact ih _

theorem collectZombies_avoids (n : Nat) (seeded : List GcTarget) :
    (collectZombies cfg ref n seeded).Avoids Op.Foreign := by
  refine (retry_avoids (fun _ => ?_) id n _).bind fun _ => trivial
  simp only [gcPass, Program.perform_bind]
  refine ⟨id, fun writer => ?_⟩
  cases writer with
  | none => trivial
  | some writer => exact ⟨id, fun st => sweep_avoids seeded []⟩

theorem recoverRefusedReincarnations_avoids (n : Nat) (refused : List GcTarget) :
    (recoverRefusedReincarnations cfg ref n refused).Avoids Op.Foreign := by
  unfold recoverRefusedReincarnations
  split_ifs
  · trivial
  · refine (retry_avoids (fun pending => ?_) id n _).bind fun _ => trivial
    refine (readState_avoids (call_avoids id) id).bind ?_
    rintro (e | states)
    · trivial
    · exact ⟨id, fun order => ((emitCloseOuts_avoids n _).mono Op.Foreign.outside).bind fun _ => trivial⟩

theorem reconcileHistory_avoids (epochStart n : Nat) (seeded : List GcTarget)
    (priors : List Reincarnation) :
    (reconcileHistory cfg ref epochStart n seeded priors).Avoids Op.Foreign := by
  have hactive : (scopeWasActive ref epochStart n).Avoids Op.Foreign := by
    refine retry_avoids (fun _ => (readState_avoids (call_avoids id) id).bind ?_) id n _
    rintro (e | active) <;> trivial
  refine Program.Avoids.bind ?_ fun synced => ?_
  · split_ifs
    · trivial
    · exact awaitScopeSync_avoids n
  · cases synced with
    | false => trivial
    | true =>
      refine hactive.bind ?_
      rintro ⟨err, wasActive⟩
      simp only
      split_ifs
      · trivial
      · exact ((emitCloseOuts_avoids n priors).mono Op.Foreign.outside).bind fun _ => trivial
      · refine ((emitCloseOuts_avoids n priors).mono Op.Foreign.outside).bind fun _ =>
          (collectZombies_avoids n seeded).bind fun refused => ?_
        exact recoverRefusedReincarnations_avoids n refused

theorem closeScopes_boots (sink : String) (scopes : List ScopeKey) :
    (closeScopes sink scopes).Avoids (fun o => ¬ o.Boots) := by
  induction scopes with
  | nil => trivial
  | cons scope scopes ih =>
    simp only [closeScopes, Program.perform_bind]
    refine ⟨not_not_intro trivial, fun desired => ?_⟩
    cases desired with
    | true => exact ih
    | false =>
      refine ⟨not_not_intro trivial, fun ts => ⟨not_not_intro trivial, fun accepted => ?_⟩⟩
      cases accepted with
      | true => exact ih
      | false => trivial

theorem closeOrphanedScopes_boots (sink : String) :
    (closeOrphanedScopes sink).Avoids (fun o => ¬ o.Boots) := by
  simp only [closeOrphanedScopes, Program.perform_bind]
  refine ⟨not_not_intro trivial, fun answer => ?_⟩
  cases answer with
  | noStateReader | notLive => trivial
  | reader =>
    refine ⟨not_not_intro trivial, fun writer => ?_⟩
    cases writer with
    | false => trivial
    | true =>
      refine ⟨not_not_intro trivial, fun scopes => ?_⟩
      cases scopes with
      | none => trivial
      | some scopes => exact closeScopes_boots sink scopes

theorem closeOrphanedScopes_avoids (sink : String) : (closeOrphanedScopes sink).Avoids Op.Plants :=
  (closeOrphanedScopes_boots sink).mono fun o ho => by cases o <;> first | exact id | exact ho.elim

end Avoids

theorem modifiedPlan_eventType (lib : Lib) (ephemeral : Bool) (every : Int) (e : CacheEntry)
    (norm : NormalizedObject) :
    (modifiedPlan lib ephemeral every e norm).eventType = .modified ∨
      (modifiedPlan lib ephemeral every e norm).eventType = .checkpoint := by
  unfold modifiedPlan
  split_ifs
  · exact .inl rfl
  · exact .inl rfl
  · split
    · exact .inl rfl
    · split
      · exact .inl rfl
      · split
        · exact .inl rfl
        · split_ifs
          · exact .inr rfl
          · exact .inl rfl

namespace Tale

variable {cfg : Config} {key : Key} {p : Tale} {o : Op} {a : o.Ans}

section

variable {uid : Option String} {st : Option Inst} {base : Option (Option CacheEntry)}
  {warm : Option Bool}

theorem allowed_of_quiet (ho : ¬ o.Tells) : Allowed key (.work uid st base warm) o := by
  cases o with
  | listerGet | sinkState | load | scopeWarm | markScopeWarm => exact absurd trivial ho
  | enqueue sink job =>
    obtain ⟨r, commit⟩ := job
    cases commit with
    | upsert => exact absurd trivial ho
    | delete | closeOut => trivial
  | _ => trivial

theorem next_of_quiet (ho : ¬ o.Tells) : next (.work uid st base warm) o a = .work uid st base warm := by
  cases o with
  | listerGet | sinkState | load | scopeWarm => exact absurd trivial ho
  | _ => rfl

theorem obeys_quiet {α : Type} {x : Prog α} (hx : x.Avoids Op.Remote) :
    (protocol key).Obeys x (.work uid st base warm) (fun _ p => p = .work uid st base warm) :=
  (protocol key).obeys_of_avoids (hx.mono Op.Tells.remote)
    (fun _ ho => ⟨allowed_of_quiet ho, fun _ => next_of_quiet ho⟩) (fun _ => rfl)

theorem issueUpsert_obeys {st' : Inst} {norm : NormalizedObject} {plan : Plan} (hu : uid = some norm.uid)
    (ht : plan.eventType = .added → base = some none ∧ warm = some true ∨
      ∃ e, base = some (some e) ∧ e.uid ≠ "" ∧ e.uid ≠ norm.uid) :
    (protocol key).Obeys (issueUpsert cfg key st' norm plan) (.work uid st base warm)
    (fun _ _ => True) := by
  simp only [issueUpsert, Program.perform_bind, Protocol.obeys_op]
  refine ⟨trivial, fun t _ => ⟨trivial, fun ts _ => ⟨⟨hu, ht⟩, fun accepted _ => ?_⟩⟩⟩
  cases accepted with
  | true => trivial
  | false => exact Protocol.Obeys.bind _ (obeys_quiet revertVersion_avoids) (fun _ _ _ => trivial)

theorem processUpsert_obeys (he : key.ephemeral = false) {st' : Inst} {writer : Writer} {obj : Json}
    (hu : uid = some obj.getUID) :
    (protocol key).Obeys (processUpsert cfg key st' writer obj) (.work uid (some st') none none)
    (fun _ _ => True) := by
  simp only [processUpsert, Program.perform_bind, Protocol.obeys_op]
  refine ⟨trivial, fun policy _ => ?_⟩
  cases policy with
  | none => trivial
  | some policy =>
    simp only
    split
    · rename_i norm hnorm
      have hu : uid = some norm.uid := by rw [hu, normalizeObject_uid hnorm]
      refine ⟨⟨rfl, rfl, rfl, rfl⟩, fun entry _ => ?_⟩
      cases entry with
      | none =>
        simp only [he, Bool.false_eq_true, ↓reduceIte]
        refine ⟨⟨rfl, rfl, rfl, rfl⟩, fun warm _ => issueUpsert_obeys hu ?_⟩
        cases warm with
        | true => exact fun _ => .inl ⟨rfl, rfl⟩
        | false => exact fun h => (by cases h)
      | some e =>
        simp only
        split_ifs with hsup hhash
        · refine Protocol.Obeys.bind _ (obeys_quiet closeOutSuperseded_avoids) ?_
          rintro _ _ rfl
          exact issueUpsert_obeys hu (fun _ => .inr ⟨e, rfl, hsup.1, hsup.2⟩)
        · exact ⟨trivial, fun _ _ => trivial⟩
        · refine issueUpsert_obeys hu (fun h => absurd h ?_)
          rcases modifiedPlan_eventType cfg.lib key.ephemeral (checkpointEveryFor writer) e norm with hm | hm <;>
            simp [hm]
    · trivial

theorem process_obeys (he : key.ephemeral = false) :
    (protocol key).Obeys (process cfg key) (.work none none none none) (fun _ _ => True) := by
  simp only [process, Program.perform_bind, Protocol.obeys_op]
  refine ⟨⟨rfl, rfl⟩, fun lookup _ => ?_⟩
  cases lookup with
  | none => trivial
  | some lookup =>
    simp only [he, Bool.and_false, Bool.false_eq_true, ↓reduceIte]
    split_ifs
    · trivial
    · refine ⟨trivial, fun writer _ => ?_⟩
      cases writer with
      | none => trivial
      | some writer =>
        refine ⟨⟨rfl, rfl⟩, fun st' _ => ?_⟩
        refine Protocol.Obeys.bind _ (obeys_quiet retryPendingCloseOuts_avoids) ?_
        rintro _ _ rfl
        cases hobj : lookup.obj with
        | none => exact Protocol.Obeys.bind _ (obeys_quiet emitDelete_avoids) (fun _ _ _ => trivial)
        | some obj => exact processUpsert_obeys he (by simp [hobj])

end

theorem seed_obeys {ref : ScopeRef} {states : List KnownState} {st : Inst} (groups : List Group) :
    (protocol key).Obeys (groups.forM (seedGroup ref st)) (.seeding ref states st groups)
      (fun _ p => p = .seeding ref states st []) := by
  refine Protocol.Obeys.forM _ (I := fun gs (p : Tale) => p = .seeding ref states st gs) ?_ rfl
  rintro g gs _ rfl
  exact ⟨rfl, fun _ _ => rfl⟩

def Seeded (ref : ScopeRef) : Option Err → Tale → Prop
  | none, p => ∃ states st, p = .seeding ref states st []
  | some _, p => p = .seek

theorem seedScope_obeys (ref : ScopeRef) (n : Nat) :
    (protocol key).Obeys (seedScope ref n) .seek (fun r p => Seeded ref r.1 p) := by
  refine retry_rule (I := fun _ (p : Tale) => p = .seek) ?_ ?_ n rfl
  · rintro _ _ rfl
    simp only [readState, Program.perform_bind, Program.op_bind, Protocol.obeys_op]
    refine ⟨id, fun answer _ => ?_⟩
    cases answer with
    | noStateReader | notLive => rfl
    | reader =>
      refine ⟨id, fun states _ => ?_⟩
      cases states with
      | none => rfl
      | some states =>
        refine ⟨rfl, fun st _ => ?_⟩
        refine Protocol.Obeys.bind _ (seed_obeys (groupByIdentity states)) ?_
        rintro _ _ rfl
        exact ⟨states, st, rfl⟩
  · rintro e s p rfl
    exact ⟨id, rfl, rfl⟩

theorem obeys_free {x : Prog (Option Err)} (hx : x.Avoids Op.Plants) :
    (protocol key).Obeys x .free (fun _ _ => True) :=
  (protocol key).obeys_of_avoids (hx.mono Op.Marks.plants) (fun _ ho => ⟨ho, fun _ => rfl⟩)
    (fun _ => trivial)

theorem warm_obeys (ref : ScopeRef) (epochStart n : Nat) :
    (protocol key).Obeys (do warm cfg ref epochStart n; return none : Prog (Option Err)) .seek
    (fun _ _ => True) := by
  rw [Protocol.obeys_bind]
  refine Protocol.Obeys.bind _ (seedScope_obeys ref n) ?_
  rintro ⟨err, seeded, priors⟩ p hp
  cases err with
  | some e => trivial
  | none =>
    obtain ⟨states, st, rfl⟩ := hp
    refine ⟨rfl, fun _ _ => ?_⟩
    simp only
    split_ifs
    · trivial
    · trivial
    · exact Protocol.Obeys.mono _ ((protocol key).obeys_of_avoids
        (((reconcileHistory_avoids epochStart n seeded priors).mono Op.Plants.foreign).mono
        Op.Marks.plants)
        (fun _ ho => ⟨ho, fun _ => rfl⟩) (Q := fun _ _ => True) (fun _ => trivial))
        (fun _ _ _ => trivial)

theorem safe (cfg : Config) (he : key.ephemeral = false) :
    (machine cfg).Safe (protocol key) (start key) (fun _ _ _ => True) := by
  refine ⟨fun shared tid b shared' code hs => ?_, (machine_safe cfg).answers⟩
  cases tid <;> cases b <;>
    simp only [machine, Kuberecord.start, Option.ite_none_right_eq_some,
      Option.ite_none_left_eq_some, Option.some.injEq, Prod.mk.injEq, reduceCtorEq] at hs
  case worker.run key' =>
    rw [← hs.2.2]
    by_cases hk : key' = key
    · subst hk
      rw [show start key' (.worker key') = .work none none none none from if_pos rfl]
      exact process_obeys he
    · rw [show start key (.worker key') = .free from if_neg hk]
      exact obeys_free (process_avoids.mono Op.Plants.foreign)
  case warm.warm id ref epochStart n =>
    rw [← hs.2.2]
    exact warm_obeys ref epochStart n
  case boot.run sink =>
    rw [← hs.2.2]
    exact obeys_free (closeOrphanedScopes_avoids sink)
  case evict.run ref =>
    rw [← hs.2]
    exact obeys_free ⟨id, fun _ => ⟨id, fun _ => ⟨id, fun _ => trivial⟩⟩⟩

end Tale

end Kuberecord
