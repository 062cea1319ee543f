import Kuberecord.OrderKeys

namespace Kuberecord

open Threads

abbrev Trace := List (Sigma Op.Ans)

def lastLookup (tr : Trace) : Option (Key × Lookup) :=
  tr.foldl (fun last e => match e with
    | ⟨.listerGet key, l⟩ => l.map (key, ·)
    | _ => last) none

def ClaimShown (key : Key) (e : CacheEntry) (tr : Trace) : Prop :=
  ∃ before after st expectedUID t l,
    tr = before ++ (⟨.reserveDelete st key.cacheKey expectedUID, .claimed e t⟩ : Sigma Op.Ans) :: after ∧
    st.sink = key.sink ∧ lastLookup before = some (key, l) ∧ l.scopeActive = true ∧
    l.obj.map Json.getUID ≠ some e.uid

inductive Evidence (cfg : Config) (key : Key) (r : Record) (tr : Trace) : Prop
  | claimed (e : CacheEntry) (ts : Nat) : ClaimShown key e tr →
      r = Record.closing cfg.clusterID key ts e.apiVersion e.uid → Evidence cfg key r tr
  | outlived (ref : ScopeRef) (states : List KnownState) (x : KnownState) (epochStart : Nat) :
      ⟨.lastKnownStates ref, some states⟩ ∈ tr → ⟨.scopeWasActive ref epochStart, some true⟩ ∈ tr →
      Replaced states x → ref.key x.ns x.name = key →
      r = x.reincarnation.closeOutRecord cfg.clusterID key → Evidence cfg key r tr

theorem ClaimShown.snoc {key : Key} {e : CacheEntry} {tr : Trace} (h : ClaimShown key e tr)
    (x : Sigma Op.Ans) :
    ClaimShown key e (tr ++ [x]) := by
  obtain ⟨before, after, st, uid, t, l, rfl, hrest⟩ := h
  exact ⟨before, after ++ [x], st, uid, t, l, by simp, hrest⟩

theorem Evidence.snoc {cfg : Config} {key : Key} {r : Record} {tr : Trace} (h : Evidence cfg key r tr)
    (x : Sigma Op.Ans) : Evidence cfg key r (tr ++ [x]) := by
  cases h with
  | claimed e ts hc hr => exact .claimed e ts (hc.snoc x) hr
  | outlived ref states y ep hs ha hy hk hr =>
    exact .outlived ref states y ep (List.mem_append_left _ hs) (List.mem_append_left _ ha) hy hk hr

def Phase.Backed (cfg : Config) (owner : Tid) (tr : Trace) : Phase → Prop
  | .claimed st k e _ _ => ∃ key : Key, key.Owns st k ∧ ClaimShown key e tr
  | .superseding st k _ e => ∃ key : Key, owner = .worker key ∧ key.Owns st k ∧ ClaimShown key e tr
  | .closing st k _ r => ∃ key : Key, key.Owns st k ∧ Evidence cfg key r tr
  | .outs st k rs => ∀ r ∈ rs, (∃ key : Key, key.Owns st k ∧ Evidence cfg key r tr) ∨
      ∃ records : List Record, ⟨.closeOutsTakeAll st k, records⟩ ∈ tr ∧ r ∈ records
  | _ => True

structure Hand.Backed (cfg : Config) (h : Hand) (tr : Trace) : Prop where
  lookup : h.seen.lookup = lastLookup tr
  history : ∀ ref states, h.seen.history = some (ref, states) →
    ⟨.lastKnownStates ref, some states⟩ ∈ tr ∧ ∀ x ∈ states, x.uid ≠ ""
  active : ∀ ref, h.seen.active = some ref →
    ∃ epochStart, ⟨.scopeWasActive ref epochStart, some true⟩ ∈ tr
  phase : h.phase.Backed cfg h.owner tr

section Backed

variable {cfg : Config} {h : Hand} {owner : Tid} {tr : Trace} {o : Op} {a : o.Ans}

theorem Phase.Backed.snoc {p : Phase} (hp : p.Backed cfg owner tr) (x : Sigma Op.Ans) :
    p.Backed cfg owner (tr ++ [x]) := by
  cases p with
  | claimed =>
    obtain ⟨key, hk, hc⟩ := hp
    exact ⟨key, hk, hc.snoc x⟩
  | superseding =>
    obtain ⟨key, hown, hk, hc⟩ := hp
    exact ⟨key, hown, hk, hc.snoc x⟩
  | closing =>
    obtain ⟨key, hk, he⟩ := hp
    exact ⟨key, hk, he.snoc x⟩
  | outs =>
    intro r hr
    rcases hp r hr with ⟨key, hk, he⟩ | ⟨records, ht, hm⟩
    · exact .inl ⟨key, hk, he.snoc x⟩
    · exact .inr ⟨records, List.mem_append_left _ ht, hm⟩
  | _ => trivial

theorem Phase.backed_outsOf {st : Inst} {k : String} {rs : List Record}
    (hp : (Phase.outs st k rs).Backed cfg owner tr) :
    (Phase.outsOf st k rs).Backed cfg owner tr := by
  cases rs with
  | nil => trivial
  | cons r rs => exact hp

theorem Phase.Backed.tail {st : Inst} {k : String} {rs : List Record}
    (hp : (Phase.outs st k rs).Backed cfg owner tr) :
    (Phase.outsOf st k rs.tail).Backed cfg owner tr :=
  Phase.backed_outsOf fun r hr => hp r (List.mem_of_mem_tail hr)

theorem Hand.Backed.claimShown (hb : h.Backed cfg tr) {st : Inst} {k uid : String} {e : CacheEntry}
    {t : Ticket} (hall : h.Allowed cfg (.reserveDelete st k uid)) (hans : uid = "" ∨ e.uid = uid) :
    ∃ key : Key, key.Owns st k ∧ ClaimShown key e (tr ++ [⟨.reserveDelete st k uid, .claimed e t⟩]) ∧
      (h.phase = .idle ∨ h.owner = .worker key ∧ ∃ b, h.phase = .loaded st k (some b)) := by
  have shown {key : Key} {l : Lookup} (hk : key.Owns st k) (hl : h.seen.lookup = some (key, l))
      (hact : l.scopeActive = true) (hne : l.obj.map Json.getUID ≠ some e.uid) :
      ClaimShown key e (tr ++ [⟨.reserveDelete st k uid, .claimed e t⟩]) := by
    obtain ⟨hsink, rfl⟩ := hk
    exact ⟨tr, [], st, uid, t, l, rfl, hsink, hb.lookup ▸ hl, hact, hne⟩
  rcases hall with ⟨hp, -, key, hk, hmay⟩ | ⟨key, b, norm, hown, hk, -, rfl,
    ⟨obj, policy, hobs, hnorm⟩, hsup, hp⟩
  · refine ⟨key, hk, ?_, .inl hp⟩
    rcases hmay with ⟨-, l, hl, hact, hobj⟩ | ⟨-, ⟨l, hl, hact, hne⟩,
      ⟨x, ⟨ref, states, hh, hm, -⟩, rfl⟩, -⟩
    · exact shown hk hl hact (by simp [hobj])
    · -- history lists the incarnation, and names it
      have hx := (hb.history ref states hh).2 x hm
      exact shown hk hl hact (by rwa [hans.resolve_left hx])
  · obtain ⟨l, hl, hact, hobj⟩ := hobs
    refine ⟨key, hk, shown hk hl hact ?_, .inr ⟨hown, b, hp⟩⟩
    rw [hobj, hans.resolve_left hsup.1, Option.map_some, ← normalizeObject_uid hnorm]
    exact fun heq => hsup.2 (Option.some.inj heq).symm

theorem Hand.Backed.outlived (hb : h.Backed cfg tr) {key : Key} {x : KnownState}
    (hx : h.seen.Outlived key x) :
    Evidence cfg key (x.reincarnation.closeOutRecord cfg.clusterID key) tr := by
  obtain ⟨ref, states, hh, ha, hrep, hk⟩ := hx
  obtain ⟨ep, hact⟩ := hb.active ref ha
  exact .outlived ref states x ep (hb.history ref states hh).1 hact hrep hk rfl

theorem Hand.Backed.enqueue (hb : h.Backed cfg tr) {sink : String} {job : Job}
    (hall : h.MayEnqueue cfg sink job) (x : Sigma Op.Ans) (b : Bool) :
    (h.nextPhase cfg (.enqueue sink job) b).Backed cfg h.owner (tr ++ [x]) := by
  have stay := hb.phase.snoc x
  cases hp : h.phase with
  | outs st k rs =>
    rw [hp] at stay
    cases b with
    | true =>
      simp only [Hand.nextPhase, hp]
      exact stay.tail
    | false =>
      simp only [Hand.nextPhase, hp]
      exact stay
  | closing st k base r =>
    rw [hp] at stay
    cases b with
    | true =>
      simp only [Hand.nextPhase, hp]
      trivial
    | false =>
      simp only [Hand.nextPhase, hp]
      exact stay
  | idle =>
    obtain ⟨record, commit⟩ := job
    cases commit with
    | closeOut st k key r =>
      cases b with
      | true =>
        simp only [Hand.nextPhase, hp]
        trivial
      | false =>
        obtain ⟨-, hk, -, ⟨-, rs, hq⟩ | ⟨-, base, hq⟩ | ⟨-, -, -, -, y, hy, rfl⟩⟩ := hall
        · rw [hp] at hq
          cases hq
        · rw [hp] at hq
          cases hq
        · simp only [Hand.nextPhase, hp]
          intro r' hr
          obtain rfl := List.mem_singleton.mp hr
          exact .inl ⟨key, hk, (hb.outlived hy).snoc x⟩
    | upsert | delete => cases b <;> simp only [Hand.nextPhase, hp] <;> trivial
  | superseding =>
    rw [hp] at stay
    cases b <;> simpa only [Hand.nextPhase, hp] using stay
  | claimed => cases b <;> simp only [Hand.nextPhase, hp] <;> trivial
  | reserved =>
    obtain ⟨record, commit⟩ := job
    cases commit <;> cases b <;> simp only [Hand.nextPhase, hp] <;> trivial
  | _ => cases b <;> simp only [Hand.nextPhase, hp] <;> trivial

theorem Hand.Backed.nextPhase (hb : h.Backed cfg tr) (hall : h.Allowed cfg o) (hans : o.Answers a) :
    (h.nextPhase cfg o a).Backed cfg h.owner (tr ++ [⟨o, a⟩]) := by
  have stay : h.phase.Backed cfg h.owner (tr ++ [⟨o, a⟩]) := hb.phase.snoc _
  cases o with
  | load | commitIfCurrent | deleteIfCurrent | unclaimDelete => trivial
  | reserve =>
    simp only [Hand.nextPhase]
    split
    · trivial
    · trivial
    · exact stay
  | reserveDelete st k uid =>
    cases a with
    | claimed e t =>
      obtain ⟨key, hk, hc, hp | ⟨hown, b, hp⟩⟩ := hb.claimShown (t := t) hall hans
      · simp only [Hand.nextPhase, hp]
        exact ⟨key, hk, hc⟩
      · simp only [Hand.nextPhase, hp]
        exact ⟨key, hown, hk, hc⟩
    | absent | inFlight | uidMismatch =>
      rcases hall with ⟨hp, -⟩ | ⟨key, b, norm, -, -, -, -, -, -, hp⟩ <;> simp only [Hand.nextPhase,
        hp] <;> trivial
  | now =>
    simp only [Hand.nextPhase]
    split
    · rename_i hp
      rw [hp] at stay
      exact stay
    · rename_i st k base e key hp hown
      rw [hp] at stay
      obtain ⟨key', hown', hk, hc⟩ := stay
      obtain rfl : key' = key := by simpa [hown] using hown'.symm
      exact ⟨key', hk, .claimed e a hc rfl⟩
    · trivial
    · exact stay
  | enqueue sink job => exact hb.enqueue hall _ a
  | closeOutsAdd st k r =>
    rcases hall with ⟨rs, hp⟩ | ⟨base, hp⟩ <;> simp only [Hand.nextPhase, hp]
    · rw [hp] at stay
      exact stay.tail
    · trivial
  | closeOutsTakeAll st k =>
    exact Phase.backed_outsOf fun r hr => .inr ⟨a, List.mem_append_right _ (.head _), hr⟩
  | _ => exact stay

theorem lastLookup_snoc (tr : Trace) (o : Op) (a : o.Ans) (ho : ∀ key, o ≠ .listerGet key) :
    lastLookup (tr ++ [⟨o, a⟩]) = lastLookup tr := by
  rw [lastLookup, List.foldl_append]
  cases o with
  | listerGet key => exact absurd rfl (ho key)
  | _ => rfl

theorem Hand.Backed.next (hb : h.Backed cfg tr) (hall : h.Allowed cfg o) (hans : o.Answers a)
    (hnamed : ∀ ref states, (⟨o, a⟩ : Sigma Op.Ans) = ⟨.lastKnownStates ref, some states⟩ →
      ∀ x ∈ states, x.uid ≠ "") :
    (h.next cfg o a).Backed cfg (tr ++ [⟨o, a⟩]) := by
  have old {x : Sigma Op.Ans} (hx : x ∈ tr) : x ∈ tr ++ [⟨o, a⟩] := List.mem_append_left _ hx
  have history : ∀ ref states, h.seen.history = some (ref, states) →
      ⟨.lastKnownStates ref, some states⟩ ∈ tr ++ [⟨o, a⟩] ∧ ∀ x ∈ states, x.uid ≠ "" :=
      fun ref states hh =>
    ⟨old (hb.history ref states hh).1, (hb.history ref states hh).2⟩
  have active : ∀ ref, h.seen.active = some ref →
      ∃ epochStart, ⟨.scopeWasActive ref epochStart, some true⟩ ∈ tr ++ [⟨o, a⟩] := fun ref ha =>
    (hb.active ref ha).imp fun _ => old
  have hphase := hb.nextPhase hall hans
  cases o with
  | listerGet key =>
    refine ⟨?_, history, active, hphase⟩
    rw [lastLookup, List.foldl_append]
    rfl
  | lastKnownStates ref =>
    refine ⟨hb.lookup.trans (lastLookup_snoc tr _ a (by simp)).symm, fun ref' states hh => ?_,
      active, hphase⟩
    obtain ⟨states', rfl, heq⟩ := Option.map_eq_some_iff.mp hh
    cases heq
    exact ⟨List.mem_append_right _ (.head _), hnamed ref states rfl⟩
  | scopeWasActive ref epochStart =>
    refine ⟨hb.lookup.trans (lastLookup_snoc tr _ a (by simp)).symm, history, fun ref' ha => ?_, hphase⟩
    obtain ⟨rfl, heq⟩ := Option.ite_none_right_eq_some.mp ha
    cases heq
    exact ⟨epochStart, List.mem_append_right _ (.head _)⟩
  | _ => exact ⟨hb.lookup.trans (lastLookup_snoc tr _ a (by simp)).symm, history, active, hphase⟩

end Backed

def Named : Action → Prop
  | .exec _ (.states _ (some states)) => ∀ x ∈ states, x.uid ≠ ""
  | _ => True

instance (a : Action) : Decidable (Named a) := by
  induction a using Threads.Action.casesOn with
  | exec _ i =>
    induction i using Input.casesOn with
    | states _ l =>
      induction l using Option.casesOn with
      | none => exact instDecidableTrue
      | some states => exact inferInstanceAs (Decidable (∀ x ∈ states, x.uid ≠ ""))
    | _ => exact instDecidableTrue
  | _ => exact instDecidableTrue

theorem backed_of_run {cfg : Config} {as : List Action} {s : System}
    (h : Runs.Run (machine cfg).step (fun _ a => Named a) { shared := {} } as s) :
    (∀ tid th, s.threads tid = some th →
      ((custody cfg).after (Hand.start tid) th.trace).Backed cfg th.trace) ∧
      ∀ x ∈ s.log, ((custody cfg).after (Hand.start x.tid) x.trace).Allowed cfg x.event.1 ∧
        ((custody cfg).after (Hand.start x.tid) x.trace).Backed cfg x.trace := by
  refine (machine_safe cfg).trace_invariant (B := fun _ h tr => h.Backed cfg tr) h (fun tid => ?_) ?_
  · exact ⟨rfl, fun _ _ hh => (by cases hh), fun _ ha => (by cases ha), trivial⟩
  · intro s tid i o tr s' a hnamed hx hall hans hb
    refine hb.next hall hans fun ref states heq => ?_
    cases heq
    cases exec_effect hx with
    | quiet _ _ _ _ hq => exact hq.elim
    | lastKnownStates => exact hnamed

abbrev Log := List (LogEntry Op.Ans Tid)

def Submits (r : Record) (x : LogEntry Op.Ans Tid) : Prop :=
  (∃ sink commit b, x.event = ⟨.enqueue sink ⟨r, commit⟩, b⟩) ∨
    ∃ st k, x.event = ⟨.closeOutsAdd st k r, ()⟩

def Originated (cfg : Config) (log : Log) (key : Key) (r : Record) : Prop :=
  ∃ y ∈ log, Submits r y ∧ Evidence cfg key r y.trace

def Justified (cfg : Config) (log : Log) (key : Key) (r : Record) (tr : Trace) : Prop :=
  Evidence cfg key r tr ∨ ∃ (st : Inst) (records : List Record),
    ⟨.closeOutsTakeAll st key.cacheKey, records⟩ ∈ tr ∧
    r ∈ records ∧ Originated cfg log key r

structure Filed (cfg : Config) (s : Shared) (log : Log) : Prop where
  jobs : ∀ j ∈ s.jobs, ∃ x ∈ log, x.event = ⟨.enqueue j.sink j.job, true⟩
  closing : ∀ j ∈ s.jobs, ∀ st k key r, j.job.commit = .closeOut st k key r → Originated cfg log key r
  queued : ∀ st k (key : Key), key.Owns st k → ∀ r ∈ s.closeOuts st k, Originated cfg log key r

section Filed

variable {cfg : Config} {s s' : Shared} {log : Log} {key : Key} {r : Record} {st : Inst} {k : String}

theorem Originated.mono {log' : Log} (h : Originated cfg log key r) (hl : log ⊆ log') :
    Originated cfg log' key r := by
  obtain ⟨y, hy, hs⟩ := h
  exact ⟨y, hl hy, hs⟩

theorem Filed.mono {log' : Log} (h : Filed cfg s log) (hl : log ⊆ log') : Filed cfg s log' where
  jobs j hj := by
    obtain ⟨x, hx, he⟩ := h.jobs j hj
    exact ⟨x, hl hx, he⟩
  closing j hj st k key r hc := (h.closing j hj st k key r hc).mono hl
  queued st k key hk r hr := (h.queued st k key hk r hr).mono hl

theorem Filed.keep (h : Filed cfg s log) (hj : s'.jobs = s.jobs)
    (hc : ∀ st k, ∀ r ∈ s'.closeOuts st k, r ∈ s.closeOuts st k) : Filed cfg s' log where
  jobs j hm := h.jobs j (hj ▸ hm)
  closing j hm := h.closing j (hj ▸ hm)
  queued st k key hk r hr := h.queued st k key hk r (hc st k r hr)

theorem Filed.same (h : Filed cfg s log) (hs : s.Same s') : Filed cfg s' log :=
  h.keep hs.jobs fun st k _ hr => hs.closeOuts st k ▸ hr

theorem Filed.settle (h : Filed cfg s log) {j : Nat} {sink : String} {job : Job} {ok : Bool}
    (hj : s.jobs[j]? = some ⟨sink, job, .inFlight⟩) (hl : ∀ h ∈ s.jobs, h.Lawful cfg) :
    Filed cfg (s.settled j sink job ok) log := by
  have hm := List.mem_of_getElem? hj
  refine ⟨fun j' hm' => ?_, fun j' hm' st k key r hc => ?_, fun st k key hk r hr => ?_⟩
  · obtain ⟨j₀, hm₀, hs, hjob⟩ := Shared.exists_of_settled hm' hj
    exact hs ▸ hjob ▸ h.jobs j₀ hm₀
  · obtain ⟨j₀, hm₀, -, hjob⟩ := Shared.exists_of_settled hm' hj
    exact h.closing j₀ hm₀ st k key r (hjob ▸ hc)
  · rw [Shared.settled_closeOuts] at hr
    rcases mem_closeOuts_callback hr with hr | ⟨-, key', hc⟩
    · exact h.queued st k key hk r hr
    · have hlaw := hl _ hm
      simp only [Handed.Lawful, hc] at hlaw
      obtain rfl := hk.unique hlaw.2.1
      exact h.closing _ hm st k key r hc

theorem Filed.crash (h : Filed cfg s log) : Filed cfg (crash s) log := by
  have back {j' : Handed} (hm' : j' ∈ (Kuberecord.crash s).jobs) : ∃ j₀ ∈ s.jobs,
    j₀.sink = j'.sink ∧ j₀.job = j'.job := by
    obtain ⟨j₀, hm₀, rfl⟩ := List.mem_map.mp hm'
    refine ⟨j₀, hm₀, ?_⟩
    split_ifs <;> exact ⟨rfl, rfl⟩
  refine ⟨fun j' hm' => ?_, fun j' hm' st k key r hc => ?_, fun st k key hk r hr => ?_⟩
  · obtain ⟨j₀, hm₀, hs, hjob⟩ := back hm'
    exact hs ▸ hjob ▸ h.jobs j₀ hm₀
  · obtain ⟨j₀, hm₀, -, hjob⟩ := back hm'
    exact h.closing j₀ hm₀ st k key r (hjob ▸ hc)
  · cases hr

end Filed

structure Documented (cfg : Config) (s : System) : Prop where
  filed : Filed cfg s.shared s.log
  taken : ∀ x ∈ s.log, ∀ st k records, x.event = ⟨.closeOutsTakeAll st k, records⟩ →
    ∀ key : Key, key.Owns st k →
    ∀ r ∈ records, Originated cfg s.log key r
  entries : ∀ i x, s.log[i]? = some x → ∀ sink job b, x.event = ⟨.enqueue sink job, b⟩ →
    job.record.eventType = .deleted → Justified cfg (s.log.take i) job.commit.key job.record x.trace

section Documented

variable {cfg : Config} {s s' : System} {h : Hand} {tr : Trace} {log : Log} {key : Key} {r : Record}
  {st : Inst}
  {k : String}

theorem Hand.Backed.carried (hb : h.Backed cfg tr) {rs : List Record}
    (hp : h.phase = .outs st k (r :: rs)) (hk : key.Owns st k)
    (hlog : ∀ e ∈ tr, ∃ y ∈ log, y.event = e)
    (htaken : ∀ x ∈ log, ∀ st k records, x.event = ⟨.closeOutsTakeAll st k, records⟩ →
      ∀ key : Key, key.Owns st k →
      ∀ r ∈ records, Originated cfg log key r) : Justified cfg log key r tr := by
  have hphase := hb.phase
  rw [hp] at hphase
  rcases hphase r (.head _) with ⟨key', hk', he⟩ | ⟨records, ht, hr⟩
  · obtain rfl := hk.unique hk'
    exact .inl he
  · obtain ⟨y, hy, hev⟩ := hlog _ ht
    exact .inr ⟨st, records, hk.2 ▸ ht, hr, htaken y hy st k records hev key hk r hr⟩

theorem Justified.originated (hj : Justified cfg log key r tr) {x : LogEntry Op.Ans Tid}
    (hx : Submits r x) (ht : x.trace = tr) : Originated cfg (log ++ [x]) key r := by
  rcases hj with he | ⟨-, -, -, -, ho⟩
  · exact ⟨x, List.mem_append_right _ (.head _), hx, ht ▸ he⟩
  · exact ho.mono (List.subset_append_left ..)

theorem Hand.Backed.closedOut (hb : h.Backed cfg tr) {sink : String} {record : Record}
    (hall : h.MayEnqueue cfg sink ⟨record, .closeOut st k key r⟩)
    (hlog : ∀ e ∈ tr, ∃ y ∈ log, y.event = e)
    (htaken : ∀ x ∈ log, ∀ st k records, x.event = ⟨.closeOutsTakeAll st k, records⟩ →
      ∀ key : Key, key.Owns st k →
      ∀ r ∈ records, Originated cfg log key r) : Justified cfg log key record tr := by
  have hphase := hb.phase
  obtain ⟨hre, hk, -, hfrom⟩ := hall
  obtain rfl : record = r := hre
  rcases hfrom with ⟨-, rs, hp⟩ | ⟨-, base, hp⟩ | ⟨-, -, -, -, x, hx, rfl⟩
  · exact hb.carried hp hk hlog htaken
  · rw [hp] at hphase
    obtain ⟨key', hk', he⟩ := hphase
    obtain rfl := hk.unique hk'
    exact .inl he
  · exact .inl (hb.outlived hx)

theorem Hand.Backed.enqueued (hb : h.Backed cfg tr) {sink : String} {job : Job}
    (hall : h.MayEnqueue cfg sink job) (hlog : ∀ e ∈ tr, ∃ y ∈ log, y.event = e)
    (htaken : ∀ x ∈ log, ∀ st k records, x.event = ⟨.closeOutsTakeAll st k, records⟩ →
      ∀ key : Key, key.Owns st k →
      ∀ r ∈ records, Originated cfg log key r) (hd : job.record.eventType = .deleted) :
    Justified cfg log job.commit.key job.record tr := by
  obtain ⟨record, commit⟩ := job
  have hphase := hb.phase
  cases commit with
  | upsert st k key t e f =>
    obtain ⟨base, norm, plan, ts, -, -, -, hdec, -, -, hr, -⟩ := hall
    refine absurd hd ?_
    simp only at hr
    rw [hr]
    exact hdec.planned.eventType
  | delete st k key t =>
    obtain ⟨e, ts, hk, -, -, hp, hr⟩ := hall
    rw [hp] at hphase
    obtain ⟨key', hk', hc⟩ := hphase
    obtain rfl := hk.unique hk'
    exact .inl (.claimed e ts hc hr)
  | closeOut st k key r => exact hb.closedOut hall hlog htaken

theorem Hand.Backed.queued (hb : h.Backed cfg tr) (hall : h.Allowed cfg (.closeOutsAdd st k r))
    (hk : key.Owns st k) (hlog : ∀ e ∈ tr, ∃ y ∈ log, y.event = e)
    (htaken : ∀ x ∈ log, ∀ st k records, x.event = ⟨.closeOutsTakeAll st k, records⟩ →
      ∀ key : Key, key.Owns st k →
      ∀ r ∈ records, Originated cfg log key r) : Justified cfg log key r tr := by
  rcases hall with ⟨rs, hp⟩ | ⟨base, hp⟩
  · exact hb.carried hp hk hlog htaken
  · have hphase := hb.phase
    rw [hp] at hphase
    obtain ⟨key', hk', he⟩ := hphase
    obtain rfl := hk.unique hk'
    exact .inl he

theorem Documented.keep (hd : Documented cfg s) (hl : s'.log = s.log) (hf : Filed cfg s'.shared s.log) :
    Documented cfg s' :=
  ⟨hl ▸ hf, hl ▸ hd.taken, hl ▸ hd.entries⟩

theorem Filed.exec {shared shared' : Shared} {tid : Tid} {o : Op} {i : Input} {a : o.Ans}
    (hf : Filed cfg shared log) (hx : Effect shared o i a shared') (hall : h.Allowed cfg o)
    (hb : h.Backed cfg tr) (hlog : ∀ e ∈ tr, ∃ y ∈ log, y.event = e)
    (htaken : ∀ x ∈ log, ∀ st k records, x.event = ⟨.closeOutsTakeAll st k, records⟩ →
      ∀ key : Key, key.Owns st k →
      ∀ r ∈ records, Originated cfg log key r) : Filed cfg shared' (log ++ [⟨tid, tr, ⟨o, a⟩⟩]) := by
  have hgrow := hf.mono (List.subset_append_left log [⟨tid, tr, ⟨o, a⟩⟩])
  have slot {st : Inst} {k : String} {x : Slot} : Filed cfg (shared.setSlot st k x)
    (log ++ [⟨tid, tr, ⟨o, a⟩⟩]) :=
    hgrow.keep rfl fun _ _ r hr => by rwa [Shared.closeOuts_setSlot] at hr
  cases hx with
  | quiet _ _ _ _ hq hs => exact hgrow.same hs
  | listerGet | lastKnownStates | scopeWasActive | sinkState | load | refused => exact hgrow
  | reserve | reserveDelete | commitIfCurrent | deleteIfCurrent | unclaimDelete | storeIfAbsent =>
    exact slot
  | now => exact hgrow.keep rfl fun _ _ _ hr => hr
  | deletePrefix => exact hgrow.keep rfl fun _ _ r hr => by rwa [Shared.closeOuts_deletePrefix] at hr
  | closeOutsTakeAll st k =>
    refine hgrow.keep rfl fun st' k' r hr => ?_
    rw [Shared.closeOuts_setCloseOuts] at hr
    split_ifs at hr
    · cases hr
    · exact hr
  | closeOutsAdd st k r =>
    refine ⟨hgrow.jobs, hgrow.closing, fun st' k' key hk r' hr => ?_⟩
    rw [Shared.closeOuts_setCloseOuts] at hr
    split_ifs at hr with hat
    · obtain ⟨rfl, rfl⟩ := hat
      rcases List.mem_append.mp hr with hr | hr
      · exact hgrow.queued st' k' key hk r' hr
      · obtain rfl := List.mem_singleton.mp hr
        exact (hb.queued hall hk hlog htaken).originated (.inr ⟨st', k', rfl⟩) rfl
    · exact hgrow.queued st' k' key hk r' hr
  | accepted sink job =>
    refine ⟨fun j hm => ?_, fun j hm st k key r hc => ?_, hgrow.queued⟩
    · rcases List.mem_append.mp hm with hm | hm
      · exact hgrow.jobs j hm
      · obtain rfl := List.mem_singleton.mp hm
        exact ⟨_, List.mem_append_right _ (.head _), rfl⟩
    · rcases List.mem_append.mp hm with hm | hm
      · exact hgrow.closing j hm st k key r hc
      · obtain rfl := List.mem_singleton.mp hm
        obtain ⟨record, commit⟩ := job
        cases hc
        obtain rfl : record = r := hall.1
        exact (hb.closedOut hall hlog htaken).originated (.inl ⟨sink, _, true, rfl⟩) rfl

theorem documented_of_run {as : List Action}
    (h : Runs.Run (machine cfg).step (fun _ a => Named a) { shared := {} } as s) :
    Documented cfg s := by
  induction h with
  | nil =>
    refine ⟨⟨by simp, by simp, fun _ _ _ _ _ hr => (by cases hr)⟩, by simp, by simp⟩
  | @snoc s _ _ _ hrun hok hst ih =>
    have hsound : (worldOf cfg s).Sound cfg :=
      World.invariant (fun _ _ => True) (hrun.mono fun _ _ _ => trivial)
        (fun _ _ _ hw _ ht => hw.turn ht) .empty
    cases (machine cfg).step_cases hst with
    | start t b shared code hn hs => exact ih.keep rfl (ih.filed.same (start_same hs))
    | finish t a tr hth => exact ih.keep rfl (ih.filed.same (finish_same _ _ _))
    | env e shared he =>
      refine ih.keep rfl ?_
      cases env_effect he with
      | quiet _ _ hs => exact ih.filed.same hs
      | removeSink | insert => exact ih.filed.keep rfl fun _ _ _ hr => hr
      | settle j ok sink job hj _ => exact ih.filed.settle hj hsound.jobs
    | crash => exact ih.keep rfl ih.filed.crash
    | exec t i o k tr shared a hth hx =>
      have hall := ((machine_safe cfg).conforms_of_run hrun t _ hth).1
      have hb := (backed_of_run hrun).1 t _ hth
      have hlog : ∀ e ∈ tr, ∃ y ∈ s.log, y.event = e := fun e he => by
        obtain ⟨before, after, hsplit⟩ := List.append_of_mem he
        exact ⟨_, (Machine.logged_of_run hrun).1 t _ hth before e after hsplit, rfl⟩
      refine ⟨ih.filed.exec (exec_effect hx) hall hb hlog ih.taken,
        fun x hx' st k' records hev key hk r hr => ?_,
        fun j x hj sink job b hev hd => ?_⟩
      · rcases List.mem_append.mp hx' with hx' | hx'
        · exact (ih.taken x hx' st k' records hev key hk r hr).mono (List.subset_append_left ..)
        · obtain rfl := List.mem_singleton.mp hx'
          cases hev
          cases exec_effect hx with
          | quiet _ _ _ _ hq => exact hq.elim
          | closeOutsTakeAll => exact (ih.filed.queued st k' key hk r hr).mono (List.subset_append_left ..)
      · simp only [List.getElem?_append] at hj
        split_ifs at hj with hlt
        · rw [List.take_append_of_le_length (by omega)]
          exact ih.entries j x hj sink job b hev hd
        · obtain ⟨hj0, rfl⟩ : j - s.log.length = 0 ∧ _ := by simpa [List.getElem?_singleton] using hj
          cases hev
          rw [List.take_append_of_le_length (by omega), List.take_of_length_le (by omega)]
          exact hb.enqueued hall hlog ih.taken hd

end Documented

def Tid.reports : Tid → Bool
  | .worker _ | .warm _ => true
  | .boot _ | .evict _ => false

def reporting : Protocol Op Op.Ans Tid where
  allowed tid o := ∀ sink job, o = .enqueue sink job → tid.reports = true
  answers := Op.Answers
  next tid _ _ := tid

theorem closeScopes_reporting {tid : Tid} (sink : String) (scopes : List ScopeKey) :
    reporting.Obeys (closeScopes sink scopes) tid (fun _ _ => True) := by
  induction scopes with
  | nil => trivial
  | cons scope scopes ih =>
    simp only [closeScopes, Program.perform_bind, Protocol.obeys_op]
    refine ⟨fun _ _ ho => (by cases ho), fun desired _ => ?_⟩
    cases desired with
    | true => exact ih
    | false =>
      refine ⟨fun _ _ ho => (by cases ho),
        fun ts _ => ⟨fun _ _ ho => (by cases ho), fun accepted _ => ?_⟩⟩
      cases accepted with
      | true => exact ih
      | false => trivial

theorem closeOrphanedScopes_reporting {tid : Tid} (sink : String) :
    reporting.Obeys (closeOrphanedScopes sink) tid (fun _ _ => True) := by
  simp only [closeOrphanedScopes, Program.perform_bind, Protocol.obeys_op]
  refine ⟨fun _ _ ho => (by cases ho), fun answer _ => ?_⟩
  cases answer with
  | noStateReader | notLive => trivial
  | reader =>
    refine ⟨fun _ _ ho => (by cases ho), fun writer _ => ?_⟩
    cases writer with
    | false => trivial
    | true =>
      refine ⟨fun _ _ ho => (by cases ho), fun scopes _ => ?_⟩
      cases scopes with
      | none => trivial
      | some scopes => exact closeScopes_reporting sink scopes

theorem reporting_safe (cfg : Config) : (machine cfg).Safe reporting id (fun _ _ _ => True) := by
  refine ⟨fun shared tid b shared' code hs => ?_, (machine_safe cfg).answers⟩
  cases tid with
  | worker | warm =>
    exact reporting.obeys_of_absorbing code (fun _ => ⟨fun _ _ _ => rfl, fun _ => rfl⟩)
      (fun _ => trivial)
  | boot sink =>
    cases b <;> simp only [machine, start, Option.ite_none_left_eq_some, Option.some.injEq,
      Prod.mk.injEq,
      reduceCtorEq] at hs
    rw [← hs.2.2]
    exact closeOrphanedScopes_reporting sink
  | evict ref =>
    cases b <;> simp only [machine, start, Option.some.injEq, Prod.mk.injEq, reduceCtorEq] at hs
    rw [← hs.2]
    exact ⟨fun _ _ ho => (by cases ho), fun _ _ => ⟨fun _ _ ho => (by cases ho), fun _ _ =>
      ⟨fun _ _ ho => (by cases ho), fun _ _ => trivial⟩⟩⟩

theorem reports_of_run {cfg : Config} {as : List Action} {s : System}
    {ok : System → Action → Prop} (h : Runs.Run (machine cfg).step ok { shared := {} } as s)
    {x : LogEntry Op.Ans Tid} (hx : x ∈ s.log) {sink : String} {job : Job} {b : Bool}
    (he : x.event = ⟨.enqueue sink job, b⟩) :
    x.tid.reports = true := by
  have hall := (((reporting_safe cfg).trace_invariant (B := fun tid p _ => p = tid) h (fun _ => rfl)
    (fun _ _ _ _ _ _ _ _ _ _ _ hp => hp)).2 x hx)
  rw [hall.2, he] at hall
  exact hall.1 sink job rfl

theorem deleted_rows_evidenced {cfg : Config} {as : List Action} {s : System} {j : Handed}
    (h : Runs.Run (machine cfg).step (fun _ a => Named a) { shared := {} } as s) (hj : j ∈ s.shared.jobs)
    (hd : j.job.record.eventType = .deleted) :
    j.sink = j.job.commit.key.sink ∧
      ∃ i x, s.log[i]? = some x ∧ x.event = ⟨.enqueue j.sink j.job, true⟩ ∧
        x.tid.reports = true ∧ Justified cfg (s.log.take i) j.job.commit.key j.job.record x.trace := by
  have hdoc : Documented cfg s := documented_of_run h
  have hsound : (worldOf cfg s).Sound cfg :=
    World.invariant (fun _ _ => True) (h.mono fun _ _ _ => trivial)
      (fun _ _ _ hw _ ht => hw.turn ht) .empty
  obtain ⟨x, hx, hev⟩ := hdoc.filed.jobs j hj
  obtain ⟨i, hi⟩ := List.getElem?_of_mem hx
  refine ⟨(hsound.jobs j hj).isOf.1, i, x, hi, hev, reports_of_run h hx hev, ?_⟩
  exact hdoc.entries i x hi j.sink j.job true hev hd

theorem resubmitted_row_evidenced : ∃ (s : System) (j : Handed), s.shared.jobs[3]? = some j ∧
    ∃ i x, s.log[i]? = some x ∧ x.event = ⟨.enqueue j.sink j.job, true⟩ ∧
      Justified sampleConfig (s.log.take i) j.job.commit.key j.job.record x.trace := by
  obtain ⟨s, hrun, j, hj, hd⟩ :=
    Runs.Run.exists_of_exec (machine sampleConfig).step (fun _ a => Named a) { shared := {} }
    (addedSteps "u" 1 1 ++ landSteps 0 ++ supersededSteps "v" 2 2 ++ [.env (.settle 1 false)] ++
      processSteps [.lookup sampleKey (some ⟨some (sampleObject "v" 2), true⟩), .writer (some {}),
      .go, .go, .flag true,
        .policy (some none), .go, .go])
    (fun s => ∃ j ∈ s.shared.jobs[3]?, j.job.record.eventType = .deleted) (by decide)
  obtain ⟨-, i, x, hi, hev, -, hjust⟩ := deleted_rows_evidenced hrun (List.mem_of_getElem? hj) hd
  exact ⟨s, j, hj, i, x, hi, hev, hjust⟩

end Kuberecord
