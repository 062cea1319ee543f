import Kuberecord.ScopeAccess
import Kuberecord.OrderKeys
import Kuberecord.Sinks.Tables

namespace Kuberecord

open Threads Aggregates

def Shared.sinkRows (s : Shared) (sink : String) : List Record :=
  (s.table.filter (·.1 = sink)).map Prod.snd

/--
The row that says what a name is: not a deletion, the last of its incarnation, and only ended
incarnations have later ones.
-/
structure Decisive (clusterID : String) (key : Key) (rows : List Record) (r : Record) : Prop where
  mem : r ∈ rows
  isOf : r.isOf clusterID key
  alive : r.eventType ≠ .deleted
  last : ∀ r' ∈ rows, r'.isOf clusterID key → r'.uid = r.uid → r'.timestamp ≤ r.timestamp
  newest : ∀ r' ∈ rows, r'.isOf clusterID key → r.timestamp < r'.timestamp →
    ∃ d ∈ rows, d.isOf clusterID key ∧ d.uid = r'.uid ∧ d.eventType = .deleted ∧
    r'.timestamp ≤ d.timestamp

section Tables

variable {rows : List Record} {r : Record} {x : KnownState} {ref : ScopeRef} {clusterID : String}

theorem Record.known_eq_some (h : r.known = some x) :
    r.incarnation = (x.ns.1, x.name, x.uid) ∧ r.sha256 = x.sha256 ∧ r.timestamp = x.ts := by
  unfold known at h
  split_ifs at h
  cases h
  exact ⟨rfl, rfl, rfl⟩

theorem Record.known_of_ns {ns : Namespace} (h : r.ns = ns.1) :
    r.known = some ⟨ns, r.name, r.uid, r.sha256, r.apiVersion, r.timestamp⟩ := by
  have hns : '|' ∉ r.ns.toList ∧ '/' ∉ r.ns.toList := h ▸ ns.2
  rw [known, dif_pos hns]
  simp only [h]
  rfl

theorem Tables.distinct_lastKnownStates (f : ScopeFilter) (rows : List Record) :
    Distinct (lastKnownStates f rows) := by
  have hrows : (lastRows f rows).Pairwise fun r r' => r.incarnation ≠ r'.incarnation :=
    List.pairwise_map.mp (nodup_latest _)
  refine List.pairwise_map.mpr ((hrows.filter _).filterMap _ ?_)
  intro r r' hne x hx x' hx' ht
  apply hne
  rw [(Record.known_eq_some hx).1, (Record.known_eq_some hx').1]
  simp only [KnownState.target, GcTarget.mk.injEq] at ht
  rw [ht.1, ht.2.1, ht.2.2]

theorem ScopeFilter.Admits.isOf {ns : Namespace} {name uid : String}
    (h : (ref.filter clusterID).Admits r) (hi : r.incarnation = (ns.1, name, uid)) :
    r.isOf clusterID (ref.key ns name) := by
  simp only [Record.incarnation, Prod.mk.injEq] at hi
  exact ⟨h.2.2.1, h.1, h.2.1, hi.1, hi.2.1⟩

theorem ScopeFilter.admits_of_isOf {r' : Record} {key : Key} (h : (ref.filter clusterID).Admits r)
    (hr : r.isOf clusterID key) (hr' : r'.isOf clusterID key) : (ref.filter clusterID).Admits r' := by
  obtain ⟨hc, hg, hk, hn, -⟩ := hr
  obtain ⟨hc', hg', hk', hn', -⟩ := hr'
  refine ⟨hg'.trans (hg.symm.trans h.1), hk'.trans (hk.symm.trans h.2.1),
    hc'.trans (hc.symm.trans h.2.2.1), fun hf => ?_⟩
  exact hn'.trans (hn.symm.trans (h.2.2.2 hf))

theorem decisive_of_current {states : List KnownState} {c : KnownState}
    (hp : states.Perm (Tables.lastKnownStates (ref.filter clusterID) rows))
    (hc : c ∈ currentStates states) :
    ∃ r, Decisive clusterID (ref.key c.ns c.name) rows r ∧ r.sha256 = c.sha256 ∧ r.uid = c.uid := by
  have hd : Distinct states := (Tables.distinct_lastKnownStates _ rows).perm hp
  obtain ⟨hcs, hbest⟩ := (mem_currentStates hd).mp hc
  obtain ⟨r, hr, hknown⟩ := List.mem_filterMap.mp (hp.mem_iff.mp hcs)
  obtain ⟨hr, halive⟩ := List.mem_filter.mp hr
  obtain ⟨hmem, hlast⟩ := mem_latest hr
  obtain ⟨hmem, hadm⟩ := List.mem_filter.mp hmem
  obtain ⟨hinc, hsha, hts⟩ := Record.known_eq_some hknown
  have hadm : (ref.filter clusterID).Admits r := by simpa using hadm
  have hof := hadm.isOf hinc
  have huid : r.uid = c.uid := congrArg (·.2.2) hinc
  have admitted : ∀ r' ∈ rows, r'.isOf clusterID (ref.key c.ns c.name) →
      r' ∈ rows.filter fun r => (ref.filter clusterID).Admits r := fun r' hr' hof' =>
    List.mem_filter.mpr ⟨hr', by simpa using ScopeFilter.admits_of_isOf hadm hof hof'⟩
  have same : ∀ {r' : Record} {uid : String}, r'.isOf clusterID (ref.key c.ns c.name) → r'.uid = uid →
      r'.incarnation = (c.ns.1, c.name, uid) := fun hof' hu => by
    rw [Record.incarnation, hof'.2.2.2.1, hof'.2.2.2.2, hu]
    rfl
  refine ⟨r, ⟨hmem, hof, by simpa using halive, ?_, ?_⟩, hsha, huid⟩
  · intro r' hr' hof' hu
    exact hlast r' (admitted r' hr' hof') ((same hof' (hu.trans huid)).trans hinc.symm)
  · intro r' hr' hof' hlt
    -- the last row of the later incarnation: were it open, it would be the current one
    obtain ⟨d, hd, hdi⟩ := exists_mem_latest Record.incarnation Record.timestamp (admitted r' hr' hof')
    obtain ⟨hdmem, hdlast⟩ := mem_latest hd
    have hdi' := hdi.trans (same hof' rfl)
    have hle : r'.timestamp ≤ d.timestamp := hdlast r' (admitted r' hr' hof') hdi.symm
    obtain ⟨hdrow, hdadm⟩ := List.mem_filter.mp hdmem
    have hdof : d.isOf clusterID (ref.key c.ns c.name) :=
      ScopeFilter.Admits.isOf (by simpa using hdadm) hdi'
    refine ⟨d, hdrow, hdof, congrArg (·.2.2) hdi', Classical.byContradiction fun hopen => ?_, hle⟩
    have hy : _ ∈ Tables.lastKnownStates (ref.filter clusterID) rows :=
      List.mem_filterMap.mpr ⟨d, List.mem_filter.mpr ⟨hd, by simpa using hopen⟩,
        Record.known_of_ns hdof.2.2.2.1⟩
    have hts' : c.ts < d.timestamp := by omega
    have hbeaten := hbest _ (hp.mem_iff.mpr hy) (congrArg (c.ns, ·) hdof.2.2.2.2) fun he => by
      have := congrArg KnownState.ts he
      simp only at this
      omega
    simp only [newer] at hbeaten
    omega

end Tables

def historyRead : Action → Option (ScopeRef × List KnownState)
  | .exec _ (.states ref (some states)) => some (ref, states)
  | _ => none

def ReadsTable (clusterID : String) (s : System) (a : Action) : Prop :=
  ∀ h ∈ historyRead a, h.2.Perm (Tables.lastKnownStates (h.1.filter clusterID)
    (s.shared.sinkRows h.1.sink))

instance (clusterID : String) (s : System) (a : Action) : Decidable (ReadsTable clusterID s a) :=
  inferInstanceAs (Decidable (∀ h ∈ historyRead a, _))

def told : Sigma Op.Ans → Option (ScopeRef × List KnownState)
  | ⟨.lastKnownStates ref, states⟩ => states.map (ref, ·)
  | _ => none

def lastTold (tr : List (Sigma Op.Ans)) : Option (ScopeRef × List KnownState) :=
  (tr.filterMap told).getLast?

def Sown (tr : List (Sigma Op.Ans)) (o : Op) : Prop :=
  ∀ st k entry, o = .storeIfAbsent st k entry → ∃ ref states, ∃ c ∈ currentStates states,
    lastTold tr = some (ref, states) ∧ ⟨.sinkState ref.sink, st⟩ ∈ tr ∧ (st, k, entry) = seedOf ref st c

variable {cfg : Config} {tr : List (Sigma Op.Ans)} {α : Type}

theorem lastTold_snoc (tr : List (Sigma Op.Ans)) (e : Sigma Op.Ans) :
    lastTold (tr ++ [e]) = (told e).or (lastTold tr) := by
  rw [lastTold, List.filterMap_append, List.getLast?_append]
  cases he : told e <;> simp [he, lastTold]

theorem mem_of_lastTold {ref : ScopeRef} {states : List KnownState}
    (h : lastTold tr = some (ref, states)) :
    ⟨.lastKnownStates ref, some states⟩ ∈ tr := by
  obtain ⟨⟨o, a⟩, he, ht⟩ := List.mem_filterMap.mp (List.mem_of_getLast? h)
  cases o with
  | lastKnownStates ref' =>
    obtain ⟨states', rfl, ht⟩ := Option.map_eq_some_iff.mp ht
    cases ht
    exact he
  | _ => cases ht

theorem Sown.of_not_plants {o : Op} (h : ¬ o.Plants) : Sown tr o := by
  rintro st k entry rfl
  exact absurd trivial h

theorem sown_of_avoids {x : Prog α} (hx : x.Avoids Op.Plants) :
    (chronicle Sown).Obeys x tr fun _ _ => True :=
  ((chronicle Sown).obeys_of_confined (I := fun _ => True) hx
    (fun _ _ _ ho => ⟨Sown.of_not_plants ho, fun _ => trivial⟩) trivial).mono _ fun _ _ _ => trivial

theorem seedGroups_sown {ref : ScopeRef} {st : Inst} {states : List KnownState}
    (hread : lastTold tr = some (ref, states)) (hst : ⟨.sinkState ref.sink, st⟩ ∈ tr) :
    (chronicle Sown).Obeys ((groupByIdentity states).forM (seedGroup ref st)) tr fun _ _ => True := by
  refine (Protocol.Obeys.forM (chronicle Sown) (I := fun (gs : List Group) tr' =>
    lastTold tr' = some (ref, states) ∧
    ⟨.sinkState ref.sink, st⟩ ∈ tr' ∧ ∀ g ∈ gs, g ∈ groupByIdentity states) ?_ ⟨hread, hst,
    fun _ => id⟩).mono _
    fun _ _ _ => trivial
  rintro g gs tr' ⟨hread, hst, hgs⟩
  have hg : (splitIncarnations g).1 ∈ currentStates states := List.mem_map_of_mem (hgs g (.head _))
  refine ⟨?_, fun _ _ => ⟨?_, List.mem_append_left _ hst, fun g' hg' => hgs g' (.tail _ hg')⟩⟩
  · rintro _ _ _ ⟨⟩
    exact ⟨ref, states, _, hg, hread, hst, rfl⟩
  · exact (lastTold_snoc tr' _).trans hread

theorem seedScope_sown (ref : ScopeRef) (n : Nat) :
    (chronicle Sown).Obeys (seedScope ref n) tr fun _ _ => True := by
  have other : ∀ {o : Op} {tr}, ¬ o.Plants → (chronicle Sown).allowed tr o :=
    fun ho => Sown.of_not_plants ho
  refine (retry_rule (I := fun _ _ => True) (Q := fun _ _ => True) ?_ ?_ n trivial).mono _ fun _ _
    _ => trivial
  · intro _ tr _
    simp only [readState, Program.perform_bind, Program.op_bind, Protocol.obeys_op]
    refine ⟨other id, fun answer _ => ?_⟩
    cases answer with
    | noStateReader | notLive => trivial
    | reader =>
      refine ⟨other id, fun rows _ => ?_⟩
      cases rows with
      | none => trivial
      | some states =>
        refine ⟨other id, fun st _ => Protocol.Obeys.bind _ (seedGroups_sown ?_ ?_) fun _ _ _ => trivial⟩
        · exact (lastTold_snoc _ _).trans (lastTold_snoc _ _)
        · exact List.mem_append_right _ (List.mem_singleton_self _)
  · intro _ _ _ _
    exact ⟨other id, trivial, trivial⟩

theorem warm_sown (ref : ScopeRef) (epochStart n : Nat) :
    (chronicle Sown).Obeys (do warm cfg ref epochStart n; return none : Prog (Option Err))
    [] fun _ _ => True := by
  rw [Protocol.obeys_bind]
  refine Protocol.Obeys.bind _ (seedScope_sown ref n) ?_
  rintro ⟨err, seeded, priors⟩ tr -
  cases err with
  | some e => trivial
  | none =>
    refine ⟨(by rintro _ _ _ ⟨⟩), fun _ _ => ?_⟩
    simp only
    split_ifs
    · trivial
    · trivial
    · exact sown_of_avoids ((reconcileHistory_avoids epochStart n seeded priors).mono Op.Plants.foreign)

theorem machine_sown (cfg : Config) :
    (machine cfg).Safe (chronicle Sown) (fun _ => []) fun _ _ _ => True := by
  refine ⟨fun shared tid b shared' code hs => ?_, fun _ _ _ _ _ _ _ => trivial⟩
  cases tid <;> cases b <;>
    simp only [machine, Kuberecord.start, Option.ite_none_right_eq_some,
      Option.ite_none_left_eq_some, Option.some.injEq, Prod.mk.injEq, reduceCtorEq] at hs
  case worker.run key => exact hs.2.2 ▸ sown_of_avoids (process_avoids.mono Op.Plants.foreign)
  case warm.warm id ref epochStart n => exact hs.2.2 ▸ warm_sown ref epochStart n
  case boot.run sink => exact hs.2.2 ▸ sown_of_avoids (closeOrphanedScopes_avoids sink)
  case evict.run ref =>
    rw [← hs.2]
    exact sown_of_avoids ⟨id, fun _ => ⟨id, fun _ => ⟨id, fun _ => trivial⟩⟩⟩

theorem mem_storesOf {log : List (LogEntry Op.Ans Tid)} {st : Inst} {k : String} {entry : CacheEntry}
    (h : (st, k, entry) ∈ storesOf (log.map LogEntry.event)) :
    ∃ x ∈ log, x.event.1 = .storeIfAbsent st k entry := by
  obtain ⟨⟨o, a⟩, he, hs⟩ := List.mem_filterMap.mp h
  obtain ⟨x, hx, he⟩ := List.mem_map.mp he
  refine ⟨x, hx, ?_⟩
  rw [he]
  cases o <;> cases hs
  rfl

structure Answered (cfg : Config) (table : List (String × Record)) (as : List Action)
    (x : LogEntry Op.Ans Tid) :
    Prop where
  inst : ∀ sink st, x.event = ⟨.sinkState sink, st⟩ → st.sink = sink
  history : ∀ ref states, x.event = ⟨.lastKnownStates ref, some states⟩ → ∃ bs u th,
    bs ++ [.exec x.tid (.states ref (some states))] <+: as ∧
    Runs.Run (machine cfg).step (ReadsTable cfg.clusterID) { shared := { table := table } } bs u ∧
    u.threads x.tid = some th ∧ th.trace = x.trace ∧
    states.Perm (Tables.lastKnownStates (ref.filter cfg.clusterID) (u.shared.sinkRows ref.sink))

theorem Answered.mono {table : List (String × Record)} {as as' : List Action} {x : LogEntry Op.Ans Tid}
    (h : Answered cfg table as x) (hp : as <+: as') : Answered cfg table as' x where
  inst := h.inst
  history ref states he := by
    obtain ⟨bs, u, th, hbs, hu⟩ := h.history ref states he
    exact ⟨bs, u, th, hbs.trans hp, hu⟩

theorem answered_of_run {table : List (String × Record)} {as : List Action} {s : System}
    (h : Runs.Run (machine cfg).step (ReadsTable cfg.clusterID) { shared := { table := table } } as s) :
    ∀ x ∈ s.log, Answered cfg table as x := by
  induction h with
  | nil => exact fun _ hx => by cases hx
  | @snoc s s' as a hrun hok hstep ih =>
    have kept : ∀ x ∈ s.log, Answered cfg table (as ++ [a]) x :=
      fun x hx => (ih x hx).mono (List.prefix_append _ _)
    cases (machine cfg).step_cases hstep with
    | start | finish | env | crash => exact kept
    | exec t i o k tr shared answer hth hx =>
      intro x hmem
      rcases List.mem_append.mp hmem with hmem | hmem
      · exact kept x hmem
      · obtain rfl := List.mem_singleton.mp hmem
        have heff := exec_effect hx
        constructor
        · rintro sink st ⟨⟩
          cases heff with
          | quiet _ _ _ _ hq => exact hq.elim
          | sinkState => rfl
        · rintro ref states ⟨⟩
          cases heff with
          | quiet _ _ _ _ hq => exact hq.elim
          | lastKnownStates => exact ⟨as, s, _, List.prefix_rfl, hrun, hth, rfl, hok _ rfl⟩

theorem seeds_follow_table {table : List (String × Record)} {as : List Action} {s : System}
    (h : Runs.Run (machine cfg).step (ReadsTable cfg.clusterID) { shared := { table := table } } as s)
    {x : LogEntry Op.Ans Tid} (hx : x ∈ s.log) {st : Inst} {k : String} {entry : CacheEntry}
    (ho : x.event.1 = .storeIfAbsent st k entry) :
    ∃ ref states bs u th, lastTold x.trace = some (ref, states) ∧
      bs ++ [.exec x.tid (.states ref (some states))] <+: as ∧
      Runs.Run (machine cfg).step (ReadsTable cfg.clusterID) { shared := { table := table } } bs u ∧
      u.threads x.tid = some th ∧ th.trace ++ [⟨.lastKnownStates ref, some states⟩] <+: x.trace ∧
      ∃ key r, key.sink = st.sink ∧ k = key.cacheKey ∧
        Decisive cfg.clusterID key (u.shared.sinkRows st.sink) r ∧
        entry = { hash := r.sha256, uid := r.uid, seeded := true } := by
  obtain ⟨ref, states, c, hc, hread, hst, hseed⟩ := (machine_sown cfg).chronicled h x hx st k entry ho
  obtain ⟨before, after, hsplit⟩ := List.append_of_mem (mem_of_lastTold hread)
  obtain ⟨before', after', hsplit'⟩ := List.append_of_mem hst
  have logged := (Machine.logged_of_run h).2 x hx
  obtain ⟨bs, u, th, hbs, hu, hth, htrace, hp⟩ :=
    (answered_of_run h _ (logged _ _ _ hsplit)).history ref states rfl
  obtain ⟨r, hr, hsha, huid⟩ := decisive_of_current hp hc
  have hsink : st.sink = ref.sink := (answered_of_run h _ (logged _ _ _ hsplit')).inst _ _ rfl
  simp only [seedOf, seededEntry, Prod.mk.injEq, true_and] at hseed
  refine ⟨ref, states, bs, u, th, hread, hbs, hu, hth, ?_, ref.key c.ns c.name, r, hsink.symm,
    hseed.1, hsink ▸ hr, ?_⟩
  · rw [htrace, hsplit]
    exact ⟨after, by simp⟩
  · rw [hseed.2, hsha, huid]

theorem restarted_process_reseeds : ∃ key rows r, sampleKey.cacheKey = key.cacheKey ∧
    Decisive "c" key rows r ∧ r.sha256 = "h1" ∧ r.uid = "u" := by
  obtain ⟨s, hrun, hstores⟩ := Runs.Run.exists_of_exec (machine sampleConfig).step (ReadsTable "c")
    { shared := {} }
    (addedSteps "u" 1 1 ++ landSteps 0 ++ [.crash, .start (.warm 0) (.warm sampleScope 0 1)] ++
      [.reader .reader, .states sampleScope (some [sampleState "u" "h1" 1]), .go, .go].map
      (.exec (.warm 0)))
    (fun s => (⟨"s", 0⟩, sampleKey.cacheKey, { hash := "h1", uid := "u", seeded := true }) ∈
      storesOf (s.log.map LogEntry.event)) (by decide)
  obtain ⟨x, hx, ho⟩ := mem_storesOf hstores
  obtain ⟨_, _, _, u, _, -, -, -, -, -, key, r, -, hk, hr, he⟩ := seeds_follow_table hrun hx ho
  exact ⟨key, _, r, hk, hr, (congrArg CacheEntry.hash he).symm, (congrArg CacheEntry.uid he).symm⟩

end Kuberecord
