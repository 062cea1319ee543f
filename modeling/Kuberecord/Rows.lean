import Kuberecord.Writes

/-!
Where rows come from. A row is in a job, in a close-out queue or in the hands of a goroutine, and
one step made it.
-/

namespace Kuberecord

variable {r : Record} {st st' : Inst} {k k' : String}

def landedRows (cfg : Config) (s : Shared) (key : Key) : List Record :=
  (s.table.filter (fun x => x.1 = key.sink ∧ x.2.isOf cfg.clusterID key)).map Prod.snd

theorem mem_landedRows {cfg : Config} {s : Shared} {key : Key} :
    r ∈ landedRows cfg s key ↔ (key.sink, r) ∈ s.table ∧ r.isOf cfg.clusterID key := by
  constructor
  · intro h
    obtain ⟨⟨sink, r'⟩, hm, rfl⟩ := List.mem_map.mp h
    obtain ⟨hm, hp⟩ := List.mem_filter.mp hm
    obtain ⟨rfl, hof⟩ := of_decide_eq_true hp
    exact ⟨hm, hof⟩
  · rintro ⟨hm, hof⟩
    exact List.mem_map.mpr ⟨_, List.mem_filter.mpr ⟨hm, decide_eq_true ⟨rfl, hof⟩⟩, rfl⟩

def Reported (cfg : Config) (s : Shared) (ref : ScopeRef) (x : KnownState) : Prop :=
  ∃ r ∈ landedRows cfg s (ref.key x.ns x.name), r.eventType ≠ .deleted ∧ r.uid = x.uid ∧
    r.timestamp = x.ts ∧
    r.sha256 = x.sha256 ∧ r.apiVersion = x.apiVersion ∧
    ∀ r' ∈ landedRows cfg s (ref.key x.ns x.name), r'.uid = x.uid → r'.timestamp ≤ x.ts

instance (cfg : Config) (s : Shared) (ref : ScopeRef) (x : KnownState) :
    Decidable (Reported cfg s ref x) :=
  inferInstanceAs (Decidable (∃ r ∈ _, _))

def Phase.Carries (st : Inst) (k : String) (r : Record) : Phase → Prop
  | .outs st' k' rs => st' = st ∧ k' = k ∧ r ∈ rs
  | .closing st' k' _ r' => st' = st ∧ k' = k ∧ r' = r
  | _ => False

@[simp]
theorem Phase.carries_outsOf {rs : List Record} :
    (Phase.outsOf st' k' rs).Carries st k r ↔ st' = st ∧ k' = k ∧ r ∈ rs := by
  cases rs with
  | nil => simp [Phase.outsOf, Phase.Carries]
  | cons r' rs => rfl

theorem Phase.carries_outs {rs : List Record} :
    (Phase.outs st' k' rs).Carries st k r ↔ st' = st ∧ k' = k ∧ r ∈ rs := Iff.rfl

theorem Phase.carries_closing {r' : Record} {base : CacheEntry} :
    (Phase.closing st' k' base r').Carries st k r ↔ st' = st ∧ k' = k ∧ r' = r := Iff.rfl

theorem Phase.not_carries_idle : Phase.idle.Carries st k r ↔ False := Iff.rfl

theorem Phase.not_carries_superseded {base : CacheEntry} :
    (Phase.superseded st' k' base).Carries st k r ↔ False := Iff.rfl

namespace World

variable {w w' : World} {cfg : Config} {d : Deed} {sink : String} {r : Record} {P : String →
  Record → Prop}

inductive Has (w : World) (sink : String) (r : Record) : Prop
  | job (h : Handed) : h ∈ w.shared.jobs → h.sink = sink → h.job.record = r → Has w sink r
  | queue (st : Inst) (k : String) : st.sink = sink → r ∈ w.shared.closeOuts st k → Has w sink r
  | hand (tid : Tid) (st : Inst) (k : String) : st.sink = sink → (w.phase tid).Carries st k r →
      Has w sink r

inductive Born (cfg : Config) (w w' : World) : Action → String → Record → Prop
  | upsert (key : Key) (st : Inst) (k : String) (base : Option CacheEntry) (e : CacheEntry)
      (t : Ticket) (ts : Nat) (norm : NormalizedObject) (plan : Plan) : w.phase (.worker key) =
      .reserved st k base e t (some ts) →
      w'.phase = Function.update w.phase (.worker key) .idle →
      Born cfg w w' (.exec (.worker key) (.flag true)) key.sink
      (upsertRecord cfg.clusterID key norm plan ts)
  | delete (tid : Tid) (key : Key) (st : Inst) (k : String) (e : CacheEntry) (t : Ticket) (ts : Nat) :
      w.phase tid = .claimed st k e t (some ts) → w'.phase = Function.update w.phase tid .idle →
      Born cfg w w' (.exec tid (.flag true)) key.sink
      (Record.closing cfg.clusterID key ts e.apiVersion e.uid)
  | close (key : Key) (st : Inst) (k : String) (base e : CacheEntry) (ts : Nat) :
      w.phase (.worker key) = .superseding st k base e → w'.shared.clock = ts →
      w'.phase = Function.update w.phase (.worker key)
        (.closing st k base (Record.closing cfg.clusterID key ts e.apiVersion e.uid)) →
      Born cfg w w' (.exec (.worker key) (.time ts)) key.sink
        (Record.closing cfg.clusterID key ts e.apiVersion e.uid)
  | recover (tid : Tid) (key : Key) (x : KnownState) (b : Bool) : (w.seen tid).Outlived key x →
      (key.sink, x.reincarnation.closeOutRecord cfg.clusterID key) ∈ w'.recovered →
      Born cfg w w' (.exec tid (.flag b)) key.sink (x.reincarnation.closeOutRecord cfg.clusterID key)

theorem has_step {tid : Tid} {p : Phase} (hP : ∀ sink r, w.Has sink r → P sink r)
    (hw : w'.phase = Function.update w.phase tid p) (hj : ∀ h ∈ w'.shared.jobs, P h.sink h.job.record)
    (hq : ∀ st k, ∀ r ∈ w'.shared.closeOuts st k, P st.sink r)
    (hp : ∀ st k r, p.Carries st k r → P st.sink r) :
    ∀ sink r, w'.Has sink r → P sink r := by
  rintro sink r (⟨h, hm, rfl, rfl⟩ | ⟨st, k, rfl, hr⟩ | ⟨u, st, k, rfl, hc⟩)
  · exact hj h hm
  · exact hq st k r hr
  · rw [hw] at hc
    by_cases hu : u = tid
    · subst hu
      rw [Function.update_self] at hc
      exact hp st k r hc
    · rw [Function.update_of_ne hu] at hc
      exact hP _ _ (.hand u st k rfl hc)

theorem has_of_jobs (hP : ∀ sink r, w.Has sink r → P sink r) {s' : Shared}
    (hj : s'.jobs = w.shared.jobs) :
    ∀ h ∈ s'.jobs, P h.sink h.job.record :=
  fun h hm => hP _ _ (.job h (hj ▸ hm) rfl rfl)

theorem has_of_closeOuts (hP : ∀ sink r, w.Has sink r → P sink r) {s' : Shared}
    (hc : ∀ st k, s'.closeOuts st k = w.shared.closeOuts st k) :
    ∀ st k, ∀ r ∈ s'.closeOuts st k, P st.sink r :=
  fun st k _ hr => hP _ _ (.queue st k rfl (hc st k ▸ hr))

theorem has_of_hand (hP : ∀ sink r, w.Has sink r → P sink r) {job : Job} (h : P sink job.record) :
    ∀ h ∈ (w.hand sink job).jobs, P h.sink h.job.record := by
  intro h' hm
  rcases List.mem_append.mp hm with hm | hm
  · exact hP _ _ (.job h' hm rfl rfl)
  · rw [List.mem_singleton.mp hm]
    exact h

theorem has_of_setCloseOuts (hP : ∀ sink r, w.Has sink r → P sink r) {st : Inst} {k : String}
    {rs : List Record} (h : ∀ r ∈ rs, P st.sink r) :
    ∀ st' k', ∀ r ∈ (w.shared.setCloseOuts st k rs).closeOuts st' k',
    P st'.sink r := by
  intro st' k' r hr
  rw [Shared.closeOuts_setCloseOuts] at hr
  split_ifs at hr with hs
  · exact hs.1 ▸ h r hr
  · exact hP _ _ (.queue st' k' rfl hr)

theorem has_mono (hp : w'.phase = w.phase) (hj : w'.shared.jobs = w.shared.jobs)
    (hc : ∀ st k, w'.shared.closeOuts st k = w.shared.closeOuts st k) : ∀ sink r, w'.Has sink r →
    w.Has sink r := by
  rintro sink r (⟨h, hm, rfl, rfl⟩ | ⟨st, k, rfl, hr⟩ | ⟨u, st, k, rfl, hcar⟩)
  · exact .job h (hj ▸ hm) rfl rfl
  · exact .queue st k rfl (hc st k ▸ hr)
  · exact .hand u st k rfl (hp ▸ hcar)

theorem births (h : w.Sound cfg) (ht : Turn cfg w d w') :
    (∀ sink r, w'.Has sink r → w.Has sink r) ∨
      ∃ sink₀ r₀, w.Born cfg w' d.plain sink₀ r₀ ∧ ∀ sink r, w'.Has sink r → w.Has sink r ∨
        sink = sink₀ ∧ r = r₀ := by
  have old : ∀ sink r, w.Has sink r → w.Has sink r := fun _ _ => id
  have kept {tid : Tid} {p : Phase} (hw : w'.phase = Function.update w.phase tid p)
      (hj : w'.shared.jobs = w.shared.jobs) (hc : ∀ st k, w'.shared.closeOuts st k =
      w.shared.closeOuts st k)
      (hp : ∀ st k r, p.Carries st k r → w.Has st.sink r) : ∀ sink r, w'.Has sink r → w.Has sink r :=
    has_step old hw (has_of_jobs old hj) (has_of_closeOuts old hc) hp
  have or_born (sink₀ : String) (r₀ : Record) : ∀ sink r, w.Has sink r → w.Has sink r ∨
    sink = sink₀ ∧ r = r₀ :=
    fun _ _ => .inl
  cases ht with
  | still _ w' hp hs _ _ _ => exact .inl (has_mono hp hs.jobs hs.closeOuts)
  | attach | look | consult | vouch | tick | insert | removeSink =>
    exact .inl (has_mono rfl rfl fun _ _ => rfl)
  | drop _ _ _ _ _ _ hs | refuse _ _ _ _ _ _ _ _ _ _ _ _ hs | emitRefused _ _ _ _ _ _ _ _ hs
  | outrun _ _ _ _ _ _ _ _ _ _ _ hs =>
    exact .inl (kept rfl hs.jobs hs.closeOuts (by simp [Phase.Carries]))
  | load | date | dateClaim => exact .inl (kept rfl rfl (fun _ _ => rfl) (by simp [Phase.Carries]))
  | reserve | revert | retract | claim | forget | release | supersede =>
    exact .inl (kept rfl rfl (fun _ _ => Shared.closeOuts_setSlot) (by simp [Phase.Carries]))
  | issue key st k base norm plan tk ts hk hd hp =>
    refine .inr ⟨_, _, .upsert key st k base _ tk ts norm plan hp rfl, ?_⟩
    exact has_step (or_born _ _) rfl (has_of_hand (or_born _ _) (.inr ⟨rfl, rfl⟩))
      (has_of_closeOuts (or_born _ _) fun _ _ => rfl) (by simp [Phase.Carries])
  | emit tid key st k e tk ts hk he hp =>
    refine .inr ⟨_, _, .delete tid key st k e tk ts hp rfl, ?_⟩
    exact has_step (or_born _ _) rfl (has_of_hand (or_born _ _) (.inr ⟨rfl, rfl⟩))
      (has_of_closeOuts (or_born _ _) fun _ _ => rfl) (by simp [Phase.Carries])
  | dateClose key st k base e ts hp =>
    obtain ⟨key', hkey, hk⟩ := h.lawful hp
    cases hkey
    refine .inr ⟨_, _, .close key st k base e ts hp rfl rfl, ?_⟩
    refine has_step (or_born _ _) rfl (has_of_jobs (or_born _ _) rfl)
      (has_of_closeOuts (or_born _ _) fun _ _ => rfl) ?_
    rintro _ _ _ ⟨rfl, rfl, rfl⟩
    exact .inr ⟨hk.1, rfl⟩
  | close key st k base r hk hp =>
    refine .inl (has_step old rfl (has_of_hand old ?_) (has_of_closeOuts old fun _ _ => rfl)
      (by simp [Phase.Carries]))
    exact .hand (.worker key) st k hk.1 (hp ▸ ⟨rfl, rfl, rfl⟩)
  | shelve tid st k base r hp =>
    refine .inl (has_step old rfl (has_of_jobs old rfl) (has_of_setCloseOuts old ?_)
      (by simp [Phase.Carries]))
    intro r' hr'
    rcases List.mem_append.mp hr' with hr' | hr'
    · exact .queue st k rfl hr'
    · rw [List.mem_singleton.mp hr']
      exact .hand tid st k rfl (hp ▸ ⟨rfl, rfl, rfl⟩)
  | takeAll key st k hk hp =>
    refine .inl (has_step old rfl (has_of_jobs old rfl) (has_of_setCloseOuts old (by simp)) ?_)
    intro st' k' r hr
    obtain ⟨rfl, rfl, hmem⟩ := Phase.carries_outsOf.mp hr
    exact .queue st k rfl hmem
  | resubmit key st k r rs hk hp =>
    have held : ∀ r' ∈ r :: rs, w.Has st.sink r' :=
      fun r' hr' => .hand (.worker key) st k rfl (hp ▸ ⟨rfl, rfl, hr'⟩)
    refine .inl (has_step old rfl (has_of_hand old (hk.1 ▸ held r List.mem_cons_self))
      (has_of_closeOuts old fun _ _ => rfl) ?_)
    intro st' k' r' hr
    obtain ⟨rfl, rfl, hmem⟩ := Phase.carries_outsOf.mp hr
    exact held r' (List.mem_cons_of_mem _ hmem)
  | reshelve tid st k r rs hp =>
    have held : ∀ r' ∈ r :: rs, w.Has st.sink r' :=
      fun r' hr' => .hand tid st k rfl (hp ▸ ⟨rfl, rfl, hr'⟩)
    refine .inl (has_step old rfl (has_of_jobs old rfl) (has_of_setCloseOuts old ?_) ?_)
    · intro r' hr'
      rcases List.mem_append.mp hr' with hr' | hr'
      · exact .queue st k rfl hr'
      · rw [List.mem_singleton.mp hr']
        exact held r List.mem_cons_self
    · intro st' k' r' hr
      obtain ⟨rfl, rfl, hmem⟩ := Phase.carries_outsOf.mp hr
      exact held r' (List.mem_cons_of_mem _ hmem)
  | recover tid key st k x hk hn he hx hp =>
    refine .inr ⟨_, _, .recover tid key x true hx (by simp), ?_⟩
    have hidle : w.phase = Function.update w.phase tid .idle := by rw [← hp, Function.update_eq_self]
    exact has_step (or_born _ _) hidle (has_of_hand (or_born _ _) (.inr ⟨rfl, rfl⟩))
      (has_of_closeOuts (or_born _ _) fun _ _ => rfl) (by simp [Phase.Carries])
  | recoverRefused tid key st k x s' hk hn he hx hp hs =>
    refine .inr ⟨_, _, .recover tid key x false hx (by simp), ?_⟩
    refine has_step (or_born _ _) rfl (has_of_jobs (or_born _ _) hs.jobs)
      (has_of_closeOuts (or_born _ _) hs.closeOuts) ?_
    rintro _ _ r ⟨rfl, rfl, hr⟩
    exact .inr ⟨hk.1, List.mem_singleton.mp hr⟩
  | seed tid key st k current hk hn hi hx hp =>
    exact .inl (has_mono rfl rfl fun _ _ => Shared.closeOuts_setSlot)
  | evict ref st hst => exact .inl (has_mono rfl rfl fun _ _ => Shared.closeOuts_deletePrefix ..)
  | settle j ok sink job hj hok =>
    have hm := List.mem_of_getElem? hj
    refine .inl ?_
    rintro sink' r (⟨h', hm', rfl, rfl⟩ | ⟨st, k, rfl, hr⟩ | ⟨u, st, k, rfl, hcar⟩)
    · rw [Shared.settled_jobs] at hm'
      rcases List.mem_or_eq_of_mem_set hm' with hm' | rfl
      · exact .job h' hm' rfl rfl
      · exact .job _ hm rfl rfl
    · rw [Shared.settled_closeOuts] at hr
      rcases mem_closeOuts_callback hr with hr | ⟨-, key, hc⟩
      · exact .queue st k rfl hr
      · have hl := h.jobs _ hm
        simp only [Handed.Lawful, hc] at hl
        exact .job _ hm (hl.1.trans hl.2.1.1.symm) hl.2.2.1
    · exact .hand u st k rfl hcar
  | crash =>
    refine .inl ?_
    rintro sink' r (⟨h', hm', rfl, rfl⟩ | ⟨st, k, rfl, hr⟩ | ⟨u, st, k, rfl, hcar⟩)
    · obtain ⟨h₀, hm₀, rfl⟩ := List.mem_map.mp hm'
      refine .job h₀ hm₀ ?_ ?_ <;> split_ifs <;> rfl
    · cases hr
    · cases hcar

end World

end Kuberecord
