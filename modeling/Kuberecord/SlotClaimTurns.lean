import Kuberecord.SlotClaimViews

namespace Kuberecord

namespace World

variable {w w' : World} {cfg : Config} {key key' : Key} {d : Deed} {tid : Tid} {st : Inst}
  {k : String} {r : Record}
  {p : Phase}
variable {sink : String} {job : Job} {j : Nat} {ok : Bool} {t : Ticket} {q : Phase}
  {e base : CacheEntry} {x : Stake}

theorem Sound.whose (h : w.Sound cfg) (hh : w.Housed key) (hp : w.phase tid = q)
    (hpl : q.place = some (st, k)) : st = key.home ∧ k = key.cacheKey ∨ q.Off key ∧
    tid ≠ .worker key := by
  by_cases hat : st = key.home ∧ k = key.cacheKey
  · exact .inl hat
  · refine .inr ⟨fun hq => ?_, ?_⟩
    · rw [hpl] at hq
      cases hq
      exact hat ⟨rfl, rfl⟩
    · rintro rfl
      obtain ⟨key', hk, ht | ht⟩ := (h.lawful hp).reaches hpl
      · cases ht
        exact hat ⟨hh.place hp hpl hk.1, hk.2⟩
      · cases ht

theorem bench_view (hp : w'.phase = Function.update w.phase (.worker key) p)
    (hq : w.phase (.worker key) = q) (hj : w'.shared.jobs = w.shared.jobs) (hps : p.staked = none)
    (hqs : q.staked = none) (hu : p.undated = q.undated) :
    w'.bench key = { w.bench key with slot := w'.shared.slot key.home key.cacheKey, view := p.view } := by
  have hnone : (w.bench key).stake (.hand (.worker key)) = none := by simp [bench, World.staked, hq, hqs]
  rw [bench_own hp hj, hps, Key.sift_none, update_of_eq hnone]
  exact Bench.ext rfl rfl rfl (by rw [hu, ← hq]; rfl)

theorem desk_reserve {base : Option CacheEntry}
    (hq : w.phase (.worker key) = q) (hqs : q.staked = none) (hqu : q.undated = none)
    (hqc : ∀ r, ¬ q.Carries key.home key.cacheKey r)
    (hqv : q.view.base = some (base.filter (CacheEntry.Precedes e.uid)))
    (he : e.pendingDelete = false)
    (hp : w'.phase = Function.update w.phase (.worker key) (.reserved key.home key.cacheKey base e
      ((w.shared.slot key.home key.cacheKey).reserve e).2 none))
    (hs : w'.shared = w.shared.setSlot key.home key.cacheKey
      ((w.shared.slot key.home key.cacheKey).reserve e).1) :
    (w.desk cfg key).Step key.home key.cacheKey (w'.desk cfg key)
      (.exec (.worker key) (.reserve key.home key.cacheKey e, .go)) := by
  refine .reserve (.worker key) (base.filter (CacheEntry.Precedes e.uid)) e ?_ ?_ he ?_ ?_ ?_
  · simp only [desk, bench, hq, hqv]
  · intro b hb
    obtain ⟨-, hb⟩ := Option.mem_filter_iff.mp hb
    simpa [CacheEntry.Precedes] using hb
  · simp [desk, bench, World.staked, hq, hqs]
  · refine (bench_own hp (by rw [hs]; rfl)).trans (Bench.ext ?_ rfl ?_ ?_)
    · simp [desk, bench, hs]
    · simp [desk, bench, Phase.staked]
    · simp only [desk, bench, hq, hqu]
      rfl
  · exact keeps_step hp (fun r => by simpa [Phase.Carries, hq] using hqc r) (by rw [hs]; simp)
      (by rw [hs]; rfl)
      (by rw [hs]; rfl)

theorem desk_send {x' : Stake} (hq : w.phase tid = q)
    (hqs : q.staked = some ((key.home, key.cacheKey), t, x)) (hqv : q.view = .away)
    (hqu : q.undated = none) (hqc : ∀ r, ¬ q.Carries key.home key.cacheKey r) (hx : x.Sent x')
    (hjs : Handed.staked ⟨sink, job, .inFlight⟩ = some ((key.home, key.cacheKey), t, x'))
    (hp : w'.phase = Function.update w.phase tid .idle) (hs : w'.shared = w.hand sink job) :
    (w.desk cfg key).Step key.home key.cacheKey (w'.desk cfg key) d := by
  refine .send d tid w.shared.jobs.length t x x' ?_ ?_ hx ?_ (keeps_same (by rw [hs]; rfl) fun r => ?_)
  · simp [desk, bench, World.staked, hq, hqs]
  · simp [desk, bench, staked_length]
  · refine (bench_hand hp hs fun _ => ⟨by rw [hq, hqv]; rfl, by rw [hq, hqu]; rfl⟩).trans ?_
    rw [hjs, Key.sift_home]
    rfl
  · refine loose_step hp (by simpa [Phase.Carries, hq] using hqc r) (by rw [hs]; rfl) fun h hf hcl => ?_
    rw [hs]
    simp only [World.hand, List.mem_append, List.mem_singleton, or_iff_left_iff_imp]
    rintro rfl
    obtain ⟨record, commit⟩ := job
    simp only at hcl
    subst hcl
    cases hjs

theorem desk_settle_hand (hq : w.phase tid = q)
    (hqs : q.staked = some ((key.home, key.cacheKey), t, x)) (hqv : q.view = .away)
    (hqu : q.undated = none) (hqc : ∀ r, ¬ q.Carries key.home key.cacheKey r)
    (hd : Deed.settling d = some (.hand tid, false)) (hv : t.version ≠ 0)
    (hp : w'.phase = Function.update w.phase tid .idle)
    (hs : w'.shared = w.shared.setSlot key.home key.cacheKey
      ((w.shared.slot key.home key.cacheKey).settle t x false)) :
    (w.desk cfg key).Step key.home key.cacheKey (w'.desk cfg key) d := by
  refine .settle d (.hand tid) false t x hd ?_ hv ?_ ?_ (by simp) (fun _ _ => rfl)
    (fun r hr => (landed_of_table (by rw [hs]; rfl)).mp hr)
  · simp [desk, bench, World.staked, hq, hqs]
  · refine (bench_step hp (by rw [hs]; rfl)
      fun _ => ⟨by rw [hq, hqv]; rfl, by rw [hq, hqu]; rfl⟩).trans ?_
    rw [hs, Shared.slot_setSlot_self]
    rfl
  · exact keeps_step hp (fun r => by simpa [Phase.Carries, hq] using hqc r) (by rw [hs]; simp)
      (by rw [hs]; rfl)
      (by rw [hs]; rfl)

theorem flies_hand : (w.hand sink job).Flies key r ↔
    w.shared.Flies key r ∨ job.commit = .closeOut key.home key.cacheKey key r := by
  simp only [Shared.Flies, World.hand, List.mem_append, List.mem_singleton, or_and_right, exists_or,
    exists_eq_left, true_and]

theorem loose_iff : w.Loose key r ↔ r ∈ w.shared.closeOuts key.home key.cacheKey ∨
    (∃ u, (w.phase u).Carries key.home key.cacheKey r) ∨ w.shared.Flies key r := by
  constructor
  · rintro (hr | ⟨u, hr⟩ | ⟨h, hm, hf, hcl⟩)
    · exact .inl hr
    · exact .inr (.inl ⟨u, hr⟩)
    · exact .inr (.inr ⟨h, hm, hf, hcl⟩)
  · rintro (hr | ⟨u, hr⟩ | ⟨h, hm, hf, hcl⟩)
    · exact .queue hr
    · exact .hand u hr
    · exact .job h hm hf hcl

theorem loose_move {born : Option Record} (hp : w'.phase = Function.update w.phase tid p)
    (h : ∀ r, (r ∈ w'.shared.closeOuts key.home key.cacheKey ∨ p.Carries key.home key.cacheKey r ∨
        w'.shared.Flies key r) ↔
      (r ∈ w.shared.closeOuts key.home key.cacheKey ∨ (w.phase tid).Carries key.home key.cacheKey r ∨
        w.shared.Flies key r) ∨ born = some r) (r : Record) :
    w'.Loose key r ↔ w.Loose key r ∨ born = some r := by
  have hands (f : Tid → Phase) : (∃ u, (f u).Carries key.home key.cacheKey r) ↔
      (f tid).Carries key.home key.cacheKey r ∨ ∃ u, u ≠ tid ∧
      (f u).Carries key.home key.cacheKey r := by
    constructor
    · rintro ⟨u, hu⟩
      by_cases he : u = tid
      · exact .inl (he ▸ hu)
      · exact .inr ⟨u, he, hu⟩
    · rintro (hu | ⟨u, -, hu⟩)
      · exact ⟨tid, hu⟩
      · exact ⟨u, hu⟩
  have others : (∃ u, u ≠ tid ∧ (w'.phase u).Carries key.home key.cacheKey r) ↔
      ∃ u, u ≠ tid ∧ (w.phase u).Carries key.home key.cacheKey r := by
    refine exists_congr fun u => and_congr_right fun hu => ?_
    rw [hp, Function.update_of_ne hu]
  have hr := h r
  rw [loose_iff, loose_iff, hands w'.phase, hands w.phase, others, show w'.phase tid = p by simp [hp]]
  generalize (∃ u, u ≠ tid ∧ (w.phase u).Carries key.home key.cacheKey r) = rest
  generalize (born = some r) = new at hr ⊢
  clear hands others
  tauto

theorem bench_moves (hp : w'.phase = Function.update w.phase tid p)
    (hv : tid = .worker key → p.view = (w.phase tid).view)
    (hu : tid = .worker key → p.undated = (w.phase tid).undated) (hps : p.staked = none)
    (hqs : (w.phase tid).staked = none)
    (hslot : w'.shared.slot key.home key.cacheKey = w.shared.slot key.home key.cacheKey)
    (hj : w'.shared.jobs = w.shared.jobs ∨
      ∃ sink r, w'.shared.jobs = w.shared.jobs ++
        [⟨sink, ⟨r, .closeOut key.home key.cacheKey key r⟩, .inFlight⟩]) :
    w'.bench key = w.bench key := by
  refine Bench.ext hslot ?_ ?_ ?_
  · by_cases hw : (.worker key : Tid) = tid
    · simp [bench, hp, hw, hv hw.symm]
    · simp [bench, hp, Function.update_of_ne hw]
  · funext h
    cases h with
    | hand u =>
      by_cases hw : u = tid
      · subst hw
        simp [bench, World.staked, hp, hps, hqs]
      · simp [bench, World.staked, hp, hw]
    | job j =>
      rcases hj with hj | ⟨sink, r, hj⟩
      · simp [bench, World.staked, hj]
      · simp only [bench, World.staked, hj]
        rcases Nat.lt_trichotomy j w.shared.jobs.length with hlt | rfl | hgt
        · rw [List.getElem?_append_left hlt]
        · simp [Handed.staked]
        · rw [List.getElem?_eq_none (by simp; omega), List.getElem?_eq_none (by omega)]
  · by_cases hw : (.worker key : Tid) = tid
    · simp [bench, hp, hw, hu hw.symm]
    · simp [bench, hp, Function.update_of_ne hw]

theorem desk_moves (hp : w'.phase = Function.update w.phase tid p)
    (hv : tid = .worker key → p.view = (w.phase tid).view)
    (hu : tid = .worker key → p.undated = (w.phase tid).undated) (hps : p.staked = none)
    (hqs : (w.phase tid).staked = none)
    (hslot : w'.shared.slot key.home key.cacheKey = w.shared.slot key.home key.cacheKey)
    (hj : w'.shared.jobs = w.shared.jobs ∨
      ∃ sink r, w'.shared.jobs = w.shared.jobs ++
        [⟨sink, ⟨r, .closeOut key.home key.cacheKey key r⟩, .inFlight⟩])
    (ht : w'.shared.table = w.shared.table)
    (hl : ∀ r, (r ∈ w'.shared.closeOuts key.home key.cacheKey ∨ p.Carries key.home key.cacheKey r ∨
        w'.shared.Flies key r) ↔
      (r ∈ w.shared.closeOuts key.home key.cacheKey ∨ (w.phase tid).Carries key.home key.cacheKey r ∨
        w.shared.Flies key r)) :
    (w.desk cfg key).Step key.home key.cacheKey (w'.desk cfg key) d := by
  have hloose : ∀ r, w'.Loose key r ↔ w.Loose key r ∨ none = some r :=
    loose_move hp fun r => (hl r).trans (by simp)
  exact .rest d (bench_moves hp hv hu hps hqs hslot hj) (keeps_of_loose ht hloose)

theorem callback_settle {s : Shared}
    (h : Handed.staked ⟨sink, job, .inFlight⟩ = some ((st, k), t, x)) (st' : Inst) (k' : String) :
    (s.callback job.commit ok).slot st' k' =
      if st' = st ∧ k' = k then (s.slot st k).settle t x ok else s.slot st' k' := by
  obtain ⟨record, ⟨st₀, k₀, key, t₀, e, _ | f⟩ | ⟨st₀, k₀, key, t₀⟩ | ⟨st₀, k₀, key, r⟩⟩ :=
    job <;> cases h <;> cases ok
  all_goals
    simp only [Shared.callback, Shared.slot_addKey, Shared.slot_setSlot]
    rfl

theorem callback_closeOuts {s : Shared} {x : (Inst × String) × Ticket × Stake}
    (h : Handed.staked ⟨sink, job, .inFlight⟩ = some x) (st' : Inst) (k' : String) :
    (s.callback job.commit ok).closeOuts st' k' = s.closeOuts st' k' := by
  obtain ⟨record, ⟨st₀, k₀, key, t₀, e, _ | f⟩ | ⟨st₀, k₀, key, t₀⟩ | ⟨st₀, k₀, key, r⟩⟩ :=
    job <;> cases h <;> cases ok
  all_goals simp only [Shared.callback, Shared.closeOuts_addKey, Shared.closeOuts_setSlot]

theorem mem_set_inFlight {l : List Handed} {y h z : Handed} (hj : l[j]? = some y)
    (hf : h.status = .inFlight) (hz : z.status ≠ .inFlight) (hne : h ≠ y) :
    h ∈ l.set j z ↔ h ∈ l := by
  constructor
  · intro hm
    rcases List.mem_or_eq_of_mem_set hm with hm | rfl
    · exact hm
    · exact absurd hf hz
  · exact fun hm => mem_set_of_ne hm hj hne

theorem loose_settled {x : (Inst × String) × Ticket × Stake}
    (hj : w.shared.jobs[j]? = some ⟨sink, job, .inFlight⟩)
    (hx : Handed.staked ⟨sink, job, .inFlight⟩ = some x) :
    World.Loose { w with shared := w.shared.settled j sink job ok } key r ↔ w.Loose key r := by
  refine loose_step (Function.update_eq_self (.worker key) _).symm Iff.rfl ?_ fun h hf hcl => ?_
  · rw [Shared.settled_closeOuts, callback_closeOuts hx]
  · rw [Shared.settled_jobs]
    refine mem_set_inFlight hj hf (by cases ok <;> simp) ?_
    rintro rfl
    obtain ⟨record, commit⟩ := job
    simp only at hcl
    subst hcl
    cases hx

theorem desk_claim {uid : String} {slot : Slot} (hq : w.phase tid = .idle)
    (hc : (w.shared.slot key.home key.cacheKey).Claims uid slot e t)
    (hp : w'.phase = Function.update w.phase tid (.claimed key.home key.cacheKey e t none))
    (hs : w'.shared = w.shared.setSlot key.home key.cacheKey slot) :
    (w.desk cfg key).Step key.home key.cacheKey (w'.desk cfg key) d := by
  refine .claim d tid uid slot e t hc ?_ ?_ ?_
  · simp [desk, bench, World.staked, hq, Phase.staked]
  · refine (bench_step hp (by rw [hs]; rfl) fun _ => ⟨by rw [hq]; rfl, by rw [hq]; rfl⟩).trans ?_
    simp only [hs, Shared.slot_setSlot_self, Phase.staked, Key.sift_home]
    rfl
  · exact keeps_step hp (fun r => by simp [Phase.Carries, hq]) (by rw [hs]; simp) (by rw [hs]; rfl)
      (by rw [hs]; rfl)

theorem desk_supersede {slot : Slot} (hb : base.uid ≠ "")
    (hq : w.phase (.worker key) = .loaded key.home key.cacheKey (some base))
    (hc : (w.shared.slot key.home key.cacheKey).Claims base.uid slot e t)
    (hp : w'.phase = Function.update w.phase (.worker key) (.superseding key.home key.cacheKey base e))
    (hs : w'.shared = w.shared.setSlot key.home key.cacheKey slot) :
    (w.desk cfg key).Step key.home key.cacheKey (w'.desk cfg key) d := by
  refine .supersede d base slot e t ?_ hb hc ?_ ?_ ?_
  · simp only [desk, bench, hq]
    rfl
  · simp only [desk, bench, hq]
    rfl
  · have hnone : (w.bench key).stake (.hand (.worker key)) = none :=
      by simp [bench, World.staked, hq, Phase.staked]
    refine (bench_own hp (by rw [hs]; rfl)).trans (Bench.ext ?_ rfl ?_ rfl)
    · simp [hs]
    · exact update_of_eq hnone
  · exact keeps_step hp (fun r => by simp [Phase.Carries, hq]) (by rw [hs]; simp) (by rw [hs]; rfl)
      (by rw [hs]; rfl)

theorem desk_date {ts : Nat}
    (hq : w.phase (.worker key) = .superseding key.home key.cacheKey base e)
    (hp : w'.phase = Function.update w.phase (.worker key)
      (.closing key.home key.cacheKey base (Record.closing cfg.clusterID key ts e.apiVersion e.uid)))
    (hs : w'.shared = { w.shared with clock := ts }) :
    (w.desk cfg key).Step key.home key.cacheKey (w'.desk cfg key) d := by
  refine .date d (Record.closing cfg.clusterID key ts e.apiVersion e.uid) ?_ ?_
    (keeps_of_loose (by rw [hs]) fun r => ?_)
  · simp only [desk, bench, hq]
    rfl
  · have hnone : (w.bench key).stake (.hand (.worker key)) = none :=
      by simp [bench, World.staked, hq, Phase.staked]
    refine (bench_own hp (by rw [hs])).trans (Bench.ext (by rw [hs]; rfl) ?_ ?_ rfl)
    · simp only [desk, bench, hq]
      rfl
    · exact update_of_eq hnone
  · refine loose_move hp ?_ r
    intro r
    simp only [hs, hq, Phase.Carries, true_and, Option.some.injEq, false_or]
    tauto

theorem lands_insert (h : w.Sound cfg) (hh : w.Housed key)
    (hj : w.shared.jobs[j]? = some ⟨sink, job, .inFlight⟩) (hr : r.eventType = .deleted)
    (hm : r ∈ landedRows cfg { w.shared with table := w.shared.table.insert (sink, job.record) } key) :
    r ∈ landedRows cfg w.shared key ∨ w.Loose key r ∨
      ∃ j t, (w.desk cfg key).stake (.job j) = some (t, .death r.uid (some r)) := by
  obtain ⟨ht, hof⟩ := mem_landedRows.mp hm
  rcases List.mem_insert_iff.mp ht with he | ht
  · have hjm := List.mem_of_getElem? hj
    have hl := h.jobs _ hjm
    have hplace := hh.jobs _ hjm
    obtain ⟨record, commit⟩ := job
    cases he
    have hkey : commit.key = key := by
      obtain ⟨hs, ho⟩ := hl.isOf
      exact Record.isOf.unique ho hof hs.symm
    cases commit with
    | upsert st k key' t e f =>
      obtain ⟨-, -, seen, base, norm, plan, ts, hd, -, -, he⟩ := hl
      refine absurd hr ?_
      simp only at he
      rw [he]
      exact hd.planned.eventType
    | delete st k key' t =>
      obtain rfl : key' = key := hkey
      obtain ⟨-, ⟨hs, rfl⟩, -⟩ := hl
      obtain rfl := hplace st _ rfl hs
      exact .inr (.inr ⟨j, t, by simp [desk, bench, World.staked, hj, Handed.staked]⟩)
    | closeOut st k key' r' =>
      obtain rfl : key' = key := hkey
      obtain ⟨-, ⟨hs, rfl⟩, hre, -⟩ := hl
      obtain rfl : record = r' := hre
      obtain rfl := hplace st _ rfl hs
      exact .inr (.inl (.job _ hjm rfl rfl))
  · exact .inl (mem_landedRows.mpr ⟨ht, hof⟩)

theorem desk_insert (h : w.Sound cfg) (hh : w.Housed key)
    (hj : w.shared.jobs[j]? = some ⟨sink, job, .inFlight⟩)
    (hp : w'.phase = w.phase) (hs : w'.shared =
      { w.shared with table := w.shared.table.insert (sink, job.record) }) :
    (w.desk cfg key).Step key.home key.cacheKey (w'.desk cfg key) d := by
  have hl : ∀ r, w'.Loose key r ↔ w.Loose key r := by
    intro r
    rw [loose_iff, loose_iff, hp, hs]
    rfl
  refine .rest d ?_ ⟨?_, ?_, ?_, ?_, by simp⟩
  · refine Bench.ext (by rw [desk, bench, hs]; rfl) (by rw [desk, bench, hp]; rfl) ?_
      (by rw [desk, bench, hp]; rfl)
    funext x
    cases x <;> simp [desk, bench, World.staked, hp, hs]
  · rintro r ⟨hr, hd⟩
    refine ⟨?_, hd⟩
    obtain ⟨ht, hof⟩ := mem_landedRows.mp hr
    rw [hs]
    exact mem_landedRows.mpr ⟨List.mem_insert_of_mem ht, hof⟩
  · rintro r ⟨hr, hd⟩
    rw [hs] at hr
    rcases lands_insert h hh hj hd hr with hr | hr | hr
    · exact .inl ⟨hr, hd⟩
    · exact .inr (.inl hr)
    · exact .inr (.inr hr)
  · exact fun r hr => .inl ((hl r).mpr hr)
  · exact fun r hr => .inl ((hl r).mp hr)

theorem desk_settle_job
    (h : w.Sound cfg) (hj : w.shared.jobs[j]? = some ⟨sink, job, .inFlight⟩)
    (hx : Handed.staked ⟨sink, job, .inFlight⟩ = some ((key.home, key.cacheKey), t, x))
    (hv : t.version ≠ 0) (hok : ok = true → (sink, job.record) ∈ w.shared.table) :
    (w.desk cfg key).Step key.home key.cacheKey
      (World.desk { w with shared := w.shared.settled j sink job ok } cfg key)
        (.env (.settle j ok)) := by
  refine .settle _ (.job j) ok t x rfl ?_ hv ?_ (keeps_same (by simp) fun r => loose_settled hj hx) ?_ ?_
    (fun r hr => (landed_of_table (by simp)).mp hr)
  · simp [desk, bench, World.staked, hj, hx]
  · refine Bench.ext ?_ rfl ?_ rfl
    · rw [desk, bench, Shared.settled_slot, callback_settle hx, if_pos ⟨rfl, rfl⟩]
      rfl
    · simp only [desk, bench, staked_settled, sift_update, Key.sift_none]
  · intro ht u r he
    have hl := h.jobs _ (List.mem_of_getElem? hj)
    obtain ⟨record, commit⟩ := job
    cases commit <;> cases hx <;> cases he
    obtain ⟨rfl, hk, -, ts, v, u, rfl⟩ := hl
    obtain rfl := hk.unique ⟨rfl, rfl⟩
    refine ⟨⟨mem_landedRows.mpr ⟨?_, rfl, rfl, rfl, rfl, rfl⟩, rfl⟩, rfl⟩
    simpa using hok ht
  · rintro u rfl
    obtain ⟨record, commit⟩ := job
    cases commit <;> cases hx

theorem stake_settled (h : key.sift (w.staked (.job j)) = none) :
    (World.desk { w with shared := w.shared.settled j sink job ok } cfg key).stake =
    (w.desk cfg key).stake := by
  simp only [desk, bench, staked_settled, sift_update, Key.sift_none]
  exact update_of_eq h

theorem desk_settle_away {x : Inst × String} {y : Ticket × Stake}
    (hj : w.shared.jobs[j]? = some ⟨sink, job, .inFlight⟩) (hat : x ≠ (key.home, key.cacheKey))
    (hx : Handed.staked ⟨sink, job, .inFlight⟩ = some (x, y)) :
    (w.desk cfg key).Step key.home key.cacheKey
      (World.desk { w with shared := w.shared.settled j sink job ok } cfg key) d := by
  obtain ⟨st, k⟩ := x
  refine .rest d (Bench.ext ?_ rfl (stake_settled ?_) rfl) (keeps_same (by simp)
    fun r => loose_settled hj hx)
  · simp only [desk, bench, Shared.settled_slot]
    rw [callback_settle hx, if_neg]
    rintro ⟨rfl, rfl⟩
    exact hat rfl
  · simp only [World.staked, hj, Option.bind_some, hx]
    exact Key.sift_away (fun h => hat (Prod.ext h.1 h.2)) y

theorem desk_closeOut_away {record : Record}
    (hj : w.shared.jobs[j]? = some ⟨sink, ⟨record, .closeOut st k key' r⟩, .inFlight⟩)
    (hkey : key' ≠ key) (hat : ¬ (key.home = st ∧ key.cacheKey = k)) :
    (w.desk cfg key).Step key.home key.cacheKey
      (World.desk { w with shared := w.shared.settled j sink ⟨record, .closeOut st k key' r⟩ ok }
          cfg key) d := by
  refine .rest d (Bench.ext ?_ rfl (stake_settled ?_) rfl) (keeps_same (by simp) fun r' => ?_)
  · simp only [desk, bench, Shared.settled_slot]
    cases ok <;> simp [Shared.callback]
  · simp [World.staked, hj, Handed.staked]
  · refine loose_step (Function.update_eq_self (.worker key) _).symm Iff.rfl ?_ fun h hf hcl => ?_
    · rw [Shared.settled_closeOuts]
      cases ok <;> simp [Shared.callback, Shared.closeOuts_setCloseOuts, hat]
    · rw [Shared.settled_jobs]
      refine mem_set_inFlight hj hf (by cases ok <;> simp) ?_
      rintro rfl
      cases hcl
      exact hkey rfl

theorem desk_closeOut_settled {record : Record} (h : w.Sound cfg)
    (hj : w.shared.jobs[j]? = some ⟨sink, ⟨record, .closeOut key.home key.cacheKey key record⟩,
      .inFlight⟩)
    (hok : ok = true → (sink, record) ∈ w.shared.table) :
    (w.desk cfg key).Step key.home key.cacheKey
      (World.desk
        { w with shared := w.shared.settled j sink ⟨record,
          .closeOut key.home key.cacheKey key record⟩ ok }
        cfg key) d := by
  have hjm := List.mem_of_getElem? hj
  obtain ⟨hsink, -, -, hcl⟩ := h.jobs _ hjm
  have hdead : record.isOf cfg.clusterID key ∧ record.eventType = .deleted := by
    obtain ⟨ts, v, u, he⟩ := hcl
    rw [he]
    exact ⟨⟨rfl, rfl, rfl, rfl, rfl⟩, rfl⟩
  refine .rest d (Bench.ext ?_ rfl ?_ rfl) ⟨?_, ?_, ?_, ?_, by simp⟩
  · simp only [desk, bench, Shared.settled_slot]
    cases ok <;> simp [Shared.callback]
  · exact stake_settled (by simp [World.staked, hj, Handed.staked])
  · exact fun r hr => (landed_of_table (by simp)).mpr hr
  · exact fun r hr => .inl ((landed_of_table (by simp)).mp hr)
  · rintro r (hr | ⟨u', hr⟩ | ⟨h', hm, hf, hc⟩)
    · refine .inl (.queue ?_)
      simp only [Shared.settled_closeOuts]
      cases ok
      · simp [Shared.callback, Shared.closeOuts_setCloseOuts, hr]
      · exact hr
    · exact .inl (.hand u' hr)
    · by_cases hne : h' = ⟨sink, ⟨record, .closeOut key.home key.cacheKey key record⟩, .inFlight⟩
      · subst hne
        cases hc
        cases ok with
        | true =>
          obtain rfl : sink = key.sink := hsink
          exact .inr ⟨mem_landedRows.mpr ⟨by simpa using hok rfl, hdead.1⟩, hdead.2⟩
        | false =>
          refine .inl (.queue ?_)
          simp [Shared.settled_closeOuts, Shared.callback, Shared.closeOuts_setCloseOuts]
      · refine .inl (.job h' ?_ hf hc)
        rw [Shared.settled_jobs]
        exact mem_set_of_ne hm hj hne
  · rintro r (hr | ⟨u', hr⟩ | ⟨h', hm, hf, hc⟩)
    · simp only [Shared.settled_closeOuts] at hr
      rcases mem_closeOuts_callback hr with hr | ⟨-, key', hc⟩
      · exact .inl (.queue hr)
      · cases hc
        exact .inl (.job _ hjm rfl rfl)
    · exact .inl (.hand u' hr)
    · simp only [Shared.settled_jobs] at hm
      rcases List.mem_or_eq_of_mem_set hm with hm | rfl
      · exact .inl (.job h' hm hf hc)
      · cases ok <;> cases hf

theorem phase_update_self (tid : Tid) : w.phase = Function.update w.phase tid (w.phase tid) :=
  (Function.update_eq_self tid _).symm

section Elsewhere

variable {q : Phase} (hp : w'.phase = Function.update w.phase tid p) (hq : w.phase tid = q)
  (hqo : q.Off key) (hpo : p.Off key) (hne : tid ≠ .worker key)

include hp hq hqo hpo hne

theorem rest_setSlot {slot : Slot} (hs : w'.shared = w.shared.setSlot st k slot)
    (hat : ¬ (key.home = st ∧ key.cacheKey = k)) :
    (w.desk cfg key).Step key.home key.cacheKey (w'.desk cfg key) d := by
  refine rest_step hp (hq ▸ hpo.alike hqo hne) ?_ ?_ ?_ ?_ <;> rw [hs]
  · exact Shared.slot_setSlot_of_ne hat
  · exact Shared.closeOuts_setSlot
  · rfl
  · rfl

theorem rest_setCloseOuts {rs : List Record} (hs : w'.shared = w.shared.setCloseOuts st k rs)
    (hat : ¬ (key.home = st ∧ key.cacheKey = k)) :
    (w.desk cfg key).Step key.home key.cacheKey (w'.desk cfg key) d := by
  refine rest_step hp (hq ▸ hpo.alike hqo hne) ?_ ?_ ?_ ?_ <;> rw [hs]
  · exact Shared.slot_setCloseOuts
  · rw [Shared.closeOuts_setCloseOuts, if_neg hat]
  · rfl
  · rfl

theorem rest_submit {sink : String} {job : Job} (hs : w'.shared = w.hand sink job)
    (hst : key.sift (Handed.staked ⟨sink, job, .inFlight⟩) = none)
    (hc : ∀ r, job.commit ≠ .closeOut key.home key.cacheKey key r) :
    (w.desk cfg key).Step key.home key.cacheKey (w'.desk cfg key) d :=
  rest_hand hp (hq ▸ hpo.alike hqo hne) hs hst hc

theorem rest_aside (hs : w.shared.Same w'.shared) :
    (w.desk cfg key).Step key.home key.cacheKey (w'.desk cfg key) d :=
  rest_same hp (hq ▸ hpo.alike hqo hne) hs

end Elsewhere

theorem desk_drop {base : Option CacheEntry} {s' : Shared}
    (hp : w.phase (.worker key) = .loaded key.home key.cacheKey base) (hs : w.shared.Same s') :
    (w.desk cfg key).Step key.home key.cacheKey
      (((w.set (.worker key) .idle s').learn (.worker key) {}).desk cfg key)
        (.finish (.worker key)) := by
  refine .drop _ base (by simp [desk, bench, hp, Phase.view]) ?_
    (keeps_step rfl (fun r => by simp [Phase.Carries, hp]) (hs.closeOuts _ _) hs.jobs hs.table)
  exact (bench_view (p := .idle) rfl hp hs.jobs rfl rfl rfl).trans (Bench.ext (hs.slot _ _) rfl rfl rfl)

theorem desk_load (hp : w.phase (.worker key) = .idle) :
    (w.desk cfg key).Step key.home key.cacheKey
      ((w.set (.worker key) (.loaded key.home key.cacheKey (w.shared.slot key.home key.cacheKey).entry)
        w.shared).desk cfg key)
      (.exec (.worker key) (.load key.home key.cacheKey, .go)) := by
  refine .load _ (by simp [desk, bench, hp, Phase.view]) ?_
    (keeps_step rfl (fun r => by simp [Phase.Carries, hp]) rfl rfl rfl)
  exact bench_view (p := .loaded _ _ _) rfl hp rfl rfl rfl rfl

theorem view_base_of_reserve (cfg : Config) {base : Option CacheEntry} {norm : NormalizedObject}
    (plan : Plan) (he : key.ephemeral = false)
    (hp : w.phase (.worker key) = .loaded st k base ∧
        (∀ e ∈ base, Supersedes norm e → key.ephemeral = true) ∨
      ∃ e, base = some e ∧ Supersedes norm e ∧ w.phase (.worker key) = .superseded st k e) :
    (w.phase (.worker key)).view.base = some (base.filter (CacheEntry.Precedes
      (confirmedEntry cfg.lib key.ephemeral norm plan).uid)) := by
  rcases hp with ⟨hp, hsup⟩ | ⟨e, rfl, hsup, hp⟩
  · cases base with
    | none => simp [hp, Phase.view, Reading.base]
    | some b =>
      have hns : ¬ Supersedes norm b := fun hs => by simp [he] at hsup; exact hsup hs
      have hpre : CacheEntry.Precedes norm.uid b = true := by
        unfold Supersedes at hns
        simp only [CacheEntry.Precedes, decide_eq_true_eq]
        tauto
      simp [hp, Phase.view, Reading.base, Option.filter, confirmedEntry, hpre]
  · simp [hp, Phase.view, Reading.base, Option.filter, CacheEntry.Precedes, hsup.1, hsup.2,
      confirmedEntry]

theorem desk_outrun {s' : Shared}
    (hp : w.phase (.worker key) = .loaded key.home key.cacheKey (some base))
    (hn : ∀ e, (w.shared.slot key.home key.cacheKey).entry = some e →
      e.pendingDelete = true ∨ e.uid ≠ base.uid)
    (hs : w.shared.Same s') :
    (w.desk cfg key).Step key.home key.cacheKey
      ((w.set (.worker key) (.superseded key.home key.cacheKey base) s').desk cfg key)
      (.exec (.worker key) (.reserveDelete key.home key.cacheKey base.uid, .go)) := by
  refine .outrun _ base ?_ hn ?_
    (keeps_step rfl (fun r => by simp [Phase.Carries, hp]) (hs.closeOuts _ _) hs.jobs hs.table)
  · simp only [desk, bench, hp]
    rfl
  · refine (bench_view (p := .superseded _ _ base) rfl hp hs.jobs rfl rfl rfl).trans ?_
    exact Bench.ext (hs.slot _ _) rfl rfl rfl

theorem desk_close
    (hp : w.phase (.worker key) = .closing key.home key.cacheKey base r) :
    (w.desk cfg key).Step key.home key.cacheKey
      ((w.set (.worker key) (.superseded key.home key.cacheKey base)
        (w.hand key.sink ⟨r, .closeOut key.home key.cacheKey key r⟩)).desk cfg key) d := by
  refine desk_moves rfl (fun _ => by rw [hp]; rfl) (fun _ => by rw [hp]; rfl) rfl (by rw [hp]; rfl) rfl
    (.inr ⟨_, r, rfl⟩) rfl fun r' => or_congr Iff.rfl ?_
  simp only [World.set, flies_hand, hp, Phase.carries_closing, Phase.not_carries_superseded, true_and,
    Commit.closeOut.injEq, false_or]
  exact or_comm

theorem desk_shelve (hp : w.phase tid = .closing key.home key.cacheKey base r) :
    (w.desk cfg key).Step key.home key.cacheKey
      ((w.set tid (.superseded key.home key.cacheKey base) (w.shared.setCloseOuts key.home key.cacheKey
        (w.shared.closeOuts key.home key.cacheKey ++ [r]))).desk cfg key) d := by
  refine desk_moves rfl (fun _ => by rw [hp]; rfl) (fun _ => by rw [hp]; rfl) rfl (by rw [hp]; rfl)
    Shared.slot_setCloseOuts (.inl rfl) rfl fun r' => ?_
  simp only [World.set, Shared.closeOuts_setCloseOuts, and_self, ↓reduceIte, List.mem_append,
    List.mem_singleton, hp, Phase.carries_closing, Phase.not_carries_superseded, true_and, false_or,
    or_assoc, eq_comm]
  rfl

theorem desk_takeAll (hp : w.phase (.worker key) = .idle) :
    (w.desk cfg key).Step key.home key.cacheKey
      ((w.set (.worker key) (.outsOf key.home key.cacheKey (w.shared.closeOuts key.home key.cacheKey))
        (w.shared.setCloseOuts key.home key.cacheKey [])).desk cfg key) d := by
  refine desk_moves rfl (fun _ => by rw [hp, Phase.view_outsOf]; rfl)
    (fun _ => by rw [hp, Phase.undated_outsOf]; rfl) (by simp) (by rw [hp]; rfl)
    Shared.slot_setCloseOuts (.inl rfl) rfl fun r' => ?_
  simp only [World.set, Shared.closeOuts_setCloseOuts, and_self, ↓reduceIte, List.not_mem_nil, false_or,
    hp, Phase.not_carries_idle, Phase.carries_outsOf, true_and]
  rfl

theorem desk_resubmit {rs : List Record}
    (hp : w.phase (.worker key) = .outs key.home key.cacheKey (r :: rs)) :
    (w.desk cfg key).Step key.home key.cacheKey
      ((w.set (.worker key) (.outsOf key.home key.cacheKey rs)
        (w.hand key.sink ⟨r, .closeOut key.home key.cacheKey key r⟩)).desk cfg key) d := by
  refine desk_moves rfl (fun _ => by rw [hp, Phase.view_outsOf]; rfl)
    (fun _ => by rw [hp, Phase.undated_outsOf]; rfl) (by simp) (by rw [hp]; rfl) rfl
    (.inr ⟨_, r, rfl⟩) rfl fun r' => or_congr Iff.rfl ?_
  simp only [World.set, flies_hand, hp, Phase.carries_outs, Phase.carries_outsOf, true_and,
    Commit.closeOut.injEq, List.mem_cons, eq_comm]
  tauto

theorem desk_reshelve {rs : List Record} (hp : w.phase tid = .outs key.home key.cacheKey (r :: rs)) :
    (w.desk cfg key).Step key.home key.cacheKey
      ((w.set tid (.outsOf key.home key.cacheKey rs) (w.shared.setCloseOuts key.home key.cacheKey
        (w.shared.closeOuts key.home key.cacheKey ++ [r]))).desk cfg key) d := by
  refine desk_moves rfl (fun _ => by rw [hp, Phase.view_outsOf]; rfl)
    (fun _ => by rw [hp, Phase.undated_outsOf]; rfl) (by simp) (by rw [hp]; rfl)
    Shared.slot_setCloseOuts (.inl rfl) rfl fun r' => ?_
  simp only [World.set, Shared.closeOuts_setCloseOuts, and_self, ↓reduceIte, List.mem_append, hp,
    Phase.carries_outs, Phase.carries_outsOf, true_and, List.mem_cons, List.not_mem_nil,
    false_or, or_assoc]
  rfl

theorem desk_recover {recovered : List (String × Record)} (hn : tid.isWorker = false)
    (hp : w.phase tid = .idle) :
    (w.desk cfg key).Step key.home key.cacheKey
      (desk { w with
        shared := w.hand key.sink ⟨r, .closeOut key.home key.cacheKey key r⟩
        recovered := recovered } cfg key)
      (.exec tid (.enqueue key.sink ⟨r, .closeOut key.home key.cacheKey key r⟩, .flag true)) := by
  refine .recover tid _ _ _ true hn ?_ (keeps_of_loose ?_ ?_)
  · exact bench_moves (phase_update_self tid) (fun _ => rfl) (fun _ => rfl) (by rw [hp]; rfl)
      (by rw [hp]; rfl) rfl (.inr ⟨_, _, rfl⟩)
  · rfl
  · refine loose_move (phase_update_self tid) fun r' => ?_
    simp only [flies_hand, Commit.closeOut.injEq, true_and, Option.some.injEq, or_assoc]
    rfl

theorem desk_recoverRefused {recovered : List (String × Record)} {s' : Shared}
    (hn : tid.isWorker = false) (hp : w.phase tid = .idle) (hs : w.shared.Same s') :
    (w.desk cfg key).Step key.home key.cacheKey
      (desk { w.set tid (.outs key.home key.cacheKey [r]) s' with recovered := recovered } cfg key)
      (.exec tid (.enqueue key.sink ⟨r, .closeOut key.home key.cacheKey key r⟩, .flag false)) := by
  refine .recover tid _ _ _ false hn ?_ (keeps_of_loose hs.table (loose_move rfl fun r' => ?_))
  · exact bench_moves rfl (fun _ => by rw [hp]; rfl) (fun _ => by rw [hp]; rfl) rfl (by rw [hp]; rfl)
      (hs.slot _ _) (.inl hs.jobs)
  · simp only [World.set, hs.closeOuts, Shared.Flies, hs.jobs, hp, Phase.carries_outs,
      Phase.not_carries_idle, List.mem_singleton, true_and, false_or, Option.some.injEq,
      eq_comm, or_assoc]
    exact or_congr_right or_comm

theorem desk_seed (he : e.pendingDelete = false) :
    (w.desk cfg key).Step key.home key.cacheKey
      (desk { w with
        shared := w.shared.setSlot key.home key.cacheKey
          ((w.shared.slot key.home key.cacheKey).storeIfAbsent e) } cfg key)
      (.exec tid (.storeIfAbsent key.home key.cacheKey e, .go)) := by
  refine .seed tid e he (Bench.ext Shared.slot_setSlot_self rfl ?_ rfl)
    (keeps_step (phase_update_self tid) (fun _ => Iff.rfl) Shared.closeOuts_setSlot rfl rfl)
  funext x
  cases x <;> rfl

theorem desk_settle (h : w.Sound cfg)
    (hh : w.Housed key) (hj : w.shared.jobs[j]? = some ⟨sink, job, .inFlight⟩)
    (hok : ok = true → (sink, job.record) ∈ w.shared.table) :
    (w.desk cfg key).Step key.home key.cacheKey
      (desk { w with shared := w.shared.settled j sink job ok } cfg key) (.env (.settle j ok)) := by
  have hjm := List.mem_of_getElem? hj
  cases hx : Handed.staked ⟨sink, job, .inFlight⟩ with
  | some y =>
    obtain ⟨⟨st, k⟩, t, x⟩ := y
    have hissued := h.issued _ _ t (.inr ⟨_, hjm, rfl, Handed.ticket_of_staked hx⟩)
    by_cases hat : st = key.home ∧ k = key.cacheKey
    · obtain ⟨rfl, rfl⟩ := hat
      exact desk_settle_job h hj hx hissued.version_pos hok
    · exact desk_settle_away hj (fun hs => hat (by simpa using Prod.mk.inj hs)) hx
  | none =>
    obtain ⟨record, commit⟩ := job
    cases commit with
    | upsert | delete => cases hx
    | closeOut st k key' r =>
      obtain ⟨-, hk, hr, -⟩ := h.jobs _ hjm
      obtain rfl : record = r := hr
      by_cases hkey : key' = key
      · subst hkey
        obtain rfl := hh.jobs _ hjm st k rfl hk.1
        obtain rfl := hk.2
        exact desk_closeOut_settled h hj hok
      · exact desk_closeOut_away hj hkey (hk.aside hkey)

theorem MayClaim.ne_worker {uid : String} (h : w.MayClaim tid key' uid) (hne : key' ≠ key) :
    tid ≠ .worker key := by
  rintro rfl
  rcases h with ⟨he, -⟩ | ⟨ht, -⟩
  · exact hne (Tid.worker.inj he).symm
  · cases ht

theorem desk_turn (h : w.Sound cfg) (hh : w.Housed key) (he : key.ephemeral = false)
    (hd : Undisturbed key d) (ht : Turn cfg w d w') :
    (w.desk cfg key).Step key.home key.cacheKey (w'.desk cfg key) d := by
  -- every step about another slot leaves the desk as it is; the others are the key's own steps
  cases ht with
  | still _ w' hp hs _ _ _ => exact rest_same (hp.trans (phase_update_self (.worker key))) (.refl _) hs
  | attach tid | look tid | consult tid | vouch tid =>
    exact rest_same (phase_update_self tid) (.refl _) (.refl _)
  | tick tid ts => exact rest_step (phase_update_self tid) (.refl _) rfl rfl rfl rfl
  | drop tid st k base s' hp hs =>
    rcases h.whose hh hp rfl with ⟨rfl, rfl⟩ | ⟨hq, hne⟩
    · obtain ⟨key', rfl, hk⟩ := h.lawful hp
      obtain rfl := hk.eq_of_home
      exact desk_drop hp hs
    · exact rest_aside rfl hp hq (.idle key) hne hs
  | load key' st k hk hi hp =>
    by_cases hkey : key' = key
    · subst hkey
      obtain rfl := hh.inst hi hk.1
      obtain rfl := hk.2
      exact desk_load hp
    · exact rest_aside rfl hp (.idle key) (.of_owns hk hkey (by simp [Phase.place]))
        (by simpa using hkey) (.refl _)
  | reserve key' st k base norm plan hk hdec hp =>
    by_cases hkey : key' = key
    · subst hkey
      have hpl : (w.phase (.worker key')).place = some (st, k) := by
        rcases hp with ⟨hp, -⟩ | ⟨e, -, -, hp⟩ <;> rw [hp] <;> rfl
      obtain rfl := hh.place rfl hpl hk.1
      obtain rfl := hk.2
      have hbase := view_base_of_reserve cfg plan he hp
      rcases hp with ⟨hp, -⟩ | ⟨e, -, -, hp⟩ <;> rw [hp] at hbase <;>
        exact desk_reserve hp rfl rfl (fun _ => id) hbase rfl rfl rfl
    · have hq : (w.phase (.worker key')).Off key := by
        rcases hp with ⟨hp, -⟩ | ⟨e, -, -, hp⟩ <;> rw [hp] <;>
          exact .of_owns hk hkey (by simp [Phase.place])
      exact rest_setSlot rfl rfl hq (.of_owns hk hkey (by simp [Phase.place])) (by simpa using hkey) rfl
        (hk.aside hkey)
  | date _ _ _ _ _ _ _ hp | dateClaim _ _ _ _ _ _ hp =>
    exact rest_step rfl (hp ▸ ⟨fun _ => rfl, fun _ => rfl, rfl, fun _ => Iff.rfl⟩) rfl rfl rfl rfl
  | issue key' st k base norm plan tk ts hk hdec hp =>
    by_cases hkey : key' = key
    · subst hkey
      obtain rfl := hh.place hp rfl hk.1
      obtain rfl := hk.2
      exact desk_send hp rfl rfl rfl (fun _ => id) (.write _ _)
        (by rw [hdec.planned.revertEntry_filter]; rfl) rfl rfl
    · exact rest_submit rfl hp (.of_owns hk hkey (by simp [Phase.place])) (.idle key)
        (by simpa using hkey) rfl (hk.sift_away hkey _) (by simp)
  | refuse key' st k base norm plan tk ts s' hk hdec hp hs =>
    refine rest_same rfl (hp ▸ ⟨fun _ => rfl, fun _ => rfl, ?_, fun _ => Iff.rfl⟩) hs
    rw [Phase.staked, hdec.planned.revertEntry_filter]
    rfl
  | revert _ _ _ _ _ _ hp | retract _ _ _ _ _ hp | release _ _ _ _ _ hp =>
    rcases h.whose hh hp rfl with ⟨rfl, rfl⟩ | ⟨hq, hne⟩
    · exact desk_settle_hand hp rfl rfl rfl (fun _ => id) rfl (h.version_pos hp rfl) rfl rfl
    · exact rest_setSlot rfl hp hq (.idle key) hne rfl (hq.aside rfl)
  | claim tid key' st k uid e tk slot hk hm hp hc hi =>
    by_cases hkey : key' = key
    · subst hkey
      obtain rfl := hh.inst hi hk.1
      obtain rfl := hk.2
      exact desk_claim hp hc rfl rfl
    · exact rest_setSlot rfl hp (.idle key) (.of_owns hk hkey (by simp [Phase.place]))
        (hm.ne_worker hkey) rfl (hk.aside hkey)
  | forget key' st k e tk hk he' hp =>
    have hkey : key' ≠ key := by
      rintro rfl
      rw [he] at he'
      cases he'
    exact rest_setSlot rfl hp (.of_owns hk hkey (by simp [Phase.place])) (.idle key)
      (by simpa using hkey) rfl (hk.aside hkey)
  | emit tid key' st k e tk ts hk he' hp =>
    rcases h.whose hh hp rfl with ⟨rfl, rfl⟩ | ⟨hq, hne⟩
    · obtain rfl := hk.eq_of_home
      exact desk_send hp rfl rfl rfl (fun _ => id)
        (.death (Record.closing cfg.clusterID key' ts e.apiVersion e.uid)) rfl rfl rfl
    · exact rest_submit rfl hp hq (.idle key) hne rfl (hq.sift_away rfl _) (by simp)
  | emitRefused tid st k e tk ts s' hp hs =>
    exact rest_same rfl (hp ▸ ⟨fun _ => rfl, fun _ => rfl, rfl, fun _ => Iff.rfl⟩) hs
  | supersede key' st k base e norm tk slot hk he' hobs hsup hp hc =>
    rcases h.whose hh hp rfl with ⟨rfl, rfl⟩ | ⟨hq, hne⟩
    · obtain rfl := hk.eq_of_home
      exact desk_supersede hsup.1 hp hc rfl rfl
    · exact rest_setSlot rfl hp hq hq hne rfl (hq.aside rfl)
  | outrun key' st k base norm s' hk hobs hsup hp hn hs =>
    rcases h.whose hh hp rfl with ⟨rfl, rfl⟩ | ⟨hq, hne⟩
    · obtain rfl := hk.eq_of_home
      exact desk_outrun hp hn hs
    · exact rest_aside rfl hp hq hq hne hs
  | dateClose key' st k base e ts hp =>
    obtain ⟨key₀, hkey₀, hk⟩ := h.lawful hp
    cases hkey₀
    rcases h.whose hh hp rfl with ⟨rfl, rfl⟩ | ⟨hq, hne⟩
    · obtain rfl := hk.eq_of_home
      exact desk_date hp rfl rfl
    · exact rest_step rfl (hp ▸ Phase.Off.alike hq hq hne) rfl rfl rfl rfl
  | close key' st k base r hk hp =>
    rcases h.whose hh hp rfl with ⟨rfl, rfl⟩ | ⟨hq, hne⟩
    · obtain rfl := hk.eq_of_home
      exact desk_close hp
    · exact rest_submit rfl hp hq hq hne rfl rfl (hq.closeOut_ne rfl)
  | shelve tid st k base r hp =>
    rcases h.whose hh hp rfl with ⟨rfl, rfl⟩ | ⟨hq, hne⟩
    · exact desk_shelve hp
    · exact rest_setCloseOuts rfl hp hq hq hne rfl (hq.aside rfl)
  | takeAll key' st k hk hp hi =>
    by_cases hkey : key' = key
    · subst hkey
      obtain rfl := hh.inst hi hk.1
      obtain rfl := hk.2
      exact desk_takeAll hp
    · exact rest_setCloseOuts rfl hp (.idle key) (.of_owns hk hkey fun x hx =>
        Prod.ext (Phase.place_outsOf hx).1.symm (Phase.place_outsOf hx).2.symm) (by simpa using hkey) rfl
        (hk.aside hkey)
  | resubmit key' st k r rs hk hp =>
    rcases h.whose hh hp rfl with ⟨rfl, rfl⟩ | ⟨hq, hne⟩
    · obtain rfl := hk.eq_of_home
      exact desk_resubmit hp
    · exact rest_submit rfl hp hq hq.outsOf hne rfl rfl (hq.closeOut_ne rfl)
  | reshelve tid st k r rs hp =>
    rcases h.whose hh hp rfl with ⟨rfl, rfl⟩ | ⟨hq, hne⟩
    · exact desk_reshelve hp
    · exact rest_setCloseOuts rfl hp hq hq.outsOf hne rfl (hq.aside rfl)
  | recover tid key' st k x hk hn he' hx hp hi =>
    by_cases hkey : key' = key
    · subst hkey
      obtain rfl := hh.inst hi hk.1
      obtain rfl := hk.2
      exact desk_recover hn hp
    · exact rest_hand (phase_update_self tid) (.refl _) rfl rfl (by
        rintro _ ⟨⟩
        exact hkey rfl)
  | recoverRefused tid key' st k x s' hk hn he' hx hp hs hi =>
    by_cases hkey : key' = key
    · subst hkey
      obtain rfl := hh.inst hi hk.1
      obtain rfl := hk.2
      exact desk_recoverRefused hn hp hs
    · refine rest_aside rfl hp (.idle key) (.of_owns hk hkey (by simp [Phase.place])) ?_ hs
      rintro rfl
      cases hn
  | seed tid key' st k current hk hn hi hx hp =>
    by_cases hkey : key' = key
    · subst hkey
      obtain rfl := hh.inst hi hk.1
      obtain rfl := hk.2
      exact desk_seed rfl
    · exact rest_step (phase_update_self tid) (.refl _) (Shared.slot_setSlot_of_ne (hk.aside hkey))
        Shared.closeOuts_setSlot rfl rfl
  | evict ref st hst =>
    refine rest_step (phase_update_self (.worker key)) (.refl _) ?_
      (Shared.closeOuts_deletePrefix ..) rfl rfl
    refine (Shared.slot_deletePrefix ..).trans (if_neg ?_)
    rintro ⟨rfl, hpre⟩
    exact hd rfl hpre
  | insert j sink job hj => exact desk_insert h hh hj rfl rfl
  | settle j ok sink job hj hok => exact desk_settle h hh hj hok
  | removeSink sink => exact rest_step (phase_update_self (.worker key)) (.refl _) rfl rfl rfl rfl
  | crash => exact hd.elim

end World

end Kuberecord
