import Kuberecord.Homes

namespace Kuberecord

variable {key key' : Key} {st : Inst} {k : String} {p : Phase} {α : Type}

def Phase.view : Phase → Reading
  | .loaded _ _ base => .read base
  | .superseding _ _ base _ | .closing _ _ base _ | .superseded _ _ base => .shut base.uid
  | _ => .away

def Phase.undated : Phase → Option String
  | .superseding _ _ _ e => some e.uid
  | _ => none

def Phase.staked : Phase → Option ((Inst × String) × Ticket × Stake)
  | .reserved st k base e t _ => some ((st, k), t, .write e (base.filter (CacheEntry.Precedes e.uid)))
  | .reverting st k e t f => some ((st, k), t, .write e f)
  | .claimed st k e t _ | .releasing st k e t => some ((st, k), t, .death e.uid none)
  | _ => none

def Handed.staked : Handed → Option ((Inst × String) × Ticket × Stake)
  | ⟨_, ⟨_, .upsert st k _ t e f⟩, .inFlight⟩ => some ((st, k), t, .write e f)
  | ⟨_, ⟨r, .delete st k _ t⟩, .inFlight⟩ => some ((st, k), t, .death r.uid (some r))
  | _ => none

def Key.sift {α : Type} (key : Key) (x : Option ((Inst × String) × α)) : Option α :=
  x.bind (fun y => if y.1 = (key.home, key.cacheKey) then some y.2 else none)

theorem Key.sift_some {x : Option ((Inst × String) × α)} {y : α} :
    key.sift x = some y ↔ x = some ((key.home, key.cacheKey), y) := by
  rcases x with _ | ⟨p, z⟩
  · simp [Key.sift]
  · by_cases hp : p = (key.home, key.cacheKey) <;> simp [Key.sift, hp]

@[simp]
theorem Key.sift_none (key : Key) : key.sift (none : Option ((Inst × String) × α)) = none := rfl

@[simp]
theorem Key.sift_home (key : Key) (y : α) : key.sift (some ((key.home, key.cacheKey), y)) = some y :=
  Key.sift_some.mpr rfl

theorem Key.sift_away (h : ¬ (st = key.home ∧ k = key.cacheKey))
    (y : α) : key.sift (some ((st, k), y)) = none := by
  simpa [Key.sift] using h

@[simp]
theorem Phase.view_outsOf (st : Inst) (k : String) (rs : List Record) :
    (Phase.outsOf st k rs).view = .away := by
  cases rs <;> rfl

@[simp]
theorem Phase.undated_outsOf (st : Inst) (k : String) (rs : List Record) :
    (Phase.outsOf st k rs).undated = none := by
  cases rs <;> rfl

@[simp]
theorem Phase.staked_outsOf (st : Inst) (k : String) (rs : List Record) :
    (Phase.outsOf st k rs).staked = none := by
  cases rs <;> rfl

def Shared.Flies (s : Shared) (key : Key) (r : Record) : Prop :=
  ∃ h ∈ s.jobs, h.status = .inFlight ∧ h.job.commit = .closeOut key.home key.cacheKey key r

theorem Handed.staked_settled {sink : String} {job : Job} {status : JobStatus} (h : status ≠ .inFlight) :
    Handed.staked ⟨sink, job, status⟩ = none := by
  obtain ⟨r, _ | _ | _⟩ := job <;> cases status <;> first | rfl | exact absurd rfl h

theorem Handed.ticket_of_staked {h : Handed} {t : Ticket} {x : Stake}
    (hx : h.staked = some ((st, k), t, x)) : h.job.commit.ticket = some (st, k, t) := by
  obtain ⟨sink, ⟨r, _ | _ | _⟩, _ | _ | _ | _⟩ := h <;> cases hx <;> rfl

namespace World

variable {w w' : World} {cfg : Config} {key : Key} {d : Deed} {tid : Tid} {st : Inst} {k : String}
  {r : Record}

def staked (w : World) : Holder → Option ((Inst × String) × Ticket × Stake)
  | .hand tid => (w.phase tid).staked
  | .job j => w.shared.jobs[j]?.bind Handed.staked

def bench (w : World) (key : Key) : Bench where
  slot := w.shared.slot key.home key.cacheKey
  view := (w.phase (.worker key)).view
  stake h := key.sift (w.staked h)
  closing := (w.phase (.worker key)).undated

inductive Loose (w : World) (key : Key) (r : Record) : Prop
  | queue : r ∈ w.shared.closeOuts key.home key.cacheKey → Loose w key r
  | hand (tid : Tid) : (w.phase tid).Carries key.home key.cacheKey r → Loose w key r
  | job (h : Handed) : h ∈ w.shared.jobs → h.status = .inFlight →
      h.job.commit = .closeOut key.home key.cacheKey key r → Loose w key r

def desk (w : World) (cfg : Config) (key : Key) : Desk where
  toBench := w.bench key
  loose := w.Loose key
  landed r := r ∈ landedRows cfg w.shared key ∧ r.eventType = .deleted

theorem staked_set {p : Phase} (hp : w'.phase = Function.update w.phase tid p)
    (hj : w'.shared.jobs = w.shared.jobs) :
    w'.staked = Function.update w.staked (.hand tid) p.staked := by
  funext h
  cases h with
  | hand u =>
    by_cases hu : u = tid
    · subst hu
      simp [staked, hp]
    · simp [staked, hp, hu]
  | job j => simp [staked, hj]

theorem staked_hand {p : Phase} {sink : String} {job : Job}
    (hp : w'.phase = Function.update w.phase tid p) (hs : w'.shared = w.hand sink job) :
    w'.staked = Function.update (Function.update w.staked (.hand tid) p.staked)
      (.job w.shared.jobs.length)
      (Handed.staked ⟨sink, job, .inFlight⟩) := by
  funext h
  cases h with
  | hand u =>
    by_cases hu : u = tid
    · subst hu
      simp [staked, hp]
    · simp [staked, hp, hu]
  | job j =>
    by_cases hj : j = w.shared.jobs.length
    · subst hj
      simp [staked, hs, World.hand]
    · have he : (w.shared.jobs ++ [{ sink := sink, job := job }])[j]? = w.shared.jobs[j]? := by
        rcases Nat.lt_or_gt_of_ne hj with hlt | hgt
        · exact List.getElem?_append_left hlt
        · rw [List.getElem?_eq_none (by simp; omega), List.getElem?_eq_none (by omega)]
      simp [staked, hs, World.hand, hj, he]

theorem staked_settled {j : Nat} {sink : String} {job : Job} {ok : Bool} :
    World.staked { w with shared := w.shared.settled j sink job ok } = Function.update w.staked
      (.job j) none := by
  funext h
  cases h with
  | hand u => simp [staked]
  | job i =>
    by_cases hi : i = j
    · subst hi
      simp only [staked, Shared.settled_jobs, Function.update_self]
      cases hx : (w.shared.jobs.set i ⟨sink, job, if ok then .written else .failed⟩)[i]? with
      | none => rfl
      | some x =>
        rw [List.getElem?_set_self'] at hx
        obtain ⟨y, -, rfl⟩ := Option.map_eq_some_iff.mp hx
        exact Handed.staked_settled (by cases ok <;> simp)
    · have hne : j ≠ i := Ne.symm hi
      simp [staked, List.getElem?_set_ne hne, hi]

theorem staked_length : w.staked (.job w.shared.jobs.length) = none := by
  simp [staked]

theorem sift_update (key : Key) (f : Holder → Option ((Inst × String) × Ticket × Stake)) (h : Holder)
    (x : Option ((Inst × String) × Ticket × Stake)) :
    (fun h' => key.sift (Function.update f h x h')) =
      Function.update (fun h' => key.sift (f h')) h (key.sift x) := by
  funext h'
  by_cases hh : h' = h
  · subst hh
    simp
  · simp [hh]

end World

theorem Phase.place_of_staked {x : Inst × String} {y : Ticket × Stake} (h : p.staked = some (x, y)) :
    p.place = some x := by
  cases p <;> cases h <;> rfl

theorem Phase.Carries.place {r : Record} (h : p.Carries st k r) :
    p.place = some (st, k) := by
  cases p with
  | outs | closing =>
    obtain ⟨rfl, rfl, -⟩ := h
    rfl
  | _ => cases h

theorem Phase.Lawful.reaches {cfg : Config} {tid : Tid} (h : p.Lawful cfg tid)
    (hp : p.place = some (st, k)) : tid.Reaches st k := by
  have serves : tid.Serves st k → tid.Reaches st k := fun ⟨key, ht, hk⟩ => ⟨key, hk, .inl ht⟩
  cases p <;> cases hp
  case outs => exact h.1
  case claimed => exact h
  case releasing => exact h
  case closing => exact serves h.1
  all_goals exact serves h

def Phase.Off (key : Key) (p : Phase) : Prop := p.place ≠ some (key.home, key.cacheKey)

theorem Phase.Off.idle (key : Key) : Phase.idle.Off key := by simp [Phase.Off, Phase.place]

theorem Phase.Off.aside (h : p.Off key)
    (hp : p.place = some (st, k)) : ¬ (key.home = st ∧ key.cacheKey = k) := by
  rintro ⟨rfl, rfl⟩
  exact h hp

theorem Key.Owns.aside (hk : key'.Owns st k)
    (hne : key' ≠ key) : ¬ (key.home = st ∧ key.cacheKey = k) := by
  rintro ⟨rfl, rfl⟩
  exact hne (hk.unique ⟨rfl, rfl⟩)

theorem Key.Owns.eq_of_home (hk : key'.Owns key.home key.cacheKey) : key' = key :=
  hk.unique ⟨rfl, rfl⟩

theorem Phase.Off.of_owns (hk : key'.Owns st k)
    (hne : key' ≠ key) (hp : ∀ x, p.place = some x → x = (st, k)) : p.Off key := by
  intro h
  cases hp _ h
  exact hne (hk.unique ⟨rfl, rfl⟩)

theorem Phase.Off.outsOf {r : Record} {rs : List Record}
    (h : (Phase.outs st k (r :: rs)).Off key) : (Phase.outsOf st k rs).Off key := by
  intro hp
  obtain ⟨rfl, rfl⟩ := Phase.place_outsOf hp
  exact h rfl

structure Phase.Alike (key : Key) (tid : Tid) (p q : Phase) : Prop where
  view : tid = .worker key → p.view = q.view
  undated : tid = .worker key → p.undated = q.undated
  staked : key.sift p.staked = key.sift q.staked
  carries : ∀ r, p.Carries key.home key.cacheKey r ↔ q.Carries key.home key.cacheKey r

theorem Phase.Alike.refl {tid : Tid} (p : Phase) : p.Alike key tid p :=
  ⟨fun _ => rfl, fun _ => rfl, rfl, fun _ => Iff.rfl⟩

theorem Key.Owns.sift_away (hk : key'.Owns st k)
    (hne : key' ≠ key) (y : α) : key.sift (some ((st, k), y)) = none :=
  Key.sift_away (fun hat => hk.aside hne ⟨hat.1.symm, hat.2.symm⟩) y

theorem Phase.Off.sift_away (h : p.Off key)
    (hp : p.place = some (st, k)) (y : α) : key.sift (some ((st, k), y)) = none :=
  Key.sift_away (fun hat => h.aside hp ⟨hat.1.symm, hat.2.symm⟩) y

theorem Phase.Off.closeOut_ne {r : Record}
    (h : p.Off key) (hp : p.place = some (st, k)) (r' : Record) :
    Commit.closeOut st k key' r ≠ .closeOut key.home key.cacheKey key r' := by
  rintro ⟨⟩
  exact h hp

theorem Phase.Off.sift (h : p.Off key) : key.sift p.staked = none := by
  cases hs : key.sift p.staked with
  | none => rfl
  | some y => exact absurd (Phase.place_of_staked (Key.sift_some.mp hs)) h

theorem Phase.Off.alike {tid : Tid} {q : Phase} (hp : p.Off key) (hq : q.Off key)
    (hne : tid ≠ .worker key) : p.Alike key tid q where
  view h := absurd h hne
  undated h := absurd h hne
  staked := hp.sift.trans hq.sift.symm
  carries _ := ⟨fun h => absurd h.place hp, fun h => absurd h.place hq⟩

namespace World

variable {w w' : World} {cfg : Config} {key key' : Key} {d : Deed} {tid : Tid} {st : Inst}
  {k : String} {r : Record}
  {p : Phase}

theorem bench_alike (hp : w'.phase = Function.update w.phase tid p) (ha : p.Alike key tid (w.phase tid))
    (hslot : w'.shared.slot key.home key.cacheKey = w.shared.slot key.home key.cacheKey)
    (hj : ∀ j, key.sift (w'.staked (.job j)) = key.sift (w.staked (.job j))) :
    w'.bench key = w.bench key := by
  have same {α : Type} (f : Phase → α) (hf : tid = .worker key → f p = f (w.phase tid)) :
      f (w'.phase (.worker key)) = f (w.phase (.worker key)) := by
    rw [hp]
    by_cases ht : (.worker key : Tid) = tid
    · rw [ht, Function.update_self, hf ht.symm]
    · rw [Function.update_of_ne ht]
  refine Bench.ext hslot (same _ ha.view) ?_ (same _ ha.undated)
  funext h
  cases h with
  | hand u =>
    by_cases hu : u = tid
    · subst hu
      simpa [bench, World.staked, hp] using ha.staked
    · simp [bench, World.staked, hp, hu]
  | job j => exact hj j

theorem loose_step (hp : w'.phase = Function.update w.phase tid p)
    (hc : p.Carries key.home key.cacheKey r ↔ (w.phase tid).Carries key.home key.cacheKey r)
    (hq : w'.shared.closeOuts key.home key.cacheKey = w.shared.closeOuts key.home key.cacheKey)
    (hj : ∀ h, h.status = .inFlight → h.job.commit = .closeOut key.home key.cacheKey key r →
      (h ∈ w'.shared.jobs ↔ h ∈ w.shared.jobs)) : w'.Loose key r ↔ w.Loose key r := by
  have carries (u : Tid) : (w'.phase u).Carries key.home key.cacheKey r ↔
      (w.phase u).Carries key.home key.cacheKey r := by
    rw [hp]
    by_cases hu : u = tid
    · subst hu
      rw [Function.update_self, hc]
    · rw [Function.update_of_ne hu]
  constructor
  · rintro (hr | ⟨u, hr⟩ | ⟨h, hm, hf, hcl⟩)
    · exact .queue (hq ▸ hr)
    · exact .hand u ((carries u).mp hr)
    · exact .job h ((hj h hf hcl).mp hm) hf hcl
  · rintro (hr | ⟨u, hr⟩ | ⟨h, hm, hf, hcl⟩)
    · exact .queue (hq ▸ hr)
    · exact .hand u ((carries u).mpr hr)
    · exact .job h ((hj h hf hcl).mpr hm) hf hcl

theorem landed_of_table (ht : w'.shared.table = w.shared.table) :
    (w'.desk cfg key).landed r ↔ (w.desk cfg key).landed r := by
  simp only [desk, mem_landedRows, ht]

theorem keeps_of_loose (ht : w'.shared.table = w.shared.table) {born : Option Record}
    (hl : ∀ r, w'.Loose key r ↔ w.Loose key r ∨ born = some r) :
    (w.desk cfg key).Keeps (w'.desk cfg key) born where
  landed _ hr := (landed_of_table ht).mpr hr
  lands _ hr := .inl ((landed_of_table ht).mp hr)
  loose r hr := .inl ((hl r).mpr (.inl hr))
  fresh r hr := (hl r).mp hr
  birth r hr := (hl r).mpr (.inr hr)

theorem keeps_same (ht : w'.shared.table = w.shared.table) (hl : ∀ r, w'.Loose key r ↔ w.Loose key r) :
    (w.desk cfg key).Keeps (w'.desk cfg key) none :=
  keeps_of_loose ht fun r => by simpa using hl r

theorem keeps_step (hp : w'.phase = Function.update w.phase tid p)
    (hc : ∀ r, p.Carries key.home key.cacheKey r ↔ (w.phase tid).Carries key.home key.cacheKey r)
    (hq : w'.shared.closeOuts key.home key.cacheKey = w.shared.closeOuts key.home key.cacheKey)
    (hj : w'.shared.jobs = w.shared.jobs) (ht : w'.shared.table = w.shared.table) :
    (w.desk cfg key).Keeps (w'.desk cfg key) none :=
  keeps_same ht fun r => loose_step hp (hc r) hq (by simp [hj])

theorem update_of_eq {α β : Type} [DecidableEq α] {f : α → β} {a : α} {b : β} (h : f a = b) :
    Function.update f a b = f :=
  h ▸ Function.update_eq_self a f

theorem rest_step (hp : w'.phase = Function.update w.phase tid p) (ha : p.Alike key tid (w.phase tid))
    (hslot : w'.shared.slot key.home key.cacheKey = w.shared.slot key.home key.cacheKey)
    (hq : w'.shared.closeOuts key.home key.cacheKey = w.shared.closeOuts key.home key.cacheKey)
    (hj : w'.shared.jobs = w.shared.jobs) (ht : w'.shared.table = w.shared.table) :
    (w.desk cfg key).Step key.home key.cacheKey (w'.desk cfg key) d :=
  .rest d (bench_alike hp ha hslot (by simp [World.staked, hj]))
    (keeps_step hp ha.carries hq hj ht)

theorem rest_same (hp : w'.phase = Function.update w.phase tid p) (ha : p.Alike key tid (w.phase tid))
    (hs : w.shared.Same w'.shared) : (w.desk cfg key).Step key.home key.cacheKey (w'.desk cfg key) d :=
  rest_step hp ha (hs.slot _ _) (hs.closeOuts _ _) hs.jobs hs.table

theorem rest_hand {sink : String} {job : Job} (hp : w'.phase = Function.update w.phase tid p)
    (ha : p.Alike key tid (w.phase tid)) (hs : w'.shared = w.hand sink job)
    (hst : key.sift (Handed.staked ⟨sink, job, .inFlight⟩) = none)
    (hc : ∀ r, job.commit ≠ .closeOut key.home key.cacheKey key r) :
    (w.desk cfg key).Step key.home key.cacheKey (w'.desk cfg key) d := by
  refine .rest d (bench_alike hp ha (by rw [hs]; rfl) fun j => ?_)
    (keeps_same (by rw [hs]; rfl) fun r => ?_)
  · rw [staked_hand hp hs]
    by_cases hj : j = w.shared.jobs.length
    · subst hj
      rw [Function.update_self, hst, staked_length, Key.sift_none]
    · simp [hj]
  · refine loose_step hp (ha.carries r) (by rw [hs]; rfl) fun h hf hcl => ?_
    rw [hs]
    simp only [World.hand, List.mem_append, List.mem_singleton, or_iff_left_iff_imp]
    rintro rfl
    exact absurd hcl (hc r)

theorem bench_step (hp : w'.phase = Function.update w.phase tid p) (hj : w'.shared.jobs = w.shared.jobs)
    (hv : tid = .worker key → p.view = (w.phase tid).view ∧ p.undated = (w.phase tid).undated) :
    w'.bench key = { w.bench key with
      slot := w'.shared.slot key.home key.cacheKey
      stake := Function.update (w.bench key).stake (.hand tid) (key.sift p.staked) } := by
  refine Bench.ext rfl ?_ ?_ ?_
  · by_cases ht : (.worker key : Tid) = tid
    · simp [bench, hp, ht, (hv ht.symm).1]
    · simp [bench, hp, Function.update_of_ne ht]
  · simp only [bench, staked_set hp hj, sift_update]
  · by_cases ht : (.worker key : Tid) = tid
    · simp [bench, hp, ht, (hv ht.symm).2]
    · simp [bench, hp, Function.update_of_ne ht]

theorem bench_own (hp : w'.phase = Function.update w.phase (.worker key) p)
    (hj : w'.shared.jobs = w.shared.jobs) :
    w'.bench key = {
      slot := w'.shared.slot key.home key.cacheKey
      view := p.view
      stake := Function.update (w.bench key).stake (.hand (.worker key)) (key.sift p.staked)
      closing := p.undated } := by
  simp only [bench, staked_set hp hj, sift_update, hp, Function.update_self]

theorem bench_hand {sink : String} {job : Job} (hp : w'.phase = Function.update w.phase tid p)
    (hs : w'.shared = w.hand sink job)
    (hv : tid = .worker key → p.view = (w.phase tid).view ∧ p.undated = (w.phase tid).undated) :
    w'.bench key = { w.bench key with
      stake := Function.update (Function.update (w.bench key).stake (.hand tid) (key.sift p.staked))
        (.job w.shared.jobs.length) (key.sift (Handed.staked ⟨sink, job, .inFlight⟩)) } := by
  refine Bench.ext (by rw [bench, hs]; rfl) ?_ ?_ ?_
  · by_cases ht : (.worker key : Tid) = tid
    · simp [bench, hp, ht, (hv ht.symm).1]
    · simp [bench, hp, Function.update_of_ne ht]
  · simp only [bench, staked_hand hp hs, sift_update]
  · by_cases ht : (.worker key : Tid) = tid
    · simp [bench, hp, ht, (hv ht.symm).2]
    · simp [bench, hp, Function.update_of_ne ht]

end World

end Kuberecord
