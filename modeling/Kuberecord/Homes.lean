import Kuberecord.SlotClaims
import Kuberecord.Rows
import Kuberecord.Solo

namespace Kuberecord

def Phase.place : Phase → Option (Inst × String)
  | .idle => none
  | .outs st k _ | .claimed st k _ _ _ | .releasing st k _ _ | .loaded st k _ | .superseding st k _ _
  | .closing st k _ _ | .superseded st k _ | .reserved st k _ _ _ _ | .reverting st k _ _ _ =>
    some (st, k)

theorem Phase.place_outsOf {st st' : Inst} {k k' : String} {rs : List Record}
    (h : (Phase.outsOf st k rs).place = some (st', k')) : st = st' ∧ k = k' := by
  cases rs <;> cases h
  exact ⟨rfl, rfl⟩

/-- No eviction of the key, no removal of its sink and no exit of the process. -/
def Undisturbed (key : Key) : Deed → Prop
  | .exec _ (.deletePrefix st pre, _) => st.sink = key.sink → ¬ pre.toList <+: key.cacheKey.toList
  | .env (.removeSink sink) => sink ≠ key.sink
  | .crash => False
  | _ => True

instance (key : Key) (d : Deed) : Decidable (Undisturbed key d) := by
  induction d using Threads.Action.casesOn with
  | exec _ x =>
    induction x using Prod.casesOn with | mk o i
    induction o using Op.casesOn with
    | deletePrefix st pre =>
      exact inferInstanceAs (Decidable (st.sink = key.sink → ¬ pre.toList <+: key.cacheKey.toList))
    | _ => exact instDecidableTrue
  | env e =>
    induction e using Env.casesOn with
    | removeSink sink => exact inferInstanceAs (Decidable (sink ≠ key.sink))
    | _ => exact instDecidableTrue
  | crash => exact instDecidableFalse
  | _ => exact instDecidableTrue

namespace World

variable {w w' : World} {cfg : Config} {key : Key} {d : Deed} {tid : Tid} {st : Inst}

def Uses (w : World) (tid : Tid) (st : Inst) : Prop :=
  (w.seen tid).inst = some st ∨ ∃ k, (w.phase tid).place = some (st, k)

structure Housed (key : Key) (w : World) : Prop where
  gens : w.shared.gens key.sink = 0
  uses : ∀ tid st, w.Uses tid st → st.sink = key.sink → st = key.home
  jobs : ∀ h ∈ w.shared.jobs, ∀ st k, h.job.commit.place = some (st, k) → st.sink = key.sink →
    st = key.home

theorem Housed.empty : Housed key {} where
  gens := rfl
  uses tid st hu := by
    rcases hu with hu | ⟨k, hu⟩ <;> cases hu
  jobs h hm := by cases hm

theorem Housed.inst (h : w.Housed key) (hi : (w.seen tid).inst = some st)
    (hs : st.sink = key.sink) : st = key.home :=
  h.uses tid st (.inl hi) hs

theorem Housed.place (h : w.Housed key) {p : Phase} {k : String} (hp : w.phase tid = p)
    (hpl : p.place = some (st, k)) (hs : st.sink = key.sink) : st = key.home :=
  h.uses tid st (.inr ⟨k, hp ▸ hpl⟩) hs

theorem Housed.step (h : w.Housed key) (hg : w'.shared.gens = w.shared.gens)
    (hu : ∀ tid st, w'.Uses tid st → ∃ tid, w.Uses tid st)
    (hj : ∀ h ∈ w'.shared.jobs, h ∈ w.shared.jobs ∨
      ∀ st k, h.job.commit.place = some (st, k) → ∃ tid, w.Uses tid st) : w'.Housed key where
  gens := by rw [hg, h.gens]
  uses tid st hst hs := by
    obtain ⟨tid, hst⟩ := hu tid st hst
    exact h.uses tid st hst hs
  jobs h' hm st k hpl hs := by
    rcases hj h' hm with hm | hp
    · exact h.jobs h' hm st k hpl hs
    · obtain ⟨tid, hst⟩ := hp st k hpl
      exact h.uses tid st hst hs

theorem uses_set {p : Phase} {s' : Shared} (hp : ∀ st k, p.place = some (st, k) → w.Uses tid st) :
    ∀ u st, (w.set tid p s').Uses u st → ∃ u, w.Uses u st := by
  rintro u st (hi | ⟨k, hk⟩)
  · exact ⟨u, .inl hi⟩
  · by_cases hu : u = tid
    · subst hu
      rw [set_phase_self] at hk
      exact ⟨u, hp st k hk⟩
    · rw [set_phase_of_ne hu] at hk
      exact ⟨u, .inr ⟨k, hk⟩⟩

theorem uses_of_phase {p : Phase} {k : String} (hp : w.phase tid = p)
    (hpl : p.place = some (st, k)) : w.Uses tid st :=
  .inr ⟨k, hp ▸ hpl⟩

theorem Housed.set (h : w.Housed key) {p : Phase} {s' : Shared} (hg : s'.gens = w.shared.gens)
    (hj : s'.jobs = w.shared.jobs) (hp : ∀ st k, p.place = some (st, k) → w.Uses tid st) :
    (w.set tid p s').Housed key :=
  h.step hg (uses_set hp) (fun _ hm => .inl (hj ▸ hm))

theorem Housed.hand (h : w.Housed key) {p : Phase} {sink : String} {job : Job}
    (hp : ∀ st k, p.place = some (st, k) → w.Uses tid st)
    (hc : ∀ st k, job.commit.place = some (st, k) → w.Uses tid st) :
    (w.set tid p (w.hand sink job)).Housed key := by
  refine h.step rfl (uses_set hp) (fun h' hm => ?_)
  rcases List.mem_append.mp hm with hm | hm
  · exact .inl hm
  · rw [List.mem_singleton.mp hm]
    exact .inr fun st k hpl => ⟨tid, hc st k hpl⟩

theorem Housed.keep (h : w.Housed key) (hp : w'.phase = w.phase) (hseen : w'.seen = w.seen)
    (hg : w'.shared.gens = w.shared.gens) (hj : w'.shared.jobs = w.shared.jobs) : w'.Housed key := by
  refine h.step hg (fun tid st hu => ⟨tid, ?_⟩) (fun _ hm => .inl (hj ▸ hm))
  rwa [Uses, hp, hseen] at hu

theorem Housed.learn (h : w.Housed key) {seen : Seen}
    (hi : ∀ st, seen.inst = some st → st.sink = key.sink → st = key.home) :
    (w.learn tid seen).Housed key := by
  refine ⟨h.gens, ?_, h.jobs⟩
  rintro u st (hst | hst) hs
  · by_cases hu : u = tid
    · subst hu
      simp only [World.learn, Function.update_self] at hst
      exact hi st hst hs
    · simp only [World.learn, Function.update_of_ne hu] at hst
      exact h.uses u st (.inl hst) hs
  · exact h.uses u st (.inr hst) hs

theorem Housed.turn (h : w.Housed key) (hd : Undisturbed key d) (ht : Turn cfg w d w') :
    w'.Housed key := by
  cases ht with
  | still _ w' hp hs _ _ hseen =>
    refine h.step hs.gens (fun tid st hu => ⟨tid, ?_⟩) (fun _ hm => .inl (hs.jobs ▸ hm))
    rcases hu with hu | hu
    · rcases hseen tid with he | he
      · exact .inl (he ▸ hu)
      · rw [he] at hu
        cases hu
    · exact .inr (hp ▸ hu)
  | attach tid sink =>
    refine h.learn fun st hst hs => ?_
    obtain rfl := Option.some.inj hst
    obtain rfl : sink = key.sink := hs
    simp [Shared.inst, Key.home, h.gens]
  | look | consult | vouch => exact h.learn fun st hst hs => h.inst hst hs
  | tick | seed | evict | insert => exact h.keep rfl rfl rfl rfl
  | drop tid st k base s' hp hs =>
    exact (h.set hs.gens hs.jobs (by simp [Phase.place])).learn (by simp)
  | load key' st k hk hi hp =>
    refine h.set rfl rfl fun st' k' hpl => ?_
    cases hpl
    exact .inl hi
  | reserve key' st k base norm plan hk hd hp =>
    refine h.set rfl rfl fun st' k' hpl => ?_
    cases hpl
    rcases hp with ⟨hp, -⟩ | ⟨e, -, -, hp⟩
    · exact uses_of_phase hp rfl
    · exact uses_of_phase hp rfl
  | date _ _ _ _ _ _ _ hp | dateClaim _ _ _ _ _ _ hp | dateClose _ _ _ _ _ _ hp
  | shelve _ _ _ _ _ hp => exact h.set rfl rfl fun _ _ hpl => uses_of_phase hp hpl
  | issue _ _ _ _ _ _ _ _ _ _ hp | emit _ _ _ _ _ _ _ _ _ hp =>
    exact h.hand (by simp [Phase.place]) fun _ _ hpl => uses_of_phase hp hpl
  | refuse _ _ _ _ _ _ _ _ _ _ _ hp hs | emitRefused _ _ _ _ _ _ _ hp hs
  | outrun _ _ _ _ _ _ _ _ _ hp _ hs =>
    exact h.set hs.gens hs.jobs fun _ _ hpl => uses_of_phase hp hpl
  | revert | retract | forget | release => exact h.set rfl rfl (by simp [Phase.place])
  | claim tid key' st k uid e tk slot hk hm hp hc hi =>
    have hw : (w.set tid (.claimed st k e tk none) (w.shared.setSlot st k slot)).Housed key := by
      refine h.set rfl rfl fun st' k' hpl => ?_
      cases hpl
      exact .inl hi
    exact hw.keep rfl rfl rfl rfl
  | supersede key' st k base e norm tk slot hk he hobs hsup hp hc =>
    have hw : (w.set (.worker key') (.superseding st k base e)
      (w.shared.setSlot st k slot)).Housed key :=
      h.set rfl rfl fun _ _ hpl => uses_of_phase hp hpl
    exact hw.keep rfl rfl rfl rfl
  | close key' st k base r hk hp =>
    exact h.hand (fun _ _ hpl => uses_of_phase hp hpl) fun _ _ hpl => uses_of_phase hp hpl
  | takeAll key' st k hk hp hi =>
    refine h.set rfl rfl fun st' k' hpl => ?_
    obtain ⟨rfl, rfl⟩ := Phase.place_outsOf hpl
    exact .inl hi
  | resubmit key' st k r rs hk hp =>
    refine h.hand (fun st' k' hpl => ?_) fun _ _ hpl => uses_of_phase hp hpl
    obtain ⟨rfl, rfl⟩ := Phase.place_outsOf hpl
    exact uses_of_phase hp rfl
  | reshelve tid st k r rs hp =>
    refine h.set rfl rfl fun st' k' hpl => ?_
    obtain ⟨rfl, rfl⟩ := Phase.place_outsOf hpl
    exact uses_of_phase hp rfl
  | recover tid key' st k x hk hn he hx hp hi =>
    have hw : (w.set tid .idle (w.hand key'.sink ⟨x.reincarnation.closeOutRecord cfg.clusterID key',
        .closeOut st k key' (x.reincarnation.closeOutRecord cfg.clusterID key')⟩)).Housed key := by
      refine h.hand (by simp [Phase.place]) fun st' k' hpl => ?_
      cases hpl
      exact .inl hi
    refine hw.keep ?_ rfl rfl rfl
    rw [World.set, ← hp, Function.update_eq_self]
  | recoverRefused tid key' st k x s' hk hn he hx hp hs hi =>
    have hw : (w.set tid (.outs st k [x.reincarnation.closeOutRecord cfg.clusterID key'])
      s').Housed key := by
      refine h.set hs.gens hs.jobs fun st' k' hpl => ?_
      cases hpl
      exact .inl hi
    exact hw.keep rfl rfl rfl rfl
  | settle j ok sink job hj hok =>
    refine ⟨by simpa using h.gens, h.uses, fun h' hm => ?_⟩
    simp only [Shared.settled_jobs] at hm
    rcases List.mem_or_eq_of_mem_set hm with hm | rfl
    · exact h.jobs h' hm
    · exact h.jobs ⟨sink, job, .inFlight⟩ (List.mem_of_getElem? hj)
  | removeSink sink =>
    have hne : key.sink ≠ sink := Ne.symm hd
    exact ⟨by simpa [Function.update_of_ne hne] using h.gens, h.uses, h.jobs⟩
  | crash => exact hd.elim

end World

end Kuberecord
