import Kuberecord.Evidence
import Kuberecord.Marks
import Kuberecord.ProcessTags
import Kuberecord.Tenure

/-!
An incarnation that history lists as current must not be recorded as Added. The cache lookup, the
warm check, the seeding and the warm mark are four critical sections, and their order decides.
-/

namespace Kuberecord

open Threads

def Announces (key : Key) (u : String) (ref : ScopeRef) (states : List KnownState) : Prop :=
  ∃ g ∈ groupByIdentity states, ref.key (splitIncarnations g).1.ns (splitIncarnations g).1.name = key ∧
    (splitIncarnations g).1.uid = u

instance (key : Key) (u : String) (ref : ScopeRef) (states : List KnownState) :
    Decidable (Announces key u ref states) :=
  inferInstanceAs (Decidable (∃ g ∈ _, _))

def announced (key : Key) (u : String) : Sigma Op.Ans → Prop
  | ⟨.lastKnownStates ref, some states⟩ => Announces key u ref states
  | _ => False

instance (key : Key) (u : String) (e : Sigma Op.Ans) : Decidable (announced key u e) := by
  unfold announced
  split <;> infer_instance

def Known (key : Key) (u : String) (log : Log) : Prop := ∃ x ∈ log, announced key u x.event

instance (key : Key) (u : String) (log : Log) : Decidable (Known key u log) :=
  inferInstanceAs (Decidable (∃ x ∈ log, _))

def Stake.clears : Stake → Bool → Bool
  | .write _ none, false | .death _ _, true => true
  | _, _ => false

namespace Tale

def Missed : Tale → Prop
  | .work _ _ (some none) none => True
  | _ => False

def Shown (u : String) : Tale → Prop
  | .work (some uid) _ _ _ => uid = u
  | _ => False

def Announced (key : Key) (u : String) : Tale → Prop
  | .told ref states | .seeding ref states _ _ => Announces key u ref states
  | _ => False

instance (p : Tale) : Decidable p.Missed := by
  unfold Missed
  split <;> infer_instance

instance (u : String) (p : Tale) : Decidable (p.Shown u) := by
  unfold Shown
  split <;> infer_instance

instance (key : Key) (u : String) (p : Tale) : Decidable (p.Announced key u) := by
  unfold Announced
  split <;> infer_instance

end Tale

abbrev TaleView := View Op.Ans Tid Shared Tale

/--
No covering scope is stopped; history lists the incarnation first while the key is cold; a covering
scope is marked warm by a run that was told of the incarnation, and not between a missed lookup and
the warm check that follows it; and a step that is shown the incarnation finds no other one cached.
-/
def Heedful (key : Key) (u : String) (v : TaleView) : Deed → Prop
  | .exec _ (.unmarkWarm st scope, _) => ¬ ScopeRef.Covers ⟨st.sink, scope⟩ key
  | .exec _ (.lastKnownStates ref, .states _ (some states)) =>
    Announces key u ref states → Known key u v.log ∨ v.shared.scopeWarm key.home key = false
  | .exec tid (.markScopeWarm ref, _) => ref.Covers key → Known key u v.log →
      (∀ p ∈ v.phase (.worker key), ¬ p.Missed) ∧ ∀ p ∈ v.phase tid, p.Announced key u
  | .exec tid (.load _ _, _) => ∀ p ∈ v.phase tid, p.Shown u →
      ∀ e ∈ (v.shared.slot key.home key.cacheKey).entry, e.uid = "" ∨ e.uid = u
  | _ => True

instance (key : Key) (u : String) (v : TaleView) (d : Deed) : Decidable (Heedful key u v d) := by
  induction d using Threads.Action.casesOn with
  | exec tid x =>
    induction x using Prod.casesOn with | mk o i
    induction o using Op.casesOn with
    | unmarkWarm st scope => exact inferInstanceAs (Decidable (¬ ScopeRef.Covers ⟨st.sink, scope⟩ key))
    | lastKnownStates ref =>
      induction i using Input.casesOn with
      | states _ l =>
        induction l using Option.casesOn with
        | none => exact instDecidableTrue
        | some states =>
          exact inferInstanceAs (Decidable (Announces key u ref states → _ ∨ _))
      | _ => exact instDecidableTrue
    | markScopeWarm ref =>
      exact inferInstanceAs (Decidable (ref.Covers key → Known key u v.log →
        (∀ p ∈ v.phase (.worker key), ¬ p.Missed) ∧ ∀ p ∈ v.phase tid, p.Announced key u))
    | load _ _ =>
      exact inferInstanceAs (Decidable (∀ p ∈ v.phase tid, p.Shown u →
        ∀ e ∈ (v.shared.slot key.home key.cacheKey).entry, e.uid = "" ∨ e.uid = u))
    | _ => exact instDecidableTrue
  | _ => exact instDecidableTrue

def Bench.Retains (b : Bench) (d : Deed) : Prop :=
  ∀ p ∈ d.settling, ∀ y ∈ b.stake p.1, b.slot.Current y.1.version → y.2.clears p.2 = false

instance (b : Bench) (d : Deed) : Decidable (b.Retains d) := by
  unfold Bench.Retains
  infer_instance

theorem Slot.settle_isSome {s : Slot} {t : Ticket} {x : Stake} {ok : Bool} (h : s.entry ≠ none)
    (hv : t.version ≠ 0) (hc : s.Current t.version → x.clears ok = false) :
    (s.settle t x ok).entry ≠ none := by
  by_cases hcur : s.Current t.version
  · obtain ⟨e, he, hev⟩ := Slot.current_iff.mp hcur
    have hcl := hc hcur
    rw [Slot.settle_current he hev]
    cases x with
    | write c f =>
      cases ok with
      | true => exact Option.some_ne_none _
      | false =>
        cases f with
        | none => cases hcl
        | some b => exact Option.some_ne_none _
    | death u row =>
      cases ok with
      | true => cases hcl
      | false => exact Option.some_ne_none _
  · rwa [Slot.settle_stale hcur hv]

theorem Desk.Step.isSome {st : Inst} {k : String} {s s' : Desk} {d : Deed} (hstep : s.Step st k s' d)
    (hd : s.Retains d) (h : s.slot.entry ≠ none) : s'.slot.entry ≠ none := by
  cases hstep with
  | rest _ hb | drop _ _ _ hb | load _ _ hb | outrun _ _ _ _ hb | date _ _ _ hb | send _ _ _ _ _ _ _ _ _ hb
  | recover _ _ _ _ _ _ hb =>
    rw [hb]
    exact h
  | reserve tid base e _ _ _ _ hb =>
    rw [hb]
    exact Option.some_ne_none _
  | claim _ _ _ slot e t hc _ hb | supersede _ _ slot e t _ _ hc _ hb =>
    rw [hb, hc.slot]
    exact Option.some_ne_none _
  | settle _ x ok t y hset hx hv hb =>
    rw [hb]
    exact Slot.settle_isSome h hv (hd _ hset _ hx)
  | seed tid e _ hb =>
    rw [hb]
    unfold Slot.storeIfAbsent
    split_ifs
    · exact h
    · exact Option.some_ne_none _

def AddsKnown (cfg : Config) (key : Key) (u : String) : Sigma Op.Ans → Prop
  | ⟨.enqueue sink job, true⟩ =>
    sink = key.sink ∧ job.record.isOf cfg.clusterID key ∧ job.record.eventType = .added ∧
      job.record.uid = u
  | _ => False

instance (cfg : Config) (key : Key) (u : String) (e : Sigma Op.Ans) :
    Decidable (AddsKnown cfg key u e) := by
  unfold AddsKnown
  split <;> infer_instance

structure Knowing (key : Key) (u : String) (v : TaleView) : Prop where
  -- a warm key that history has told of is cached
  filled : Known key u v.log → v.shared.scopeWarm key.home key = true →
    (v.shared.slot key.home key.cacheKey).entry ≠ none
  told : ∀ tid ref states, v.phase tid = some (.told ref states) → Announces key u ref states →
    Known key u v.log
  -- a run that was told of the incarnation has seeded it or is going to
  seeding : ∀ tid ref states st pending, v.phase tid = some (.seeding ref states st pending) →
    Announces key u ref states → Known key u v.log ∧ st = key.home ∧
      ((∃ g ∈ pending, ref.key (splitIncarnations g).1.ns (splitIncarnations g).1.name = key) ∨
        (v.shared.slot key.home key.cacheKey).entry ≠ none)
  working : ∀ p, v.phase (.worker key) = some p → ∃ uid st base warm, p = .work uid st base warm ∧
    ∀ x ∈ st, x = key.home
  missed : ∀ uid st, v.phase (.worker key) = some (.work uid st (some none) none) → Known key u v.log →
    v.shared.scopeWarm key.home key = false
  asked : ∀ uid st, v.phase (.worker key) = some (.work uid st (some none) (some true)) →
    ¬ Known key u v.log ∧ v.shared.scopeWarm key.home key = true
  based : ∀ st e warm, v.phase (.worker key) = some (.work (some u) st (some (some e)) warm) →
    e.uid = "" ∨ e.uid = u

section Knowing

variable {cfg : Config} {key : Key} {u : String} {v v' : TaleView} {d : Deed} {tid : Tid} {o : Op}
  {i : Input} {a : o.Ans}
  {s' : Shared} {tr : Trace}

theorem known_snoc {log : Log} {x : LogEntry Op.Ans Tid} :
    Known key u (log ++ [x]) ↔ Known key u log ∨ announced key u x.event := by
  simp [Known, or_and_right, exists_or]

theorem Marking.scopeWarm {s : Shared} (h : Marking s d s') (hh : s.gens key.sink = 0) (hc : d ≠ .crash)
    (hu : ∀ tid st scope i, d = .exec tid (.unmarkWarm st scope, i) →
      ¬ ScopeRef.Covers ⟨st.sink, scope⟩ key) :
    s'.scopeWarm key.home key = s.scopeWarm key.home key ∨
      ∃ tid ref i, d = .exec tid (.markScopeWarm ref, i) ∧ ref.Covers key ∧
        s'.scopeWarm key.home key = true := by
  cases h with
  | keep _ _ hk => exact .inl (by rw [Shared.scopeWarm_eq, hk, hk, Shared.scopeWarm_eq])
  | mark tid ref i =>
    by_cases hcov : ref.Covers key
    · refine .inr ⟨tid, ref, i, rfl, hcov, ?_⟩
      obtain ⟨hsink, hscope⟩ := hcov
      have hinst : s.inst ref.sink = key.home := by rw [hsink, Shared.inst, hh]; rfl
      rw [Shared.scopeWarm_eq, hinst]
      rcases hscope with hscope | hscope <;> simp [Shared.marked_setWarm, hscope]
    · left
      have hne : ∀ scope, scope = key.scope ∨ scope = { key.scope with ns := allNamespaces } →
          ¬ (key.home = s.inst ref.sink ∧ scope = ref.scope) := by
        rintro scope hs ⟨hst, rfl⟩
        exact hcov ⟨(congrArg Inst.sink hst).symm, hs⟩
      rw [Shared.scopeWarm_eq, Shared.marked_setWarm, Shared.marked_setWarm, if_neg (hne _ (.inl rfl)),
        if_neg (hne _ (.inr rfl)), Shared.scopeWarm_eq]
  | unmark tid st scope i =>
    have hcov := hu tid st scope i rfl
    left
    have hne : ∀ scope', scope' = key.scope ∨ scope' = { key.scope with ns := allNamespaces } →
        ¬ (key.home = st ∧ scope' = scope) := by
      rintro scope' hs ⟨rfl, rfl⟩
      exact hcov ⟨rfl, hs⟩
    rw [Shared.scopeWarm_eq, Shared.marked_setWarm, Shared.marked_setWarm, if_neg (hne _ (.inl rfl)),
      if_neg (hne _ (.inr rfl)), Shared.scopeWarm_eq]
  | crash => exact absurd rfl hc

theorem Knowing.still (h : Knowing key u v) (hl : v'.log = v.log)
    (hw : v'.shared.scopeWarm key.home key = v.shared.scopeWarm key.home key)
    (hs : Known key u v.log → (v.shared.slot key.home key.cacheKey).entry ≠ none →
      (v'.shared.slot key.home key.cacheKey).entry ≠ none)
    (hp : ∀ tid p, v'.phase tid = some p → v.phase tid = some p ∨ p = Tale.start key tid) :
    Knowing key u v' := by
  have start {tid : Tid} {p : Tale} (hp : p = Tale.start key tid) :
      p = .free ∨ p = .seek ∨ p = .work none none none none := by
    subst hp
    cases tid with
    | worker key' =>
      by_cases hk : key' = key
      · exact .inr (.inr (if_pos hk))
      · exact .inl (if_neg hk)
    | warm => exact .inr (.inl rfl)
    | boot | evict => exact .inl rfl
  constructor
  · rw [hl, hw]
    exact fun hk hwarm => hs hk (h.filled hk hwarm)
  · intro tid ref states hph hann
    rw [hl]
    rcases hp tid _ hph with hph | hph
    · exact h.told tid ref states hph hann
    · rcases start hph with h | h | h <;> cases h
  · intro tid ref states st pending hph hann
    rw [hl]
    rcases hp tid _ hph with hph | hph
    · obtain ⟨hk, hst, hpend⟩ := h.seeding tid ref states st pending hph hann
      exact ⟨hk, hst, hpend.imp_right (hs hk)⟩
    · rcases start hph with h | h | h <;> cases h
  · intro p hph
    rcases hp _ p hph with hph | rfl
    · exact h.working p hph
    · exact ⟨none, none, none, none, if_pos rfl, by simp⟩
  · intro uid st hph
    rw [hl, hw]
    rcases hp _ _ hph with hph | hph
    · exact h.missed uid st hph
    · rcases start hph with h | h | h <;> cases h
  · intro uid st hph
    rw [hl, hw]
    rcases hp _ _ hph with hph | hph
    · exact h.asked uid st hph
    · rcases start hph with h | h | h <;> cases h
  · intro st e warm hph
    rcases hp _ _ hph with hph | hph
    · exact h.based st e warm hph
    · rcases start hph with h | h | h <;> cases h

theorem Announces.sink {ref : ScopeRef} {states : List KnownState} (h : Announces key u ref states) :
    ref.sink = key.sink := by
  obtain ⟨g, -, rfl, -⟩ := h
  rfl

theorem home_of_gens {s : Shared} {sink : String} (hg : s.gens key.sink = 0) (hs : sink = key.sink) :
    s.inst sink = key.home := by
  rw [hs, Shared.inst, hg]
  rfl

theorem announced_heeded (hx : exec v.shared tid o i = some (s', a))
    (hd : Heedful key u v (.exec tid (o, i))) (hn : announced key u ⟨o, a⟩) :
    Known key u v.log ∨ v.shared.scopeWarm key.home key = false ∧
    s' = v.shared := by
  unfold announced at hn
  split at hn
  · rename_i ref states heq
    cases heq
    cases exec_effect hx with
    | quiet _ _ _ _ hq => exact hq.elim
    | lastKnownStates =>
      rcases hd hn with hk | hw
      · exact .inl hk
      · exact .inr ⟨hw, rfl⟩
  · exact hn.elim

theorem Tale.seeded_of_mark {p : Tale} {ref : ScopeRef} (h : p.Allowed key (.markScopeWarm ref)) :
    ∃ states st, p = .seeding ref states st [] := by
  cases p with
  | seeding ref' states st pending =>
    cases pending with
    | nil =>
      cases h
      exact ⟨states, st, rfl⟩
    | cons g gs => cases h
  | told => cases h
  | work => exact h.elim
  | free | seek => exact absurd trivial h

section Exec

variable {p : Tale} (h : Knowing key u v) (hp : v.phase tid = some p) (hall : p.Allowed key o)
  (hx : exec v.shared tid o i = some (s', a)) (hd : Heedful key u v (.exec tid (o, i)))
  (hg : v.shared.gens key.sink = 0)
  (hs : Known key u v.log → (v.shared.slot key.home key.cacheKey).entry ≠ none →
    (s'.slot key.home key.cacheKey).entry ≠ none)
include h hp hall hx hd hg hs

theorem Knowing.exec_warm : s'.scopeWarm key.home key = v.shared.scopeWarm key.home key ∨
    (∃ ref, o = .markScopeWarm ref) ∧ s'.scopeWarm key.home key = true ∧ (Known key u v.log →
      (∀ p ∈ v.phase (.worker key), ¬ p.Missed) ∧ (s'.slot key.home key.cacheKey).entry ≠ none) := by
  rcases (exec_marking hx).scopeWarm hg (by simp) (by rintro _ _ _ _ ⟨⟩; exact hd) with
    hw | ⟨tid', ref, i', heq, hcov, hw⟩
  · exact .inl hw
  · cases heq
    refine .inr ⟨⟨ref, rfl⟩, hw, fun hk => ?_⟩
    obtain ⟨hmiss, hann⟩ := hd hcov hk
    obtain ⟨states, st, rfl⟩ := Tale.seeded_of_mark hall
    obtain ⟨-, -, hpend | hne⟩ := h.seeding tid ref states st [] hp (hann _ hp)
    · simp at hpend
    · exact ⟨hmiss, hs hk hne⟩

theorem Knowing.exec_filled (hk : Known key u (v.log ++ [⟨tid, tr, ⟨o, a⟩⟩]))
    (hw : s'.scopeWarm key.home key = true) :
    (s'.slot key.home key.cacheKey).entry ≠ none := by
  rcases known_snoc.mp hk with hk | hn
  · rcases h.exec_warm hp hall hx hd hg hs with hsame | ⟨-, -, hmark⟩
    · exact hs hk (h.filled hk (hsame ▸ hw))
    · exact (hmark hk).2
  · rcases announced_heeded hx hd hn with hk | ⟨hcold, rfl⟩
    · rcases h.exec_warm hp hall hx hd hg hs with hsame | ⟨-, -, hmark⟩
      · exact hs hk (h.filled hk (hsame ▸ hw))
      · exact (hmark hk).2
    · rw [hcold] at hw
      cases hw

omit hs in
theorem Knowing.exec_seeding {ref : ScopeRef} {states : List KnownState} {st : Inst}
    {pending : List Group} (hn : p.next o a = .seeding ref states st pending)
    (hann : Announces key u ref states) :
    Known key u v.log ∧ st = key.home ∧
      ((∃ g ∈ pending, ref.key (splitIncarnations g).1.ns (splitIncarnations g).1.name = key) ∨
        (v.shared.slot key.home key.cacheKey).entry ≠ none ∨
          (s'.slot key.home key.cacheKey).entry ≠ none) := by
  cases p with
  | free => cases hn
  | seek =>
    cases o <;> try cases hn
    cases a <;> cases hn
  | work => cases o <;> cases hn
  | told ref' states' =>
    cases hall
    cases hn
    have hknown := h.told tid ref states hp hann
    have hsink := hann.sink
    obtain ⟨g, hmem, hkey, -⟩ := hann
    refine ⟨hknown, ?_, .inl ⟨g, hmem, hkey⟩⟩
    cases exec_effect hx with
    | quiet _ _ _ _ hq => exact hq.elim
    | sinkState => exact home_of_gens hg hsink
  | seeding ref' states' st' pending' =>
    cases pending' with
    | nil =>
      cases hall
      cases hn
    | cons g gs =>
      cases hall
      cases hn
      obtain ⟨hk, rfl, hpend⟩ := h.seeding tid _ _ _ _ hp hann
      refine ⟨hk, rfl, ?_⟩
      rcases hpend with ⟨g', hmem, hkey⟩ | hne
      · rcases List.mem_cons.mp hmem with rfl | hmem
        · refine .inr (.inr ?_)
          cases exec_effect hx with
          | quiet _ _ _ _ hq => exact hq.elim
          | storeIfAbsent =>
            rw [hkey, Shared.slot_setSlot_self]
            unfold Slot.storeIfAbsent
            split_ifs with hsome
            · exact Option.isSome_iff_ne_none.mp hsome
            · exact Option.some_ne_none _
        · exact .inl ⟨g', hmem, hkey⟩
      · exact .inr (.inl hne)

structure Tale.Worked (key : Key) (u : String) (known warm : Prop) (p : Tale) : Prop where
  working : ∃ uid st base warm, p = .work uid st base warm ∧ ∀ x ∈ st, x = key.home
  missed : ∀ uid st, p = .work uid st (some none) none → known → ¬ warm
  asked : ∀ uid st, p = .work uid st (some none) (some true) → ¬ known ∧ warm
  based : ∀ st e w, p = .work (some u) st (some (some e)) w → e.uid = "" ∨ e.uid = u

omit hs in
theorem Knowing.exec_worked (ht : tid = .worker key) :
    (p.next o a).Worked key u (Known key u v.log) (v.shared.scopeWarm key.home key = true) := by
  subst ht
  obtain ⟨uid, st, base, warm, rfl, hst⟩ := h.working p hp
  have keep : Tale.Worked key u (Known key u v.log) (v.shared.scopeWarm key.home key = true)
      (.work uid st base warm) := by
    refine ⟨⟨uid, st, base, warm, rfl, hst⟩, ?_, ?_, ?_⟩
    · rintro _ _ ⟨⟩ hk
      rw [h.missed _ _ hp hk]
      exact Bool.false_ne_true
    · rintro _ _ ⟨⟩
      exact h.asked _ _ hp
    · rintro _ _ _ ⟨⟩
      exact h.based _ _ _ hp
  cases o with
  | listerGet =>
    obtain ⟨-, rfl⟩ := hall
    exact ⟨⟨_, _, _, _, rfl, hst⟩,
      by rintro _ _ ⟨⟩, by rintro _ _ ⟨⟩, fun _ _ _ heq => by simp [Tale.next] at heq⟩
  | sinkState sink =>
    obtain ⟨hsink, rfl⟩ := hall
    refine ⟨⟨_, _, _, _, rfl, ?_⟩, by rintro _ _ ⟨⟩, by rintro _ _ ⟨⟩, by rintro _ _ _ ⟨⟩⟩
    cases exec_effect hx with
    | quiet _ _ _ _ hq => exact hq.elim
    | sinkState =>
      rintro _ ⟨⟩
      exact home_of_gens hg hsink
  | load st' k =>
    obtain ⟨rfl, rfl, rfl, rfl⟩ := hall
    obtain rfl := hst st' rfl
    refine ⟨⟨_, _, _, _, rfl, hst⟩, ?_, by rintro _ _ ⟨⟩, ?_⟩
    · cases exec_effect hx with
      | quiet _ _ _ _ hq => exact hq.elim
      | load =>
        intro uid' st' heq hk hw
        have he : (v.shared.slot key.home key.cacheKey).entry = none := by
          simp only [Tale.next, Tale.work.injEq, Option.some.injEq] at heq
          exact heq.2.2.1
        exact h.filled hk hw he
    · cases exec_effect hx with
      | quiet _ _ _ _ hq => exact hq.elim
      | load =>
        intro st' e w heq
        simp only [Tale.next, Tale.work.injEq, Option.some.injEq] at heq
        obtain ⟨rfl, -, he, -⟩ := heq
        exact hd _ hp rfl e he
  | scopeWarm st' key' =>
    obtain ⟨rfl, rfl, rfl, rfl⟩ := hall
    obtain rfl := hst st' rfl
    refine ⟨⟨_, _, _, _, rfl, hst⟩, by rintro _ _ ⟨⟩, ?_, by rintro _ _ _ ⟨⟩⟩
    intro uid' st' heq
    simp only [Tale.next, Tale.work.injEq, Option.some.injEq] at heq
    have hw : v.shared.scopeWarm key'.home key' = true := by
      obtain ⟨-, -, -, rfl⟩ := heq
      cases i <;> simp only [exec, reduceCtorEq, Option.some.injEq, Prod.mk.injEq] at hx
      exact hx.2
    refine ⟨fun hk => ?_, hw⟩
    rw [h.missed _ _ hp hk] at hw
    cases hw
  | _ => exact keep

theorem Knowing.exec : Knowing key u {
    shared := s'
    phase := Function.update v.phase tid (some (p.next o a))
    log := v.log ++ [⟨tid, tr, ⟨o, a⟩⟩] } := by
  have hwarm := h.exec_warm hp hall hx hd hg hs
  have grow : Known key u v.log → Known key u (v.log ++ [⟨tid, tr, ⟨o, a⟩⟩]) :=
    fun hk => known_snoc.mpr (.inl hk)
  -- the tale of the key's worker after the step, whoever made it
  have worked {p' : Tale} (hp' : Function.update v.phase tid (some (p.next o a))
    (.worker key) = some p') :
      p'.Worked key u (Known key u v.log) (v.shared.scopeWarm key.home key = true) := by
    by_cases ht : tid = .worker key
    · rw [← ht, Function.update_self] at hp'
      cases hp'
      exact h.exec_worked hp hall hx hd hg ht
    · rw [Function.update_of_ne (Ne.symm ht)] at hp'
      refine ⟨h.working p' hp', ?_, ?_, ?_⟩
      · rintro _ _ rfl hk
        rw [h.missed _ _ hp' hk]
        exact Bool.false_ne_true
      · rintro _ _ rfl
        exact h.asked _ _ hp'
      · rintro _ _ _ rfl
        exact h.based _ _ _ hp'
  refine ⟨h.exec_filled hp hall hx hd hg hs, fun tid' ref states hp' hann => ?_,
    fun tid' ref states st pending hp' hann => ?_, fun p' hp' => (worked hp').working,
    fun uid st hp' hk => ?_,
    fun uid st hp' => ?_, fun st e warm hp' => (worked hp').based st e warm rfl⟩
  · by_cases ht : tid' = tid
    · subst ht
      simp only [Function.update_self, Option.some.injEq] at hp'
      refine known_snoc.mpr ?_
      cases p with
      | seek =>
        cases o <;> try cases hp'
        cases a <;> cases hp'
        exact .inr hann
      | told =>
        cases hall
        cases hp'
      | seeding ref' states' st' pending' =>
        cases pending' <;> cases hall <;> cases hp'
      | free => cases hp'
      | work => cases o <;> cases hp'
    · simp only [Function.update_of_ne ht] at hp'
      exact grow (h.told tid' ref states hp' hann)
  · by_cases ht : tid' = tid
    · subst ht
      simp only [Function.update_self, Option.some.injEq] at hp'
      obtain ⟨hk, hst, hpend⟩ := h.exec_seeding hp hall hx hd hg hp' hann
      refine ⟨grow hk, hst, hpend.imp_right ?_⟩
      rintro (hne | hne)
      · exact hs hk hne
      · exact hne
    · simp only [Function.update_of_ne ht] at hp'
      obtain ⟨hk, hst, hpend⟩ := h.seeding tid' ref states st pending hp' hann
      exact ⟨grow hk, hst, hpend.imp_right (hs hk)⟩
  · have cold {b : Bool} (hb : ¬ b = true) : b = false := by simpa using hb
    have hmiss := (worked hp').missed uid st rfl
    have known (hk₀ : Known key u v.log) : s'.scopeWarm key.home key = false := by
      rcases hwarm with hsame | ⟨⟨ref, rfl⟩, -, hmark⟩
      · exact hsame.trans (cold (hmiss hk₀))
      · have ht : .worker key ≠ tid := by
          rintro rfl
          obtain ⟨uid', st', base, warm, rfl, -⟩ := h.working p hp
          exact hall
        simp only [Function.update_of_ne ht] at hp'
        exact absurd trivial ((hmark hk₀).1 _ hp')
    rcases (known_snoc.mp hk).imp_right (announced_heeded hx hd) with hk | hk | ⟨hw, rfl⟩
    · exact known hk
    · exact known hk
    · exact hw
  · obtain ⟨hnk, hw⟩ := (worked hp').asked uid st rfl
    refine ⟨fun hk => ?_, ?_⟩
    · rcases (known_snoc.mp hk).imp_right (announced_heeded hx hd) with hk | hk | ⟨hcold, -⟩
      · exact hnk hk
      · exact hnk hk
      · rw [hcold] at hw
        cases hw
    · rcases hwarm with hsame | ⟨-, hw', -⟩
      · exact hsame.trans hw
      · exact hw'

end Exec

theorem Knowing.move (h : Knowing key u v) (hun : Undisturbed key d) (hd : Heedful key u v d)
    (hm : (machine cfg).Move (Tale.protocol key) (Tale.start key) (fun _ _ _ => True) v d v')
    (hg : v.shared.gens key.sink = 0)
    (hs : Known key u v.log → (v.shared.slot key.home key.cacheKey).entry ≠ none →
      (v'.shared.slot key.home key.cacheKey).entry ≠ none) : Knowing key u v' := by
  have hwarm (hne : ∀ tid o i, d ≠ .exec tid (o, i)) :
      v'.shared.scopeWarm key.home key = v.shared.scopeWarm key.home key := by
    rcases (move_marking hm).scopeWarm hg (by rintro rfl; exact hun)
      (fun _ _ _ _ he => absurd he (hne _ _ _)) with
      hw | ⟨_, _, _, he, -⟩
    · exact hw
    · exact absurd he (hne _ _ _)
  cases hm with
  | start tid b s' code hn hs' =>
    refine h.still rfl (hwarm (by simp)) hs fun tid' p hp => ?_
    by_cases ht : tid' = tid
    · subst ht
      simp only [Function.update_self, Option.some.injEq] at hp
      exact .inr hp.symm
    · simp only [Function.update_of_ne ht] at hp
      exact .inl hp
  | exec tid i o tr s' a hp hall _ hx => exact h.exec hp hall hx hd hg hs
  | finish tid a p hp =>
    refine h.still rfl (hwarm (by simp)) hs fun tid' p' hp' => ?_
    by_cases ht : tid' = tid
    · simp [ht] at hp'
    · simp only [Function.update_of_ne ht] at hp'
      exact .inl hp'
  | env e s' he => exact h.still rfl (hwarm (by simp)) hs fun _ _ hp => .inl hp
  | crash => exact hun.elim

theorem Knowing.not_addsKnown (h : Knowing key u v) {hand : Hand} (hk : Known key u v.log)
    {sink : String} {job : Job} {p : Tale} (hp : v.phase tid = some p)
    (hall : p.Allowed key (.enqueue sink job)) (hown : hand.owner = tid)
    (hmay : hand.MayEnqueue cfg sink job) (hl : Handed.Lawful cfg ⟨sink, job, .inFlight⟩) :
    ¬ AddsKnown cfg key u ⟨.enqueue sink job, true⟩ := by
  rintro ⟨hsink, hof, hadd, hu⟩
  have hkey : job.commit.key = key := Record.isOf.unique hl.isOf.2 hof (hl.isOf.1.symm.trans hsink)
  obtain ⟨r, commit⟩ := job
  simp only at hadd hu
  cases commit with
  | upsert st k key' t e f =>
    obtain rfl : key' = key := hkey
    obtain ⟨base, norm, plan, ts, howner, -⟩ := hmay
    obtain rfl : tid = .worker key' := hown.symm.trans howner
    obtain ⟨uid, st', base', warm, rfl, -⟩ := h.working p hp
    obtain ⟨rfl, htag⟩ := hall
    rw [hu] at hp htag
    rcases htag hadd with ⟨rfl, rfl⟩ | ⟨e', rfl, h0, hne⟩
    · exact (h.asked _ _ hp).1 hk
    · rcases h.based _ _ _ hp with h1 | h1
      · exact h0 h1
      · exact hne h1
  | delete st k key' t =>
    obtain ⟨-, -, -, ts, x, y, hr⟩ := hl
    simp only at hr
    rw [hr] at hadd
    cases hadd
  | closeOut st k key' r' =>
    obtain ⟨-, -, hr, ts, x, y, rfl⟩ := hl
    simp only at hr
    rw [hr] at hadd
    cases hadd

end Knowing

def System.Heeds (cfg : Config) (key : Key) (u : String) (s : System) (d : Deed) : Prop :=
  Undisturbed key d ∧ Heedful key u (s.view (Tale.protocol key) (Tale.start key)) d ∧
    (Known key u s.log → ((worldOf cfg s).bench key).Retains d)

instance (cfg : Config) (key : Key) (u : String) (s : System) (d : Deed) :
    Decidable (System.Heeds cfg key u s d) :=
  inferInstanceAs (Decidable (_ ∧ _ ∧ _))

structure Recording (cfg : Config) (key : Key) (u : String) (c : View Op.Ans Tid Shared Hand)
    (v : TaleView) :
    Prop where
  shared : v.shared = c.shared
  log : v.log = c.log
  sound : (viewWorld c).Sound cfg
  housed : (viewWorld c).Housed key
  knowing : Knowing key u v
  entries : ∀ j y, v.log[j]? = some y → Known key u (v.log.take j) → ¬ AddsKnown cfg key u y.event

theorem Recording.move {cfg : Config} {key : Key} {u : String} {c c' : View Op.Ans Tid Shared Hand}
    {v v' : TaleView} {d : Deed} (h : Recording cfg key u c v) (he : key.ephemeral = false)
    (hun : Undisturbed key d) (hd : Heedful key u v d)
    (hret : Known key u v.log → ((viewWorld c).bench key).Retains d)
    (hm : (machine cfg).Move (custody cfg) Hand.start Hand.Ended c d c')
    (hm' : (machine cfg).Move (Tale.protocol key) (Tale.start key) (fun _ _ _ => True) v d v')
    (hshared : v'.shared = c'.shared) (hlog : v'.log = c'.log) : Recording cfg key u c' v' := by
  have ht := move_turn hm
  have hsound := h.sound.turn ht
  have hstep := World.desk_turn h.sound h.housed he hun ht
  have hslot : Known key u v.log → (v.shared.slot key.home key.cacheKey).entry ≠ none →
      (v'.shared.slot key.home key.cacheKey).entry ≠ none := by
    rw [h.shared, hshared]
    exact fun hk => hstep.isSome (hret hk)
  have hgens : v.shared.gens key.sink = 0 := by
    rw [h.shared]
    exact h.housed.gens
  refine ⟨hshared, hlog, hsound, h.housed.turn hun ht, h.knowing.move hun hd hm' hgens hslot, ?_⟩
  cases hm' with
  | start | finish | env => exact h.entries
  | crash => exact hun.elim
  | exec tid i o tr s' a hp hall _ hx =>
    intro j y hy hk
    simp only [List.getElem?_append] at hy
    split_ifs at hy with hlt
    · rw [List.take_append_of_le_length (by omega)] at hk
      exact h.entries j y hy hk
    · obtain ⟨hj, rfl⟩ : j - v.log.length = 0 ∧ _ := by simpa [List.getElem?_singleton] using hy
      rw [List.take_append_of_le_length (by omega), List.take_of_length_le (by omega)] at hk
      intro hadd
      cases hm with
      | exec _ _ _ tr' s'' a' hp' hall' _ hx' =>
        simp only [AddsKnown] at hadd
        split at hadd
        · rename_i sink job heq
          cases heq
          have hjob : (⟨sink, job, .inFlight⟩ : Handed) ∈ s'.jobs := by
            cases exec_effect hx with
            | quiet _ _ _ _ hq => exact hq.elim
            | accepted => exact List.mem_append_right _ (.head _)
          obtain rfl : s' = s'' := hshared
          have hl := hsound.jobs ⟨sink, job, .inFlight⟩ hjob
          exact h.knowing.not_addsKnown hk hp hall (after_owner tid tr') hall' hl hadd
        · exact hadd

theorem known_object_not_added {cfg : Config} {key : Key} {u : String} {as : List Action}
    {s : System} {j : Nat} {y : LogEntry Op.Ans Tid}
    (h : Runs.Run (machine cfg).step (fun s a => ∀ d ∈ s.deed a, System.Heeds cfg key u s d)
      { shared := {} } as s)
    (he : key.ephemeral = false) (hy : s.log[j]? = some y) (hk : Known key u (s.log.take j)) :
    ¬ AddsKnown cfg key u y.event := by
  have hrec : Recording cfg key u (s.view (custody cfg) Hand.start)
    (s.view (Tale.protocol key) (Tale.start key)) := by
    refine ((machine_safe cfg).invariant_from (Tale.safe cfg he) (I := fun s =>
      Recording cfg key u (s.view (custody cfg) Hand.start)
      (s.view (Tale.protocol key) (Tale.start key))) h
      (fun _ _ ht => (by cases ht)) (fun _ _ ht => (by cases ht)) ?_ ?_).2.2
    · intro s a d s' hi hok hd hm hm'
      obtain ⟨hun, hheed, hret⟩ := hok d hd
      exact hi.move he hun hheed hret hm hm' rfl rfl
    · refine ⟨rfl, rfl, .empty, .empty, ?_, by simp [System.view]⟩
      constructor <;> simp [System.view, Known]
  exact hrec.entries j y hy hk

def seedSteps (uid hash : String) (ts : Nat) : List Action :=
  .start (.warm 0) (.warm sampleScope 0 1) ::
    [.reader .reader, .states sampleScope (some [sampleState uid hash ts]), .go, .go, .go].map
    (.exec (.warm 0))

def takenBySample (e : Sigma Op.Ans) : Bool :=
  match e with
  | ⟨.enqueue "s" _, true⟩ => true
  | _ => false

theorem seeded_object_not_added : ∃ (s : System) (y : LogEntry Op.Ans Tid), s.log.getLast? = some y ∧
    (∃ job, y.event = ⟨.enqueue "s" job, true⟩) ∧ ¬ AddsKnown sampleConfig sampleKey "u" y.event := by
  obtain ⟨s, hrun, y, hy, hk, hev⟩ := Runs.Run.exists_of_exec (machine sampleConfig).step
    (fun s a => ∀ d ∈ s.deed a, System.Heeds sampleConfig sampleKey "u" s d) { shared := {} }
    (seedSteps "u" "h1" 1 ++ modifiedSteps "u" 2 2)
    (fun s => ∃ y ∈ s.log[s.log.length - 1]?, Known sampleKey "u" (s.log.take (s.log.length - 1)) ∧
      takenBySample y.event = true) (by decide)
  refine ⟨s, y, by rw [List.getLast?_eq_getElem?]; exact hy, ?_, known_object_not_added hrun (by decide) hy hk⟩
  unfold takenBySample at hev
  split at hev
  · rename_i job heq
    exact ⟨job, heq⟩
  · cases hev

/-- The worker misses before the seeding and asks about warmth after the mark. -/
theorem known_object_added : ∃ (as : List Action) (s : System) (j : Nat) (y : LogEntry Op.Ans Tid),
    Runs.Run (machine sampleConfig).step (fun s a => ∀ d ∈ s.deed a, Undisturbed sampleKey d)
      { shared := {} } as s ∧
      (∀ a ∈ as, ∀ t ∈ a.starts, t = .worker sampleKey ∨ t = .warm 0) ∧
      s.log[j]? = some y ∧ Known sampleKey "u" (s.log.take j) ∧
      AddsKnown sampleConfig sampleKey "u" y.event ∧
      ∀ h ∈ s.shared.jobs, h.job.record.eventType ≠ .deleted := by
  obtain ⟨s, hrun, ⟨y, hy, hk, hadd⟩, hdel⟩ := Runs.Run.exists_of_exec (machine sampleConfig).step
    (fun s a => ∀ d ∈ s.deed a, Undisturbed sampleKey d) { shared := {} }
    ([.env (.add sampleKey), .start (.worker sampleKey) .run] ++
      (observeInputs (sampleObject "u" 1)).map (.exec (.worker sampleKey)) ++ seedSteps "u" "h1" 1 ++
      [.go, .go, .time 2, .flag true].map (.exec (.worker sampleKey)))
    (fun s => (∃ y ∈ s.log[s.log.length - 1]?, Known sampleKey "u" (s.log.take (s.log.length - 1)) ∧
      AddsKnown sampleConfig sampleKey "u" y.event) ∧
      ∀ h ∈ s.shared.jobs, h.job.record.eventType ≠ .deleted) (by decide)
  exact ⟨_, s, _, y, hrun, by decide, hy, hk, hadd, hdel⟩

end Kuberecord
