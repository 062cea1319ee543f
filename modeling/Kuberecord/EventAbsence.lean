import Kuberecord.Events

namespace Kuberecord

open Threads

inductive Forgetting
  | free
  | fresh
  | absent
  | attached (st : Inst)
  | claimed (st : Inst) (t : Ticket)
  | cleared (st : Inst)
  | past

namespace Forgetting

variable (key : Key)

def Allowed : Forgetting → Op → Prop
  | .free, _ | .past, _ => True
  | .fresh, .listerGet key' => key' = key
  | .absent, .sinkState sink => sink = key.sink
  | .attached st, .reserveDelete st' k uid => st' = st ∧ k = key.cacheKey ∧ uid = ""
  | .claimed st t, .deleteIfCurrent st' k t' => st' = st ∧ k = key.cacheKey ∧ t' = t
  | _, _ => False

def next : Forgetting → (o : Op) → o.Ans → Forgetting
  | .fresh, .listerGet _, some ⟨none, true⟩ => .absent
  | .fresh, _, _ => .past
  | .absent, .sinkState _, st => .attached st
  | .attached st, .reserveDelete _ _ _, .claimed _ t => .claimed st t
  | .attached st, _, _ => .cleared st
  | .claimed st _, _, _ => .cleared st
  | p, _, _ => p

def protocol : Protocol Op Op.Ans Forgetting where
  allowed := Allowed key
  answers := Op.Answers
  next := next

def start (tid : Tid) : Forgetting := if tid = .worker key then .fresh else .free

def Done : Forgetting → Prop
  | .free | .past | .cleared _ => True
  | _ => False

variable {key} {cfg : Config}

theorem obeys_past {x : Prog (Option Err)} : (protocol key).Obeys x .past (fun _ p => p.Done) :=
  (protocol key).obeys_of_absorbing x (fun _ => ⟨trivial, fun _ => rfl⟩) (fun _ => trivial)

theorem obeys_free {x : Prog (Option Err)} : (protocol key).Obeys x .free (fun _ p => p.Done) :=
  (protocol key).obeys_of_absorbing x (fun _ => ⟨trivial, fun _ => rfl⟩) (fun _ => trivial)

theorem process_obeys (he : key.ephemeral = true) :
    (protocol key).Obeys (process cfg key) .fresh (fun _ p => p.Done) := by
  simp only [process, Program.perform_bind, Protocol.obeys_op]
  refine ⟨rfl, fun lookup _ => ?_⟩
  rcases lookup with _ | ⟨_ | obj, _ | _⟩
  · trivial
  · trivial
  · -- the object is absent from an active scope
    simp only [he, Option.isNone_none, Bool.and_self, Bool.not_true, Bool.false_eq_true, ↓reduceIte,
      forgetEphemeral]
    refine ⟨rfl, fun st _ => ⟨⟨rfl, rfl, rfl⟩, fun claim _ => ?_⟩⟩
    cases claim with
    | claimed e t => exact ⟨⟨rfl, rfl, rfl⟩, fun _ _ => trivial⟩
    | absent | inFlight | uidMismatch => trivial
  · trivial
  · exact obeys_past

theorem safe (cfg : Config) (he : key.ephemeral = true) :
    (machine cfg).Safe (protocol key) (start key) (fun _ _ p => p.Done) where
  start s tid b s' code h := by
    by_cases ht : tid = .worker key
    · subst ht
      rw [Forgetting.start, if_pos rfl]
      cases b <;> simp only [machine, Kuberecord.start, Option.ite_none_right_eq_some,
        Option.some.injEq, Prod.mk.injEq,
        reduceCtorEq] at h
      exact h.2.2 ▸ process_obeys he
    · rw [Forgetting.start, if_neg ht]
      exact obeys_free
  answers := (machine_safe cfg).answers

def Holds (key : Key) (w : World) : Forgetting → Prop
  | .free | .past => True
  | .fresh => w.phase (.worker key) = .idle
  | .absent => w.phase (.worker key) = .idle ∧ (w.seen (.worker key)).lookup = some (key, ⟨none, true⟩)
  | .attached st =>
    w.phase (.worker key) = .idle ∧ (w.seen (.worker key)).lookup = some (key, ⟨none, true⟩) ∧
      st.sink = key.sink
  | .claimed st t => (w.seen (.worker key)).lookup = some (key, ⟨none, true⟩) ∧ st.sink = key.sink ∧
    ((w.shared.slot st key.cacheKey).entry = none ∨ (w.shared.slot st key.cacheKey).Current t.version)
  | .cleared st => (w.seen (.worker key)).lookup = some (key, ⟨none, true⟩) ∧ st.sink = key.sink ∧
    (w.shared.slot st key.cacheKey).entry = none

end Forgetting

def Unseeded (key : Key) : Deed → Prop
  | .exec _ (.storeIfAbsent st k _, _) => st.sink = key.sink → k ≠ key.cacheKey
  | _ => True

instance (key : Key) (d : Deed) : Decidable (Unseeded key d) := by
  unfold Unseeded
  split <;> infer_instance

section Absence

variable {cfg : Config} {key : Key} {d : Deed} {v v' : View Op.Ans Tid Shared Hand}
  {u u' : View Op.Ans Tid Shared Forgetting} {tid : Tid} {st : Inst} {uid : String} {i : Input}

structure Absence (cfg : Config) (key : Key) (v : View Op.Ans Tid Shared Hand)
    (u : View Op.Ans Tid Shared Forgetting) : Prop where
  sound : (viewWorld v).Sound cfg
  fleeting : (viewWorld v).Fleeting key
  holds : ∀ p, u.phase (.worker key) = some p → p.Holds key (viewWorld v)

theorem claim_by_worker (h : (machine cfg).Move (custody cfg) Hand.start Hand.Ended v
      (.exec tid (.reserveDelete st key.cacheKey uid, i)) v')
    (he : key.ephemeral = true) (hst : st.sink = key.sink) : tid = .worker key := by
  cases h with
  | exec t i o tr shared a hp ha _ hx =>
    have hown : ((custody cfg).after (Hand.start tid) tr).owner = tid := after_owner tid tr
    have mine {key' : Key} (hk : key'.Owns st key.cacheKey) : key' = key := hk.unique ⟨hst, rfl⟩
    rcases ha with ⟨-, -, key', hk, ⟨ho, -⟩ | ⟨-, -, -, hl⟩⟩ | ⟨key', e, norm, ho, hk, -⟩
    · rw [← hown, ho, mine hk]
    · rw [mine hk, he] at hl
      cases hl
    · rw [← hown, ho, mine hk]

theorem Forgetting.Holds.other {p : Forgetting} (h : p.Holds key (viewWorld v))
    (hsound : (viewWorld v).Sound cfg) (he : key.ephemeral = true)
    (hm : (machine cfg).Move (custody cfg) Hand.start Hand.Ended v d v')
    (ha : d.actor ≠ some (.worker key)) (hc : d ≠ .crash) (hd : Unseeded key d) :
    p.Holds key (viewWorld v') := by
  have hphase := hm.phase_of_ne ha hc
  have hp : (viewWorld v').phase (.worker key) = (viewWorld v).phase (.worker key) :=
    by simp only [viewWorld, hphase]
  have hs : (viewWorld v').seen (.worker key) = (viewWorld v).seen (.worker key) :=
    by simp only [viewWorld, hphase]
  have touch := hsound.touch (move_turn hm)
  have absent {st : Inst} (hst : st.sink = key.sink)
      (hn : ((viewWorld v).shared.slot st key.cacheKey).entry = none) :
      ((viewWorld v').shared.slot st key.cacheKey).entry = none := by
    rcases (touch st key.cacheKey).absent hn with hn | ⟨key', e, hk, rfl⟩ | ⟨tid, e, rfl⟩
    · exact hn
    · exact absurd (by rw [hk.unique ⟨hst, rfl⟩]; rfl) ha
    · exact absurd rfl (hd hst)
  cases p with
  | free | past => trivial
  | fresh => exact hp.trans h
  | absent => exact ⟨hp.trans h.1, by rw [hs, h.2]⟩
  | attached st => exact ⟨hp.trans h.1, by rw [hs, h.2.1], h.2.2⟩
  | cleared st =>
    obtain ⟨hl, hst, hn⟩ := h
    exact ⟨by rw [hs, hl], hst, absent hst hn⟩
  | claimed st t =>
    obtain ⟨hl, hst, hn | hcur⟩ := h
    · exact ⟨by rw [hs, hl], hst, .inl (absent hst hn)⟩
    · refine ⟨by rw [hs, hl], hst, ?_⟩
      rcases (touch st key.cacheKey).current hcur with hn | hcur | ⟨key', e, hk, rfl⟩ | ⟨tid, uid, rfl⟩
      · exact .inl hn
      · exact .inr hcur
      · exact absurd (by rw [hk.unique ⟨hst, rfl⟩]; rfl) ha
      · exact absurd (by rw [claim_by_worker hm he hst]; rfl) ha

theorem Forgetting.Holds.own {p : Forgetting} (h : p.Holds key (viewWorld v))
    (hfl : (viewWorld v).Fleeting key) {hd : Hand} {o : Op} {a : o.Ans} {s' : Shared}
    {log : List (LogEntry Op.Ans Tid)} (hp : v.phase (.worker key) = some hd)
    (ha : Forgetting.Allowed key p o) (hans : o.Answers a)
    (hx : exec v.shared (.worker key) o i = some (s', a)) :
    (p.next o a).Holds key (viewWorld
      { shared := s', phase := Function.update v.phase (.worker key) (some (hd.next cfg o a)), log := log }) := by
  have hphase : (viewWorld v).phase (.worker key) = hd.phase := by simp [viewWorld, hp]
  have hseen : (viewWorld v).seen (.worker key) = hd.seen := by simp [viewWorld, hp]
  cases p with
  | free | past => trivial
  | cleared => exact ha.elim
  | fresh =>
    cases o <;> try exact ha.elim
    case listerGet key' =>
      obtain rfl : key' = key := ha
      rcases a with _ | ⟨_ | obj, _ | _⟩ <;> try trivial
      rw [Forgetting.Holds, hphase] at h
      exact ⟨by simp [viewWorld, Hand.next, Hand.nextPhase, h], by simp [viewWorld, Hand.next,
        Hand.nextSeen]⟩
  | absent =>
    cases o <;> try exact ha.elim
    case sinkState sink =>
      obtain rfl : sink = key.sink := ha
      obtain ⟨hi, hl⟩ := h
      rw [hphase] at hi
      rw [hseen] at hl
      exact ⟨by simp [viewWorld, Hand.next, Hand.nextPhase, hi], by simp [viewWorld, Hand.next,
        Hand.nextSeen, hl], hans⟩
  | attached st =>
    cases o <;> try exact ha.elim
    case reserveDelete st' k uid =>
      obtain ⟨rfl, rfl, rfl⟩ := ha
      obtain ⟨hi, hl, hst⟩ := h
      rw [hseen] at hl
      generalize hr : (v.shared.slot st' key.cacheKey).reserveDelete "" = r at *
      obtain ⟨slot, claim⟩ := r
      obtain ⟨rfl, rfl⟩ : s' = v.shared.setSlot st' key.cacheKey slot ∧ a = claim := by
        cases exec_effect hx with
        | quiet _ _ _ _ hq => exact hq.elim
        | reserveDelete => exact ⟨by rw [hr], by rw [hr]⟩
      cases a with
      | claimed e t =>
        have hcl := Slot.reserveDelete_claimed hr
        refine ⟨by simp [viewWorld, Hand.next, Hand.nextSeen, hl], hst, .inr ?_⟩
        simp only [viewWorld, Shared.slot_setSlot_self, hcl.slot, hcl.ticket]
        exact Slot.current_iff.mpr ⟨_, rfl, rfl⟩
      | _ =>
        have hrefused := @Slot.reserveDelete_refused (v.shared.slot st' key.cacheKey) "" (by simp [hr])
        simp only [hr] at hrefused
        refine ⟨by simp [viewWorld, Hand.next, Hand.nextSeen, hl], hst, ?_⟩
        simp only [viewWorld, Shared.slot_setSlot_self]
        rw [hrefused.1]
        -- an entry that cannot be claimed is marked, and then the worker would hold the claim
        cases he : (v.shared.slot st' key.cacheKey).entry with
        | none => rfl
        | some e =>
          have hmark : e.pendingDelete = true := by simpa using hrefused.2 e he
          obtain ⟨t, hc, -⟩ := hfl.marked st' e hst he hmark
          rw [hi] at hc
          cases hc
  | claimed st t =>
    cases o <;> try exact ha.elim
    case deleteIfCurrent st' k t' =>
      obtain ⟨rfl, rfl, rfl⟩ := ha
      obtain ⟨hl, hst, hor⟩ := h
      rw [hseen] at hl
      obtain rfl : s' = v.shared.setSlot st' key.cacheKey
          ((v.shared.slot st' key.cacheKey).deleteIfCurrent t'.version).1 := by
        cases exec_effect hx with
        | quiet _ _ _ _ hq => exact hq.elim
        | deleteIfCurrent => rfl
      refine ⟨by simp [viewWorld, Hand.next, Hand.nextSeen, hl], hst, ?_⟩
      simp only [viewWorld, Shared.slot_setSlot_self] at hor ⊢
      rcases hor with hn | hc
      · rw [Slot.deleteIfCurrent_stale (by simp [Slot.Current, hn])]
        exact hn
      · rw [Slot.deleteIfCurrent_current hc]
        rfl

theorem Absence.move (h : Absence cfg key v u) (he : key.ephemeral = true) (hsh : u.shared = v.shared)
    (hd : Unseeded key d) (hm : (machine cfg).Move (custody cfg) Hand.start Hand.Ended v d v')
    (hm' : (machine cfg).Move (Forgetting.protocol key) (Forgetting.start key)
      (fun _ _ p => p.Done) u d u') :
    Absence cfg key v' u' := by
  have ht := move_turn hm
  refine ⟨h.sound.turn ht, h.fleeting.turn h.sound he ht, fun p hp => ?_⟩
  by_cases hc : d = .crash
  · subst hc
    cases hm'
    cases hp
  · by_cases ha : d.actor = some (.worker key)
    · cases hm' with
      | start t b =>
        cases ha
        cases hm
        simp only [Function.update_self, Option.some.injEq, Forgetting.start, ↓reduceIte] at hp
        subst hp
        simp [Forgetting.Holds, viewWorld, Hand.start]
      | exec t i o tr s' a hq hallow hans hx =>
        cases ha
        simp only [Function.update_self, Option.some.injEq] at hp
        subst hp
        cases hm with
        | exec _ _ _ tr₁ s₁ a₁ hp₁ _ _ hx₁ =>
          rw [hsh] at hx
          cases (Option.some.inj (hx₁.symm.trans hx) : _)
          exact (h.holds _ hq).own h.fleeting hp₁ hallow hans hx
      | finish t a q =>
        cases ha
        simp at hp
      | env | crash => cases ha
    · rw [hm'.phase_of_ne ha hc] at hp
      exact (h.holds p hp).other h.sound he hm ha hc hd

def StaysAbsent (key : Key) : Deed → Prop
  | .exec _ (.listerGet key', .lookup _ (some l)) => key' = key → l.obj = none
  | _ => True

instance (key : Key) (d : Deed) : Decidable (StaysAbsent key d) := by
  unfold StaysAbsent
  split <;> infer_instance

structure Cleared (cfg : Config) (key : Key) (st : Inst) (v : View Op.Ans Tid Shared Hand) : Prop where
  sound : (viewWorld v).Sound cfg
  entry : (v.shared.slot st key.cacheKey).entry = none
  unseen : ∀ h, v.phase (.worker key) = some h → ∀ l, h.seen.lookup = some (key, l) → l.obj = none

theorem Hand.next_lookup {h : Hand} {o : Op} {a : o.Ans} {s' : Shared} {l : Lookup}
    (hx : exec v.shared tid o i = some (s', a)) (hd : StaysAbsent key (.exec tid (o, i)))
    (hl : (h.next cfg o a).seen.lookup = some (key, l)) :
    h.seen.lookup = some (key, l) ∨ l.obj = none := by
  cases o
  case listerGet key' =>
    cases exec_effect hx with
    | quiet _ _ _ _ hq => exact hq.elim
    | listerGet _ l' =>
      obtain ⟨l₀, hl₀, heq⟩ := Option.map_eq_some_iff.mp hl
      cases heq
      subst hl₀
      exact .inr (hd rfl)
  all_goals exact .inl hl

theorem Cleared.move (h : Cleared cfg key st v) (hst : st.sink = key.sink) (hd : Unseeded key d)
    (hd' : StaysAbsent key d) (hm : (machine cfg).Move (custody cfg) Hand.start Hand.Ended v d v') :
    Cleared cfg key st v' := by
  have ht := move_turn hm
  refine ⟨h.sound.turn ht, ?_, fun hand hp l hl => ?_⟩
  · rcases (h.sound.touch ht st key.cacheKey).absent h.entry with hn | ⟨key', e, hk, rfl⟩ | ⟨tid, e, rfl⟩
    · exact hn
    · -- a `Reserve` needs an object that the lister showed
      obtain rfl := hk.unique ⟨hst, rfl⟩
      cases hm with
      | exec _ _ _ tr s' a hp ha _ hx =>
        obtain ⟨key', base, norm, plan, -, hk', hdec, -⟩ := ha
        obtain rfl := hk'.unique ⟨hst, rfl⟩
        obtain ⟨obj, policy, ⟨l, hl, -, hobj⟩, -⟩ := hdec.observed
        rw [h.unseen _ hp l hl] at hobj
        cases hobj
    · exact absurd rfl (hd hst)
  · by_cases hc : d = .crash
    · subst hc
      cases hm
      cases hp
    · by_cases ha : d.actor = some (.worker key)
      · cases hm with
        | start t b =>
          cases ha
          simp only [Function.update_self, Option.some.injEq] at hp
          subst hp
          cases hl
        | exec t i o tr s' a hq hallow hans hx =>
          cases ha
          simp only [Function.update_self, Option.some.injEq] at hp
          subst hp
          rcases Hand.next_lookup hx hd' hl with hl | hn
          · exact h.unseen _ hq l hl
          · exact hn
        | finish t a q =>
          cases ha
          simp at hp
        | env | crash => cases ha
      · rw [hm.phase_of_ne ha hc] at hp
        exact h.unseen hand hp l hl

end Absence

def Forgot (key : Key) (st : Inst) (s : System) : Prop :=
  match s.threads (.worker key) with
  | some ⟨.ret _, ⟨.listerGet key', some ⟨none, true⟩⟩ :: ⟨.sinkState sink, st'⟩ :: _⟩ =>
    key' = key ∧ sink = key.sink ∧ st' = st
  | _ => False

instance (key : Key) (st : Inst) (s : System) : Decidable (Forgot key st s) := by
  unfold Forgot
  split <;> infer_instance

theorem Forgetting.after_attached (key : Key) (st : Inst) (tr : List (Sigma Op.Ans)) (p : Forgetting)
    (hp : p = .attached st ∨ (∃ t, p = .claimed st t) ∨ p = .cleared st) :
    (Forgetting.protocol key).after p tr = .attached st ∨
      (∃ t, (Forgetting.protocol key).after p tr = .claimed st t) ∨
      (Forgetting.protocol key).after p tr = .cleared st := by
  refine (Forgetting.protocol key).after_induction
    (I := fun p => p = .attached st ∨ (∃ t, p = .claimed st t) ∨ p = .cleared st) hp ?_
  rintro _ o a (rfl | ⟨t, rfl⟩ | rfl)
  · cases o <;> try exact .inr (.inr rfl)
    cases a
    · exact .inr (.inl ⟨_, rfl⟩)
    all_goals exact .inr (.inr rfl)
  · exact .inr (.inr rfl)
  · exact .inr (.inr rfl)

theorem Forgot.cleared {key : Key} {st : Inst} {s : System} (h : Forgot key st s)
    (hc : s.Conforms (Forgetting.protocol key) (Forgetting.start key) (fun _ _ p => p.Done)) :
    (s.view (Forgetting.protocol key) (Forgetting.start key)).phase (.worker key) = some
    (.cleared st) := by
  unfold Forgot at h
  split at h
  case h_2 => exact h.elim
  case h_1 _ a key' sink st' rest hth =>
    obtain ⟨rfl, rfl, rfl⟩ := h
    have hdone := hc _ _ hth
    rw [Machine.view_phase hth]
    have hstart : (Forgetting.protocol key').after (Forgetting.start key' (.worker key'))
        (⟨.listerGet key', some ⟨none, true⟩⟩ :: ⟨.sinkState key'.sink, st'⟩ :: rest) =
        (Forgetting.protocol key').after (.attached st') rest := by
      simp [Protocol.after, Forgetting.start, Forgetting.protocol, Forgetting.next]
    rw [Protocol.obeys_ret, hstart] at hdone
    rw [hstart]
    rcases Forgetting.after_attached key' st' rest _ (.inl rfl) with hp | ⟨t, hp⟩ | hp
    · rw [hp] at hdone
      exact hdone.elim
    · rw [hp] at hdone
      exact hdone.elim
    · rw [hp]

theorem events_never_deleted {cfg : Config} {key : Key} (hlib : cfg.lib.Renders)
    (he : key.ephemeral = true) :
    (∀ as s, Runs.Run (machine cfg).step (fun _ _ => True) { shared := {} } as s →
      ∀ j ∈ s.shared.jobs, j.sink = key.sink → j.job.record.isOf cfg.clusterID key →
        j.job.record.Plain) ∧
    ∀ as₀ s₀ as₁ s₁ as₂ s₂ st, Runs.Run (machine cfg).step (fun _ _ => True) { shared := {} } as₀ s₀ →
      s₀.threads (.worker key) = none →
      Runs.Run (machine cfg).step (fun s a => ∀ d ∈ s.deed a, Unseeded key d) s₀ as₁ s₁ →
      Forgot key st s₁ →
      Runs.Run (machine cfg).step
        (fun s a => ∀ d ∈ s.deed a, Unseeded key d ∧ StaysAbsent key d) s₁ as₂ s₂ →
      (s₂.shared.slot st key.cacheKey).entry = none := by
  have base {as : List Action} {s : System}
    (h : Runs.Run (machine cfg).step (fun _ _ => True) { shared := {} } as s) :
      (worldOf cfg s).Sound cfg ∧ (worldOf cfg s).Fleeting key :=
    World.invariant (I := fun w => w.Sound cfg ∧ w.Fleeting key) (fun _ _ => True) h
      (fun _ _ _ hw _ ht => ⟨hw.1.turn ht, hw.2.turn hw.1 he ht⟩) ⟨.empty, .empty⟩
  refine ⟨fun as s h j hm => ?_, fun as₀ s₀ as₁ s₁ as₂ s₂ st h₀ hidle h₁ hf h₂ => ?_⟩
  · obtain ⟨hs, hfl⟩ := base h
    exact hfl.plain hs hlib he hm
  · obtain ⟨hs, hfl⟩ := base h₀
    have habs₀ : Absence cfg key (s₀.view (custody cfg) Hand.start)
        (s₀.view (Forgetting.protocol key) (Forgetting.start key)) :=
      ⟨hs, hfl, by simp [System.view, hidle]⟩
    obtain ⟨hc, hc', habs⟩ := (machine_safe cfg).invariant_from (Forgetting.safe cfg he)
      (I := fun s => Absence cfg key (s.view (custody cfg) Hand.start)
        (s.view (Forgetting.protocol key) (Forgetting.start key))) h₁
      ((machine_safe cfg).conforms_of_run h₀) ((Forgetting.safe cfg he).conforms_of_run h₀)
      (fun s a d s' hi hok hd hm hm' => hi.move he rfl (hok d hd) hm hm') habs₀
    have hphase := hf.cleared hc'
    obtain ⟨hl, hst, hn⟩ := habs.holds _ hphase
    have hcl : Cleared cfg key st (s₁.view (custody cfg) Hand.start) := by
      refine ⟨habs.sound, hn, fun h hp l hl' => ?_⟩
      simp only [viewWorld, hp, Option.map_some, Option.getD_some] at hl
      cases hl'.symm.trans hl
      rfl
    obtain ⟨-, -, hcl₂⟩ := (machine_safe cfg).invariant_from (Forgetting.safe cfg he)
      (I := fun s => Cleared cfg key st (s.view (custody cfg) Hand.start)) h₂ hc hc'
      (fun s a d s' hi hok hd hm _ => hi.move hst (hok d hd).1 (hok d hd).2 hm) hcl
    exact hcl₂.entry

def sampleEvent : Key := ⟨"s", coreGroup, ⟨"Event", by decide⟩, namespaceA, "x"⟩

def eventSteps (inputs : List Input) : List Action :=
  [.env (.add sampleEvent), .start (.worker sampleEvent) .run] ++
    inputs.map (.exec (.worker sampleEvent))

def recordedEvent : List Action :=
  eventSteps [.lookup sampleEvent (some ⟨some (sampleObject "u" 1), true⟩), .writer (some {}), .go, .go,
    .policy (some none), .go, .go, .time 1, .flag true] ++ [.finish (.worker sampleEvent)]

theorem late_commit_keeps_event_absent : ∃ s : System, s.shared.jobs.length = 1 ∧
    (∀ j ∈ s.shared.jobs, j.status = .written ∧ j.job.record.Plain) ∧
      (s.shared.slot ⟨"s", 0⟩ sampleEvent.cacheKey).entry = none := by
  have hlib : sampleConfig.lib.Renders := by
    rintro j b ⟨⟩
    exact List.cons_ne_nil _ _
  obtain ⟨s₀, h₀, hidle, hnext⟩ := Runs.Run.exists_of_exec (machine sampleConfig).step (fun _ _ => True)
    { shared := {} } recordedEvent
    (fun s₀ => (s₀.threads (.worker sampleEvent)).isNone = true ∧
      (Runs.exec (machine sampleConfig).step (fun s a => ∀ d ∈ s.deed a, Unseeded sampleEvent d) s₀
        (eventSteps [.lookup sampleEvent (some ⟨none, true⟩), .go, .go, .go])).any (fun s₁ =>
          Forgot sampleEvent ⟨"s", 0⟩ s₁ ∧
          (Runs.exec (machine sampleConfig).step
            (fun s a => ∀ d ∈ s.deed a, Unseeded sampleEvent d ∧ StaysAbsent sampleEvent d) s₁
            [.finish (.worker sampleEvent), .env (.insert 0), .env (.settle 0 true)]).any (fun s₂ =>
              s₂.shared.jobs.length = 1 ∧ ∀ j ∈ s₂.shared.jobs, j.status = .written ∧ j.sink = "s" ∧
                j.job.record.isOf "c" sampleEvent)) = true) (by decide)
  obtain ⟨s₁, h₁, hf, hnext⟩ := Runs.Run.exists_of_exec _ _ _ _ _ hnext
  obtain ⟨s₂, h₂, hlen, hj⟩ := Runs.Run.exists_of_exec _ _ _ _ _ hnext
  have main := events_never_deleted hlib (show sampleEvent.ephemeral = true by decide)
  refine ⟨s₂, hlen, fun j hm => ⟨(hj j hm).1, ?_⟩, ?_⟩
  · obtain ⟨-, hsink, hof⟩ := hj j hm
    have hrun := (h₀.append (h₁.mono (fun _ _ _ => trivial))).append (h₂.mono (fun _ _ _ => trivial))
    exact main.1 _ _ hrun j hm hsink hof
  · exact main.2 _ _ _ _ _ _ _ h₀ (Option.isNone_iff_eq_none.mp hidle) h₁ hf h₂

end Kuberecord
