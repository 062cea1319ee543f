import Kuberecord.SinkHandles
import Kuberecord.LostWrites
import Kuberecord.Sinks.Routing
import Kuberecord.Sinks.Serving
import Kuberecord.EntryOrigins

/-!
The data plane under the sink manager, whose routes answer its lookups. The entries of a sink's
cache are told apart by the instance that was in hand when they were put there: the writer the row
went to, or the reader it was read with.
-/

namespace Kuberecord

open Threads

structure Origin where
  st : Inst
  key : String
  entry : CacheEntry
  source : LiveSink

def gripOf (p : System) (t : Tid) : Option Grip := (p.view Grip.protocol Grip.start).phase t

abbrev GripMove (cfg : Config) (p : System) (d : Deed) (p' : System) : Prop :=
  (machine cfg).Move Grip.protocol Grip.start (fun _ _ _ => True) (p.view Grip.protocol Grip.start) d
    (p'.view Grip.protocol Grip.start)

def Grip.Claims (g : Grip) (s : Shared) (st : Inst) : Prop :=
  g.st = some st ∨ g.st = none ∧ g.sink = some st.sink ∧ s.inst st.sink = st

instance (g : Grip) (s : Shared) (st : Inst) : Decidable (g.Claims s st) :=
  inferInstanceAs (Decidable (_ ∨ _))

theorem Grip.Claims.of_next {g : Grip} {s s' : Shared} {t : Tid} {o : Op} {i : Input} {a : o.Ans}
    {st : Inst} (hx : exec s t o i = some (s', a)) (h : (g.next o a).Claims s st) :
    g.Claims s st ∨ s.inst st.sink = st ∧
      ((∃ w, (⟨o, a⟩ : Sigma Op.Ans) = ⟨.writerFor st.sink, some w⟩) ∨
        (⟨o, a⟩ : Sigma Op.Ans) = ⟨.readerFor st.sink, .reader⟩) := by
  unfold next at h
  split at h
  case h_1 sink w =>
    obtain h | ⟨-, h, hi⟩ := h
    · cases h
    · obtain ⟨w, rfl, rfl⟩ := Option.map_eq_some_iff.mp h
      exact .inr ⟨hi, .inl ⟨w, rfl⟩⟩
  case h_2 sink =>
    obtain h | ⟨-, h, hi⟩ := h
    · cases h
    · cases h
      exact .inr ⟨hi, .inr rfl⟩
  case h_3 =>
    obtain h | ⟨-, h, -⟩ := h
    · cases h
    · cases h
  case h_4 sink st' =>
    split_ifs at h with hfree
    · cases i <;> simp only [exec, Option.some.injEq, Prod.mk.injEq, reduceCtorEq] at hx
      obtain h | ⟨h, -⟩ := h
      · obtain rfl : st' = st := Option.some.inj h
        refine .inl (.inr ⟨hfree.1, hfree.2, ?_⟩)
        rw [← hx.2]
        rfl
      · cases h
    · obtain h | ⟨-, h, -⟩ := h
      · cases h
      · cases h
  case h_5 => exact .inl h
  case h_6 => exact .inl h

/--
No operation reads the last two fields: the instance each goroutine looked up last, and where the
entries are from.
-/
structure Wiring (Cfg : Type) where
  plane : System
  sinks : SinkManager Cfg := {}
  held : List (Tid × LiveSink) := []
  origins : List Origin := []

inductive WiringStep (Cfg : Type)
  | sinks (a : SinkStep Cfg)
  | plane (a : Action)

namespace Wiring

variable {Cfg : Type}

def route (s : Wiring Cfg) : Op → Option LiveSink
  | .writerFor sink | .readerFor sink => s.sinks.live.lookup sink
  | _ => none

def admits (s : Wiring Cfg) : Deed → Bool
  | .exec _ (.writerFor sink, .writer w) => w.isSome = (s.route (.writerFor sink)).isSome
  | .exec _ (.readerFor sink, .reader r) => r ≠ .notLive ↔ (s.route (.readerFor sink)).isSome
  | .env (.removeSink _) | .env (.forgetSink _) => false
  | _ => true

def hold (s : Wiring Cfg) : Deed → List (Tid × LiveSink)
  | .exec t (o, _) => (s.route o).elim s.held fun i => (t, i) :: s.held.filter (·.1 ≠ t)
  | _ => s.held

def puts (s : Wiring Cfg) : Deed → List Origin
  | .exec (.worker key) (.reserve st k e, _) => (s.held.lookup (.worker key)).toList.map (⟨st, k, e, ·⟩)
  | .exec t (.storeIfAbsent st k e, _) =>
    if (s.plane.shared.slot st k).entry = none then (s.held.lookup t).toList.map (⟨st, k, e, ·⟩) else []
  | _ => []

def act (s : Wiring Cfg) (d : Deed) (plane : System) : Wiring Cfg :=
  { s with plane := plane, held := s.hold d, origins := s.puts d ++ s.origins }

def step (cfg : Config) (lib : SinkLib Cfg) (s : Wiring Cfg) : WiringStep Cfg → Option (Wiring Cfg)
  | .sinks a =>
    (s.sinks.step lib a).bind fun sinks =>
      match (s.sinks.tearing a).bind Tail.teardown with
      | none => some { s with sinks := sinks }
      | some e => ((machine cfg).step s.plane (.env e)).map fun plane =>
        { s with sinks := sinks, plane := plane }
  | .plane .crash => ((machine cfg).step s.plane .crash).map fun plane => { plane := plane }
  | .plane a =>
    (s.plane.deed a).bind fun d =>
      if s.admits d then ((machine cfg).step s.plane a).map (s.act d) else none

def sources (s : Wiring Cfg) (st : Inst) : List LiveSink :=
  (s.origins.filter (·.st = st)).map (·.source) ++
    (s.held.filter fun h => (gripOf s.plane h.1).any (·.Claims s.plane.shared st)).map Prod.snd

variable {B : Type} (place : String → B)

/--
An instance that becomes the route of a sink writes to the backend that what is cached under the
name is from, and that what a goroutine has looked up under it and not yet put to use belongs to.
-/
def Anchored (lib : SinkLib Cfg) (s : Wiring Cfg) : WiringStep Cfg → Prop
  | .sinks a => ∀ sinks ∈ s.sinks.step lib a, ∀ p ∈ sinks.live, s.sinks.live.lookup p.1 ≠ some p.2 →
      ∀ j ∈ s.sources (s.plane.shared.inst p.1), place j.fingerprint = place p.2.fingerprint
  | .plane _ => True

instance [DecidableEq B] (lib : SinkLib Cfg) (s : Wiring Cfg) (a : WiringStep Cfg) :
    Decidable (s.Anchored place lib a) := by
  induction a using WiringStep.casesOn with
  | sinks a => exact inferInstanceAs (Decidable (∀ sinks ∈ s.sinks.step lib a, _))
  | plane a => exact instDecidableTrue

theorem mem_sources {s : Wiring Cfg} {st : Inst} {i : LiveSink} : i ∈ s.sources st ↔
    (∃ x ∈ s.origins, x.st = st ∧ x.source = i) ∨
      ∃ t g, (t, i) ∈ s.held ∧ gripOf s.plane t = some g ∧ g.Claims s.plane.shared st := by
  simp only [sources, List.mem_append, List.mem_map, List.mem_filter, decide_eq_true_eq, and_assoc]
  refine or_congr Iff.rfl ⟨?_, ?_⟩
  · rintro ⟨⟨t, i⟩, hm, hg, rfl⟩
    obtain ⟨g, hg, hc⟩ := (Option.any_eq_true _ _).mp hg
    exact ⟨t, g, hm, hg, of_decide_eq_true hc⟩
  · rintro ⟨t, g, hm, hg, hc⟩
    exact ⟨(t, i), hm, (Option.any_eq_true _ _).mpr ⟨g, hg, decide_eq_true hc⟩, rfl⟩

variable {cfg : Config} {lib : SinkLib Cfg} {s s' : Wiring Cfg}

theorem step_cases {x : WiringStep Cfg} (h : step cfg lib s x = some s') :
    (∃ a sinks, x = .sinks a ∧ s.sinks.step lib a = some sinks ∧ s' = { s with sinks := sinks }) ∨
    (∃ a sinks t e plane, x = .sinks a ∧ s.sinks.step lib a = some sinks ∧ s.sinks.tearing a = some t ∧
      t.teardown = some e ∧ (machine cfg).step s.plane (.env e) = some plane ∧
      s' = { s with sinks := sinks, plane := plane }) ∨
    (∃ plane, (machine cfg).step s.plane .crash = some plane ∧ s' = { plane := plane }) ∨
    ∃ a d plane, a ≠ .crash ∧ s.plane.deed a = some d ∧ s.admits d = true ∧
      (machine cfg).step s.plane a = some plane ∧ s' = s.act d plane := by
  cases x with
  | sinks a =>
    obtain ⟨sinks, hsinks, h⟩ := Option.bind_eq_some_iff.mp h
    cases ht : (s.sinks.tearing a).bind Tail.teardown with
    | none =>
      simp only [ht, Option.some.injEq] at h
      exact .inl ⟨a, sinks, rfl, hsinks, h.symm⟩
    | some e =>
      simp only [ht, Option.map_eq_some_iff] at h
      obtain ⟨plane, hp, rfl⟩ := h
      obtain ⟨t, ht, he⟩ := Option.bind_eq_some_iff.mp ht
      exact .inr (.inl ⟨a, sinks, t, e, plane, rfl, hsinks, ht, he, hp, rfl⟩)
  | plane a =>
    by_cases ha : a = .crash
    · subst ha
      simp only [step, Option.map_eq_some_iff] at h
      obtain ⟨plane, hp, rfl⟩ := h
      exact .inr (.inr (.inl ⟨plane, hp, rfl⟩))
    · simp only [step, Option.bind_eq_some_iff, Option.ite_none_right_eq_some,
        Option.map_eq_some_iff] at h
      obtain ⟨d, hd, had, plane, hp, rfl⟩ := h
      exact .inr (.inr (.inr ⟨a, d, plane, ha, hd, had, hp, rfl⟩))

theorem hold_isSome {d : Deed} {t : Tid} (h : (s.held.lookup t).isSome) :
    ((s.hold d).lookup t).isSome := by
  unfold hold
  split
  case h_1 u o i =>
    cases s.route o with
    | none => exact h
    | some live =>
      by_cases ht : t = u
      · simp [ht]
      · rwa [Option.elim_some, List.lookup_cons, beq_false_of_ne ht, Keyed.lookup_filter_ne ht]
  case h_2 => exact h

theorem hold_route {t : Tid} {o : Op} {i : Input} {live : LiveSink} (hr : s.route o = some live) :
    s.hold (.exec t (o, i)) = (t, live) :: s.held.filter (·.1 ≠ t) := by
  simp [hold, hr]

theorem mem_hold {d : Deed} {t : Tid} {live : LiveSink} (h : (t, live) ∈ s.hold d) :
    (t, live) ∈ s.held ∧ (∀ o i, d = .exec t (o, i) → s.route o = none) ∨
      ∃ o i, d = .exec t (o, i) ∧ s.route o = some live := by
  unfold hold at h
  split at h
  case h_1 u o i =>
    cases hr : s.route o with
    | none =>
      rw [hr] at h
      refine .inl ⟨h, ?_⟩
      rintro o' i' ⟨⟩
      exact hr
    | some live' =>
      rw [hr, Option.elim_some] at h
      rcases List.mem_cons.mp h with h | h
      · cases h
        exact .inr ⟨o, i, rfl, hr⟩
      · have ⟨hm, hne⟩ := List.mem_filter.mp h
        refine .inl ⟨hm, ?_⟩
        rintro o' i' ⟨⟩
        simp at hne
  case h_2 hno =>
    refine .inl ⟨h, ?_⟩
    rintro o i rfl
    exact absurd rfl (hno t o i)

theorem claims_route {g : Grip} {o : Op} {a : o.Ans} {shared : Shared} {st : Inst} {live : LiveSink}
    (hr : s.route o = some live) (h : (g.next o a).Claims shared st) :
    shared.inst st.sink = st ∧ s.sinks.live.lookup st.sink = some live := by
  cases o with
  | writerFor sink =>
    obtain h | ⟨-, h, hi⟩ := h
    · cases h
    · obtain ⟨w, rfl, rfl⟩ := Option.map_eq_some_iff.mp h
      exact ⟨hi, hr⟩
  | readerFor sink =>
    obtain h | ⟨-, h, hi⟩ := h <;> cases a <;> cases h
    exact ⟨hi, hr⟩
  | _ => cases hr

theorem route_isSome_of_writer {t : Tid} {sink : String} {i : Input} {shared : Shared} {w : Writer}
    (hx : exec s.plane.shared t (.writerFor sink) i = some (shared, some w))
    (had : s.admits (.exec t (.writerFor sink, i)) = true) : (s.route (.writerFor sink)).isSome := by
  cases i <;> simp only [exec, Option.some.injEq, Prod.mk.injEq, reduceCtorEq] at hx
  simpa [admits, hx.2] using had

theorem route_isSome_of_reader {t : Tid} {sink : String} {i : Input} {shared : Shared}
    (hx : exec s.plane.shared t (.readerFor sink) i = some (shared, .reader))
    (had : s.admits (.exec t (.readerFor sink, i)) = true) : (s.route (.readerFor sink)).isSome := by
  cases i <;> simp only [exec, Option.some.injEq, Prod.mk.injEq, reduceCtorEq] at hx
  simpa [admits, hx.2] using had

def Supplied (s : Wiring Cfg) (st : Inst) (k : String) (e : CacheEntry) : Prop :=
  ∃ x ∈ s.origins, x.st = st ∧ x.key = k ∧ x.entry.content = e

def Feeds (s : Wiring Cfg) (st : Inst) (i : LiveSink) : Prop :=
  i ∈ s.sources st ∨ s.plane.shared.inst st.sink = st ∧ s.sinks.live.lookup st.sink = some i

structure Grasps (s : Wiring Cfg) (t : Tid) (g : Grip) : Prop where
  state : ∀ st ∈ g.st, g.sink = some st.sink ∧ st.gen ≤ s.plane.shared.gens st.sink
  held : ∀ sink ∈ g.sink, (s.held.lookup t).isSome
  base : ∀ b ∈ g.base, ∃ st ∈ g.st, s.Supplied st b.1 b.2.content

structure Wired (cfg : Config) (s : Wiring Cfg) : Prop where
  custody : s.plane.Conforms (custody cfg) Hand.start Hand.Ended
  grips : s.plane.Conforms Grip.protocol Grip.start (fun _ _ _ => True)
  stocked : (worldOf cfg s.plane).Stocked s.Supplied
  dated : ∀ x ∈ s.origins, x.st.gen ≤ s.plane.shared.gens x.st.sink
  grasps : ∀ t g, gripOf s.plane t = some g → s.Grasps t g
  agree : ∀ st i j, s.Feeds st i → s.Feeds st j → place i.fingerprint = place j.fingerprint

theorem Supplied.mono {st : Inst} {k : String} {e : CacheEntry} (h : s.Supplied st k e)
    (ho : ∀ x ∈ s.origins, x ∈ s'.origins) : s'.Supplied st k e := by
  obtain ⟨x, hx, hfrom⟩ := h
  exact ⟨x, ho x hx, hfrom⟩

theorem Grasps.mono {t : Tid} {g : Grip} (h : s.Grasps t g)
    (hg : ∀ sink, s.plane.shared.gens sink ≤ s'.plane.shared.gens sink)
    (hh : (s.held.lookup t).isSome → (s'.held.lookup t).isSome) (ho : ∀ x ∈ s.origins, x ∈ s'.origins) :
    s'.Grasps t g where
  state st hst := ⟨(h.state st hst).1, (h.state st hst).2.trans (hg st.sink)⟩
  held sink hs := hh (h.held sink hs)
  base b hb := by
    obtain ⟨st, hst, hfrom⟩ := h.base b hb
    exact ⟨st, hst, hfrom.mono ho⟩

theorem Grasps.looked {t t' : Tid} {sink : Option String} (h : ∀ x ∈ sink, (s.held.lookup t).isSome) :
    s.Grasps t { owner := t', sink := sink } where
  state _ hst := by cases hst
  held := h
  base _ hb := by cases hb

section Act

variable {place} {d : Deed} {plane : System}

theorem mem_puts_append {x : Origin} (hx : x ∈ s.origins) : x ∈ (s.act d plane).origins :=
  List.mem_append_right _ hx

theorem Wired.grasps_exec (h : s.Wired place cfg) {t : Tid} {g : Grip} {o : Op} {i : Input} {a : o.Ans}
    (hg : gripOf s.plane t = some g) (hx : exec s.plane.shared t o i = some (plane.shared, a))
    (had : s.admits (.exec t (o, i)) = true) : (s.act (.exec t (o, i)) plane).Grasps t (g.next o a) := by
  have hgens : plane.shared.gens = s.plane.shared.gens := exec_gens hx
  have hkeep : (s.act (.exec t (o, i)) plane).Grasps t g :=
    (h.grasps t g hg).mono (fun sink => (congrFun hgens sink).ge)
      (fun hh => hold_isSome (d := .exec t (o, i)) hh) fun _ => mem_puts_append
  have hnew {o : Op} (hr : (s.route o).isSome) : ((s.act (.exec t (o, i)) plane).held.lookup
    t).isSome := by
    obtain ⟨live, hr⟩ := Option.isSome_iff_exists.mp hr
    simp [act, hold_route hr]
  unfold Grip.next
  split
  case h_1 sink w =>
    refine .looked fun sink' hs => ?_
    obtain ⟨w, rfl, -⟩ := Option.map_eq_some_iff.mp hs
    exact hnew (route_isSome_of_writer hx had)
  case h_2 sink => exact .looked fun _ _ => hnew (route_isSome_of_reader hx had)
  case h_3 => exact .looked fun _ hs => (by cases hs)
  case h_4 sink st =>
    split_ifs with hfree
    · refine ⟨fun st' hst => ?_, hkeep.held, fun _ hb => (by cases hb)⟩
      obtain rfl : st = st' := Option.some.inj hst
      refine ⟨hfree.2, ?_⟩
      cases i <;> simp only [exec, Option.some.injEq, Prod.mk.injEq, reduceCtorEq] at hx
      rw [← hx.2, act, hgens]
      exact le_rfl
    · exact .looked fun _ hs => (by cases hs)
  case h_5 st k entry =>
    refine ⟨hkeep.state, hkeep.held, fun b hb => ?_⟩
    cases i <;> simp only [exec, Option.some.injEq, Prod.mk.injEq, reduceCtorEq] at hx
    split_ifs at hb with hst
    · obtain ⟨e, rfl, rfl⟩ := Option.map_eq_some_iff.mp hb
      exact ⟨st, hst, (h.stocked.shared.slot st k e hx.2).mono fun _ => mem_puts_append⟩
    · cases hb
  case h_6 => exact hkeep

theorem Wired.supplied (h : s.Wired place cfg) {st : Inst} {k : String} {e : CacheEntry}
    (hput : World.Puts s.plane.shared st k e d) (hm : GripMove cfg s.plane d plane) :
    (s.act d plane).Supplied st k e.content := by
  have hheld {t : Tid} {g : Grip} (hg : gripOf s.plane t = some g) (hst : g.st = some st) :
      ∃ live, s.held.lookup t = some live :=
    Option.isSome_iff_exists.mp ((h.grasps t g hg).held _ ((h.grasps t g hg).state st hst).1)
  cases hput with
  | reserve key =>
    obtain ⟨tr, hg, hall⟩ := hm.allowed
    obtain ⟨live, hl⟩ := hheld hg (hall (by rw [Grip.owner_after]; rfl))
    exact ⟨⟨st, k, e, live⟩, List.mem_append_left _ (by simp [puts, hl]), rfl, rfl, rfl⟩
  | storeIfAbsent t hn =>
    obtain ⟨tr, hg, hall⟩ := hm.allowed
    obtain ⟨live, hl⟩ := hheld hg hall
    exact ⟨⟨st, k, e, live⟩, List.mem_append_left _ (by simp [puts, hl, hn]), rfl, rfl, rfl⟩

theorem grip_of_puts {x : Origin} (hx : x ∈ s.puts d) (hm : GripMove cfg s.plane d plane) :
    ∃ t g, gripOf s.plane t = some g ∧ g.st = some x.st ∧ s.held.lookup t = some x.source := by
  unfold puts at hx
  split at hx
  case h_1 key st k e _ =>
    obtain ⟨live, hl, rfl⟩ := List.mem_map.mp hx
    obtain ⟨tr, hg, hall⟩ := hm.allowed
    exact ⟨_, _, hg, hall (by rw [Grip.owner_after]; rfl), Option.mem_toList.mp hl⟩
  case h_2 t st k e _ =>
    split_ifs at hx
    · obtain ⟨live, hl, rfl⟩ := List.mem_map.mp hx
      obtain ⟨tr, hg, hall⟩ := hm.allowed
      exact ⟨t, _, hg, hall, Option.mem_toList.mp hl⟩
    · cases hx
  case h_3 => cases hx

theorem source_of_held {t : Tid} {g : Grip} {st : Inst} {i : LiveSink} (hg : gripOf s.plane t = some g)
    (hst : g.st = some st) (hl : s.held.lookup t = some i) : i ∈ s.sources st := by
  obtain ⟨l₁, l₂, hsplit, -⟩ := List.lookup_eq_some_iff.mp hl
  exact mem_sources.mpr (.inr ⟨t, g, by simp [hsplit], hg, .inl hst⟩)

theorem feeds_of_hold (hm : GripMove cfg s.plane d plane) (had : s.admits d = true) {t : Tid}
    {g : Grip} {st : Inst} {i : LiveSink} (hmem : (t, i) ∈ s.hold d)
    (hg : gripOf plane t = some g) (hc : g.Claims s.plane.shared st) :
    s.Feeds st i := by
  obtain ⟨hin, hno⟩ | ⟨o, inp, rfl, hr⟩ := mem_hold hmem
  · rcases hm.phase_cases hg with hold | ⟨b, rfl, rfl⟩ | ⟨tr, o, inp, a, rfl, hold, -, hx, rfl⟩
    · exact .inl (mem_sources.mpr (.inr ⟨t, g, hin, hold, hc⟩))
    · obtain hc | ⟨-, hc, -⟩ := hc <;> cases hc
    · have hr := hno o inp rfl
      rcases Grip.Claims.of_next hx hc with hc | ⟨-, ⟨w, ho⟩ | ho⟩
      · exact .inl (mem_sources.mpr (.inr ⟨t, _, hin, hold, hc⟩))
      · cases ho
        simpa [hr] using route_isSome_of_writer hx had
      · cases ho
        simpa [hr] using route_isSome_of_reader hx had
  · obtain ⟨g', a, -, hg'⟩ := hm.answered
    obtain rfl := Option.some.inj (hg.symm.trans hg')
    exact .inr (claims_route hr hc)

theorem feeds_act (hm : GripMove cfg s.plane d plane) (had : s.admits d = true)
    (hgens : plane.shared.gens = s.plane.shared.gens) {st : Inst} {i : LiveSink}
    (hf : (s.act d plane).Feeds st i) :
    s.Feeds st i := by
  have hinst (sink : String) : plane.shared.inst sink = s.plane.shared.inst sink :=
    by simp [Shared.inst, hgens]
  rcases hf with hf | ⟨hi, hl⟩
  · rcases mem_sources.mp hf with ⟨x, hx, rfl, rfl⟩ | ⟨t, g, hmem, hg, hc⟩
    · rcases List.mem_append.mp hx with hx | hx
      · obtain ⟨t, g, hg, hst, hl⟩ := grip_of_puts hx hm
        exact .inl (source_of_held hg hst hl)
      · exact .inl (mem_sources.mpr (.inl ⟨x, hx, rfl, rfl⟩))
    · refine feeds_of_hold hm had hmem hg ?_
      simpa only [Grip.Claims, act, hinst] using hc
  · exact .inr ⟨hinst st.sink ▸ hi, hl⟩

theorem gens_of_admits {w w' : World} (ht : Turn cfg w d w') (had : s.admits d = true)
    (hc : d ≠ .crash) :
    w'.shared.gens = w.shared.gens := by
  funext sink
  refine ht.gens sink ?_ hc
  rintro rfl
  cases had

theorem Wired.act (h : s.Wired place cfg) {a : Action} (ha : a ≠ .crash) (hd : s.plane.deed a = some d)
    (had : s.admits d = true) (hst : (machine cfg).step s.plane a = some plane) :
    (s.act d plane).Wired place cfg := by
  have hst := (machine cfg).step_cases hst
  obtain ⟨d', hd', hm⟩ := (Grip.safe cfg).move h.grips hst
  obtain rfl : d = d' := Option.some.inj (hd.symm.trans hd')
  obtain ⟨d', hd', hw⟩ := (machine_safe cfg).move h.custody hst
  obtain rfl : d = d' := Option.some.inj (hd.symm.trans hd')
  have hturn : Turn cfg (worldOf cfg s.plane) d (worldOf cfg plane) := move_turn hw
  have hgens : plane.shared.gens = s.plane.shared.gens := by
    refine gens_of_admits hturn had ?_
    rintro rfl
    exact ha (System.plain_deed hd).symm
  have hkeep {t : Tid} {g : Grip} (hg : s.Grasps t g) : (s.act d plane).Grasps t g :=
    hg.mono (fun sink => (congrFun hgens sink).ge) (fun hh => hold_isSome (d := d) hh)
      fun _ => mem_puts_append
  refine ⟨(machine_safe cfg).conforms h.custody hst, (Grip.safe cfg).conforms h.grips hst, ?_,
    ?_, ?_, ?_⟩
  · exact (h.stocked.mono fun st k e he => he.mono fun _ => mem_puts_append).turn hturn
      fun st k e hput => h.supplied hput hm
  · intro x hx
    refine le_of_le_of_eq ?_ (congrFun hgens x.st.sink).symm
    rcases List.mem_append.mp hx with hx | hx
    · obtain ⟨t, g, hg, hst, -⟩ := grip_of_puts hx hm
      exact ((h.grasps t g hg).state x.st hst).2
    · exact h.dated x hx
  · intro t g hg
    rcases hm.phase_cases hg with hold | ⟨b, rfl, rfl⟩ | ⟨tr, o, inp, x, rfl, hold, -, hx, rfl⟩
    · exact hkeep (h.grasps t g hold)
    · exact .looked fun _ hs => (by cases hs)
    · exact h.grasps_exec hold hx had
  · exact fun st i j hi hj => h.agree st i j (feeds_act hm had hgens hi) (feeds_act hm had hgens hj)

theorem Wired.crash (h : s.Wired place cfg) (hst : (machine cfg).step s.plane .crash = some plane) :
    ({ plane := plane } : Wiring Cfg).Wired place cfg := by
  have hstep := (machine cfg).step_cases hst
  have hno (t : Tid) : plane.threads t = none := by
    cases hst
    rfl
  have hempty (st : Inst) (i : LiveSink) : ¬ ({ plane := plane } : Wiring Cfg).Feeds st i := by
    rintro (hf | ⟨-, hf⟩) <;> cases hf
  refine ⟨(machine_safe cfg).conforms h.custody hstep, (Grip.safe cfg).conforms h.grips hstep,
    ⟨?_, fun t => ?_⟩,
    fun x hx => (by cases hx), fun t g hg => ?_, fun st i _ hi => absurd hi (hempty st i)⟩
  · cases hst
    exact .crash _
  · rw [worldOf_phase_of_none (hno t)]
    trivial
  · simp [gripOf, System.view, hno] at hg

theorem Wired.ahead (h : s.Wired place cfg) {st : Inst} (hst : s.plane.shared.gens st.sink < st.gen)
    (i : LiveSink) :
    ¬ s.Feeds st i := by
  have hinst : s.plane.shared.inst st.sink ≠ st := by
    intro he
    have hgen := congrArg Inst.gen he
    simp only [Shared.inst] at hgen
    omega
  rintro (hf | ⟨hi, -⟩)
  · rcases mem_sources.mp hf with ⟨x, hx, rfl, -⟩ | ⟨t, g, -, hg, hc | ⟨-, -, hi⟩⟩
    · exact absurd (h.dated x hx) (Nat.not_le.mpr hst)
    · exact absurd ((h.grasps t g hg).state st hc).2 (Nat.not_le.mpr hst)
    · exact hinst hi
  · exact hinst hi

theorem Wired.routed (h : s.Wired place cfg) {a : SinkStep Cfg} {sinks : SinkManager Cfg}
    (hst : s.sinks.step lib a = some sinks) (hok : s.Anchored place lib (.sinks a)) :
    ({ s with sinks := sinks } : Wiring Cfg).Wired place cfg := by
  refine ⟨h.custody, h.grips, h.stocked, h.dated,
    fun t g hg => (h.grasps t g hg).mono (fun _ => le_rfl) id fun _ => id,
    ?_⟩
  have hnew {st : Inst} {i j : LiveSink} (hi : s.plane.shared.inst st.sink = st)
      (hl : sinks.live.lookup st.sink = some i) (hj : j ∈ s.sources st) :
      place j.fingerprint = place i.fingerprint := by
    by_cases hold : s.sinks.live.lookup st.sink = some i
    · exact h.agree st j i (.inl hj) (.inr ⟨hi, hold⟩)
    · obtain ⟨l₁, l₂, hsplit, -⟩ := List.lookup_eq_some_iff.mp hl
      exact hok sinks hst (st.sink, i) (by simp [hsplit]) hold j (hi.symm ▸ hj)
  rintro st i j (hi | ⟨hi, hl⟩) (hj | ⟨hj, hl'⟩)
  · exact h.agree st i j (.inl hi) (.inl hj)
  · exact hnew hj hl' hi
  · exact (hnew hi hl hj).symm
  · rw [Option.some.inj (hl.symm.trans hl')]

theorem feeds_torn {sinks : SinkManager Cfg} {shared : Shared}
    (hup : ∀ sink, shared.gens sink = s.plane.shared.gens sink ∨
      shared.gens sink = s.plane.shared.gens sink + 1)
    (hl : sinks.live = s.sinks.live) {st : Inst} {i : LiveSink}
    (hf : Feeds { s with sinks := sinks, plane := { s.plane with shared := shared } } st i) :
    s.Feeds st i ∨ s.plane.shared.gens st.sink < st.gen ∧ s.Feeds (s.plane.shared.inst st.sink) i := by
  have hcur (hi : shared.inst st.sink = st) :
      s.plane.shared.inst st.sink = st ∨ s.plane.shared.gens st.sink < st.gen := by
    rcases hup st.sink with hg | hg
    · left
      rw [← hi, Shared.inst, Shared.inst, hg]
    · right
      rw [← hi, Shared.inst, hg]
      exact Nat.lt_succ_self _
  rcases hf with hf | ⟨hi, hlive⟩
  · rcases mem_sources.mp hf with ho | ⟨t, g, hmem, hg, hc | ⟨hn, hs, hi⟩⟩
    · exact .inl (.inl (mem_sources.mpr (.inl ho)))
    · exact .inl (.inl (mem_sources.mpr (.inr ⟨t, g, hmem, hg, .inl hc⟩)))
    · rcases hcur hi with hi | hlt
      · exact .inl (.inl (mem_sources.mpr (.inr ⟨t, g, hmem, hg, .inr ⟨hn, hs, hi⟩⟩)))
      · exact .inr ⟨hlt, .inl (mem_sources.mpr (.inr ⟨t, g, hmem, hg, .inr ⟨hn, hs, rfl⟩⟩))⟩
  · rw [hl] at hlive
    rcases hcur hi with hi | hlt
    · exact .inl (.inr ⟨hi, hlive⟩)
    · exact .inr ⟨hlt, .inr ⟨rfl, hlive⟩⟩

theorem env_teardown {t : Tail} {e : Env} (he : t.teardown = some e) {p plane : System}
    (hst : (machine cfg).step p (.env e) = some plane) : ∃ shared, plane = { p with shared := shared } ∧
      ∀ sink, shared.gens sink = p.shared.gens sink ∨ shared.gens sink = p.shared.gens sink + 1 := by
  unfold Tail.teardown at he
  split at he <;> cases he <;> cases hst
  · refine ⟨_, rfl, fun sink => ?_⟩
    by_cases hs : sink = t.name
    · subst hs
      simp
    · simp [hs]
  · exact ⟨_, rfl, fun sink => .inl rfl⟩

theorem Wired.torn (h : s.Wired place cfg) {t : Tail} {e : Env} (he : t.teardown = some e)
    (hst : (machine cfg).step s.plane (.env e) = some plane) {sinks : SinkManager Cfg}
    (hl : sinks.live = s.sinks.live) :
    ({ s with sinks := sinks, plane := plane } : Wiring Cfg).Wired place cfg := by
  have hstep := (machine cfg).step_cases hst
  obtain ⟨d, hd, hw⟩ := (machine_safe cfg).move h.custody hstep
  cases hd
  have hstocked := h.stocked.turn (move_turn hw) fun st k e hput => (by cases hput)
  have hcustody := (machine_safe cfg).conforms h.custody hstep
  have hgrips := (Grip.safe cfg).conforms h.grips hstep
  obtain ⟨shared, rfl, hup⟩ := env_teardown he hst
  have hle (sink : String) : s.plane.shared.gens sink ≤ shared.gens sink := by
    rcases hup sink with hg | hg <;> omega
  refine ⟨hcustody, hgrips, hstocked, fun x hx => (h.dated x hx).trans (hle x.st.sink),
    fun t g hg => (h.grasps t g hg).mono hle id fun _ => id, fun st i j hi hj => ?_⟩
  rcases feeds_torn hup hl hi with hi | ⟨hlt, hi⟩ <;> rcases feeds_torn hup hl hj with hj | ⟨hlt', hj⟩
  · exact h.agree st i j hi hj
  · exact absurd hi (h.ahead hlt' i)
  · exact absurd hj (h.ahead hlt j)
  · exact h.agree _ i j hi hj

theorem wired_of_run {steps : List (WiringStep Cfg)}
    (h : Runs.Run (step cfg lib) (Anchored place lib) { plane := { shared := {} } } steps s) :
    s.Wired place cfg := by
  refine h.invariant ?_ ?_
  · intro s x s' hw hok hst
    obtain ⟨a, sinks, rfl, hsinks, rfl⟩ | ⟨a, sinks, t, e, plane, rfl, hsinks, ht, he, hp,
      rfl⟩ | ⟨plane, hp, rfl⟩ |
      ⟨a, d, plane, ha, hd, had, hp, rfl⟩ := step_cases hst
    · exact hw.routed hsinks hok
    · exact hw.torn he hp (SinkManager.tearing_some ht hsinks).2
    · exact hw.crash hp
    · exact hw.act ha hd had hp
  · refine ⟨fun _ _ ht => (by cases ht), fun _ _ ht => (by cases ht), ⟨⟨fun _ _ _ he => (by cases he),
      fun _ hj => (by cases hj)⟩, fun _ => trivial⟩, fun _ hx => (by cases hx),
      fun _ _ hg => (by cases hg), ?_⟩
    rintro st i j (hf | ⟨-, hf⟩) <;> cases hf

end Act

/--
A change row or a skipped duplicate of a sink rests on an entry that came from the backend its
writer writes to. If the sink is still routed and its state has not been discarded since, it is
routed to that backend.
-/
theorem baseline_from_backend {steps : List (WiringStep Cfg)}
    (hrun : Runs.Run (step cfg lib) (Anchored place lib) { plane := { shared := {} } } steps s)
    {key : Key} {o : Op} {k : o.Ans → Prog (Option Err)} {tr : List (Sigma Op.Ans)}
    (ht : s.plane.threads (.worker key) = some { code := .op o k, trace := tr })
      (ho : o.compares = true) :
    ∃ st e writer, (⟨.load st key.cacheKey, some e⟩ : Sigma Op.Ans) ∈ tr ∧ st.sink = key.sink ∧
      s.held.lookup (.worker key) = some writer ∧
      (∃ x ∈ s.origins, x.st = st ∧ x.key = key.cacheKey ∧ x.entry.content = e.content) ∧
      (∀ x ∈ s.origins, x.st = st → place x.source.fingerprint = place writer.fingerprint) ∧
      ∀ i, s.sinks.live.lookup key.sink = some i → s.plane.shared.inst key.sink = st →
        place i.fingerprint = place writer.fingerprint := by
  have hw := wired_of_run hrun
  have hg : gripOf s.plane (.worker key) = some (Grip.protocol.after (Grip.start (.worker key)) tr) :=
    Machine.view_phase ht
  have hall : (Grip.protocol.after (Grip.start (.worker key)) tr).Allowed o := (hw.grips _ _ ht).1
  obtain ⟨st, e, hst, hsink, hbase⟩ := hall.based ho key (Grip.owner_after _ tr)
  have hgrasp := hw.grasps _ _ hg
  obtain ⟨writer, hheld⟩ := Option.isSome_iff_exists.mp (hgrasp.held _ (hgrasp.state st hst).1)
  obtain ⟨st', hst', hsupplied⟩ := hgrasp.base _ hbase
  obtain rfl : st = st' := Option.some.inj (hst.symm.trans hst')
  have hfeed : s.Feeds st writer := .inl (source_of_held hg hst hheld)
  refine ⟨st, e, writer, Grip.loaded_of_base hst hbase, hsink, hheld, hsupplied,
    fun x hx hxst => ?_, fun i hi hcur => ?_⟩
  · exact hw.agree st x.source writer (.inl (mem_sources.mpr (.inl ⟨x, hx, hxst, rfl⟩))) hfeed
  · rw [← hsink] at hi hcur
    exact hw.agree st i writer (.inr ⟨hcur, hi⟩) hfeed

end Wiring

def opAt (p : System) (t : Tid) : Option Op :=
  match p.threads t with
  | some { code := .op o _, trace := _ } => some o
  | _ => none

theorem thread_of_opAt {p : System} {t : Tid} {o : Op} (h : opAt p t = some o) :
    ∃ k tr, p.threads t = some { code := .op o k, trace := tr } := by
  unfold opAt at h
  split at h
  · rename_i ht
    cases h
    exact ⟨_, _, ht⟩
  · cases h

def recordedSteps (backend : String) : List (WiringStep String) :=
  [.sinks (.start fun _ => .ok ()), .sinks (.ensure "s" (some backend) (.ok ()))] ++
    (addedSteps "u" 1 1 ++ landSteps 0).map .plane

def changedSteps : List Action :=
  addedSteps "u" 1 2 ++ landSteps 1 ++ [.env (.add sampleKey), .start (.worker sampleKey) .run] ++
    (observeInputs (sampleObject "u" 2) ++ [Input.go, .time 3]).map (.exec (.worker sampleKey))

theorem recreated_sink_baseline : ∃ (s : Wiring String) (x : Origin) (writer : LiveSink),
    (opAt s.plane (.worker sampleKey)).any Op.compares = true ∧
      s.held.lookup (.worker sampleKey) = some writer ∧
      x ∈ s.origins ∧ x.key = sampleKey.cacheKey ∧ x.source.fingerprint = writer.fingerprint := by
  obtain ⟨s, hrun, hop⟩ := Runs.Run.exists_of_exec (Wiring.step sampleConfig sampleSinkLib)
    (Wiring.Anchored (fun backend => backend) sampleSinkLib) { plane := { shared := {} } }
    (recordedSteps "a" ++ [.delete "s", .tail 0, .tail 0, .tail 0,
      .ensure "s" (some "b") (.ok ())].map .sinks ++
      changedSteps.map .plane)
    (fun s => (opAt s.plane (.worker sampleKey)).any Op.compares = true) (by decide)
  obtain ⟨o, ho, hc⟩ := (Option.any_eq_true _ _).mp hop
  obtain ⟨k, tr, ht⟩ := thread_of_opAt ho
  obtain ⟨st, e, writer, -, -, hheld, ⟨x, hx, hst, hkey, -⟩, hall, -⟩ :=
    Wiring.baseline_from_backend _ hrun ht hc
  exact ⟨s, x, writer, hop, hheld, hx, hkey, hall x hx hst⟩

def Wiring.Misled (s : Wiring String) (a b : String) : Prop :=
  s.plane.shared.dedupSkips = 1 ∧ s.plane.shared.jobs.length = 1 ∧
    (∃ writer ∈ s.held.lookup (.worker sampleKey), s.sinks.live.lookup "s" = some writer ∧
    writer.fingerprint = b) ∧
    ∀ x ∈ s.origins, x.source.fingerprint = a

instance (s : Wiring String) (a b : String) : Decidable (s.Misled a b) :=
  inferInstanceAs (Decidable (_ ∧ _ ∧ _ ∧ _))

def movedSteps (moves : List (SinkStep String)) : List (WiringStep String) :=
  recordedSteps "a" ++ moves.map .sinks ++
    (processSteps (observeInputs (sampleObject "u" 1) ++ [.go])).map .plane

/--
A sink is pointed at another backend, or comes back on one before the goroutine of its `Delete` has
looked.
-/
theorem moved_sink_deduplicated :
    (∃ s : Wiring String, Runs.Run (Wiring.step sampleConfig sampleSinkLib) (fun _ _ => True)
      { plane := { shared := {} } } (movedSteps [.ensure "s" (some "b") (.ok ())]) s ∧
        s.Misled "a" "b") ∧
    ∃ s : Wiring String, Runs.Run (Wiring.step sampleConfig sampleSinkLib) (fun _ _ => True)
      { plane := { shared := {} } }
      (movedSteps [.delete "s", .ensure "s" (some "b") (.ok ()), .tail 0, .tail 0]) s ∧
        s.Misled "a" "b" := by
  constructor
  · exact Runs.Run.exists_of_exec (Wiring.step sampleConfig sampleSinkLib) (fun _ _ => True) _ _ _
      (by decide)
  · exact Runs.Run.exists_of_exec (Wiring.step sampleConfig sampleSinkLib) (fun _ _ => True) _ _ _
      (by decide)

end Kuberecord
