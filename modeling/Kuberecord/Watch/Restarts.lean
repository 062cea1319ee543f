import Kuberecord.Library.Keyed
import Kuberecord.LookupKeys
import Kuberecord.Marks
import Kuberecord.Watch.Absences

/-!
A key outlives the informers of its scope: it may still be queued, worked on or about to be put back
when the scope is stopped and started again. Unless a pass waits for it, the new informers are asked
for it before they have listed.
-/

namespace Kuberecord

open Threads

section Restarts

variable {Sel : Type}

/--
All that covers the key is informers that are still listing, and none of them holds a copy of it.
-/
def Watching.Stranded (w : Watching Sel) (key : Key) : Prop :=
  w.table.lookupIdentity key ≠ [] ∧ ∀ i ∈ w.table.lookupIdentity key, (w.pool i.informer).any
    (fun informer => !informer.synced && (informer.indexer key.informerCacheKey).isNone) = true

instance (w : Watching Sel) (key : Key) : Decidable (w.Stranded key) :=
  inferInstanceAs (Decidable (_ ∧ _))

def Informer.Becomes (old new : Informer) : Prop :=
  new.synced = true ∨ old.synced = false ∧ ∀ k, (old.indexer k).isSome → (new.indexer k).isSome

namespace Joint

variable {cfg : Config} {lib : WatchLib Sel} {queueLimit : Nat} {s s' : Joint Sel} {x : JointStep Sel}
  {steps : List (JointStep Sel)}

/--
The key will be looked up without a handler adding it: it waits, its worker has not read the lister
yet, or a warm goroutine behind its gate is at work on its scope.
-/
inductive Waiting (s : Joint Sel) (key : Key) : Prop
  | queued : key ∈ s.plane.shared.queue → s.Waiting key
  | unread (code : Prog (Option Err)) : s.plane.threads (.worker key) = some ⟨code, []⟩ → s.Waiting key
  | reconciled (tid : Tid) (th : Thread Op Op.Ans (Option Err))
      (ref : ScopeRef) : s.plane.threads tid = some th →
      ⟨.scopeSynced ref, true⟩ ∈ th.trace → ref.Covers key → s.Waiting key

def Scoped : Action → Prop
  | .exec _ (.states ref (some states)) => ∀ x ∈ states, ref.Covers (ref.key x.ns x.name)
  | _ => True

/-- No key reaches the queue while it is stranded, and no pass strands a key that waits. -/
def Patient (cfg : Config) (lib : WatchLib Sel) (queueLimit : Nat) (s : Joint Sel) : JointStep Sel → Prop
  | .plane a => Scoped a ∧ ∀ s' ∈ s.step cfg lib queueLimit (.plane a), ∀ key ∈ s'.plane.shared.queue,
      key ∉ s.plane.shared.queue → ¬ s'.watch.Stranded key
  | .watch (.receive key informer) => ∀ old ∈ s.watch.pool key, old.Becomes informer
  | .watch (.replace order) =>
    ∀ w ∈ s.watch.step lib queueLimit (.replace order), ∀ key, s.Waiting key → ¬ w.Stranded key
  | .watch (.launch ok) =>
    ∀ w ∈ s.watch.step lib queueLimit (.launch ok), ∀ key, s.Waiting key → ¬ w.Stranded key
  | _ => True

theorem exec_listerGet {w : Watching Sel} {shared shared' : Shared} {tid : Tid} {key : Key} {i : Input}
    {l : Option Lookup} (h : exec shared tid (.listerGet key) (w.answer (.listerGet key) i) =
      some (shared', l)) :
    (w.table.get w.pool key).lookup = l := by
  simp only [Watching.answer, exec] at h
  cases h
  rfl

end Joint

section Watch

variable {lib : WatchLib Sel} {queueLimit : Nat} {w w' : Watching Sel} {key : Key}

theorem Informer.Becomes.refl (informer : Informer) : informer.Becomes informer := by
  cases h : informer.synced with
  | true => exact .inl h
  | false => exact .inr ⟨h, fun _ => id⟩

theorem Watching.Stranded.of_pool (h : w'.Stranded key) (htable : w'.table = w.table)
    (hpool : ∀ k informer, w'.pool k = some informer → ∃ old, w.pool k = some old ∧
      old.Becomes informer) :
    w.Stranded key := by
  refine ⟨htable ▸ h.1, fun i hi => ?_⟩
  obtain ⟨informer, hp, hin⟩ := (Option.any_eq_true _ _).mp (h.2 i (htable ▸ hi))
  simp only [Bool.and_eq_true, Bool.not_eq_true', Option.isNone_iff_eq_none] at hin
  obtain ⟨old, hold, hsync | ⟨hsync, hgain⟩⟩ := hpool _ _ hp
  · simp [hsync] at hin
  · have hnone : old.indexer key.informerCacheKey = none := by
      by_contra hcopy
      have hnew := hgain _ (Option.isSome_iff_ne_none.mpr hcopy)
      simp [hin.2] at hnew
    simp [hold, hsync, hnone]

theorem Watching.Move.table_eq {a : WatchStep Sel} (h : Move lib queueLimit w a w')
    (hr : ∀ order, a ≠ .replace order) :
    w'.table = w.table := by
  cases h with
  | replace order => exact absurd rfl (hr order)
  | _ => rfl

theorem Watching.Move.pool_cases {a : WatchStep Sel} (h : Move lib queueLimit w a w') {k : InformerKey}
    {informer : Informer} (hk : w'.pool k = some informer) : w.pool k = some informer ∨
      (∃ ok, a = .launch ok) ∧ informer = {} ∨ a = .receive k informer ∧ ∃ old, w.pool k = some old := by
  cases h with
  | halt desired instant key =>
    simp only [pool] at hk
    by_cases hkey : k = key
    · rw [hkey, Keyed.lookup_filter_self] at hk
      cases hk
    · rw [Keyed.lookup_filter_ne hkey] at hk
      exact .inl hk
  | launch ok desired instant key keys informers hphase hinf =>
    change informers.lookup k = some informer at hk
    rw [hinf] at hk
    split_ifs at hk with hnew
    · rw [List.lookup_append] at hk
      cases hold : w.informers.lookup k with
      | some old => exact .inl (by rw [pool, hold]; simpa [hold] using hk)
      | none =>
        have hlast : List.lookup k [(key, ({} : Informer))] = some informer := by simpa [hold] using hk
        rw [List.lookup_cons] at hlast
        split at hlast
        · exact .inr (.inl ⟨⟨ok, rfl⟩, (Option.some.inj hlast).symm⟩)
        · cases hlast
    · exact .inl hk
  | receive key new =>
    simp only [pool, Keyed.lookup_map_replace] at hk
    split_ifs at hk with hkey
    · subst hkey
      obtain ⟨old, hold, rfl⟩ := Option.map_eq_some_iff.mp hk
      exact .inr (.inr ⟨rfl, old, hold⟩)
    · exact .inl hk
  | _ => exact .inl hk

theorem Watching.Stranded.of_move {a : WatchStep Sel} (h : w'.Stranded key)
    (hmove : Move lib queueLimit w a w') (hreplace : ∀ order, a ≠ .replace order)
    (hlaunch : ∀ ok, a ≠ .launch ok)
    (hreceive : ∀ k informer, a = .receive k informer → ∀ old ∈ w.pool k, old.Becomes informer) :
    w.Stranded key := by
  refine h.of_pool (hmove.table_eq hreplace) fun k informer hk => ?_
  obtain hold | ⟨⟨ok, rfl⟩, -⟩ | ⟨rfl, old, hold⟩ := hmove.pool_cases hk
  · exact ⟨informer, hold, .refl informer⟩
  · exact absurd rfl (hlaunch ok)
  · exact ⟨old, hold, hreceive k informer rfl old hold⟩

theorem InterestTable.not_stranded_of_synced {ref : ScopeRef}
    (hsync : w.table.scopeSynced w.pool ref = true) (hcov : ref.Covers key) :
    ¬ w.Stranded key := by
  simp only [scopeSynced, Bool.and_eq_true, decide_eq_true_eq, gt_iff_lt, List.length_pos_iff_exists_mem,
    List.all_eq_true] at hsync
  obtain ⟨⟨i, hi⟩, hall⟩ := hsync
  have hmem : i ∈ w.table.lookupIdentity key := by
    obtain ⟨hsink, hscope | hscope⟩ := hcov
    · simp only [interestsForScope, hsink, hscope] at hi
      simp only [lookupIdentity]
      split_ifs
      · exact hi
      · exact List.mem_append_left _ hi
    · simp only [interestsForScope, hsink, hscope] at hi
      simp only [lookupIdentity]
      split_ifs with heq
      · rw [heq]
        exact hi
      · exact List.mem_append_right _ hi
  intro hstranded
  obtain ⟨informer, hp, hlist⟩ := (Option.any_eq_true _ _).mp (hstranded.2 i hmem)
  have hsynced := hall i hi
  rw [hp, Option.any_some] at hsynced
  simp [hsynced] at hlist

end Watch

namespace Joint

variable {cfg : Config} {lib : WatchLib Sel} {queueLimit : Nat} {s s' : Joint Sel} {x : JointStep Sel}
  {steps : List (JointStep Sel)} {key : Key}

theorem Waiting.of_plane (h : s'.Waiting key) (hp : s'.plane = s.plane) : s.Waiting key := by
  cases h with
  | queued hm => exact .queued (hp ▸ hm)
  | unread code ht => exact .unread code (hp ▸ ht)
  | reconciled tid th ref ht hmem hcov => exact .reconciled tid th ref (hp ▸ ht) hmem hcov

theorem not_waiting_empty : ¬ ({} : Joint Sel).Waiting key := by
  intro h
  cases h with
  | queued hm => cases hm
  | unread _ ht | reconciled _ _ _ ht => cases ht

theorem Waiting.of_update {t : Tid} {th' : Option (Thread Op Op.Ans (Option Err))} {shared : Shared}
    {log : List (LogEntry Op.Ans Tid)} {watch : Watching Sel}
    (h : Waiting ⟨⟨shared, Function.update s.plane.threads t th', log⟩, watch⟩ key)
    (hq : key ∉ shared.queue) (hw : ∀ code, th' = some ⟨code, []⟩ → t = .worker key → s.Waiting key)
    (hr : ∀ th ref, th' = some th → ⟨.scopeSynced ref, true⟩ ∈ th.trace → ref.Covers key →
      s.Waiting key ∨ ¬ s.watch.Stranded key) : s.Waiting key ∨ ¬ s.watch.Stranded key := by
  cases h with
  | queued hm => exact absurd hm hq
  | unread code ht =>
    by_cases hne : Tid.worker key = t
    · subst hne
      exact .inl (hw code (by simpa using ht) rfl)
    · exact .inl (.unread code ((Function.update_of_ne hne _ _).symm.trans ht))
  | reconciled tid th ref ht hmem hcov =>
    by_cases hne : tid = t
    · subst hne
      exact hr th ref (by simpa using ht) hmem hcov
    · exact .inl (.reconciled tid th ref ((Function.update_of_ne hne _ _).symm.trans ht) hmem hcov)

theorem Waiting.of_step {a : Action} (hp : (machine cfg).step s.plane (s.supply a) = some s'.plane)
    (hq : key ∉ s'.plane.shared.queue) (h : s'.Waiting key) :
    s.Waiting key ∨ ¬ s.watch.Stranded key := by
  obtain ⟨plane, watch⟩ := s'
  generalize hb : s.supply a = b at hp
  cases (machine cfg).step_cases hp with
  | start t b shared code hn hs =>
    refine h.of_update hq (fun code' hc ht => ?_) (fun th ref hth hmem _ => ?_)
    · subst ht
      cases b <;> simp only [machine, start, Option.ite_none_right_eq_some, reduceCtorEq] at hs
      exact .queued hs.1
    · cases hth
      cases hmem
  | exec t i o c tr shared a' hth hx =>
    refine h.of_update hq (fun code' hc _ => ?_) (fun th ref ht hmem hcov => ?_)
    · simp at hc
    · cases ht
      rcases List.mem_append.mp hmem with hmem | hmem
      · exact .inl (.reconciled t _ ref hth hmem hcov)
      · cases List.mem_singleton.mp hmem
        obtain ⟨j, rfl⟩ := s.supply_exec (a := a) (t := t) (by rw [hb, System.deed, hth])
        simp only [machine, Watching.answer, Kuberecord.exec, Option.some.injEq, Prod.mk.injEq] at hx
        exact .inr (InterestTable.not_stranded_of_synced hx.2 hcov)
  | finish t a tr hth => exact h.of_update hq (fun _ hc => by cases hc) (fun _ _ ht => by cases ht)
  | env e shared he =>
    cases h with
    | queued hm => exact absurd hm hq
    | unread code ht => exact .inl (.unread code ht)
    | reconciled tid th ref ht hmem hcov => exact .inl (.reconciled tid th ref ht hmem hcov)
  | crash =>
    cases h with
    | queued hm => cases hm
    | unread _ ht | reconciled _ _ _ ht => cases ht

theorem not_stranded_of_run (hrun : Runs.Run (Joint.step cfg lib queueLimit)
      (Patient cfg lib queueLimit) {} steps s)
    (h : s.Waiting key) : ¬ s.watch.Stranded key := by
  induction hrun with
  | nil => exact absurd h not_waiting_empty
  | @snoc s s' steps x hrun hok hst ih =>
    obtain ⟨a, rfl, -, hp, hw⟩ | ⟨rfl, hp, hw⟩ | ⟨w, rfl, hmove, hp⟩ := step_cases hst
    · rw [hw]
      by_cases hq : key ∈ s'.plane.shared.queue
      · by_cases hold : key ∈ s.plane.shared.queue
        · exact ih (.queued hold)
        · exact hw ▸ hok.2 s' hst key hq hold
      · rcases h.of_step hp hq with h | h
        · exact ih h
        · exact h
    · rw [hw]
      exact fun hs => hs.1 (by simp [InterestTable.lookupIdentity, InterestTable.byIdentity])
    · have hwait := h.of_plane hp
      have hstep : s.watch.step lib queueLimit w = some s'.watch := by
        simp only [Joint.step, Option.map_eq_some_iff] at hst
        obtain ⟨watch, hw, rfl⟩ := hst
        exact hw
      intro hs
      cases w with
      | replace | launch => exact hok _ hstep key hwait hs
      | receive k informer =>
        refine ih hwait (hs.of_move hmove (by simp) (by simp) ?_)
        rintro _ _ ⟨⟩
        exact hok
      | _ => exact ih hwait (hs.of_move hmove (by simp) (by simp) (by simp))

theorem waiting_of_read (hrun : Runs.Run (Joint.step cfg lib queueLimit)
      (Patient cfg lib queueLimit) {} steps s)
    {tid : Tid} {code : Prog (Option Err)} {tr : Trace} (hth : s.plane.threads tid = some ⟨code, tr⟩)
    (h : tid = .worker key ∧ tr = [] ∨ ∃ ref states, ⟨.scopeSynced ref, true⟩ ∈ tr ∧
      ⟨.lastKnownStates ref, some states⟩ ∈ tr ∧ ref.Names states key) : s.Waiting key := by
  obtain ⟨rfl, rfl⟩ | ⟨ref, states, hsync, hstates, y, hy, rfl⟩ := h
  · exact .unread code hth
  · refine .reconciled tid _ ref hth hsync ?_
    obtain ⟨as, hplane⟩ := plane_run hrun
    obtain ⟨before, after, htr⟩ := List.append_of_mem hstates
    obtain ⟨u, hmade⟩ := made_of_run hrun _ ((Machine.logged_of_run hplane).1 tid _ hth _ _ _ htr)
    obtain ⟨pre, i, post, c, shared, -, -, ⟨hscoped, -⟩, -, hexec⟩ := hmade
    cases i <;> simp only [Watching.answer, exec, reduceCtorEq, Option.ite_none_right_eq_some,
      Option.some.injEq,
      Prod.mk.injEq] at hexec
    obtain ⟨rfl, -, rfl⟩ := hexec
    exact hscoped y hy

theorem absence_from_filled_cache
    (hrun : Runs.Run (Joint.step cfg lib queueLimit) (Patient cfg lib queueLimit) {} steps s)
    {y : LogEntry Op.Ans Tid} (hy : y ∈ s.plane.log) {sink : String} {r : Record} {st : Inst}
    {k : String} {key : Key} {t : Ticket} {accepted : Bool}
    (he : y.event = ⟨.enqueue sink ⟨r, .delete st k key t⟩, accepted⟩) :
    ∃ before between after uid e l u,
      y.trace = before ++ ⟨.listerGet key, some l⟩ ::
        (between ++ ⟨.reserveDelete st key.cacheKey uid, .claimed e t⟩ :: after) ∧
      (∀ e ∈ between, ∀ key', e.1 ≠ .listerGet key') ∧ l.scopeActive = true ∧
      Made cfg lib queueLimit (Patient cfg lib queueLimit) steps
        ⟨y.tid, before, ⟨.listerGet key, some l⟩⟩ u ∧
      (l.obj = none → ∃ i ∈ u.watch.table.lookupIdentity key, ∃ informer,
        u.watch.pool i.informer = some informer ∧ informer.synced = true) := by
  obtain ⟨as, hplane⟩ := plane_run hrun
  obtain ⟨e, claimBefore, after, uid, l, htr, hlast, hact⟩ := claim_read hplane hy he
  obtain ⟨before, between, rfl, hbetween⟩ := lastLookup_split hlast
  rw [List.append_assoc, List.cons_append] at htr
  have hlogged := (Machine.logged_of_run hplane).2 y hy before _ _ htr
  obtain ⟨u, hmade⟩ := made_of_run hrun _ hlogged
  refine ⟨before, between, after, uid, e, l, u, htr, hbetween, hact, hmade, fun hobj => ?_⟩
  obtain ⟨pre, i, post, c, shared, -, hpre, -, hready, hexec⟩ := hmade
  have hfilled := not_stranded_of_run hpre
    (waiting_of_read hpre hready (lookup_entitled hplane hlogged rfl))
  obtain ⟨hne, hrunning⟩ := InterestTable.get_absent (exec_listerGet hexec) hact hobj
  by_contra hno
  refine hfilled ⟨hne, fun j hj => ?_⟩
  obtain ⟨informer, hp, hcopy⟩ := hrunning j hj
  cases hs : informer.synced with
  | true => exact absurd ⟨j, hj, informer, hp, hs⟩ hno
  | false => simp [hp, hs, hcopy]

def asks (s : Joint Sel) (tid : Tid) : Option Key :=
  match s.plane.threads tid with
  | some ⟨.op (.listerGet key) _, _⟩ => some key
  | _ => none

def Bare : JointStep Sel → Prop
  | .watch (.receive _ _) | .plane _ => False
  | .watch _ => True

instance (x : JointStep Sel) : Decidable (Bare x) := by
  induction x using JointStep.casesOn with
  | plane a => exact instDecidableFalse
  | watch w =>
    induction w using WatchStep.casesOn with
    | receive => exact instDecidableFalse
    | _ => exact instDecidableTrue

theorem patient_of_bare (h : Runs.Run (Joint.step cfg lib queueLimit) (fun _ x => Bare x) {} steps s) :
    Runs.Run (Joint.step cfg lib queueLimit) (Patient cfg lib queueLimit) {} steps s ∧ s.plane =
      { shared := {} } ∧
      ∀ k, ∀ informer ∈ s.watch.pool k, informer = {} := by
  induction h with
  | nil => exact ⟨.nil, rfl, fun _ _ h => (by cases h)⟩
  | @snoc s s' steps x _ hok hst ih =>
    obtain ⟨hrun, hplane, hempty⟩ := ih
    have idle (key : Key) : ¬ s.Waiting key := by
      intro h
      cases h with
      | queued hm => simp [hplane] at hm
      | unread _ ht | reconciled _ _ _ ht => simp [hplane] at ht
    obtain ⟨a, rfl, -⟩ | ⟨rfl, -⟩ | ⟨w, rfl, hmove, hp⟩ := step_cases hst
    · exact hok.elim
    · exact hok.elim
    · refine ⟨hrun.snoc ?_ hst, hp.trans hplane, fun k informer hk => ?_⟩
      · cases w with
        | receive => exact hok.elim
        | replace | launch => exact fun _ _ key hkey => absurd hkey (idle key)
        | _ => trivial
      · obtain hold | ⟨-, hnew⟩ | ⟨rfl, -⟩ := hmove.pool_cases hk
        · exact hempty k informer hold
        · exact hnew
        · exact hok.elim

end Joint

end Restarts

def Deletes (key : Key) (y : LogEntry Op.Ans Tid) : Prop :=
  match y.event with
  | ⟨.enqueue _ ⟨_, .delete _ _ key' _⟩, _⟩ => key' = key
  | _ => False

instance (key : Key) (y : LogEntry Op.Ans Tid) : Decidable (Deletes key y) := by
  unfold Deletes
  split <;> infer_instance

theorem Deletes.event {key : Key} {y : LogEntry Op.Ans Tid} (h : Deletes key y) :
    ∃ sink r st k t b, y.event = ⟨.enqueue sink ⟨r, .delete st k key t⟩, b⟩ := by
  unfold Deletes at h
  split at h
  · subst h
    exact ⟨_, _, _, _, _, _, ‹_›⟩
  · exact h.elim

def found (e : Sigma Op.Ans) : Option Json :=
  match e with
  | ⟨.listerGet _, some l⟩ => l.obj
  | _ => none

def FoundNothing (tr : Trace) : Prop := ∀ e ∈ tr, (found e).isNone = true

instance (tr : Trace) : Decidable (FoundNothing tr) := inferInstanceAs (Decidable (∀ e ∈ tr, _))

def absentInputs (ts : Nat) : List Input := [.go, .writer (some {}), .go, .go, .go, .time ts, .flag true]

def sampleInformer : InformerKey := ⟨⟨"", "v1", "pods"⟩, namespaceA⟩

def startedSteps : List (JointStep String) :=
  [.watch (.snapshot [podTarget "v1"])] ++ installSteps knowsPods 1 ++ serveSteps 1

def listing (synced : Bool) : JointStep String :=
  .watch (.receive sampleInformer ⟨synced,
    fun k => if k = "a/x" then some (sampleObject "u" 1) else none⟩)

def Settled (s : Joint String) : JointStep String → Prop
  | .plane a => s.Patient sampleConfig sampleWatchLib 10 (.plane a)
  | .watch (.receive _ informer) => informer.synced = true
  | .watch _ => False

instance (a : Action) : Decidable (Joint.Scoped a) := by
  induction a using Threads.Action.casesOn with
  | exec tid i =>
    induction i using Input.casesOn with
    | states ref l =>
      induction l using Option.casesOn with
      | some states => exact inferInstanceAs (Decidable (∀ x ∈ states, ref.Covers (ref.key x.ns x.name)))
      | none => exact instDecidableTrue
    | _ => exact instDecidableTrue
  | _ => exact instDecidableTrue

instance (s : Joint String) (x : JointStep String) : Decidable (Settled s x) := by
  induction x using JointStep.casesOn with
  | plane a => exact inferInstanceAs (Decidable (_ ∧ _))
  | watch w =>
    induction w using WatchStep.casesOn with
    | receive key informer => exact inferInstanceAs (Decidable (informer.synced = true))
    | _ => exact instDecidableFalse

theorem Settled.patient (s : Joint String) (x : JointStep String) (h : Settled s x) :
    s.Patient sampleConfig sampleWatchLib 10 x := by
  cases x with
  | plane a => exact h
  | watch w =>
    cases w with
    | receive key informer => exact fun old _ => .inl h
    | _ => exact h.elim

def lifeSteps : List (JointStep String) :=
  (addedSteps "u" 1 1 ++ landSteps 0).map .plane ++
    [listing true, .watch (.receive sampleInformer ⟨true, fun _ => none⟩)] ++
    (processSteps (absentInputs 2)).map .plane

theorem listed_absence_deleted : ∃ (s u : Joint String) (y : LogEntry Op.Ans Tid), y ∈ s.plane.log ∧
    Deletes sampleKey y ∧ FoundNothing y.trace ∧
      ∃ i ∈ u.watch.table.lookupIdentity sampleKey, ∃ informer,
        u.watch.pool i.informer = some informer ∧ informer.synced = true := by
  obtain ⟨t, hbare, hrest⟩ := Runs.Run.exists_of_exec (Joint.step sampleConfig sampleWatchLib 10)
    (fun _ x => Joint.Bare x) {} startedSteps
    (fun t => (t.step sampleConfig sampleWatchLib 10 (listing false)).any (fun u =>
      (Runs.exec (Joint.step sampleConfig sampleWatchLib 10) Settled u lifeSteps).any (fun s =>
        ∃ y ∈ s.plane.log, Deletes sampleKey y ∧ FoundNothing y.trace)) = true) (by decide)
  obtain ⟨hstart, -, hempty⟩ := Joint.patient_of_bare hbare
  obtain ⟨u, hu, hrest⟩ := (Option.any_eq_true _ _).mp hrest
  obtain ⟨s, hlife, y, hy, hdel, hnothing⟩ := Runs.Run.exists_of_exec _ _ u _ _ hrest
  have hlisting := hstart.snoc (a := listing false)
    (fun old hold => .inr (by simp [hempty _ old hold])) hu
  have hrun := hlisting.append (hlife.mono Settled.patient)
  obtain ⟨sink, r, st, k, t, b, he⟩ := hdel.event
  obtain ⟨before, between, after, uid, e, l, u, htr, -, -, -, hfilled⟩ :=
    Joint.absence_from_filled_cache hrun hy he
  have hread : ⟨.listerGet sampleKey, some l⟩ ∈ y.trace := htr ▸ List.mem_append_right _ (.head _)
  exact ⟨s, u, y, hy, hdel, hnothing, hfilled (Option.isNone_iff_eq_none.mp (hnothing _ hread))⟩

def evictionSteps (ref : ScopeRef) : List Action :=
  [.start (.evict ref) .run] ++ List.replicate 3 (.exec (.evict ref) .go) ++ [.finish (.evict ref)]

def seedInputs (ref : ScopeRef) : List Input :=
  [.reader .reader, .states ref (some [⟨namespaceA, "x", "u", "h1", "v1", 1⟩]), .go, .go]

def restartedSteps : List (JointStep String) :=
  startedSteps ++ [listing true] ++ (processSteps [.go, .writer none]).map .plane ++
    [.watch (.snapshot [])] ++ installSteps knowsPods 2 ++ [.watch .scopeStopped] ++
    (evictionSteps (podTarget "v1").key.ref).map .plane ++
    [.watch .evicted, .watch .retain, .watch .halt, .watch .halt, .watch (.serve .id), .watch .finish] ++
    [.watch (.snapshot [podTarget "v1"])] ++ installSteps knowsPods 3 ++ serveSteps 1 ++
    [.plane (.start (.warm 0) (.warm (podTarget "v1").key.ref 3 1))] ++
    (seedInputs (podTarget "v1").key.ref).map (.plane ∘ .exec (.warm 0)) ++
    [.plane (.start (.worker sampleKey) .run)]

/--
The informer that serves the scope again has not listed anything yet, and the object is recorded as
deleted.
-/
theorem unlisted_absence_deleted : ∃ u s : Joint String,
    Runs.Run (Joint.step sampleConfig sampleWatchLib 10) (fun _ _ => True) {} restartedSteps u ∧
      u.watch.Stranded sampleKey ∧ u.asks (.worker sampleKey) = some sampleKey ∧
      Runs.Run (Joint.step sampleConfig sampleWatchLib 10) (fun _ _ => True) u
        ((absentInputs 4).map (.plane ∘ .exec (.worker sampleKey))) s ∧
      ∃ y ∈ s.plane.log, y.tid = .worker sampleKey ∧ Deletes sampleKey y ∧ FoundNothing y.trace := by
  obtain ⟨u, hrun, hstranded, hasks, hrest⟩ :=
    Runs.Run.exists_of_exec (Joint.step sampleConfig sampleWatchLib 10)
    (fun _ _ => True) {} restartedSteps
    (fun u => u.watch.Stranded sampleKey ∧ u.asks (.worker sampleKey) = some sampleKey ∧
      (Runs.exec (Joint.step sampleConfig sampleWatchLib 10) (fun _ _ => True) u
        ((absentInputs 4).map (.plane ∘ .exec (.worker sampleKey)))).any (fun s =>
          ∃ y ∈ s.plane.log, y.tid = .worker sampleKey ∧ Deletes sampleKey y ∧
          FoundNothing y.trace) = true) (by decide)
  obtain ⟨s, hs, hy⟩ := Runs.Run.exists_of_exec _ _ u _ _ hrest
  exact ⟨u, s, hrun, hstranded, hasks, hs, hy⟩

end Kuberecord
