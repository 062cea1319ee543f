import Kuberecord.Evidence
import Kuberecord.Watch.BootClosings
import Kuberecord.Watch.Reinstalls

namespace Kuberecord

open Threads

theorem lastLookup_split {tr : Trace} {key : Key} {l : Lookup} (h : lastLookup tr = some (key, l)) :
    ∃ before after, tr = before ++ ⟨.listerGet key, some l⟩ :: after ∧
      ∀ e ∈ after, ∀ key', e.1 ≠ .listerGet key' := by
  induction tr using List.reverseRecOn with
  | nil => cases h
  | append_singleton tr e ih =>
    obtain ⟨o, a⟩ := e
    by_cases ho : ∃ key', o = .listerGet key'
    · obtain ⟨key', rfl⟩ := ho
      have ha : (a : Option Lookup).map (key', ·) = some (key, l) := by simpa [lastLookup] using h
      obtain ⟨l', rfl, hl⟩ := Option.map_eq_some_iff.mp ha
      cases hl
      exact ⟨tr, [], rfl, fun _ he => (by cases he)⟩
    · rw [lastLookup_snoc tr o a fun key' he => ho ⟨key', he⟩] at h
      obtain ⟨before, after, rfl, hafter⟩ := ih h
      refine ⟨before, after ++ [⟨o, a⟩], by simp, fun e he key' hkey => ?_⟩
      rcases List.mem_append.mp he with he | he
      · exact hafter e he key' hkey
      · cases List.mem_singleton.mp he
        exact ho ⟨key', hkey⟩

def ClaimRead (st : Inst) (key : Key) (e : CacheEntry) (t : Ticket) (tr : Trace) : Prop :=
  ∃ before after uid l,
    tr = before ++ (⟨.reserveDelete st key.cacheKey uid, .claimed e t⟩ : Sigma Op.Ans) :: after ∧
    lastLookup before = some (key, l) ∧ l.scopeActive = true

theorem ClaimRead.snoc {st : Inst} {key : Key} {e : CacheEntry} {t : Ticket} {tr : Trace}
    (h : ClaimRead st key e t tr) (x : Sigma Op.Ans) : ClaimRead st key e t (tr ++ [x]) := by
  obtain ⟨before, after, uid, l, rfl, hrest⟩ := h
  exact ⟨before, after ++ [x], uid, l, by simp, hrest⟩

section Reads

variable {cfg : Config} {h : Hand} {tr : Trace} {o : Op} {a : o.Ans} {st : Inst} {k : String}
  {e : CacheEntry}
  {t : Ticket} {ts : Option Nat}

theorem Phase.outsOf_ne_claimed {rs : List Record} {st' : Inst} {k' : String} :
    Phase.outsOf st' k' rs ≠ .claimed st k e t ts := by
  cases rs <;> simp [Phase.outsOf]

theorem Hand.claimed_of_next (hn : h.nextPhase cfg o a = .claimed st k e t ts) :
    (∃ ts', h.phase = .claimed st k e t ts') ∨
      ∃ uid, (⟨o, a⟩ : Sigma Op.Ans) = ⟨.reserveDelete st k uid, .claimed e t⟩ ∧
        ∀ st' k' b, h.phase ≠ .loaded st' k' (some b) := by
  cases o with
  | reserveDelete st' k' uid =>
    simp only [nextPhase] at hn
    split at hn
    · cases hn
    · cases hn
    · rename_i hfree
      cases hn
      exact .inr ⟨uid, rfl, fun st' k' b hp => hfree st' k' b hp⟩
    · exact .inl ⟨ts, hn⟩
  | now =>
    simp only [nextPhase] at hn
    split at hn
    · rename_i hp
      cases hn
      exact .inl ⟨none, hp⟩
    · cases hn
    · cases hn
    · exact .inl ⟨ts, hn⟩
  | load | commitIfCurrent | deleteIfCurrent | unclaimDelete => cases hn
  | reserve =>
    simp only [nextPhase] at hn
    split at hn
    · cases hn
    · cases hn
    · exact .inl ⟨ts, hn⟩
  | enqueue | closeOutsAdd =>
    simp only [nextPhase] at hn
    split at hn
    all_goals first | exact .inl ⟨ts, hn⟩ | exact absurd hn Phase.outsOf_ne_claimed | cases hn
  | closeOutsTakeAll => exact absurd hn Phase.outsOf_ne_claimed
  | _ => exact .inl ⟨ts, hn⟩

structure Hand.Told (h : Hand) (tr : Trace) : Prop where
  lookup : h.seen.lookup = lastLookup tr
  claimed : ∀ st k e t ts, h.phase = .claimed st k e t ts →
    ∃ key : Key, key.Owns st k ∧ ClaimRead st key e t tr

theorem Hand.Told.next (ht : h.Told tr) (hall : h.Allowed cfg o) :
    (h.next cfg o a).Told (tr ++ [⟨o, a⟩]) := by
  refine ⟨?_, fun st k e t ts hp => ?_⟩
  · cases o with
    | listerGet key =>
      rw [lastLookup, List.foldl_append]
      rfl
    | _ => exact ht.lookup.trans (lastLookup_snoc tr _ a (by simp)).symm
  · rcases Hand.claimed_of_next hp with ⟨ts', hp⟩ | ⟨uid, heq, hfree⟩
    · obtain ⟨key, hk, hread⟩ := ht.claimed st k e t ts' hp
      exact ⟨key, hk, hread.snoc _⟩
    · cases heq
      obtain ⟨-, -, key, hk, hmay⟩ | ⟨key, b, norm, -, -, -, -, -, -, hp⟩ := hall
      · obtain ⟨l, hl, hact⟩ : ∃ l, h.seen.lookup = some (key, l) ∧ l.scopeActive = true := by
          obtain ⟨-, l, hl, hact, -⟩ | ⟨-, ⟨l, hl, hact, -⟩, -⟩ := hmay
          · exact ⟨l, hl, hact⟩
          · exact ⟨l, hl, hact⟩
        refine ⟨key, hk, tr, [], uid, l, ?_, ht.lookup ▸ hl, hact⟩
        rw [hk.2]
      · exact absurd hp (hfree st k b)

theorem claim_read {as : List Action} {s : System}
    (hrun : Runs.Run (machine cfg).step (fun _ _ => True) { shared := {} } as s)
    {x : LogEntry Op.Ans Tid} (hx : x ∈ s.log) {sink : String} {r : Record} {key : Key} {b : Bool}
    (he : x.event = ⟨.enqueue sink ⟨r, .delete st k key t⟩, b⟩) : ∃ e, ClaimRead st key e t x.trace := by
  have htold := (machine_safe cfg).trace_invariant (B := fun _ h tr => h.Told tr) hrun
    (fun tid => ⟨rfl, fun _ _ _ _ _ hp => (by cases hp)⟩)
    fun s tid i o tr s' a _ _ hall _ ht => ht.next hall
  obtain ⟨hall, ht⟩ := htold.2 x hx
  rw [he] at hall
  obtain ⟨e, ts, hk, -, -, hp, -⟩ := hall
  obtain ⟨key', hk', hread⟩ := ht.claimed st k e t _ hp
  exact ⟨e, hk.unique hk' ▸ hread⟩

end Reads

section Lister

variable {Sel : Type}

theorem InterestTable.get_absent {t : InterestTable Sel} {pool : Pool} {key : Key} {l : Lookup}
    (h : (t.get pool key).lookup = some l) (hact : l.scopeActive = true) (hobj : l.obj = none) :
    t.lookupIdentity key ≠ [] ∧ ∀ i ∈ t.lookupIdentity key,
      ∃ informer, pool i.informer = some informer ∧ informer.indexer key.informerCacheKey = none := by
  unfold InterestTable.get at h
  cases ht : t.lookupIdentity key with
  | nil =>
    rw [ht] at h
    cases h
    cases hact
  | cons i interests =>
    rw [ht] at h
    obtain ⟨ho, -, -⟩ := consult_obj pool key.informerCacheKey (i :: interests) none
    have herr := consult_err pool key.informerCacheKey (i :: interests) none
    simp only [GetAnswer.lookup] at h
    split at h
    · cases h
    · rename_i hnone
      cases h
      have hno : (i :: interests).findSome? (ScopeInterest.copy pool key.informerCacheKey) = none :=
        ho.symm.trans hobj
      rw [hnone, hno] at herr
      refine ⟨List.cons_ne_nil _ _, fun j hj => ?_⟩
      cases hp : pool j.informer with
      | none =>
        have hany : (i :: interests).any (fun i => (pool i.informer).isNone) = true :=
          List.any_eq_true.mpr ⟨j, hj, by rw [hp]; rfl⟩
        rw [hany] at herr
        cases herr
      | some informer =>
        refine ⟨informer, rfl, ?_⟩
        have hcopy := List.findSome?_eq_none_iff.mp hno j hj
        rwa [ScopeInterest.copy, hp] at hcopy

namespace Joint

variable {cfg : Config} {lib : WatchLib Sel} {queueLimit : Nat} {ok : Joint Sel → JointStep Sel → Prop}
  {s s' : Joint Sel} {x : JointStep Sel} {steps : List (JointStep Sel)}

theorem log_step (h : s.step cfg lib queueLimit x = some s') : s'.plane.log = s.plane.log ∨
    ∃ t i o c tr shared a, x = .plane (.exec t i) ∧ s.plane.threads t = some ⟨.op o c, tr⟩ ∧
      exec s.plane.shared t o (s.watch.answer o i) = some (shared, a) ∧
      s'.plane.log = s.plane.log ++ [⟨t, tr, ⟨o, a⟩⟩] := by
  obtain ⟨a, rfl, -, hp, -⟩ | ⟨-, hp, -⟩ | ⟨w, -, -, hp⟩ := step_cases h
  · cases a with
    | exec t i =>
      simp only [supply] at hp
      split at hp
      · rename_i o c tr ht
        simp only [Machine.step, ht] at hp
        split at hp
        · rename_i shared a hx
          rw [← Option.some.inj hp]
          exact .inr ⟨t, i, o, c, tr, shared, a, rfl, ht, hx, rfl⟩
        · cases hp
      · simp only [Machine.step] at hp
        cases hp
    | start | finish | env | crash =>
      refine .inl ?_
      generalize s'.plane = plane at hp
      cases (machine cfg).step_cases hp
      rfl
  · refine .inl ?_
    generalize s'.plane = plane at hp
    cases (machine cfg).step_cases hp
    rfl
  · exact .inl (congrArg _ hp)

def Made (cfg : Config) (lib : WatchLib Sel) (queueLimit : Nat) (ok : Joint Sel → JointStep Sel → Prop)
    (steps : List (JointStep Sel)) (x : LogEntry Op.Ans Tid) (u : Joint Sel) : Prop :=
  ∃ before i after c shared, steps = before ++ .plane (.exec x.tid i) :: after ∧
    Runs.Run (Joint.step cfg lib queueLimit) ok {} before u ∧ ok u (.plane (.exec x.tid i)) ∧
    u.plane.threads x.tid = some ⟨.op x.event.1 c, x.trace⟩ ∧
    exec u.plane.shared x.tid x.event.1 (u.watch.answer x.event.1 i) = some (shared, x.event.2)

theorem made_of_run (h : Runs.Run (Joint.step cfg lib queueLimit) ok {} steps s) :
    ∀ x ∈ s.plane.log, ∃ u, Made cfg lib queueLimit ok steps x u := by
  induction h with
  | nil => exact fun _ hx => (by cases hx)
  | @snoc s s' steps x hrun hok hst ih =>
    have old : ∀ y ∈ s.plane.log, ∃ u, Made cfg lib queueLimit ok (steps ++ [x]) y u := by
      intro y hy
      obtain ⟨u, before, i, after, c, shared, rfl, hrest⟩ := ih y hy
      exact ⟨u, before, i, after ++ [x], c, shared, by simp, hrest⟩
    intro y hy
    obtain hlog | ⟨t, i, o, c, tr, shared, a, rfl, ht, hx, hlog⟩ := log_step hst
    · exact old y (hlog ▸ hy)
    · rw [hlog] at hy
      rcases List.mem_append.mp hy with hy | hy
      · exact old y hy
      · cases List.mem_singleton.mp hy
        exact ⟨s, steps, i, [], c, shared, rfl, hrun, hok, ht, hx⟩

end Joint

end Lister

end Kuberecord
