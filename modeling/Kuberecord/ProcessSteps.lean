import Kuberecord.Evidence
import Kuberecord.Solo
import Kuberecord.ProcessTags

namespace Kuberecord

open Threads

inductive Answer
  | absent
  | present (uid hash : String)
deriving DecidableEq

inductive Chore
  | other
  | failed
  | fresh
  | gone
  | claiming (t : Ticket) (ts : Option Nat)
  | shown (obj : Json)
  | normed (uid hash : String)
  | loaded (uid hash : String) (base : Option CacheEntry)
  | shut (uid hash : String) (ts : Option Nat)
  | reserved (uid hash : String) (t : Ticket) (ts : Option Nat)
  | done (answer : Answer)

def Key.At (key : Key) (st : Inst) (k : String) : Prop := st = key.home ∧ k = key.cacheKey

namespace Chore

section

variable (cfg : Config) (key : Key)

def MayReserve (uid hash : String) (st : Inst) (k : String) (e : CacheEntry) : Prop :=
  key.At st k ∧ e.uid = uid ∧ e.hash = hash ∧ e.pendingDelete = false

def Allowed : Chore → Op → Prop
  | .other, _ | .failed, _ => True
  | .fresh, o => o = .listerGet key
  | .gone, o =>
    match o with
    | .writerFor _ => True
    | .sinkState sink => sink = key.sink
    | .closeOutsTakeAll st k => key.At st k
    | .reserveDelete st k uid => key.At st k ∧ uid = ""
    | _ => False
  | .shown _, o =>
    match o with
    | .writerFor _ | .redactionFor _ => True
    | .sinkState sink => sink = key.sink
    | .closeOutsTakeAll st k => key.At st k
    | _ => False
  | .normed _ _, o =>
    match o with
    | .load st k => key.At st k
    | _ => False
  | .loaded uid hash base, o =>
    match o with
    | .scopeWarm _ _ => True
    | .dedupSkip => ∃ b, base = some b ∧ (b.uid = "" ∨ b.uid = uid) ∧ b.hash = hash
    | .reserveDelete st k _ => key.At st k
    | .reserve st k e => MayReserve key uid hash st k e
    | _ => False
  | .shut uid hash ts, o =>
    match o with
    | .now => True
    | .enqueue _ ⟨r, c⟩ => ts = some r.timestamp ∧ c = .closeOut key.home key.cacheKey key r
    | .reserve st k e => MayReserve key uid hash st k e
    | _ => False
  | .reserved uid hash t ts, o =>
    match o with
    | .now => True
    | .enqueue _ ⟨r, c⟩ => ts = some r.timestamp ∧ r.eventType ≠ .deleted ∧ r.uid = uid ∧
        r.sha256 = hash ∧
        ∃ e f, MayReserve key uid hash key.home key.cacheKey e ∧
        c = .upsert key.home key.cacheKey key t e f
    | _ => False
  | .claiming t ts, o =>
    match o with
    | .now => True
    | .enqueue _ ⟨r, c⟩ => ts = some r.timestamp ∧ r.eventType = .deleted ∧
        c = .delete key.home key.cacheKey key t
    | _ => False
  | .done _, _ => False

def orFailed (b : Bool) (p : Chore) : Chore := if b then p else .failed

def next : Chore → (o : Op) → o.Ans → Chore
  | .fresh, .listerGet _, some ⟨none, true⟩ => .gone
  | .fresh, .listerGet _, some ⟨some obj, true⟩ => .shown obj
  | .fresh, _, _ => .failed
  | .gone, .writerFor _, w => orFailed w.isSome .gone
  | .gone, .sinkState _, st => orFailed (st = key.home) .gone
  | .gone, .closeOutsTakeAll _ _, records => orFailed records.isEmpty .gone
  | .gone, .reserveDelete _ _ _, .claimed _ t => .claiming t none
  | .gone, .reserveDelete _ _ _, .absent | .gone, .reserveDelete _ _ _, .inFlight => .done .absent
  | .gone, _, _ => .failed
  | .claiming t _, .now, ts => .claiming t (some ts)
  | .claiming _ _, .enqueue _ _, accepted => orFailed accepted (.done .absent)
  | .shown obj, .writerFor _, w => orFailed w.isSome (.shown obj)
  | .shown obj, .sinkState _, st => orFailed (st = key.home) (.shown obj)
  | .shown obj, .closeOutsTakeAll _ _, records => orFailed records.isEmpty (.shown obj)
  | .shown obj, .redactionFor _, some policy =>
    match normalizeObject cfg.lib obj policy with
    | some norm => .normed norm.uid norm.hash
    | none => .failed
  | .shown _, _, _ => .failed
  | .normed uid hash, .load _ _, base => .loaded uid hash base
  | .loaded uid hash _, .dedupSkip, _ => .done (.present uid hash)
  | .loaded uid hash _, .reserveDelete _ _ _, _ => .shut uid hash none
  | .loaded uid hash _, .reserve _ _ _, t => .reserved uid hash t none
  | .shut uid hash _, .now, ts => .shut uid hash (some ts)
  | .shut uid hash _, .enqueue _ _, accepted => orFailed accepted (.shut uid hash none)
  | .shut uid hash _, .reserve _ _ _, t => .reserved uid hash t none
  | .reserved uid hash t _, .now, ts => .reserved uid hash t (some ts)
  | .reserved uid hash _ _, .enqueue _ _, accepted => orFailed accepted (.done (.present uid hash))
  | p, _, _ => p

def protocol : Protocol Op Op.Ans Chore where
  allowed := Allowed key
  answers := Op.Answers
  next := next cfg key

def start : Tid → Chore
  | .worker key' => if key' = key then .fresh else .other
  | _ => .other

def Ended : Tid → Option Err → Chore → Prop
  | .worker key', _, p => key' = key → p = .failed ∨ ∃ answer, p = .done answer
  | _, _, _ => True

end

variable {cfg : Config} {key : Key} {α : Type}

def Over (p : Chore) : Prop := p = .failed ∨ ∃ answer, p = .done answer

theorem obeys_failed (x : Prog α) : (protocol cfg key).Obeys x .failed (fun _ p => p = .failed) :=
  (protocol cfg key).obeys_of_absorbing x (fun _ => ⟨trivial, fun _ => rfl⟩) (fun _ => rfl)

theorem over_failed (x : Prog α) : (protocol cfg key).Obeys x .failed (fun _ p => p.Over) :=
  (obeys_failed x).mono _ fun _ _ h => .inl h

theorem issueUpsert_obeys {p : Chore} {norm : NormalizedObject} {plan : Plan}
    (hp : plan.eventType ≠ .deleted)
    (hall : ∀ e, MayReserve key norm.uid norm.hash key.home key.cacheKey e →
      Allowed key p (.reserve key.home key.cacheKey e))
    (hnext : ∀ e t, next cfg key p (.reserve key.home key.cacheKey e) t =
      .reserved norm.uid norm.hash t none) :
    (protocol cfg key).Obeys (issueUpsert cfg key key.home norm plan) p (fun _ p => p.Over) := by
  simp only [issueUpsert, Program.perform_bind, Protocol.obeys_op]
  refine ⟨hall _ ⟨⟨rfl, rfl⟩, rfl, rfl, rfl⟩, fun t _ => ?_⟩
  simp only [protocol, hnext]
  refine ⟨trivial, fun ts _ => ⟨⟨rfl, hp, rfl, rfl, _, _, ⟨⟨rfl, rfl⟩, rfl, rfl, rfl⟩, rfl⟩,
    fun accepted _ => ?_⟩⟩
  cases accepted with
  | true => exact .inr ⟨_, rfl⟩
  | false => exact over_failed _

theorem closeOutSuperseded_obeys {uid hash : String} {e : CacheEntry} (he : key.ephemeral = false) :
    (protocol cfg key).Obeys (closeOutSuperseded cfg key key.home e) (.loaded uid hash (some e))
      (fun _ p => p = .failed ∨ ∃ ts, p = .shut uid hash ts) := by
  simp only [closeOutSuperseded, he, Bool.false_eq_true, ↓reduceIte, Program.perform_bind,
    Protocol.obeys_op]
  refine ⟨⟨rfl, rfl⟩, fun claim _ => ?_⟩
  cases claim with
  | absent | inFlight | uidMismatch => exact .inr ⟨none, rfl⟩
  | claimed e t =>
    refine ⟨trivial, fun ts _ => ⟨⟨rfl, rfl⟩, fun accepted _ => ?_⟩⟩
    cases accepted with
    | true => exact .inr ⟨none, rfl⟩
    | false => exact (obeys_failed _).mono _ fun _ _ h => .inl h

theorem processUpsert_obeys {writer : Writer} {obj : Json} (he : key.ephemeral = false) :
    (protocol cfg key).Obeys (processUpsert cfg key key.home writer obj) (.shown obj)
    (fun _ p => p.Over) := by
  simp only [processUpsert, Program.perform_bind, Protocol.obeys_op]
  refine ⟨trivial, fun policy _ => ?_⟩
  cases policy with
  | none => exact .inl rfl
  | some policy =>
    simp only [protocol, next]
    cases hnorm : normalizeObject cfg.lib obj policy with
    | none => exact .inl rfl
    | some norm =>
      refine ⟨⟨rfl, rfl⟩, fun entry _ => ?_⟩
      cases entry with
      | none =>
        simp only [he, Bool.false_eq_true, ↓reduceIte]
        refine ⟨trivial, fun warm _ => issueUpsert_obeys ?_ (fun _ h => h) (fun _ _ => rfl)⟩
        cases warm <;> simp
      | some e =>
        simp only
        split_ifs with hsup hhash
        · refine Protocol.Obeys.bind _ (closeOutSuperseded_obeys he) ?_
          rintro _ _ (rfl | ⟨ts, rfl⟩)
          · exact over_failed _
          · exact issueUpsert_obeys (by simp) (fun _ h => h) (fun _ _ => rfl)
        · refine ⟨⟨e, rfl, ?_, hhash⟩, fun _ _ => .inr ⟨_, rfl⟩⟩
          by_cases hu : e.uid = ""
          · exact .inl hu
          · exact .inr (by_contra fun hne => hsup ⟨hu, hne⟩)
        · refine issueUpsert_obeys ?_ (fun _ h => h) (fun _ _ => rfl)
          rcases modifiedPlan_eventType cfg.lib key.ephemeral (checkpointEveryFor writer) e norm with hm | hm <;>
            simp [hm]

theorem emitDelete_obeys : (protocol cfg key).Obeys (emitDelete cfg key key.home "")
    .gone (fun _ p => p.Over) := by
  simp only [emitDelete, Program.perform_bind, Protocol.obeys_op]
  refine ⟨⟨⟨rfl, rfl⟩, rfl⟩, fun claim _ => ?_⟩
  cases claim with
  | absent | inFlight => exact .inr ⟨_, rfl⟩
  | uidMismatch => exact .inl rfl
  | claimed e t =>
    refine ⟨trivial, fun ts _ => ⟨⟨rfl, rfl, rfl⟩, fun accepted _ => ?_⟩⟩
    cases accepted with
    | true => exact .inr ⟨_, rfl⟩
    | false => exact over_failed _

theorem attend_obeys {p : Chore} (hp : p = .gone ∨ ∃ obj, p = .shown obj) {f : Inst → Prog (Option Err)}
    (hf : (protocol cfg key).Obeys (f key.home) p (fun _ p => p.Over)) :
    (protocol cfg key).Obeys (do
      let st ← call (.sinkState key.sink)
      retryPendingCloseOuts key st key.cacheKey
      f st) p (fun _ p => p.Over) := by
  have hall : Allowed key p (.sinkState key.sink) ∧
    Allowed key p (.closeOutsTakeAll key.home key.cacheKey) := by
    rcases hp with rfl | ⟨obj, rfl⟩ <;> exact ⟨rfl, rfl, rfl⟩
  have hst (st : Inst) : next cfg key p (.sinkState key.sink) st = orFailed (st = key.home) p := by
    rcases hp with rfl | ⟨obj, rfl⟩ <;> rfl
  have htake (records : List Record) :
      next cfg key p (.closeOutsTakeAll key.home key.cacheKey) records = orFailed records.isEmpty p := by
    rcases hp with rfl | ⟨obj, rfl⟩ <;> rfl
  refine ⟨hall.1, fun st _ => ?_⟩
  simp only [protocol, hst]
  by_cases hhome : st = key.home
  · subst hhome
    simp only [orFailed, decide_true, ↓reduceIte]
    refine ⟨hall.2, fun records _ => ?_⟩
    simp only [htake]
    cases records with
    | nil => exact hf
    | cons r records => exact over_failed _
  · simp only [orFailed, hhome, decide_false, Bool.false_eq_true, ↓reduceIte]
    exact over_failed _

theorem process_obeys (he : key.ephemeral = false) :
    (protocol cfg key).Obeys (process cfg key) .fresh (fun _ p => p.Over) := by
  simp only [process, Program.perform_bind, Protocol.obeys_op]
  refine ⟨rfl, fun lookup _ => ?_⟩
  cases lookup with
  | none => exact .inl rfl
  | some l =>
    obtain ⟨obj, active⟩ := l
    cases obj with
    | none =>
      cases active with
      | false => exact .inl rfl
      | true =>
        simp only [he, Bool.and_false, Bool.false_eq_true, ↓reduceIte, Bool.not_true]
        refine ⟨trivial, fun writer _ => ?_⟩
        cases writer with
        | none => exact .inl rfl
        | some writer =>
          refine attend_obeys (.inl rfl) ?_
          exact Protocol.Obeys.bind _ emitDelete_obeys (fun _ _ h => h)
    | some obj =>
      cases active with
      | false => exact .inl rfl
      | true =>
        simp only [he, Bool.and_false, Bool.false_eq_true, ↓reduceIte, Bool.not_true]
        refine ⟨trivial, fun writer _ => ?_⟩
        cases writer with
        | none => exact .inl rfl
        | some writer => exact attend_obeys (.inr ⟨obj, rfl⟩) (processUpsert_obeys he)

theorem safe (cfg : Config) (he : key.ephemeral = false) :
    (machine cfg).Safe (protocol cfg key) (start key) (Ended key) := by
  refine ⟨fun shared tid b shared' code hs => ?_, (machine_safe cfg).answers⟩
  have free (hst : start key tid = .other) (hq : ∀ a, Ended key tid a .other) :
      (protocol cfg key).Obeys code (start key tid) (Ended key tid) := by
    rw [hst]
    exact (protocol cfg key).obeys_of_absorbing code (fun _ => ⟨trivial, fun _ => rfl⟩) hq
  cases tid with
  | worker key' =>
    by_cases hk : key' = key
    · subst hk
      cases b <;> simp only [machine, Kuberecord.start, Option.ite_none_right_eq_some, Option.some.injEq,
        Prod.mk.injEq, reduceCtorEq] at hs
      rw [← hs.2.2, start, if_pos rfl]
      exact (process_obeys he).mono _ fun _ _ h _ => h
    · exact free (if_neg hk) (fun _ h => absurd h hk)
  | warm | boot | evict => exact free rfl fun _ => trivial

end Chore

end Kuberecord
