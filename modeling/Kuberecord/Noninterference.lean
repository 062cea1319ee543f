import Kuberecord.UnreadFields
import Kuberecord.LostWrites

/-!
Redaction is non-interfering. Two runs that differ only in values the policies redact issue the same
rows, up to the fields that normalization takes from the object as it is, and skip the same
observations.
-/

namespace Kuberecord

open Threads

def observed (p : Option Json) : Sigma Op.Ans → Option Json
  | ⟨.listerGet _, l⟩ => l.bind Lookup.obj
  | _ => p

def Hides (p q : Option Json) (policy : Option (Option RedactionPolicy)) : Prop :=
  ∀ pol ∈ policy, ∀ obj ∈ p, ∀ obj' ∈ q, Lookalike pol obj obj'

def lookalikes : Coupling Op Op.Ans (Option Json) where
  ops o o' := o'.blur = o.blur
  answers p q e e' := gist e' = gist e ∧
    match e with
    | ⟨.redactionFor _, policy⟩ => Hides p q policy
    | _ => True
  next := observed

/-- What the environment may answer in the second run if it answers `i` in the first. -/
def InputsAlike (p q : Option Json) (i i' : Input) : Prop :=
  i'.blur = i.blur ∧
    match i with
    | .policy policy => Hides p q policy
    | _ => True

section

variable {α : Type} {p q : Option Json} {R : α → Option Json → α → Option Json → Prop}
variable {st : Inst} {objectKey : String}

def Op.plain : Op → Bool
  | .listerGet _ | .redactionFor _ | .load _ _ | .reserve _ _ _ | .reserveDelete _ _ _
  | .commitIfCurrent _ _ _ _ | .storeIfAbsent _ _ _ | .closeOutsAdd _ _ _ | .closeOutsTakeAll _ _ | .lastKnownStates _
  | .enqueue _ _ => false
  | _ => true

theorem gist_plain {o : Op} (ho : o.plain = true) (a : o.Ans) : gist ⟨o, a⟩ = ⟨o, a⟩ := by
  cases o <;> first | rfl | cases ho

theorem observed_plain {o : Op} (ho : o.plain = true) (a : o.Ans) : observed p ⟨o, a⟩ = p := by
  cases o <;> first | rfl | cases ho

theorem rel_plain {o : Op} (ho : o.plain = true) {k k' : o.Ans → Prog α}
    (hk : ∀ a, lookalikes.Rel (k a) p (k' a) q R) :
    lookalikes.Rel (call o >>= k) p (call o >>= k') q R := by
  refine lookalikes.rel_op rfl fun a a' ha => ?_
  have h := ha.1
  rw [gist_plain ho, gist_plain ho] at h
  cases h
  show lookalikes.Rel _ (observed p _) _ (observed q _) R
  rw [observed_plain ho, observed_plain ho]
  exact hk a

theorem rel_enqueue {sink : String} {job job' : Job} (hjob : job'.blur = job.blur) {k k' : Bool → Prog α}
    (hk : ∀ ok, lookalikes.Rel (k ok) p (k' ok) q R) :
    lookalikes.Rel (call (.enqueue sink job) >>= k) p (call (.enqueue sink job') >>= k') q R := by
  refine lookalikes.rel_op (congrArg (Op.enqueue sink) hjob) fun a a' ha => ?_
  obtain rfl : a' = a := eq_of_heq (Sigma.mk.inj ha.1).2
  exact hk a'

theorem rel_reserve {entry entry' : CacheEntry} (hentry : entry'.blur = entry.blur)
    {k k' : Ticket → Prog α} (hk : ∀ t, lookalikes.Rel (k t) p (k' t) q R) :
    lookalikes.Rel (call (.reserve st objectKey entry) >>= k) p
      (call (.reserve st objectKey entry') >>= k') q R := by
  refine lookalikes.rel_op (congrArg (Op.reserve st objectKey) hentry) fun a a' ha => ?_
  obtain rfl : a' = a := eq_of_heq (Sigma.mk.inj ha.1).2
  exact hk a'

theorem rel_commitIfCurrent {t : Ticket} {entry entry' : CacheEntry}
    (hentry : entry'.blur = entry.blur) {k k' : Bool → Prog α}
    (hk : ∀ ok, lookalikes.Rel (k ok) p (k' ok) q R) :
    lookalikes.Rel (call (.commitIfCurrent st objectKey t entry) >>= k) p
      (call (.commitIfCurrent st objectKey t entry') >>= k') q R := by
  refine lookalikes.rel_op (congrArg (Op.commitIfCurrent st objectKey t) hentry) fun a a' ha => ?_
  obtain rfl : a' = a := eq_of_heq (Sigma.mk.inj ha.1).2
  exact hk a'

theorem rel_closeOutsAdd {record record' : Record}
    (hrecord : record'.blur = record.blur) {k k' : Unit → Prog α}
    (hk : lookalikes.Rel (k ()) p (k' ()) q R) :
    lookalikes.Rel (call (.closeOutsAdd st objectKey record) >>= k) p
      (call (.closeOutsAdd st objectKey record') >>= k') q R :=
  lookalikes.rel_op (congrArg (Op.closeOutsAdd st objectKey) hrecord) fun _ _ _ => hk

theorem rel_load {k k' : Option CacheEntry → Prog α}
    (hk : ∀ e e' : Option CacheEntry, e'.map CacheEntry.blur = e.map CacheEntry.blur →
      lookalikes.Rel (k e) p (k' e') q R) :
    lookalikes.Rel (call (.load st objectKey) >>= k) p (call (.load st objectKey) >>= k') q R :=
  lookalikes.rel_op rfl fun a a' ha => hk a a' (eq_of_heq (Sigma.mk.inj ha.1).2)

theorem rel_reserveDelete {expectedUID : String} {k k' : DeleteClaim → Prog α}
    (hk : ∀ c c' : DeleteClaim, c'.blur = c.blur → lookalikes.Rel (k c) p (k' c') q R) :
    lookalikes.Rel (call (.reserveDelete st objectKey expectedUID) >>= k) p
      (call (.reserveDelete st objectKey expectedUID) >>= k') q R :=
  lookalikes.rel_op rfl fun a a' ha => hk a a' (eq_of_heq (Sigma.mk.inj ha.1).2)

theorem rel_closeOutsTakeAll {k k' : List Record → Prog α}
    (hk : ∀ rs rs' : List Record, rs'.map Record.blur = rs.map Record.blur →
      lookalikes.Rel (k rs) p (k' rs') q R) :
    lookalikes.Rel (call (.closeOutsTakeAll st objectKey) >>= k) p
      (call (.closeOutsTakeAll st objectKey) >>= k') q R :=
  lookalikes.rel_op rfl fun a a' ha => hk a a' (eq_of_heq (Sigma.mk.inj ha.1).2)

theorem rel_lastKnownStates {ref : ScopeRef} {k k' : Option (List KnownState) → Prog α}
    (hk : ∀ l l' : Option (List KnownState), l'.map (·.map KnownState.blur) =
      l.map (·.map KnownState.blur) →
      lookalikes.Rel (k l) p (k' l') q R) :
    lookalikes.Rel (call (.lastKnownStates ref) >>= k) p (call (.lastKnownStates ref) >>= k') q R :=
  lookalikes.rel_op rfl fun a a' ha => hk a a' (eq_of_heq (Sigma.mk.inj ha.1).2)

theorem rel_listerGet {key : Key} {k k' : Option Lookup → Prog α}
    (hk : ∀ l l' : Option Lookup, l'.map Lookup.blur = l.map Lookup.blur →
      lookalikes.Rel (k l) (l.bind Lookup.obj) (k' l') (l'.bind Lookup.obj) R) :
    lookalikes.Rel (call (.listerGet key) >>= k) p (call (.listerGet key) >>= k') q R :=
  lookalikes.rel_op rfl fun a a' ha => hk a a' (eq_of_heq (Sigma.mk.inj ha.1).2)

theorem rel_redactionFor {key : Key} {k k' : Option (Option RedactionPolicy) → Prog α}
    (hk : ∀ policy, Hides p q policy → lookalikes.Rel (k policy) p (k' policy) q R) :
    lookalikes.Rel (call (.redactionFor key) >>= k) p (call (.redactionFor key) >>= k') q R := by
  refine lookalikes.rel_op rfl fun a a' ha => ?_
  obtain rfl : a' = a := eq_of_heq (Sigma.mk.inj ha.1).2
  exact hk a' ha.2

end

theorem forall₂_of_map_eq {α β : Type} {f : α → β} {xs ys : List α} (h : ys.map f = xs.map f) :
    List.Forall₂ (fun x y => f y = f x) xs ys := by
  have heq : List.Forall₂ (· = ·) (xs.map f) (ys.map f) := by rw [h, List.forall₂_eq_eq_eq]
  rw [List.forall₂_map_left_iff, List.forall₂_map_right_iff] at heq
  exact heq.imp fun _ _ he => he.symm

section

variable {p q : Option Json} {cfg : Config} {key : Key} {st : Inst} {objectKey : String}
variable {entry entry' : CacheEntry}

theorem enqueueCloseOut_rel {record record' : Record} (h : record'.blur = record.blur) :
    lookalikes.Rel (enqueueCloseOut key st objectKey record) p
      (enqueueCloseOut key st objectKey record') q
      (fun _ p' _ q' => p' = p ∧ q' = q) := by
  refine rel_enqueue (by simp [Job.blur, Commit.blur, h]) fun accepted => ?_
  cases accepted with
  | true => exact lookalikes.rel_ret ⟨rfl, rfl⟩
  | false => exact rel_closeOutsAdd h (rel_plain rfl fun _ => lookalikes.rel_ret ⟨rfl, rfl⟩)

theorem retryPendingCloseOuts_rel :
    lookalikes.Rel (retryPendingCloseOuts key st objectKey) p (retryPendingCloseOuts key st objectKey) q
      (fun _ p' _ q' => p' = p ∧ q' = q) := by
  refine rel_closeOutsTakeAll fun rs rs' h => ?_
  refine Coupling.Rel.forM lookalikes (fun r r' p' q' hr hI => ?_) (forall₂_of_map_eq h) ⟨rfl, rfl⟩
  obtain ⟨rfl, rfl⟩ := hI
  exact enqueueCloseOut_rel hr

theorem CacheEntry.uid_of_blur (h : entry'.blur = entry.blur) : entry'.uid = entry.uid :=
  (congrArg CacheEntry.uid h :)

theorem CacheEntry.hash_of_blur (h : entry'.blur = entry.blur) : entry'.hash = entry.hash :=
  (congrArg CacheEntry.hash h :)

theorem closing_blur {clusterID : String} {ts : Nat} (h : entry'.blur = entry.blur) :
    (Record.closing clusterID key ts entry'.apiVersion entry'.uid).blur =
      (Record.closing clusterID key ts entry.apiVersion entry.uid).blur := by
  have huid : entry'.uid = entry.uid := CacheEntry.uid_of_blur h
  simp [Record.closing, Record.blur, huid]

theorem DeleteClaim.cases_of_blur {c c' : DeleteClaim} (h : c'.blur = c.blur) :
    (∃ entry entry' t, c = .claimed entry t ∧ c' = .claimed entry' t ∧ entry'.blur = entry.blur) ∨
      c' = c ∧ ∀ entry t, c ≠ .claimed entry t := by
  cases c <;> cases c' <;> first | cases h | skip
  case claimed.claimed entry t entry' t' =>
    simp only [DeleteClaim.blur, DeleteClaim.claimed.injEq] at h
    obtain ⟨hentry, rfl⟩ := h
    exact .inl ⟨entry, entry', t', rfl, rfl, hentry⟩
  all_goals exact .inr ⟨rfl, fun _ _ => by simp⟩

theorem emitDelete_rel {expectedUID : String} :
    lookalikes.Rel (emitDelete cfg key st expectedUID) p (emitDelete cfg key st expectedUID) q
      (fun r _ r' _ => r'.1.blur = r.1.blur ∧ r'.2 = r.2) := by
  refine rel_reserveDelete fun c c' hc => ?_
  rcases DeleteClaim.cases_of_blur hc with ⟨entry, entry', t, rfl, rfl, hentry⟩ | ⟨rfl, hne⟩
  · refine rel_plain rfl fun ts => ?_
    refine rel_enqueue (by simp [Job.blur, Commit.blur, closing_blur hentry]) fun accepted => ?_
    cases accepted with
    | true => exact lookalikes.rel_ret ⟨hc, rfl⟩
    | false => exact rel_plain rfl fun _ => lookalikes.rel_ret ⟨hc, rfl⟩
  · cases c' with
    | claimed entry t => exact absurd rfl (hne entry t)
    | absent | inFlight | uidMismatch => exact lookalikes.rel_ret ⟨rfl, rfl⟩

theorem forgetEphemeral_rel :
    lookalikes.Rel (forgetEphemeral key st) p (forgetEphemeral key st) q (fun _ _ _ _ => True) := by
  refine rel_reserveDelete fun c c' hc => ?_
  rcases DeleteClaim.cases_of_blur hc with ⟨entry, entry', t, rfl, rfl, -⟩ | ⟨rfl, hne⟩
  · exact rel_plain rfl fun _ => lookalikes.rel_ret trivial
  · cases c' with
    | claimed entry t => exact absurd rfl (hne entry t)
    | absent | inFlight | uidMismatch => exact lookalikes.rel_ret trivial

theorem closeOutSuperseded_rel (h : entry'.blur = entry.blur) :
    lookalikes.Rel (closeOutSuperseded cfg key st entry) p (closeOutSuperseded cfg key st entry') q
      (fun _ _ _ _ => True) := by
  unfold closeOutSuperseded
  rw [CacheEntry.uid_of_blur h]
  by_cases heph : key.ephemeral
  · rw [if_pos heph, if_pos heph]
    exact lookalikes.rel_ret trivial
  · rw [if_neg heph, if_neg heph]
    refine rel_reserveDelete fun c c' hc => ?_
    rcases DeleteClaim.cases_of_blur hc with ⟨claimed, claimed', t, rfl, rfl, hclaimed⟩ | ⟨rfl, hne⟩
    · exact rel_plain rfl fun ts =>
        (enqueueCloseOut_rel (closing_blur hclaimed)).mono lookalikes fun _ _ _ _ _ => trivial
    · cases c' with
      | claimed entry t => exact absurd rfl (hne entry t)
      | absent | inFlight | uidMismatch => exact lookalikes.rel_ret trivial

theorem revertVersion_rel {t : Ticket} {revertEntry revertEntry' : Option CacheEntry}
    (h : revertEntry'.map CacheEntry.blur = revertEntry.map CacheEntry.blur) :
    lookalikes.Rel (revertVersion st objectKey t revertEntry) p
      (revertVersion st objectKey t revertEntry') q
      (fun _ _ _ _ => True) := by
  cases revertEntry <;> cases revertEntry' <;> simp only [Option.map_none, Option.map_some, reduceCtorEq,
    Option.some.injEq] at h
  · exact rel_plain rfl fun _ => lookalikes.rel_ret trivial
  · exact rel_commitIfCurrent h fun _ => lookalikes.rel_ret trivial

theorem issueUpsert_rel {norm norm' : NormalizedObject} {plan plan' : Plan}
    (hnorm : norm'.blur = norm.blur) (hplan : plan'.blur = plan.blur) :
    lookalikes.Rel (issueUpsert cfg key st norm plan) p (issueUpsert cfg key st norm' plan') q
      (fun err _ err' _ => err' = err) := by
  have hrevert : plan'.revertEntry.map CacheEntry.blur = plan.revertEntry.map CacheEntry.blur :=
    (congrArg Plan.revertEntry hplan :)
  have hconfirmed : (confirmedEntry cfg.lib key.ephemeral norm' plan').blur =
      (confirmedEntry cfg.lib key.ephemeral norm plan).blur := by
    rw [← confirmedEntry_blur, ← confirmedEntry_blur, hnorm, hplan]
  refine rel_reserve hconfirmed fun t => rel_plain rfl fun ts => rel_enqueue ?_ fun accepted => ?_
  · simp only [Job.blur, Commit.blur, hconfirmed, hrevert, Job.mk.injEq, and_true]
    rw [← upsertRecord_blur, hnorm, hplan, upsertRecord_blur]
  · cases accepted with
    | true => exact lookalikes.rel_ret rfl
    | false => exact (revertVersion_rel hrevert).bind lookalikes fun _ _ _ _ _ => lookalikes.rel_ret rfl

theorem processUpsert_rel {writer : Writer} {obj obj' : Json} :
    lookalikes.Rel (processUpsert cfg key st writer obj) (some obj)
      (processUpsert cfg key st writer obj') (some obj')
      (fun err _ err' _ => err' = err) := by
  refine rel_redactionFor fun policy hhides => ?_
  cases policy with
  | none => exact lookalikes.rel_ret rfl
  | some policy =>
    have hnorm := (hhides policy rfl obj rfl obj' rfl).normalizeObject_blur cfg.lib
    dsimp only
    cases h : normalizeObject cfg.lib obj policy <;> cases h' : normalizeObject cfg.lib obj' policy <;>
      simp only [h, h', Option.map_none, Option.map_some, reduceCtorEq, Option.some.injEq] at hnorm
    case none.none => exact lookalikes.rel_ret rfl
    case some.some norm norm' =>
      refine rel_load fun entry entry' hentry => ?_
      cases entry <;> cases entry' <;>
        simp only [Option.map_none, Option.map_some, reduceCtorEq, Option.some.injEq] at hentry
      case none.none =>
        by_cases heph : key.ephemeral
        · simp only [if_pos heph]
          exact issueUpsert_rel hnorm rfl
        · simp only [if_neg heph]
          exact rel_plain rfl fun warm => issueUpsert_rel hnorm rfl
      case some.some entry entry' =>
        have huid : norm'.uid = norm.uid := (congrArg NormalizedObject.uid hnorm :)
        have hhash : norm'.hash = norm.hash := (congrArg NormalizedObject.hash hnorm :)
        simp only [CacheEntry.uid_of_blur hentry, CacheEntry.hash_of_blur hentry, huid, hhash]
        split_ifs
        · exact (closeOutSuperseded_rel hentry).bind lookalikes
            fun _ _ _ _ _ => issueUpsert_rel hnorm rfl
        · exact rel_plain rfl fun _ => lookalikes.rel_ret rfl
        · refine issueUpsert_rel hnorm ?_
          rw [← modifiedPlan_blur, hentry, hnorm, modifiedPlan_blur]

theorem Lookup.cases_of_blur {l l' : Lookup} (h : l'.blur = l.blur) :
    l'.scopeActive = l.scopeActive ∧ (l.obj = none ∧ l'.obj = none ∨
      ∃ obj obj', l.obj = some obj ∧ l'.obj = some obj' ∧ obj'.getUID = obj.getUID) := by
  obtain ⟨obj, scopeActive⟩ := l
  obtain ⟨obj', scopeActive'⟩ := l'
  simp only [Lookup.blur, Lookup.mk.injEq] at h
  refine ⟨h.2, ?_⟩
  cases obj <;> cases obj' <;> simp_all

theorem process_rel :
    lookalikes.Rel (process cfg key) p (process cfg key) q (fun err _ err' _ => err' = err) := by
  refine rel_listerGet fun l l' hl => ?_
  cases l <;> cases l' <;> simp only [Option.map_none, Option.map_some, reduceCtorEq,
    Option.some.injEq] at hl
  case none.none => exact lookalikes.rel_ret rfl
  case some.some l l' =>
    obtain ⟨hactive, hobj⟩ := Lookup.cases_of_blur hl
    simp only [hactive, Option.bind_some]
    cases hl' : l.scopeActive with
    | false => exact lookalikes.rel_ret rfl
    | true =>
      rcases hobj with ⟨hn, hn'⟩ | ⟨obj, obj', hs, hs', -⟩
      · simp only [hn, hn']
        cases heph : key.ephemeral with
        | true =>
          exact rel_plain rfl fun st => forgetEphemeral_rel.bind lookalikes
            fun _ _ _ _ _ => lookalikes.rel_ret rfl
        | false =>
          refine rel_plain rfl fun writer => ?_
          cases writer with
          | none => exact lookalikes.rel_ret rfl
          | some writer =>
            refine rel_plain rfl fun st => retryPendingCloseOuts_rel.bind lookalikes fun _ _ _ _ _ => ?_
            exact emitDelete_rel.bind lookalikes fun r _ r' _ hr => lookalikes.rel_ret hr.2
      · simp only [hs, hs']
        refine rel_plain rfl fun writer => ?_
        cases writer with
        | none => exact lookalikes.rel_ret rfl
        | some writer =>
          refine rel_plain rfl fun st => retryPendingCloseOuts_rel.bind lookalikes ?_
          rintro _ _ _ _ ⟨rfl, rfl⟩
          exact processUpsert_rel

end

section

variable {p q : Option Json} {cfg : Config} {ref : ScopeRef} {st : Inst}

theorem retry_rel {σ : Type} {T : σ → σ → Prop} {attempt attempt' : σ → Prog (Option Err × σ)}
    (hattempt : ∀ s s' p q, T s s' →
      lookalikes.Rel (attempt s) p (attempt' s') q (fun r _ r' _ => r'.1 = r.1 ∧ T r.2 r'.2))
        (n : Nat) {s s' : σ}
    (hs : T s s') :
    lookalikes.Rel (retry attempt n s) p (retry attempt' n s') q
      (fun r _ r' _ => r'.1 = r.1 ∧ T r.2 r'.2) := by
  induction n generalizing p q s s' with
  | zero => exact hattempt s s' p q hs
  | succ n ih =>
    refine (hattempt s s' p q hs).bind lookalikes ?_
    rintro ⟨err, s⟩ p ⟨err', s'⟩ q ⟨rfl, hT⟩
    cases err' with
    | none => exact lookalikes.rel_ret ⟨rfl, hT⟩
    | some e =>
      dsimp only
      split_ifs
      · exact lookalikes.rel_ret ⟨rfl, hT⟩
      · refine rel_plain rfl fun again => ?_
        cases again with
        | true => exact ih hT
        | false => exact lookalikes.rel_ret ⟨rfl, hT⟩

theorem readState_rel {α : Type} {E : α → α → Prop} {read : Prog (Option α)}
    (hread : ∀ p q, lookalikes.Rel read p read q (fun a _ a' _ => Option.Rel E a a')) :
    lookalikes.Rel (readState ref read) p (readState ref read) q (fun r _ r' _ =>
      (∃ e, r = .error e ∧ r' = .error e) ∨ ∃ a a', r = .ok a ∧ r' = .ok a' ∧ E a a') := by
  refine rel_plain rfl fun answer => ?_
  cases answer with
  | noStateReader | notLive => exact lookalikes.rel_ret (.inl ⟨_, rfl, rfl⟩)
  | reader =>
    refine (hread p q).bind lookalikes ?_
    intro a p a' q ha
    cases ha with
    | none => exact lookalikes.rel_ret (.inl ⟨_, rfl, rfl⟩)
    | some ha => exact lookalikes.rel_ret (.inr ⟨_, _, rfl, rfl, ha⟩)

theorem lastKnownStates_rel :
    lookalikes.Rel (readState ref (call (.lastKnownStates ref))) p
      (readState ref (call (.lastKnownStates ref))) q
      (fun r _ r' _ => (∃ e, r = .error e ∧ r' = .error e) ∨
        ∃ a a', r = .ok a ∧ r' = .ok a' ∧ a'.map KnownState.blur = a.map KnownState.blur) := by
  refine readState_rel fun p q => rel_lastKnownStates fun l l' hl => lookalikes.rel_ret ?_
  cases l <;> cases l' <;> simp only [Option.map_none, Option.map_some, reduceCtorEq,
    Option.some.injEq] at hl
  · exact .none
  · exact .some hl

theorem seedGroup_rel {g g' : Group} (h : g'.blur = g.blur) :
    lookalikes.Rel (seedGroup ref st g) p (seedGroup ref st g') q (fun _ _ _ _ => True) := by
  have hcurrent : (splitIncarnations g').1.blur = (splitIncarnations g).1.blur := by
    have hsplit := splitIncarnations_blur g'
    rw [h, splitIncarnations_blur] at hsplit
    exact (congrArg Prod.fst hsplit).symm
  have hns : (splitIncarnations g').1.ns = (splitIncarnations g).1.ns :=
    (congrArg KnownState.ns hcurrent :)
  have hname : (splitIncarnations g').1.name = (splitIncarnations g).1.name :=
    (congrArg KnownState.name hcurrent :)
  have hseeded : seededEntry (splitIncarnations g').1 = seededEntry (splitIncarnations g).1 :=
    (congrArg seededEntry hcurrent :)
  refine lookalikes.rel_op ?_ fun _ _ _ => lookalikes.rel_ret trivial
  simp only [lookalikes, hns, hname, hseeded]

def SeedsAlike (s s' : List GcTarget × List Reincarnation) : Prop :=
  s'.1 = s.1 ∧ s'.2.map Reincarnation.blur = s.2.map Reincarnation.blur

theorem seedsAlike_groups {groups groups' : List Group}
    (h : groups'.map Group.blur = groups.map Group.blur) :
    SeedsAlike
      (groups.map (fun g => (splitIncarnations g).1.target),
        groups.flatMap (fun g => (splitIncarnations g).2.map KnownState.reincarnation))
      (groups'.map (fun g => (splitIncarnations g).1.target),
        groups'.flatMap (fun g => (splitIncarnations g).2.map KnownState.reincarnation)) := by
  have htargets : ∀ gs : List Group, gs.map (fun g => (splitIncarnations g).1.target) =
      (gs.map Group.blur).map (fun g => (splitIncarnations g).1.target) := by
    intro gs
    rw [List.map_map]
    refine List.map_congr_left fun g _ => ?_
    simp only [Function.comp_apply, splitIncarnations_blur]
    rfl
  have hpriors : ∀ gs : List Group,
      (gs.flatMap (fun g => (splitIncarnations g).2.map KnownState.reincarnation)).map
      Reincarnation.blur =
        (gs.map Group.blur).flatMap (fun g => (splitIncarnations g).2.map KnownState.reincarnation) := by
    intro gs
    rw [List.map_flatMap, List.flatMap_map]
    congr 1
    funext g
    rw [splitIncarnations_blur, List.map_map, List.map_map]
    rfl
  exact ⟨by rw [htargets, h, ← htargets], by rw [hpriors, h, ← hpriors]⟩

theorem seedScope_rel (n : Nat) :
    lookalikes.Rel (seedScope ref n) p (seedScope ref n) q
      (fun r _ r' _ => r'.1 = r.1 ∧ SeedsAlike r.2 r'.2) := by
  refine retry_rel (fun _ _ p q _ => ?_) n ⟨rfl, rfl⟩
  refine lastKnownStates_rel.bind lookalikes ?_
  rintro r p r' q (⟨e, rfl, rfl⟩ | ⟨states, states', rfl, rfl, hstates⟩)
  · exact lookalikes.rel_ret ⟨rfl, rfl, rfl⟩
  · have hgroups : (groupByIdentity states').map Group.blur =
      (groupByIdentity states).map Group.blur := by
      rw [← groupByIdentity_blur, hstates, groupByIdentity_blur]
    refine rel_plain rfl fun st => ?_
    refine (Coupling.Rel.forM lookalikes (fun g g' _ _ hg _ => seedGroup_rel hg)
      (forall₂_of_map_eq hgroups)
      trivial).bind lookalikes fun _ _ _ _ _ => ?_
    exact lookalikes.rel_ret ⟨rfl, seedsAlike_groups hgroups⟩

theorem closeOutRecord_blur {clusterID : String} {key : Key} {r r' : Reincarnation}
    (h : r'.blur = r.blur) :
    (r'.closeOutRecord clusterID key).blur = (r.closeOutRecord clusterID key).blur := by
  have huid : r'.uid = r.uid := (congrArg Reincarnation.uid h :)
  have hts : r'.ts = r.ts := (congrArg Reincarnation.ts h :)
  simp [Reincarnation.closeOutRecord, Record.closing, Record.blur, huid, hts]

theorem emitPriors_rel {priors priors' : List Reincarnation}
    (h : List.Forall₂ (fun r r' => r'.blur = r.blur) priors priors') :
    lookalikes.Rel (emitPriors cfg ref st priors) p (emitPriors cfg ref st priors') q
      (fun err _ err' _ => err' = err) := by
  induction h generalizing p q with
  | nil => exact lookalikes.rel_ret rfl
  | @cons r r' priors priors' hr _ ih =>
    have hns : r'.ns = r.ns := (congrArg Reincarnation.ns hr :)
    have hname : r'.name = r.name := (congrArg Reincarnation.name hr :)
    refine rel_plain rfl fun cancelled => ?_
    cases cancelled with
    | true => exact lookalikes.rel_ret rfl
    | false =>
      simp only [hns, hname]
      exact (enqueueCloseOut_rel (closeOutRecord_blur hr)).bind lookalikes fun _ _ _ _ _ => ih

theorem emitCloseOuts_rel (n : Nat) {priors priors' : List Reincarnation}
    (h : priors'.map Reincarnation.blur = priors.map Reincarnation.blur) :
    lookalikes.Rel (emitCloseOuts cfg ref n priors) p (emitCloseOuts cfg ref n priors') q
      (fun _ _ _ _ => True) := by
  have hempty : priors'.isEmpty = priors.isEmpty := by
    rw [← List.isEmpty_map (f := Reincarnation.blur), h, List.isEmpty_map]
  unfold emitCloseOuts
  rw [hempty]
  split_ifs
  · exact lookalikes.rel_ret trivial
  · refine Coupling.Rel.bind lookalikes
      (retry_rel (T := fun _ _ => True) (fun u u' p q _ => ?_) n trivial)
      fun _ _ _ _ _ => lookalikes.rel_ret trivial
    refine rel_plain rfl fun writer => ?_
    cases writer with
    | none => exact lookalikes.rel_ret ⟨rfl, trivial⟩
    | some _ =>
      refine rel_plain rfl fun st => ?_
      exact (emitPriors_rel (forall₂_of_map_eq h)).bind lookalikes
        fun _ _ _ _ he => lookalikes.rel_ret ⟨he, trivial⟩

theorem sweep_rel (targets reincarnated : List GcTarget) :
    lookalikes.Rel (sweep cfg ref st targets reincarnated) p (sweep cfg ref st targets reincarnated) q
      (fun r _ r' _ => r' = r) := by
  induction targets generalizing p q reincarnated with
  | nil => exact lookalikes.rel_ret rfl
  | cons target targets ih =>
    refine rel_plain rfl fun cancelled => ?_
    cases cancelled with
    | true => exact lookalikes.rel_ret rfl
    | false =>
      refine rel_listerGet fun l l' hl => ?_
      cases l <;> cases l' <;> simp only [Option.map_none, Option.map_some, reduceCtorEq,
        Option.some.injEq] at hl
      case none.none => exact lookalikes.rel_ret rfl
      case some.some l l' =>
        obtain ⟨hactive, hobj⟩ := Lookup.cases_of_blur hl
        have hlive : l'.obj.map Json.getUID = l.obj.map Json.getUID := by
          rcases hobj with ⟨hn, hn'⟩ | ⟨obj, obj', hs, hs', huid⟩
          · rw [hn, hn']
          · rw [hs, hs', Option.map_some, Option.map_some, huid]
        simp only [hactive, hlive]
        split_ifs
        · exact lookalikes.rel_ret rfl
        · exact ih reincarnated
        · refine emitDelete_rel.bind lookalikes ?_
          rintro ⟨outcome, err⟩ p ⟨outcome', err'⟩ q ⟨houtcome, rfl⟩
          have hmismatch : outcome' = .uidMismatch ↔ outcome = .uidMismatch := by
            cases outcome <;> cases outcome' <;> simp_all [DeleteClaim.blur]
          simp only [hmismatch]
          split_ifs
          · exact lookalikes.rel_ret rfl
          · exact ih _
          · exact ih _

theorem collectZombies_rel (n : Nat) (seeded : List GcTarget) :
    lookalikes.Rel (collectZombies cfg ref n seeded) p (collectZombies cfg ref n seeded) q
      (fun r _ r' _ => r' = r) := by
  refine Coupling.Rel.bind lookalikes
    (retry_rel (T := fun s s' => s' = s) (fun _ _ p q _ => ?_) n rfl) ?_
  · refine rel_plain rfl fun writer => ?_
    cases writer with
    | none => exact lookalikes.rel_ret ⟨rfl, rfl⟩
    | some _ =>
      refine rel_plain rfl fun st => (sweep_rel seeded []).mono lookalikes ?_
      rintro r _ _ _ rfl
      exact ⟨rfl, rfl⟩
  · rintro ⟨err, reincarnated⟩ p ⟨err', reincarnated'⟩ q ⟨-, rfl⟩
    exact lookalikes.rel_ret rfl

theorem recoverRefusedReincarnations_rel (n : Nat) (refused : List GcTarget) :
    lookalikes.Rel (recoverRefusedReincarnations cfg ref n refused) p
      (recoverRefusedReincarnations cfg ref n refused) q
      (fun _ _ _ _ => True) := by
  unfold recoverRefusedReincarnations
  split_ifs
  · exact lookalikes.rel_ret trivial
  · refine Coupling.Rel.bind lookalikes (retry_rel (T := fun s s' => s' = s) ?_ n rfl)
      fun _ _ _ _ _ => lookalikes.rel_ret trivial
    rintro pending _ p q rfl
    refine lastKnownStates_rel.bind lookalikes ?_
    rintro r p r' q (⟨e, rfl, rfl⟩ | ⟨states, states', rfl, rfl, hstates⟩)
    · exact lookalikes.rel_ret ⟨rfl, rfl⟩
    · refine rel_plain rfl fun order => ?_
      have hfound : (closeable states' order).1.map Reincarnation.blur =
        (closeable states order).1.map Reincarnation.blur ∧
          (closeable states' order).2 = (closeable states order).2 := by
        have hc := closeable_blur states' order
        rw [hstates, closeable_blur, Prod.mk.injEq] at hc
        exact ⟨hc.1.symm, hc.2.symm⟩
      refine (emitCloseOuts_rel n hfound.1).bind lookalikes fun _ _ _ _ _ => ?_
      refine lookalikes.rel_ret ⟨?_, hfound.2⟩
      exact congrArg (fun l : List GcTarget =>
        if l.isEmpty then none else some Err.closeOutEvidencePending) hfound.2

theorem awaitScopeSync_rel (n : Nat) :
    lookalikes.Rel (awaitScopeSync ref n) p (awaitScopeSync ref n) q (fun b _ b' _ => b' = b) := by
  induction n generalizing p q with
  | zero => exact lookalikes.rel_ret rfl
  | succ n ih =>
    refine rel_plain rfl fun synced => ?_
    cases synced with
    | true => exact lookalikes.rel_ret rfl
    | false =>
      refine rel_plain rfl fun desired => ?_
      cases desired with
      | false => exact lookalikes.rel_ret rfl
      | true =>
        refine rel_plain rfl fun again => ?_
        cases again with
        | true => exact ih
        | false => exact lookalikes.rel_ret rfl

theorem scopeWasActive_rel (epochStart n : Nat) :
    lookalikes.Rel (scopeWasActive ref epochStart n) p (scopeWasActive ref epochStart n) q
      (fun r _ r' _ => r' = r) := by
  refine (retry_rel (T := fun s s' => s' = s) (fun _ _ p q _ => ?_) n rfl).mono lookalikes
    fun r _ r' _ hr => Prod.ext hr.1 hr.2
  refine (readState_rel (E := fun b b' => b' = b) fun p q => rel_plain rfl fun a =>
    lookalikes.rel_ret ?_).bind lookalikes ?_
  · cases a with
    | none => exact .none
    | some b => exact .some rfl
  · rintro r p r' q (⟨e, rfl, rfl⟩ | ⟨b, b', rfl, rfl, rfl⟩)
    · exact lookalikes.rel_ret ⟨rfl, rfl⟩
    · exact lookalikes.rel_ret ⟨rfl, rfl⟩

theorem reconcileHistory_rel (epochStart n : Nat) (seeded : List GcTarget)
    {priors priors' : List Reincarnation}
    (h : priors'.map Reincarnation.blur = priors.map Reincarnation.blur) :
    lookalikes.Rel (reconcileHistory cfg ref epochStart n seeded priors) p
      (reconcileHistory cfg ref epochStart n seeded priors') q (fun _ _ _ _ => True) := by
  have hsync : lookalikes.Rel (if seeded.isEmpty then pure true else awaitScopeSync ref n) p
      (if seeded.isEmpty then pure true else awaitScopeSync ref n) q (fun b _ b' _ => b' = b) := by
    split_ifs
    · exact lookalikes.rel_ret rfl
    · exact awaitScopeSync_rel n
  refine hsync.bind lookalikes ?_
  rintro _ p synced q rfl
  cases synced with
  | false => exact lookalikes.rel_ret trivial
  | true =>
    refine (scopeWasActive_rel epochStart n).bind lookalikes ?_
    rintro ⟨err, wasActive⟩ p _ q rfl
    dsimp only
    split_ifs
    · exact lookalikes.rel_ret trivial
    · exact (emitCloseOuts_rel n h).bind lookalikes fun _ _ _ _ _ => lookalikes.rel_ret trivial
    · refine (emitCloseOuts_rel n h).bind lookalikes fun _ _ _ _ _ => ?_
      refine (collectZombies_rel n seeded).bind lookalikes ?_
      rintro _ p reincarnated q rfl
      exact recoverRefusedReincarnations_rel n reincarnated

theorem warm_rel (epochStart n : Nat) :
    lookalikes.Rel (warm cfg ref epochStart n) p (warm cfg ref epochStart n) q
      (fun _ _ _ _ => True) := by
  refine (seedScope_rel n).bind lookalikes ?_
  rintro ⟨err, seeded, priors⟩ p ⟨err', seeded', priors'⟩ q ⟨rfl, rfl, hpriors⟩
  have hempty : priors'.isEmpty = priors.isEmpty := by
    rw [← List.isEmpty_map (f := Reincarnation.blur), hpriors, List.isEmpty_map]
  simp only [hempty]
  split_ifs
  · exact lookalikes.rel_ret trivial
  · refine rel_plain rfl fun _ => lookalikes.rel_ret trivial
  · refine rel_plain rfl fun _ => lookalikes.rel_ret trivial
  · exact rel_plain rfl fun _ => reconcileHistory_rel epochStart n seeded' hpriors

theorem evictScope_rel : lookalikes.Rel (evictScope ref) p (evictScope ref) q (fun _ _ _ _ => True) :=
  rel_plain rfl fun _ => rel_plain rfl fun _ => rel_plain rfl fun _ => lookalikes.rel_ret trivial

theorem closeScopes_rel (sink : String) (scopes : List ScopeKey) :
    lookalikes.Rel (closeScopes sink scopes) p (closeScopes sink scopes) q
      (fun err _ err' _ => err' = err) := by
  induction scopes generalizing p q with
  | nil => exact lookalikes.rel_ret rfl
  | cons scope scopes ih =>
    refine rel_plain rfl fun desired => ?_
    cases desired with
    | true => exact ih
    | false =>
      refine rel_plain rfl fun ts => rel_plain rfl fun accepted => ?_
      cases accepted with
      | true => exact ih
      | false => exact lookalikes.rel_ret rfl

theorem closeOrphanedScopes_rel (sink : String) :
    lookalikes.Rel (closeOrphanedScopes sink) p (closeOrphanedScopes sink) q
      (fun err _ err' _ => err' = err) := by
  refine rel_plain rfl fun answer => ?_
  cases answer with
  | noStateReader | notLive => exact lookalikes.rel_ret rfl
  | reader =>
    refine rel_plain rfl fun writes => ?_
    cases writes with
    | false => exact lookalikes.rel_ret rfl
    | true =>
      refine rel_plain rfl fun scopes => ?_
      cases scopes with
      | none => exact lookalikes.rel_ret rfl
      | some scopes => exact closeScopes_rel sink scopes

end

theorem start_couples {cfg : Config} {s s' s₁ s₁' : Shared} {tid : Tid} {b : Boot}
    {c c' : Prog (Option Err)} (hs : s'.blur = s.blur) (h : start cfg s tid b = some (s₁, c))
    (h' : start cfg s' tid b = some (s₁', c')) :
    s₁'.blur = s₁.blur ∧ lookalikes.Rel c none c' none (fun a _ b _ => b = a) := by
  cases tid <;> cases b <;> simp only [start, reduceCtorEq, Option.some.injEq] at h h'
  case worker.run key =>
    split_ifs at h h'
    cases h
    cases h'
    exact ⟨congrArg (fun s => { s with queue := s.queue.erase key }) hs, process_rel⟩
  case warm.warm id ref epochStart n =>
    split_ifs at h h'
    cases h
    cases h'
    refine ⟨?_, (warm_rel epochStart n).bind lookalikes fun _ _ _ _ _ => lookalikes.rel_ret rfl⟩
    exact congrArg (fun s => { s.cancelRuns (· == ref) with
      runs := (ref, ⟨epochStart, id⟩) :: (s.cancelRuns (· == ref)).runs
      started := (s.cancelRuns (· == ref)).started + 1 }) hs
  case boot.run sink =>
    split_ifs at h h'
    cases h
    cases h'
    exact ⟨hs, closeOrphanedScopes_rel sink⟩
  case evict.run ref =>
    cases h
    cases h'
    exact ⟨hs, evictScope_rel.bind lookalikes fun _ _ _ _ _ => lookalikes.rel_ret rfl⟩

theorem exec_policy {s s₁ : Shared} {tid : Tid} {key : Key} {i : Input}
    {policy : Option (Option RedactionPolicy)}
    (h : exec s tid (.redactionFor key) i = some (s₁, policy)) : i = .policy policy := by
  cases i <;> simp only [exec, reduceCtorEq] at h
  cases h
  rfl

theorem exec_couples {s s' s₁ s₁' : Shared} {tid : Tid} {o o' : Op} {i i' : Input}
    {p q : Option Json} {a : o.Ans} {a' : o'.Ans} (hs : s'.blur = s.blur)
    (ho : lookalikes.ops o o') (hi : InputsAlike p q i i') (h : exec s tid o i = some (s₁, a))
    (h' : exec s' tid o' i' = some (s₁', a')) :
    s₁'.blur = s₁.blur ∧ lookalikes.answers p q ⟨o, a⟩ ⟨o', a'⟩ := by
  have hboth : s₁'.blur = s₁.blur ∧ gist ⟨o', a'⟩ = gist ⟨o, a⟩ := by
    obtain ⟨b, hb, hgist⟩ := exec_blur h
    obtain ⟨b', hb', hgist'⟩ := exec_blur h'
    rw [hgist, hgist']
    rw [hs, hi.1] at hb'
    clear hgist hgist'
    have ho : o'.blur = o.blur := ho
    revert b'
    rw [ho]
    intro b' hb'
    rw [hb, Option.some.injEq, Prod.mk.injEq] at hb'
    exact ⟨hb'.1.symm, by rw [hb'.2]⟩
  refine ⟨hboth.1, hboth.2, ?_⟩
  split
  · rename_i key policy heq
    cases heq
    have hpolicy := exec_policy h
    subst hpolicy
    exact hi.2
  · trivial

theorem machine_couples (cfg : Config) :
    (machine cfg).Couples lookalikes none (fun s s' => s'.blur = s.blur) InputsAlike
    (fun _ a _ b _ => b = a) where
  start _ _ _ _ _ _ _ _ := start_couples
  exec _ _ _ _ _ _ _ _ _ _ _ _ _ := exec_couples
  finish := by
    rintro s s' tid a p b q hs rfl
    cases tid with
    | worker key =>
      cases b with
      | none => exact hs
      | some e => exact congrArg (·.addKey key) hs
    | boot sink =>
      cases b with
      | none => exact congrArg (fun s => { s with bootDone := sink :: s.bootDone }) hs
      | some e => exact hs
    | warm | evict => exact hs
  env _ _ _ _ _ := env_blur
  crash s s' hs := (crash_blur s').trans ((congrArg crash hs).trans (crash_blur s).symm)

def Handed.visible (h : Handed) : String × EventType × Bytes × Bytes × String :=
  (h.sink, h.job.record.eventType, h.job.record.data, h.job.record.diff, h.job.record.sha256)

theorem redacted_runs_alike {cfg : Config} {shared : Shared} {as : List (Action × Action)}
    {s s' : System}
    (h : Runs.Run (machine cfg).step₂ (InStep lookalikes none InputsAlike)
      ({ shared := shared }, { shared := shared }) as (s, s')) :
    s'.shared.jobs.map Handed.visible = s.shared.jobs.map Handed.visible ∧
      s'.shared.dedupSkips = s.shared.dedupSkips := by
  have hs : s'.shared.blur = s.shared.blur := ((machine_couples cfg).run rfl h).shared
  refine ⟨?_, (congrArg Shared.dedupSkips hs :)⟩
  have hjobs : s'.shared.jobs.map Handed.blur = s.shared.jobs.map Handed.blur := congrArg Shared.jobs hs
  have hvisible := congrArg (List.map Handed.visible) hjobs
  rw [List.map_map, List.map_map] at hvisible
  exact hvisible

deriving instance DecidableEq for Lookup, RedactionPolicy, Input, Boot, Env, Threads.Action

instance (p q : Option Json) (policy : Option (Option RedactionPolicy)) : Decidable (Hides p q policy) :=
  inferInstanceAs (Decidable (∀ pol ∈ policy, ∀ obj ∈ p, ∀ obj' ∈ q, Lookalike pol obj obj'))

instance (p q : Option Json) (i i' : Input) : Decidable (InputsAlike p q i i') :=
  match i with
  | .policy policy => inferInstanceAs (Decidable (_ ∧ Hides p q policy))
  | .go | .lookup _ _ | .writer _ | .flag _ | .time _ | .reader _ | .states _ _ | .active _ _
  | .order _ | .scopes _ =>
    inferInstanceAs (Decidable (_ ∧ True))

def secretConfig : Config where
  clusterID := "c"
  lib := { sampleLib with
    marshal := fun j => some
      [match j.get? "spec" with | some (.int n) => UInt8.ofNat n.toNat | _ => 0,
        UInt8.ofNat (j.nestedString ["data", "password"]).length]
    sha256 := fun b => if b = [1, 10] then "h1" else if b = [2, 10] then "h2" else "h0" }

def secretObject (password : String) (n : Int) : Json :=
  .obj [("metadata", .obj [("uid", .str "u")]), ("spec", .int n),
    ("data", .obj [("password", .str password)])]

def secretPolicy : RedactionPolicy where
  paths := [{
    raw := "data.password"
    segments := [{ name := "data" }, { name := "password" }]
    nonempty := by decide }]

def secretSteps (password : String) (n : Int) (inputs : List Input) : List Action :=
  processSteps ([.lookup sampleKey (some ⟨some (secretObject password n), true⟩),
    .writer (some {}), .go, .go,
    .policy (some (some secretPolicy)), .go] ++ inputs)

theorem rotated_password_invisible : ∃ s s' : System, s.shared.jobs.length = 2 ∧
    s.shared.dedupSkips = 1 ∧
    s'.shared.jobs.map Handed.visible = s.shared.jobs.map Handed.visible ∧
    s'.shared.dedupSkips = s.shared.dedupSkips := by
  obtain ⟨⟨s, s'⟩, hrun, hjobs, hskips⟩ := Runs.Run.exists_of_exec (machine secretConfig).step₂
    (InStep lookalikes none InputsAlike) ({ shared := {} }, { shared := {} })
    ((secretSteps "a" 1 [.go, .go, .time 1, .flag true] ++ secretSteps "aa" 1 [.go] ++
        secretSteps "aaa" 2 [.go, .time 2, .flag true]).zip
      (secretSteps "bb" 1 [.go, .go, .time 1, .flag true] ++ secretSteps "b" 1 [.go] ++
        secretSteps "bbbb" 2 [.go, .time 2, .flag true]))
    (fun x => x.1.shared.jobs.length = 2 ∧ x.1.shared.dedupSkips = 1) (by decide)
  exact ⟨s, s', hjobs, hskips, redacted_runs_alike hrun⟩

end Kuberecord
