import Kuberecord.Custody.Process
import Kuberecord.Gating

namespace Kuberecord

open Threads

variable {cfg : Config} {h : Hand} {key : Key} {st : Inst} {k : String} {ref : ScopeRef}
  {states : List KnownState}

def Hand.Free (h : Hand) : Prop := h.owner.isWorker = false ∧ h.phase = .idle

structure Hand.Knows (ref : ScopeRef) (states : List KnownState) (h : Hand) : Prop where
  free : h.Free
  history : h.seen.history = some (ref, states)

structure Hand.Vouched (ref : ScopeRef) (states : List KnownState)
    (h : Hand) : Prop extends h.Knows ref states where
  active : h.seen.active = some ref

def AllListed (states : List KnownState) (targets : List GcTarget) : Prop :=
  ∀ t ∈ targets, ∃ x ∈ states, x.target = t

def AllReplaced (states : List KnownState) (priors : List Reincarnation) : Prop :=
  ∀ p ∈ priors, ∃ x, Replaced states x ∧ x.reincarnation = p

theorem retry_rule {φ σ : Type} {P : Protocol Op Op.Ans φ} {attempt : σ → Prog (Option Err × σ)}
    {I : σ → φ → Prop} {Q : Option Err × σ → φ → Prop} {p : φ}
    (ha : ∀ s p, I s p → P.Obeys (attempt s) p Q)
    (hr : ∀ e s p, Q (some e, s) p → P.allowed p .backoff ∧ I s (P.next p .backoff true) ∧
      Q (some .cancelled, s) (P.next p .backoff false)) (n : Nat) {s : σ} (hI : I s p) :
    P.Obeys (retry attempt n s) p Q := by
  induction n generalizing s p with
  | zero => exact ha s p hI
  | succ n ih =>
    refine Protocol.Obeys.bind _ (ha s p hI) ?_
    rintro ⟨err, s⟩ p hq
    cases err with
    | none => exact hq
    | some e =>
      simp only
      split_ifs
      · exact hq
      · refine ⟨(hr e s p hq).1, fun b _ => ?_⟩
        cases b with
        | true => exact ih (hr e s p hq).2.1
        | false => exact (hr e s p hq).2.2

theorem retry_obeys {σ : Type} {attempt : σ → Prog (Option Err × σ)} {I : σ → Hand → Prop}
    {Q : Option Err × σ → Hand → Prop} (ha : ∀ s h, I s h → (custody cfg).Obeys (attempt s) h Q)
    (hr : ∀ e s h, Q (some e, s) h → I s h ∧ Q (some .cancelled, s) h) (n : Nat) {s : σ} (hI : I s h) :
    (custody cfg).Obeys (retry attempt n s) h Q :=
  retry_rule ha (fun e s h hq => ⟨trivial, hr e s h hq⟩) n hI

theorem readState_obeys {α : Type} {read : Prog (Option α)} {Q : Except Err α → Hand → Prop}
    (hr : (custody cfg).Obeys read h (fun o h' => (o = none → Q (.error .read) h') ∧
      ∀ a, o = some a → Q (.ok a) h'))
    (he : ∀ e, Q (.error e) h) : (custody cfg).Obeys (readState ref read) h Q := by
  simp only [readState, Program.perform_bind, Protocol.obeys_op]
  refine ⟨trivial, fun r _ => ?_⟩
  cases r with
  | reader =>
    refine Protocol.Obeys.bind _ hr ?_
    rintro (_ | a) h hq
    · exact hq.1 rfl
    · exact hq.2 a rfl
  | noStateReader | notLive => exact he _

theorem lastKnownStates_obeys (hf : h.Free) :
    (custody cfg).Obeys (readState ref (call (.lastKnownStates ref))) h
      (fun r h' => h'.Free ∧ h'.seen.active = h.seen.active ∧ ∀ states, r = .ok states →
          h'.Knows ref states) := by
  refine readState_obeys ⟨trivial, fun o _ => ⟨fun _ => ?_, fun states ho => ?_⟩⟩ ?_
  · exact ⟨hf, rfl, fun _ h => by cases h⟩
  · subst ho
    exact ⟨hf, rfl, fun _ h => by cases h; exact ⟨hf, rfl⟩⟩
  · exact fun e => ⟨hf, rfl, fun _ h => by cases h⟩

theorem seedScope_obeys (ref : ScopeRef) (n : Nat) (hf : h.Free) :
    (custody cfg).Obeys (seedScope ref n) h (fun r h' => h'.Free ∧
      (r.1 = none → ∃ states, h'.Knows ref states ∧ AllListed states r.2.1 ∧
        AllReplaced states r.2.2)) := by
  refine retry_obeys (I := fun _ => Hand.Free) ?_ (fun e s h hq => ⟨hq.1, hq.1, by simp⟩) n hf
  intro _ h hf
  refine Protocol.Obeys.bind _ (lastKnownStates_obeys hf) ?_
  rintro (e | states) h ⟨hf, -, hk⟩
  · exact ⟨hf, by simp⟩
  · have hk := hk states rfl
    simp only [Program.perform_bind, Protocol.obeys_op]
    refine ⟨trivial, fun st hst => ?_⟩
    have loop (h : Hand) (hk : h.Knows ref states) (hi : h.seen.inst = some st) :
        (custody cfg).Obeys ((groupByIdentity states).forM (seedGroup ref st)) h (fun _ h' =>
          (h'.Knows ref states ∧ h'.seen.inst = some st) ∧
          ∀ g ∈ ([] : List Group), g ∈ groupByIdentity states) := by
      refine Protocol.Obeys.forM _
        (I := fun gs (h : Hand) =>
          (h.Knows ref states ∧ h.seen.inst = some st) ∧
          ∀ g ∈ gs, g ∈ groupByIdentity states) ?_ ⟨⟨hk, hi⟩, fun _ => id⟩
      rintro g gs h ⟨⟨hk, hi⟩, hgs⟩
      have hg := groupByIdentity_grouped states g (hgs g (.head _)) _ (split_current_mem g)
      refine ⟨⟨hk.free.1, hk.free.2, hi, ref.key _ _, _, ⟨hst, rfl⟩,
        ⟨ref, states, hk.history, hg.1, rfl⟩, rfl⟩,
        fun _ _ => ?_⟩
      exact ⟨⟨⟨hk.free, hk.history⟩, hi⟩, fun g hg => hgs g (.tail _ hg)⟩
    refine Protocol.Obeys.bind _ (loop _ ⟨hk.free, hk.history⟩ rfl) ?_
    rintro _ h ⟨⟨hk, -⟩, -⟩
    refine ⟨hk.free, fun _ => ⟨states, hk, ?_, ?_⟩⟩
    · intro t ht
      obtain ⟨g, hg, rfl⟩ := List.mem_map.mp ht
      exact ⟨_, (groupByIdentity_grouped states g hg _ (split_current_mem g)).1, rfl⟩
    · intro p hp
      obtain ⟨g, hg, hp⟩ := List.mem_flatMap.mp hp
      obtain ⟨x, hx, rfl⟩ := List.mem_map.mp hp
      exact ⟨x, split_prior_replaced hg hx, rfl⟩

theorem awaitScopeSync_obeys (ref : ScopeRef) (n : Nat) :
    (custody cfg).Obeys (awaitScopeSync ref n) h (fun _ h' => h' = h) := by
  induction n with
  | zero => rfl
  | succ n ih =>
    simp only [awaitScopeSync, Program.perform_bind, Protocol.obeys_op]
    refine ⟨trivial, fun synced _ => ?_⟩
    cases synced with
    | true => rfl
    | false =>
      refine ⟨trivial, fun desired _ => ?_⟩
      cases desired with
      | false => rfl
      | true =>
        refine ⟨trivial, fun again _ => ?_⟩
        cases again with
        | false => rfl
        | true => exact ih

theorem scopeWasActive_obeys (epochStart n : Nat) (hk : h.Knows ref states) :
    (custody cfg).Obeys (scopeWasActive ref epochStart n) h
      (fun r h' => h'.Knows ref states ∧ (r.1 = none → r.2 = true → h'.Vouched ref states)) := by
  refine retry_obeys (I := fun _ h => h.Knows ref states) ?_ (fun e s h hq => ⟨hq.1, hq.1, by simp⟩) n hk
  intro _ h hk
  have read : (custody cfg).Obeys (readState ref (call (.scopeWasActive ref epochStart))) h
      (fun r h' => h'.Knows ref states ∧ (r = .ok true → h'.Vouched ref states)) := by
    refine readState_obeys ⟨trivial, fun o _ => ⟨fun _ => ?_, fun b ho => ?_⟩⟩ ?_
    · exact ⟨⟨hk.free, hk.history⟩, by simp⟩
    · subst ho
      refine ⟨⟨hk.free, hk.history⟩, fun hb => ?_⟩
      cases hb
      exact ⟨⟨hk.free, hk.history⟩, rfl⟩
    · exact fun e => ⟨hk, by simp⟩
  refine Protocol.Obeys.bind _ read ?_
  rintro (e | active) h ⟨hk, hv⟩
  · exact ⟨hk, by simp⟩
  · refine ⟨hk, ?_⟩
    rintro - rfl
    exact hv rfl

section

variable (he : ref.scope.ephemeral = false)
include he

theorem emitPriors_obeys (hst : st.sink = ref.sink) {priors : List Reincarnation}
    (hp : AllReplaced states priors) (hv : h.Vouched ref states) (hi : h.seen.inst = some st) :
    (custody cfg).Obeys (emitPriors cfg ref st priors) h (fun _ h' => h' = h) := by
  induction priors with
  | nil => rfl
  | cons prior priors ih =>
    obtain ⟨⟨x, hx, rfl⟩, hps⟩ := List.forall_mem_cons.mp hp
    simp only [emitPriors, Program.perform_bind, Protocol.obeys_op]
    refine ⟨trivial, fun stop _ => ?_⟩
    cases stop with
    | true => rfl
    | false =>
      have hout : h.seen.Outlived (ref.key x.ns x.name) x :=
        ⟨ref, states, hv.history, hv.active, hx, rfl⟩
      obtain ⟨owner, seen, phase⟩ := h
      obtain ⟨hn, rfl⟩ := hv.free
      have hke : (ref.key x.ns x.name).ephemeral = false := he
      refine Protocol.Obeys.bind _ (enqueueCloseOut_history hn ⟨hst, rfl⟩ hke hi hout) ?_
      rintro _ _ rfl
      exact ih hps

theorem emitCloseOuts_obeys (n : Nat) {priors : List Reincarnation} (hp : AllReplaced states priors)
    (hv : h.Vouched ref states) :
    (custody cfg).Obeys (emitCloseOuts cfg ref n priors) h (fun _ h' => h'.Vouched ref states) := by
  unfold emitCloseOuts
  split_ifs
  · exact hv
  · refine Protocol.Obeys.bind _ (Q := fun _ h' => h'.Vouched ref states)
      (retry_obeys (I := fun _ h' => h'.Vouched ref states) ?_ (fun _ _ _ hq => ⟨hq, hq⟩) n hv)
      (fun _ _ hq => hq)
    intro _ h hv
    simp only [Program.perform_bind, Protocol.obeys_op]
    refine ⟨trivial, fun writer _ => ?_⟩
    cases writer with
    | none => exact hv
    | some writer =>
      refine ⟨trivial, fun st hst => ?_⟩
      have hv' : Hand.Vouched ref states { h with seen := { h.seen with inst := some st } } :=
        ⟨⟨hv.free, hv.history⟩, hv.active⟩
      refine Protocol.Obeys.bind _ (emitPriors_obeys he hst hp hv' rfl) ?_
      rintro _ _ rfl
      exact hv'

theorem sweep_obeys (hst : st.sink = ref.sink) {targets : List GcTarget} (ht : AllListed states targets)
    (reincarnated : List GcTarget) (hv : h.Vouched ref states) (hi : h.seen.inst = some st) :
    (custody cfg).Obeys (sweep cfg ref st targets reincarnated) h
    (fun _ h' => h'.Vouched ref states) := by
  induction targets generalizing h reincarnated with
  | nil => exact hv
  | cons target targets ih =>
    obtain ⟨⟨x, hx, rfl⟩, hts⟩ := List.forall_mem_cons.mp ht
    simp only [sweep, Program.perform_bind, Protocol.obeys_op]
    refine ⟨trivial, fun stop _ => ?_⟩
    cases stop with
    | true => exact hv
    | false =>
      obtain ⟨owner, seen, phase⟩ := h
      obtain ⟨hn, rfl⟩ := hv.free
      refine ⟨trivial, fun lookup _ => ?_⟩
      cases lookup with
      | none => exact ⟨⟨⟨hn, rfl⟩, hv.history⟩, hv.active⟩
      | some lookup =>
        have hv' : Hand.Vouched ref states ⟨owner,
          { seen with lookup := some (ref.key x.ns x.name, lookup) }, .idle⟩ :=
          ⟨⟨⟨hn, rfl⟩, hv.history⟩, hv.active⟩
        simp only
        split_ifs with hactive hlive
        · exact hv'
        · exact ih hts _ hv' hi
        · have hke : (ref.key x.ns x.name).ephemeral = false := he
          have hm : Hand.MayClaim ⟨owner,
            { seen with lookup := some (ref.key x.ns x.name, lookup) }, .idle⟩ st
              (ref.key x.ns x.name).cacheKey x.uid :=
            ⟨hi, _, ⟨hst, rfl⟩, .inr ⟨hn, ⟨lookup, rfl, by simpa using hactive, hlive⟩, ⟨x,
              ⟨ref, states, hv.history, hx, rfl⟩, rfl⟩, hke⟩⟩
          refine Protocol.Obeys.bind _ (emitDelete_obeys ⟨hst, rfl⟩ hke hm) ?_
          rintro ⟨outcome, err⟩ _ rfl
          simp only
          split_ifs
          · exact hv'
          · exact ih hts _ hv' hi
          · exact ih hts _ hv' hi

theorem collectZombies_obeys (n : Nat) {seeded : List GcTarget} (ht : AllListed states seeded)
    (hv : h.Vouched ref states) :
    (custody cfg).Obeys (collectZombies cfg ref n seeded) h (fun _ h' => h'.Vouched ref states) := by
  refine Protocol.Obeys.bind _ (Q := fun _ h' => h'.Vouched ref states)
    (retry_obeys (I := fun _ h => h.Vouched ref states) ?_ (fun _ _ _ hq => ⟨hq, hq⟩) n hv)
    (fun _ _ hq => hq)
  intro _ h hv
  simp only [gcPass, Program.perform_bind, Protocol.obeys_op]
  refine ⟨trivial, fun writer _ => ?_⟩
  cases writer with
  | none => exact hv
  | some writer =>
    exact ⟨trivial, fun st hst => sweep_obeys he hst ht [] ⟨⟨hv.free, hv.history⟩, hv.active⟩ rfl⟩

theorem recoverRefusedReincarnations_obeys (n : Nat) (refused : List GcTarget) (hf : h.Free)
    (ha : h.seen.active = some ref) :
    (custody cfg).Obeys (recoverRefusedReincarnations cfg ref n refused) h (fun _ => Hand.Free) := by
  unfold recoverRefusedReincarnations
  split_ifs
  · exact hf
  · refine Protocol.Obeys.bind _ (Q := fun _ h => h.Free ∧ h.seen.active = some ref)
      (retry_obeys (I := fun _ h => h.Free ∧ h.seen.active = some ref) ?_
      (fun _ _ _ hq => ⟨hq, hq⟩) n ⟨hf, ha⟩)
      (fun _ _ hq => hq.1)
    rintro pending h ⟨hf, ha⟩
    refine Protocol.Obeys.bind _ (lastKnownStates_obeys hf) ?_
    rintro (e | states) h' ⟨hf, ha', hk⟩
    · exact ⟨hf, ha'.trans ha⟩
    · have hk := hk states rfl
      simp only [Program.perform_bind, Protocol.obeys_op]
      refine ⟨trivial, fun order _ => ?_⟩
      refine Protocol.Obeys.bind _ (emitCloseOuts_obeys he n (fun _ => closeable_replaced) ⟨hk,
        ha'.trans ha⟩) ?_
      exact fun _ _ hv => ⟨hv.free, hv.active⟩

theorem reconcileHistory_obeys (epochStart n : Nat) {seeded : List GcTarget}
    {priors : List Reincarnation} (ht : AllListed states seeded) (hp : AllReplaced states priors)
    (hk : h.Knows ref states) :
    (custody cfg).Obeys (reconcileHistory cfg ref epochStart n seeded priors) h
    (fun _ => Hand.Free) := by
  refine Protocol.Obeys.bind _ (Q := fun _ h' => h' = h) ?_ ?_
  · split_ifs
    · rfl
    · exact awaitScopeSync_obeys ref n
  · rintro synced _ rfl
    cases synced with
    | false => exact hk.free
    | true =>
      refine Protocol.Obeys.bind _ (scopeWasActive_obeys epochStart n hk) ?_
      rintro ⟨err, wasActive⟩ h ⟨hk, hv⟩
      simp only
      split_ifs with hstop
      · exact hk.free
      · have hv := hv (by simp_all) (by simp_all)
        exact Protocol.Obeys.bind _ (emitCloseOuts_obeys he n hp hv) (fun _ _ hv => hv.free)
      · have hv := hv (by simp_all) (by simp_all)
        refine Protocol.Obeys.bind _ (emitCloseOuts_obeys he n hp hv) (fun _ h hv => ?_)
        refine Protocol.Obeys.bind _ (collectZombies_obeys he n ht hv) (fun _ h hv => ?_)
        exact recoverRefusedReincarnations_obeys he n _ hv.free hv.active

end

theorem warm_obeys (ref : ScopeRef) (epochStart n : Nat) (hf : h.Free) :
    (custody cfg).Obeys (warm cfg ref epochStart n) h (fun _ => Hand.Free) := by
  refine Protocol.Obeys.bind _ (seedScope_obeys ref n hf) ?_
  rintro ⟨err, seeded, priors⟩ h ⟨hf, hk⟩
  simp only
  split_ifs with herr he hempty
  · exact hf
  · exact ⟨trivial, fun _ _ => hf⟩
  · exact ⟨trivial, fun _ _ => hf⟩
  · obtain ⟨states, hk, ht, hp⟩ := hk (by simpa using herr)
    exact ⟨trivial, fun _ _ => reconcileHistory_obeys (by simpa using he) epochStart n ht hp hk⟩

theorem closeScopes_obeys (sink : String) (scopes : List ScopeKey) (hf : h.Free) :
    (custody cfg).Obeys (closeScopes sink scopes) h (fun _ => Hand.Free) := by
  induction scopes with
  | nil => exact hf
  | cons scope scopes ih =>
    simp only [closeScopes, Program.perform_bind, Protocol.obeys_op]
    refine ⟨trivial, fun desired _ => ?_⟩
    cases desired with
    | true => exact ih
    | false =>
      refine ⟨trivial, fun ts _ => ?_⟩
      obtain ⟨owner, seen, phase⟩ := h
      obtain ⟨hn, rfl⟩ := hf
      refine ⟨trivial, fun accepted _ => ?_⟩
      cases accepted with
      | true => exact ih
      | false => exact ⟨hn, rfl⟩

theorem closeOrphanedScopes_obeys (sink : String) (hf : h.Free) :
    (custody cfg).Obeys (closeOrphanedScopes sink) h (fun _ => Hand.Free) := by
  simp only [closeOrphanedScopes, Program.perform_bind, Protocol.obeys_op]
  refine ⟨trivial, fun r _ => ?_⟩
  cases r with
  | noStateReader | notLive => exact hf
  | reader =>
    refine ⟨trivial, fun live _ => ?_⟩
    cases live with
    | false => exact hf
    | true =>
      refine ⟨trivial, fun scopes _ => ?_⟩
      cases scopes with
      | none => exact hf
      | some scopes => exact closeScopes_obeys sink scopes hf

def Hand.Ended : Tid → Option Err → Hand → Prop := fun _ _ h => h.phase.done

theorem machine_safe (cfg : Config) : (machine cfg).Safe (custody cfg) Hand.start Hand.Ended := by
  constructor
  · intro shared t b shared' code hs
    have free : ∀ (_ : Option Err) (h : Hand), h.Free → h.phase.done :=
      fun _ h hf => by rw [hf.2]; trivial
    cases t with
    | worker key =>
      cases b <;>
        simp only [machine, start, Option.ite_none_right_eq_some, Option.some.injEq, Prod.mk.injEq,
          reduceCtorEq] at hs
      rw [← hs.2.2]
      exact process_obeys key
    | warm id =>
      cases b with
      | run => simp [machine, start] at hs
      | warm ref epochStart n =>
        simp only [machine, start, Option.ite_none_right_eq_some, Option.some.injEq, Prod.mk.injEq] at hs
        rw [← hs.2.2]
        exact Protocol.Obeys.bind _ (warm_obeys ref epochStart n ⟨rfl, rfl⟩)
          (fun _ h hf => free none h hf)
    | boot sink =>
      cases b <;>
        simp only [machine, start, Option.ite_none_left_eq_some, Option.some.injEq, Prod.mk.injEq,
          reduceCtorEq] at hs
      rw [← hs.2.2]
      exact (closeOrphanedScopes_obeys sink ⟨rfl, rfl⟩).mono _ free
    | evict ref =>
      cases b <;> simp only [machine, start, Option.some.injEq, Prod.mk.injEq, reduceCtorEq] at hs
      rw [← hs.2]
      exact ⟨trivial, fun _ hst => ⟨trivial, fun _ _ => ⟨⟨ref, rfl, hst, rfl⟩, fun _ _ => trivial⟩⟩⟩
  · intro shared t o i shared' a hx
    cases o <;> try exact trivial
    · cases i <;> simp only [machine, exec, Option.some.injEq, Prod.mk.injEq, reduceCtorEq] at hx
      rw [← hx.2]
      rfl
    · rename_i st k uid
      cases i <;> simp only [machine, exec, Option.some.injEq, Prod.mk.injEq, reduceCtorEq] at hx
      obtain ⟨-, rfl⟩ := hx
      cases hc : (shared.slot st k).reserveDelete uid with
      | mk slot claim =>
        cases claim with
        | claimed e t => exact (Slot.reserveDelete_claimed hc).uid
        | absent | inFlight | uidMismatch => exact trivial

end Kuberecord
